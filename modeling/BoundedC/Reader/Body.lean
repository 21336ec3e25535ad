import BoundedC.Reader.Term

/-!
# Reading statements, functions and programs

`statement` reads one statement, again one level of nesting deeper on each entry; `functionDefinition`
reads a function, whose name must be new; `Program.ofTokens` reads function definitions up to the end
of the text.
-/

namespace BoundedC.Reader

/-- Statements up to a closing brace or the end of the text. -/
def statementsUpTo (statement : Reader Node) : Nat → Reader (List Node)
  | 0 => outOfBudget
  | bound + 1 => do
    let token ← peek
    if token.kind = .symbol .rightBrace || token.kind = .endOfFile then return []
    let first ← statement
    return first :: (← statementsUpTo statement bound)

def statements (statement : Reader Node) : Reader (List Node) := do
  statementsUpTo statement (← itemBound)

/-- An expression, unless the given symbol is next. -/
def valueUnless (value : Reader Node) (s : Symbol) : Reader (Option Node) := do
  if ← isNext (.symbol s) then return none else some <$> value

def loopBody (statement : Reader Node) : Reader Node := do
  modify fun s => { s with loops := s.loops + 1 }
  let body ← statement
  modify fun s => { s with loops := s.loops - 1 }
  return body

/-- `break` or `continue`, behind the keyword. -/
def jump (word : Keyword) (place : Location) (node : Node) : Reader Node := do
  if (← get).loops = 0 then fail (.outsideLoop word) place
  expect .semicolon s!"after '{word.spelling}'"
  return node

def returnStatement (value : Reader Node) (place : Location) : Reader Node := do
  let result ← valueUnless value .semicolon
  expect .semicolon "after return"
  return .returnFrom place result

/-- `if`, behind the keyword. An `else` belongs to the nearest `if`. -/
def ifStatement (statement value : Reader Node) (place : Location) : Reader Node := do
  expect .leftParen "after 'if'"
  let condition ← value
  expect .rightParen "after if condition"
  let thenBranch ← statement
  let elseBranch ← do
    if ← acceptWord .elseWord then some <$> statement else pure none
  return .ifElse place condition thenBranch elseBranch

def whileStatement (statement value : Reader Node) (place : Location) : Reader Node := do
  expect .leftParen "after 'while'"
  let condition ← value
  expect .rightParen "after while condition"
  return .whileLoop place condition (← loopBody statement)

/-- The first clause of `for`, with its semicolon. -/
def forInit (value : Reader Node) : Reader (Option Node) := do
  if ← accept .semicolon then return none
  if ← typeIsNext then return some (← variableDeclaration value)
  let init ← value
  expect .semicolon "after for init"
  return some init

def forStatement (statement value : Reader Node) (place : Location) : Reader Node := do
  expect .leftParen "after 'for'"
  let init ← forInit value
  let condition ← valueUnless value .semicolon
  expect .semicolon "after for condition"
  let increment ← valueUnless value .rightParen
  expect .rightParen "after for clauses"
  return .forLoop place init condition increment (← loopBody statement)

/-- The statements between braces, behind the opening one. -/
def blockStatement (statement : Reader Node) (place : Location) : Reader Node := do
  let body ← statements statement
  expect .rightBrace "after block"
  return .block place body

def expressionStatement (value : Reader Node) (place : Location) : Reader Node := do
  let node ← value
  expect .semicolon "after expression"
  return .expression place node

/-- A statement, by its first token. -/
def anyStatement (statement value : Reader Node) : Reader Node := do
  let token ← peek
  match token.kind with
  | .keyword .returnWord =>
    advance
    returnStatement value token.place
  | .keyword .ifWord =>
    advance
    ifStatement statement value token.place
  | .keyword .whileWord =>
    advance
    whileStatement statement value token.place
  | .keyword .forWord =>
    advance
    forStatement statement value token.place
  | .keyword .breakWord =>
    advance
    jump .breakWord token.place (.breakLoop token.place)
  | .keyword .continueWord =>
    advance
    jump .continueWord token.place (.continueLoop token.place)
  | .symbol .semicolon =>
    advance
    return .block token.place []
  | .symbol .leftBrace =>
    advance
    blockStatement statement token.place
  | kind =>
    if startsType kind then variableDeclaration value
    else expressionStatement value token.place

/-- A statement, `budget` levels of recursion deep at most. -/
def statement : Nat → Reader Node
  | 0, s => outOfBudget s
  | budget + 1, s => nested (anyStatement (statement budget) (expression budget)) s

/-- Note the name of a function, which must be new. -/
def define (name : String) (place : Location) : Reader Unit := do
  if name ∈ (← get).defined then fail (.duplicateFunction name) place
  modify fun s => { s with defined := name :: s.defined }

def functionDefinition : Reader Node := do
  let (returnType, _) ← typeSpecifier
  let (name, place) ← identifier
  define name place
  expect .leftParen "after function name"
  let params ← parameters
  expect .rightParen "after parameters"
  expect .leftBrace "before function body"
  let body ← statements (statement (maxNesting + 1))
  expect .rightBrace "after function body"
  return .function place name returnType params body

/-- At most `bound` functions, up to the end of the text. -/
def functionsUpTo : Nat → Reader (List Node)
  | 0 => outOfBudget
  | bound + 1 => do
    if ← isNext .endOfFile then return []
    let first ← functionDefinition
    return first :: (← functionsUpTo bound)

end BoundedC.Reader

namespace BoundedC

/-- The program that a list of tokens spells, the last of which is the end of the text. -/
def Program.ofTokens (tokens : List Token) : Except ParseError Program := do
  let (nodes, _) ← (Reader.functionsUpTo (tokens.length + 1)).run (.ofTokens tokens)
  return ⟨nodes⟩

end BoundedC
