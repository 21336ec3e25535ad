import BoundedC.Proofs.Height

/-!
# Readers that call each other

The recursion of reading, call by call. A `Procedure` is a reader that others call, with what it is
given, and `Procedure.body` says what it does in terms of what it calls. `perform` carries it out, with
a budget for the number of calls inside each other. Every call costs one: also entering a level of
nesting, computing the size of a type and counting the elements of an initializer, each of which calls
itself. Loops are no calls, and the readers of single tokens call nobody.

* `Procedure.reader` : what a procedure comes to, as one of the readers without this budget;
* `Program.ofTokensWithin` : the program that a list of tokens spells, read within a budget of calls.
-/

namespace BoundedC

/-- The readers that enter a level of nesting. -/
inductive Level where
  | statement
  | value
  | operand

/-- The readers that call each other, and the functions that they call and that call themselves. -/
inductive Procedure where
  | program
  | function
  | parameters
  | typeSpecifier
  | dimensions
  | arrayType (base : CType) (place : Location) (dims : List Dimension)
  | arrayOf (element : CType) (length : Nat) (place : Location)
  | inferredLength (element : CType) (init : Option Node) (place : Location)
  | size (t : CType)
  | scalarCount (t : CType)
  | leafCount (elements : List Node)
  | variableDeclaration
  | declarator
  | statements
  /-- a level of nesting is entered by three calls, the last of which is inside it -/
  | enter (level : Level)
  | nested (level : Level)
  | inside (level : Level)
  | returnStatement (place : Location)
  | ifStatement (place : Location)
  | whileStatement (place : Location)
  | forStatement (place : Location)
  | loopBody
  | expression
  /-- operators of several levels, of which each takes two calls: for the level, and for its loop -/
  | binary (levels : List (List (Symbol × BinaryOp)))
  | operators (level : List (Symbol × BinaryOp)) (levels : List (List (Symbol × BinaryOp)))
  | trailing
  | primary
  | arguments
  | arrayLiteral (place : Location)

abbrev Procedure.Result : Procedure → Type
  | program | statements | arguments => List Node
  | parameters => List Param
  | typeSpecifier => CType × Bool
  | dimensions => List Dimension
  | arrayType .. | arrayOf .. => CType
  | inferredLength .. | scalarCount _ | leafCount _ => Nat
  | size _ => Option Nat
  | _ => Node

namespace Reader

/-! ## Loops -/

/-- The array type with the given dimensions; `arrayOf` makes an array. -/
def arrayTypeWith (arrayOf : CType → Nat → Location → Reader CType) (base : CType) (place : Location) :
    List Dimension → Reader CType
  | [] => pure base
  | dimension :: inner => do
    let element ← arrayTypeWith arrayOf base place inner
    match dimension with
    | some length => arrayOf element length place
    | none => fail .innerDimensionOmitted place

/-- The number of scalars in an element; `count` counts those of a list. -/
def scalarsWith (count : List Node → Reader Nat) : Node → Reader Nat
  | .arrayLiteral _ elements => count elements
  | _ => pure 1

/-- The number of scalars in the elements of a list. -/
def countWith (count : List Node → Reader Nat) : List Node → Reader Nat
  | [] => pure 0
  | element :: elements => do
    let first ← scalarsWith count element
    return first + (← countWith count elements)

/-- The operators behind an operand; `arguments` reads those of a call. -/
def trailingWith (value : Reader Node) (arguments : Reader (List Node)) :
    Nat → Node → Nat → Reader (Node × Nat)
  | 0, _, _ => outOfBudget
  | bound + 1, operand, entered => do
    let token ← peek
    match token.kind with
    | .symbol .plusPlus =>
      descend
      advance
      trailingWith value arguments bound (← stepNode token.place .postInc operand) (entered + 1)
    | .symbol .minusMinus =>
      descend
      advance
      trailingWith value arguments bound (← stepNode token.place .postDec operand) (entered + 1)
    | .symbol .leftBracket =>
      descend
      advance
      let position ← value
      expect .rightBracket "after array index"
      trailingWith value arguments bound (.index token.place operand position) (entered + 1)
    | .symbol .leftParen =>
      descend
      match operand with
      | .identifier place name =>
        advance
        let args ← arguments
        expect .rightParen "after function arguments"
        trailingWith value arguments bound (.call place name args) (entered + 1)
      | _ => fail .callOnNonIdentifier token.place
    | _ => return (operand, entered)

theorem trailingFrom_eq (value : Reader Node) (bound : Nat) (operand : Node) (entered : Nat) :
    trailingFrom value bound operand entered =
      trailingWith value (Reader.arguments value) bound operand entered := by
  induction bound generalizing operand entered with
  | zero => rfl
  | succ bound ih =>
    unfold trailingFrom
    simp only [ih]
    rfl

/-- Functions up to the end of the text; `function` reads one. -/
def functionsWith (function : Reader Node) : Nat → Reader (List Node)
  | 0 => outOfBudget
  | bound + 1 => do
    if ← isNext .endOfFile then return []
    let first ← function
    return first :: (← functionsWith function bound)

end Reader

open Reader

/-! ## Procedures -/

section

variable (call : (p : Procedure) → Reader p.Result)

/-- The type of a parameter: an array parameter is a pointer to its element type. -/
def Procedure.parameterType (base : CType) (place : Location) : List Dimension → Reader CType
  | [] => pure base
  | _ :: inner => CType.pointer <$> call (.arrayType base place inner)

def Procedure.parameter : Reader Param := do
  let place := (← peek).place
  let (base, isConst) ← call .typeSpecifier
  let (name, _) ← identifier
  let type ← parameterType call base place (← call .dimensions)
  if type = .void then fail (.voidParameter name) place
  return { name, type, isConst }

def Procedure.variableType (base : CType) (place : Location) (init : Option Node) :
    List Dimension → Reader CType
  | [] => pure base
  | outer :: inner => do
    let element ← call (.arrayType base place inner)
    let length ← match outer with
      | some length => pure length
      | none => call (.inferredLength element init place)
    call (.arrayOf element length place)

/-- The number of elements that an initializer gives an array, if it has any. -/
def Procedure.countedLength (element : CType) (place : Location) : Option Node → Reader Nat
  | some (.stringLiteral _ bytes) =>
    if element = .char then pure (bytes.length + 1) else fail .lengthNotInferred place
  | some (.arrayLiteral _ elements) =>
    if elements.all Node.isArrayLiteral then pure elements.length
    else do
      let scalars ← call (.scalarCount element)
      let leaves ← call (.leafCount elements)
      return (leaves + scalars - 1) / scalars
  | _ => fail .lengthNotInferred place

def Procedure.forInit : Reader (Option Node) := do
  if ← accept .semicolon then return none
  if ← typeIsNext then return some (← call .variableDeclaration)
  let init ← call .expression
  expect .semicolon "after for init"
  return some init

/-- What a procedure does, in terms of what it calls. -/
def Procedure.body : (p : Procedure) → Reader p.Result
  | .program => do
    functionsWith (call .function) ((← itemBound) + 1)
  | .function => do
    let (returnType, _) ← call .typeSpecifier
    let (name, place) ← identifier
    define name place
    expect .leftParen "after function name"
    let params ← call .parameters
    expect .rightParen "after parameters"
    expect .leftBrace "before function body"
    let body ← call .statements
    expect .rightBrace "after function body"
    return .function place name returnType params body
  | .parameters => do
    if ← isNext (.symbol .rightParen) then return []
    if ← voidIsAlone then
      advance
      return []
    commaSeparated (parameter call)
  | .typeSpecifier => Reader.typeSpecifier
  | .dimensions => Reader.dimensions
  | .arrayType base place dims =>
    arrayTypeWith (fun element length place => call (.arrayOf element length place)) base place dims
  | .arrayOf element length place => do
    match ← call (.size (.array element length)) with
    | some bytes =>
      if bytes ≤ maxObjectBytes then return .array element length
      else fail (.arrayTooLarge (.array element length)) place
    | none => fail (.arrayTooLarge (.array element length)) place
  | .inferredLength element init place => do
    let length ← countedLength call element place init
    if length = 0 then fail .sizeNotPositive place
    return length
  | .size (.array element length) => do
    return (← call (.size element)).bind fun bytes =>
      if bytes * length ≤ maxSize then some (bytes * length) else none
  | .size t => return t.size?
  | .scalarCount (.array element length) => do
    return length * (← call (.scalarCount element))
  | .scalarCount _ => return 1
  | .leafCount elements => countWith (fun elements => call (.leafCount elements)) elements
  | .variableDeclaration => do
    let declaration ← call .declarator
    expect .semicolon "after variable declaration"
    return declaration
  | .declarator => do
    let (base, isConst) ← call .typeSpecifier
    let (name, place) ← identifier
    let dims ← call .dimensions
    let init ← do
      if ← accept .equal then some <$> call .expression else pure none
    let type ← variableType call base place init dims
    if type = .void then fail (.voidVariable name) place
    return .declaration place name type isConst init
  | .statements => Reader.statements (call (.enter .statement))
  | .enter level => call (.nested level)
  | .nested level => Reader.nested (call (.inside level))
  | .inside .statement => do
    let token ← peek
    match token.kind with
    | .keyword .returnWord =>
      advance
      call (.returnStatement token.place)
    | .keyword .ifWord =>
      advance
      call (.ifStatement token.place)
    | .keyword .whileWord =>
      advance
      call (.whileStatement token.place)
    | .keyword .forWord =>
      advance
      call (.forStatement token.place)
    | .keyword .breakWord =>
      advance
      jump .breakWord token.place (.breakLoop token.place)
    | .keyword .continueWord =>
      advance
      jump .continueWord token.place (.continueLoop token.place)
    | .symbol .semicolon =>
      advance
      return .block token.place []
    | .symbol .leftBrace =>
      advance
      let body ← call .statements
      expect .rightBrace "after block"
      return .block token.place body
    | kind =>
      if startsType kind then call .variableDeclaration
      else expressionStatement (call .expression) token.place
  | .inside .value => do
    let target ← call (.binary binaryLevels)
    let token ← peek
    match assignmentOf? token.kind with
    | none => return target
    | some op? =>
      advance
      unless target.isLvalue do fail .targetNotAssignable target.place
      let source ← call (.enter .value)
      return match op? with
        | none => .assign token.place target source
        | some op => .compoundAssign token.place op target source
  | .inside .operand => do
    let token ← peek
    match token.kind with
    | .symbol .bang =>
      advance
      return .unary token.place .not (← call (.enter .operand))
    | .symbol .minus =>
      advance
      return .unary token.place .neg (← call (.enter .operand))
    | .symbol .plus =>
      advance
      call (.enter .operand)
    | .symbol .amp =>
      advance
      let node ← call (.enter .operand)
      unless node.isLvalue do fail .noAddress node.place
      return .addressOf token.place node
    | .symbol .star =>
      advance
      return .deref token.place (← call (.enter .operand))
    | .symbol .plusPlus =>
      advance
      stepNode token.place .preInc (← call (.enter .operand))
    | .symbol .minusMinus =>
      advance
      stepNode token.place .preDec (← call (.enter .operand))
    | _ => call .trailing
  | .returnStatement place => Reader.returnStatement (call .expression) place
  | .ifStatement place => do
    expect .leftParen "after 'if'"
    let condition ← call .expression
    expect .rightParen "after if condition"
    let thenBranch ← call (.enter .statement)
    let elseBranch ← do
      if ← acceptWord .elseWord then some <$> call (.enter .statement) else pure none
    return .ifElse place condition thenBranch elseBranch
  | .whileStatement place => do
    expect .leftParen "after 'while'"
    let condition ← call .expression
    expect .rightParen "after while condition"
    return .whileLoop place condition (← call .loopBody)
  | .forStatement place => do
    expect .leftParen "after 'for'"
    let init ← forInit call
    let condition ← valueUnless (call .expression) .semicolon
    expect .semicolon "after for condition"
    let increment ← valueUnless (call .expression) .rightParen
    expect .rightParen "after for clauses"
    return .forLoop place init condition increment (← call .loopBody)
  | .loopBody => Reader.loopBody (call (.enter .statement))
  | .expression => call (.enter .value)
  | .binary [] => call (.enter .operand)
  | .binary (level :: levels) => call (.operators level levels)
  | .operators level levels => chain level (call (.binary levels))
  | .trailing => do
    let operand ← call .primary
    let (node, entered) ← trailingWith (call .expression) (call .arguments) (maxNesting + 1) operand 0
    ascend entered
    return node
  | .primary => do
    let token ← peek
    match atom? token.place token.kind with
    | some node =>
      advance
      return node
    | none =>
      if ← accept .leftBrace then call (.arrayLiteral token.place)
      else if ← accept .leftParen then
        if ← typeIsNext then
          let declaration ← call .declarator
          unless declaration.isInitialized do fail .declarationWithoutValue declaration.place
          expect .rightParen "after declaration"
          return declaration
        else
          let node ← call .expression
          expect .rightParen "after expression"
          return node
      else fail (.missingExpression token.kind) token.place
  | .arguments => Reader.arguments (call .expression)
  | .arrayLiteral place => Reader.arrayLiteral (call .expression) place

end

/-- A procedure carried out with so many calls inside each other at most, itself included. -/
def perform : Nat → (p : Procedure) → Reader p.Result
  | 0, _ => outOfBudget
  | budget + 1, p => p.body (perform budget)

/-- The reader that a procedure comes to, where `budget` bounds the levels of nesting. -/
def Procedure.reader (budget : Nat) : (p : Procedure) → Reader p.Result
  | .program => do functionsUpTo ((← itemBound) + 1)
  | .function => functionDefinition
  | .parameters => Reader.parameters
  | .typeSpecifier => Reader.typeSpecifier
  | .dimensions => Reader.dimensions
  | .arrayType base place dims => Reader.arrayType base place dims
  | .arrayOf element length place => Reader.arrayOf element length place
  | .inferredLength element init place => Reader.inferredLength element init place
  | .size t => return t.size?
  | .scalarCount t => return t.scalarCount
  | .leafCount elements => return (Node.leavesOf elements).length
  | .variableDeclaration => Reader.variableDeclaration (Reader.expression budget)
  | .declarator => Reader.declarator (Reader.expression budget)
  | .statements => Reader.statements (Reader.statement budget)
  | .enter .statement | .nested .statement => Reader.statement budget
  | .enter .value | .nested .value => Reader.expression budget
  | .enter .operand | .nested .operand => Reader.unary budget
  | .inside .statement => anyStatement (Reader.statement budget) (Reader.expression budget)
  | .inside .value => assignment (Reader.expression budget) (Reader.unary budget)
  | .inside .operand => leading (Reader.expression budget) (Reader.unary budget)
  | .returnStatement place => Reader.returnStatement (Reader.expression budget) place
  | .ifStatement place =>
    Reader.ifStatement (Reader.statement budget) (Reader.expression budget) place
  | .whileStatement place =>
    Reader.whileStatement (Reader.statement budget) (Reader.expression budget) place
  | .forStatement place =>
    Reader.forStatement (Reader.statement budget) (Reader.expression budget) place
  | .loopBody => Reader.loopBody (Reader.statement budget)
  | .expression => Reader.expression budget
  | .binary levels => levels.foldr chain (Reader.unary budget)
  | .operators level levels => chain level (levels.foldr chain (Reader.unary budget))
  | .trailing => Reader.trailing (Reader.expression budget)
  | .primary => Reader.primary (Reader.expression budget)
  | .arguments => Reader.arguments (Reader.expression budget)
  | .arrayLiteral place => Reader.arrayLiteral (Reader.expression budget) place

/-- The program that a list of tokens spells, read with so many calls inside each other at most. -/
def Program.ofTokensWithin (budget : Nat) (tokens : List Token) : Except ParseError Program := do
  let (nodes, _) ← (perform budget .program).run (.ofTokens tokens)
  return ⟨nodes⟩

end BoundedC
