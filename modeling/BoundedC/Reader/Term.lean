import BoundedC.Reader.Shape

/-!
# Reading expressions

From the loosest to the tightest: assignment, six levels of binary operators (`binaryLevels`),
operators in front of an operand (`leading`), operators behind it (`trailing`), and operands
(`primary`). Each level is a reader built from the level below; `expression` and `unary` tie the knot,
each entry one level of nesting deeper. The recursion is bounded by `budget`, of which one more than
`maxNesting` is enough: before it is used up, nesting is refused.
-/

namespace BoundedC

/-- The binary operators by level, the loosest first. All of them associate to the left. -/
def binaryLevels : List (List (Symbol × BinaryOp)) :=
  [[(.barBar, .or)],
   [(.ampAmp, .and)],
   [(.equalEqual, .eq), (.bangEqual, .ne)],
   [(.less, .lt), (.lessEqual, .le), (.greater, .gt), (.greaterEqual, .ge)],
   [(.plus, .add), (.minus, .sub)],
   [(.star, .mul), (.slash, .div), (.percent, .mod)]]

def operatorOf? (level : List (Symbol × BinaryOp)) : TokenKind → Option BinaryOp
  | .symbol s => level.lookup s
  | _ => none

/-- The assignment that a token stands for: a plain one, or one that applies an operator. -/
def assignmentOf? : TokenKind → Option (Option BinaryOp)
  | .symbol .equal => some none
  | .symbol .plusEqual => some (some .add)
  | .symbol .minusEqual => some (some .sub)
  | .symbol .starEqual => some (some .mul)
  | .symbol .slashEqual => some (some .div)
  | .symbol .percentEqual => some (some .mod)
  | _ => none

def StepOp.symbol : StepOp → Symbol
  | preInc | postInc => .plusPlus
  | preDec | postDec => .minusMinus

def atom? (place : Location) : TokenKind → Option Node
  | .int n => some (.intLiteral place n)
  | .char c => some (.charLiteral place c)
  | .string text => some (.stringLiteral place text.toUTF8.toList)
  | .identifier name => some (.identifier place name)
  | _ => none

def Node.isInitialized : Node → Bool
  | declaration _ _ _ _ (some _) => true
  | _ => false

namespace Reader

/-! ## Binary operators -/

/-- Operators of one level and their right operands behind `left`, with the number of levels
entered so far. An operator is a level of nesting. -/
def chainFrom (level : List (Symbol × BinaryOp)) (operand : Reader Node) :
    Nat → Node → Nat → Reader (Node × Nat)
  | 0, _, _ => outOfBudget
  | bound + 1, left, entered => do
    let token ← peek
    match operatorOf? level token.kind with
    | none => return (left, entered)
    | some op =>
      advance
      descend
      let right ← operand
      chainFrom level operand bound (.binary token.place op left right) (entered + 1)

/-- Operands with operators of one level between them. The levels entered are left at the end. -/
def chain (level : List (Symbol × BinaryOp)) (operand : Reader Node) : Reader Node := do
  let first ← operand
  let (tree, entered) ← chainFrom level operand (maxNesting + 1) first 0
  ascend entered
  return tree

/-- Operands with binary operators of all levels between them. -/
def binary (operand : Reader Node) : Reader Node := binaryLevels.foldr chain operand

/-- An assignment, whose value may be another one, or an expression without assignment. -/
def assignment (value operand : Reader Node) : Reader Node := do
  let target ← binary operand
  let token ← peek
  match assignmentOf? token.kind with
  | none => return target
  | some op? =>
    advance
    unless target.isLvalue do fail .targetNotAssignable target.place
    let source ← value
    return match op? with
      | none => .assign token.place target source
      | some op => .compoundAssign token.place op target source

/-! ## Operators around an operand -/

def stepNode (place : Location) (op : StepOp) (operand : Node) : Reader Node := do
  unless operand.isLvalue do fail (.operandNotAssignable op.symbol) operand.place
  return .step place op operand

def arguments (value : Reader Node) : Reader (List Node) := do
  if ← isNext (.symbol .rightParen) then return [] else commaSeparated value

/-- The operators behind `operand`, with the number of levels entered so far. -/
def trailingFrom (value : Reader Node) : Nat → Node → Nat → Reader (Node × Nat)
  | 0, _, _ => outOfBudget
  | bound + 1, operand, entered => do
    let token ← peek
    match token.kind with
    | .symbol .plusPlus =>
      descend
      advance
      trailingFrom value bound (← stepNode token.place .postInc operand) (entered + 1)
    | .symbol .minusMinus =>
      descend
      advance
      trailingFrom value bound (← stepNode token.place .postDec operand) (entered + 1)
    | .symbol .leftBracket =>
      descend
      advance
      let position ← value
      expect .rightBracket "after array index"
      trailingFrom value bound (.index token.place operand position) (entered + 1)
    | .symbol .leftParen =>
      descend
      match operand with
      | .identifier place name =>
        advance
        let args ← arguments value
        expect .rightParen "after function arguments"
        trailingFrom value bound (.call place name args) (entered + 1)
      | _ => fail .callOnNonIdentifier token.place
    | _ => return (operand, entered)

/-- The elements of an array literal; a comma may follow the last one. -/
def elementsUpTo (value : Reader Node) : Nat → Reader (List Node)
  | 0 => outOfBudget
  | bound + 1 => do
    if ← isNext (.symbol .rightBrace) then return []
    let element ← value
    if ← accept .comma then return element :: (← elementsUpTo value bound) else return [element]

/-- An array literal behind its opening brace, which stands at `place`. -/
def arrayLiteral (value : Reader Node) (place : Location) : Reader Node := do
  let elements ← elementsUpTo value (← itemBound)
  expect .rightBrace "after array literal"
  if elements.isEmpty then fail .emptyArrayLiteral place
  return .arrayLiteral place elements

/-- What stands behind an opening parenthesis: a declaration that stores a value, or an
expression, which leaves no trace of its parentheses. -/
def parenthesized (value : Reader Node) : Reader Node := do
  if ← typeIsNext then
    let declaration ← declarator value
    unless declaration.isInitialized do fail .declarationWithoutValue declaration.place
    expect .rightParen "after declaration"
    return declaration
  else
    let node ← value
    expect .rightParen "after expression"
    return node

/-- A literal, an identifier, an array literal or something in parentheses. -/
def primary (value : Reader Node) : Reader Node := do
  let token ← peek
  match atom? token.place token.kind with
  | some node =>
    advance
    return node
  | none =>
    if ← accept .leftBrace then arrayLiteral value token.place
    else if ← accept .leftParen then parenthesized value
    else fail (.missingExpression token.kind) token.place

/-- A primary expression and the operators behind it. -/
def trailing (value : Reader Node) : Reader Node := do
  let operand ← primary value
  let (node, entered) ← trailingFrom value (maxNesting + 1) operand 0
  ascend entered
  return node

/-- An operand with the operators in front of it. A plus sign leaves no trace. -/
def leading (value operand : Reader Node) : Reader Node := do
  let token ← peek
  match token.kind with
  | .symbol .bang =>
    advance
    return .unary token.place .not (← operand)
  | .symbol .minus =>
    advance
    return .unary token.place .neg (← operand)
  | .symbol .plus =>
    advance
    operand
  | .symbol .amp =>
    advance
    let node ← operand
    unless node.isLvalue do fail .noAddress node.place
    return .addressOf token.place node
  | .symbol .star =>
    advance
    return .deref token.place (← operand)
  | .symbol .plusPlus =>
    advance
    stepNode token.place .preInc (← operand)
  | .symbol .minusMinus =>
    advance
    stepNode token.place .preDec (← operand)
  | _ => trailing value

/-! ## The recursion -/

mutual

/-- An expression, `budget` levels of recursion deep at most. -/
def expression : Nat → Reader Node
  | 0, s => outOfBudget s
  | budget + 1, s => nested (assignment (expression budget) (unary budget)) s

/-- An operand with the operators around it, `budget` levels of recursion deep at most. -/
def unary : Nat → Reader Node
  | 0, s => outOfBudget s
  | budget + 1, s => nested (leading (expression budget) (unary budget)) s

end

end Reader

end BoundedC
