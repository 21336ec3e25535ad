import BoundedC.Reader.Basic

/-!
# Reading the types of declarations

A declaration spells its type in two parts: `typeSpecifier` in front of the name and `dimensions`
behind it. `arrayType` puts them together, outermost dimension first, and refuses arrays whose
elements could not all be addressed. `inferredLength` is the length of an array whose first dimension
is left to its initializer.
-/

namespace BoundedC

/-- A dimension of an array; `none` where the length is omitted. -/
abbrev Dimension := Option Nat

namespace Reader

def startsType : TokenKind → Bool
  | .keyword .int | .keyword .char | .keyword .void | .keyword .const => true
  | _ => false

def typeIsNext : Reader Bool := return startsType (← peek).kind

def baseType? : TokenKind → Option CType
  | .keyword .int => some .int
  | .keyword .char => some .char
  | .keyword .void => some .void
  | _ => none

/-- Stars, of which `left` more are accepted. -/
def pointersTo (t : CType) (left : Nat) : Reader CType := do
  let token ← peek
  if token.kind = .symbol .star then
    advance
    match left with
    | 0 => fail .tooManyPointerLevels token.place
    | left + 1 => pointersTo (.pointer t) left
  else return t

/-- A type in front of a name, and whether the name is read-only. `const` in front of a pointer type
is about the pointee, which is not tracked. -/
def typeSpecifier : Reader (CType × Bool) := do
  let isConst ← acceptWord .const
  let token ← peek
  match baseType? token.kind with
  | none => fail (.missingType token.kind) token.place
  | some base =>
    advance
    let t ← pointersTo base maxNesting
    return (t, isConst && !t.isPointer)

def arrayLength : Reader Nat := do
  let token ← peek
  match token.kind with
  | .int n =>
    if n ≤ 0 then fail .sizeNotPositive token.place
    advance
    expect .rightBracket "after array size"
    return n.toInt.toNat
  | _ => fail .sizeNotConstant token.place

/-- The dimensions behind a name, of which `left` more are accepted. -/
def dimensionsUpTo (left : Nat) : Reader (List Dimension) := do
  let token ← peek
  if token.kind = .symbol .leftBracket then
    advance
    match left with
    | 0 => fail .tooManyDimensions token.place
    | left + 1 =>
      let dimension ← do
        if ← accept .rightBracket then pure none else some <$> arrayLength
      return dimension :: (← dimensionsUpTo left)
  else return []

def dimensions : Reader (List Dimension) := dimensionsUpTo maxNesting

/-- An array of `length` elements, if a stored pointer can address all of it. -/
def arrayOf (element : CType) (length : Nat) (place : Location) : Reader CType :=
  let t := CType.array element length
  match t.size? with
  | some size => if size ≤ maxObjectBytes then pure t else fail (.arrayTooLarge t) place
  | none => fail (.arrayTooLarge t) place

/-- The type with the given dimensions, the outermost first, all of which must have a length. -/
def arrayType (base : CType) (place : Location) : List Dimension → Reader CType
  | [] => pure base
  | dimension :: inner => do
    let element ← arrayType base place inner
    match dimension with
    | some length => arrayOf element length place
    | none => fail .innerDimensionOmitted place

end Reader

/-- The number of elements that an initializer gives an array: of `char`, one for each byte of a
string and one for the NUL; else one for each list if there are lists only, and otherwise as many as
the scalars fill. -/
def inferredLength? (element : CType) : Option Node → Option Nat
  | some (.stringLiteral _ bytes) => if element = .char then some (bytes.length + 1) else none
  | some (.arrayLiteral _ elements) =>
    if elements.all Node.isArrayLiteral then some elements.length
    else
      let scalars := (Node.leavesOf elements).length
      some ((scalars + element.scalarCount - 1) / element.scalarCount)
  | _ => none

namespace Reader

def inferredLength (element : CType) (init : Option Node) (place : Location) : Reader Nat :=
  match inferredLength? element init with
  | none => fail .lengthNotInferred place
  | some 0 => fail .sizeNotPositive place
  | some length => pure length

def variableType (base : CType) (dims : List Dimension) (init : Option Node) (place : Location) :
    Reader CType :=
  match dims with
  | [] => pure base
  | outer :: inner => do
    let element ← arrayType base place inner
    let length ← match outer with
      | some length => pure length
      | none => inferredLength element init place
    arrayOf element length place

/-- The type of a parameter: an array parameter is a pointer to its element type. -/
def parameterType (base : CType) (dims : List Dimension) (place : Location) : Reader CType :=
  match dims with
  | [] => pure base
  | _ :: inner => CType.pointer <$> arrayType base place inner

/-- A declaration without its semicolon; `value` reads its initializer. -/
def declarator (value : Reader Node) : Reader Node := do
  let (base, isConst) ← typeSpecifier
  let (name, place) ← identifier
  let dims ← dimensions
  let init ← do
    if ← accept .equal then some <$> value else pure none
  let type ← variableType base dims init place
  if type = .void then fail (.voidVariable name) place
  return .declaration place name type isConst init

def variableDeclaration (value : Reader Node) : Reader Node := do
  let declaration ← declarator value
  expect .semicolon "after variable declaration"
  return declaration

def parameter : Reader Param := do
  let place := (← peek).place
  let (base, isConst) ← typeSpecifier
  let (name, _) ← identifier
  let type ← parameterType base (← dimensions) place
  if type = .void then fail (.voidParameter name) place
  return { name, type, isConst }

/-- Whether the only thing between the parentheses is `void`. -/
def voidIsAlone : Reader Bool := do
  let s ← get
  return s.current.kind = .keyword .void
    && s.rest.head?.any (·.kind = .symbol .rightParen)

def parameters : Reader (List Param) := do
  if ← isNext (.symbol .rightParen) then return []
  if ← voidIsAlone then
    advance
    return []
  commaSeparated parameter

end Reader

end BoundedC
