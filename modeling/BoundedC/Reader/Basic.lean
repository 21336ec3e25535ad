import BoundedC.Program
import BoundedC.Token

/-!
# Reading a list of tokens

`Reader α` reads a value from the front of a list of tokens, or stops with a `ParseError`. Besides the
tokens it carries the number of enclosing loops, the names of the functions defined so far and the
current depth of nesting.

* `nested` reads one level deeper; a level is refused beyond `maxNesting`;
* `accept` takes a symbol if it is next, `expect` stops if it is not;
* `outOfBudget` is what a reader answers whose bound on recursion or repetition is used up. The
  bounds are chosen so that no list of tokens uses one up.
-/

namespace BoundedC

/-- The greatest depth of statements, expressions, pointer levels and array dimensions. Each operator
of a chain counts as a level. -/
def maxNesting : Nat := 256

/-- What is wrong with a list of tokens that is not a program. -/
inductive ParseFault where
  | tooDeep
  | missingSymbol (symbol : Symbol) (context : String) (found : TokenKind)
  | missingIdentifier (found : TokenKind)
  | missingType (found : TokenKind)
  | missingExpression (found : TokenKind)
  | duplicateFunction (name : String)
  | voidParameter (name : String)
  | voidVariable (name : String)
  | tooManyPointerLevels
  | tooManyDimensions
  | sizeNotPositive
  | sizeNotConstant
  | innerDimensionOmitted
  | arrayTooLarge (type : CType)
  | lengthNotInferred
  | outsideLoop (word : Keyword)
  | targetNotAssignable
  | operandNotAssignable (symbol : Symbol)
  | noAddress
  | callOnNonIdentifier
  | emptyArrayLiteral
  | declarationWithoutValue
  | outOfBudget
  deriving DecidableEq

structure ParseError where
  fault : ParseFault
  place : Location
  deriving DecidableEq

def ParseFault.message : ParseFault → String
  | tooDeep => s!"Nesting is deeper than {maxNesting} levels"
  | missingSymbol s context found =>
    s!"Expected '{s.spelling}' {context}, found {found.describe}"
  | missingIdentifier found => s!"Expected identifier, found {found.describe}"
  | missingType found => s!"Expected type, found {found.describe}"
  | missingExpression found => s!"Expected expression, found {found.describe}"
  | duplicateFunction name => s!"Function '{name}' is defined more than once"
  | voidParameter name => s!"Parameter '{name}' cannot have type void"
  | voidVariable name => s!"Variable '{name}' cannot have type void"
  | tooManyPointerLevels => "Too many levels of pointer indirection"
  | tooManyDimensions => "Too many array dimensions"
  | sizeNotPositive => "Array size must be positive"
  | sizeNotConstant => "Array size must be a constant integer"
  | innerDimensionOmitted => "Only the first array dimension may be omitted"
  | arrayTooLarge t => s!"Array type {t.describe} is too large"
  | lengthNotInferred => "Array size cannot be inferred without an initializer list"
  | outsideLoop w => s!"'{w.spelling}' statement outside of a loop"
  | targetNotAssignable => "Left side of assignment is not assignable"
  | operandNotAssignable s => s!"Operand of '{s.spelling}' is not assignable"
  | noAddress => "Cannot take the address of this expression"
  | callOnNonIdentifier => "Function call must be on identifier"
  | emptyArrayLiteral => "Array literal cannot be empty"
  | declarationWithoutValue => "Declaration in expression position requires an initializer"
  | outOfBudget => "The bound on reading is used up"

def ParseError.message (e : ParseError) : String :=
  s!"Parse error at {e.place.describe}: {e.fault.message}"

/-- What a reader has before it and what it keeps in mind. -/
structure ReaderState where
  current : Token
  rest : List Token
  /-- the number of enclosing loops -/
  loops : Nat
  /-- the names of the functions defined so far -/
  defined : List String
  /-- the number of levels entered and not yet left -/
  depth : Nat

/-- A reader of a value from a list of tokens. -/
abbrev Reader := StateT ReaderState (Except ParseError)

/-- The state before a list of tokens, the last of which is the end of the text. -/
def ReaderState.ofTokens : List Token → ReaderState
  | [] => ⟨⟨.endOfFile, .start⟩, [], 0, [], 0⟩
  | token :: tokens => ⟨token, tokens, 0, [], 0⟩

namespace Reader

def fail {α : Type} (fault : ParseFault) (place : Location) : Reader α :=
  throw ⟨fault, place⟩

def peek : Reader Token := return (← get).current

/-- The answer of a reader whose bound is used up. -/
def outOfBudget {α : Type} : Reader α := do fail .outOfBudget (← peek).place

/-- Go behind the next token; the end of the text is never passed. -/
def advance : Reader Unit :=
  modify fun s =>
    if s.current.kind = .endOfFile then s
    else
      match s.rest with
      | [] => s
      | token :: tokens => { s with current := token, rest := tokens }

def descend : Reader Unit := do
  let s ← get
  if s.depth ≥ maxNesting then fail .tooDeep s.current.place
  set { s with depth := s.depth + 1 }

def ascend (levels : Nat) : Reader Unit := modify fun s => { s with depth := s.depth - levels }

def nested {α : Type} (read : Reader α) : Reader α := do
  descend
  let a ← read
  ascend 1
  return a

def isNext (kind : TokenKind) : Reader Bool := return (← peek).kind = kind

def acceptKind (kind : TokenKind) : Reader Bool := do
  if ← isNext kind then
    advance
    return true
  else return false

/-- Take the symbol if it is next. -/
def accept (s : Symbol) : Reader Bool := acceptKind (.symbol s)

def acceptWord (w : Keyword) : Reader Bool := acceptKind (.keyword w)

def expect (s : Symbol) (context : String) : Reader Unit := do
  let token ← peek
  if token.kind = .symbol s then advance
  else fail (.missingSymbol s context token.kind) token.place

def identifier : Reader (String × Location) := do
  let token ← peek
  match token.kind with
  | .identifier name =>
    advance
    return (name, token.place)
  | kind => fail (.missingIdentifier kind) token.place

/-- A bound on the number of items that can be read from here, if each takes a token. -/
def itemBound : Reader Nat := return (← get).rest.length + 1

def commaSeparatedUpTo {α : Type} (item : Reader α) : Nat → Reader (List α)
  | 0 => outOfBudget
  | bound + 1 => do
    let a ← item
    if ← accept .comma then return a :: (← commaSeparatedUpTo item bound) else return [a]

/-- One item or more, with commas between them. -/
def commaSeparated {α : Type} (item : Reader α) : Reader (List α) := do
  commaSeparatedUpTo item (← itemBound)

end Reader

end BoundedC
