import BoundedC.Initializer
import BoundedC.Literal

/-!
# Declarations of variables

* `Declaration.operands` : the expressions whose values the initializer needs;
* `Declaration.define` : the new variable, initialized with these values.

The variable is bound before it is initialized, so that its buffer ends with its scope even if the
initializer fails.
-/

namespace BoundedC

structure Declaration where
  place : Location
  name : String
  type : CType
  isConst : Bool
  init : Option Node

namespace Declaration

/-- The expressions to evaluate before the variable is created: the elements of a list, nothing for
a string that fills an array, otherwise the initializer itself. -/
def operands (d : Declaration) : List Node :=
  match d.type, d.init with
  | _, none => []
  | .array .., some (.stringLiteral ..) => []
  | .array .., some (.arrayLiteral _ elements) => Node.leavesOf elements
  | .pointer _, some (.arrayLiteral _ elements) => Node.leavesOf elements
  | _, some init => [init]

open Effect

/-- Give a new variable its first value. Storage that no initializer reaches stays zero. -/
def fill (d : Declaration) (b : Binding) (values : List Value) : Effect Unit :=
  let refuse (m : Mismatch) : Effect Unit := fail d.place (.mismatch m)
  match d.type, d.init with
  | _, none => pure ()
  | .array element length, some (.stringLiteral _ bytes) =>
    if element = .char ∧ bytes.length ≤ length then onMemory d.place (·.write b.buffer 0 bytes)
    else refuse (.stringInitializer d.type bytes.length)
  | .array .., some (.arrayLiteral site elements) =>
    match (Node.arrayLiteral site elements).slots 0 d.type with
    | .ok slots => storeSlots d.place b.buffer d.type.scalar (values.zip slots)
    | .error (.mismatch m) => refuse m
    | .error .divisionByZero => breakOff
  | .array .., some other => refuse (.listExpected d.type other.initializerKind)
  | .pointer pointee, some (.arrayLiteral site _) =>
    if pointee = .void ∨ pointee.isArray then refuse (.untypedList d.type)
    else do
      let id ← filledLiteral site pointee values
      discard <| store d.place b.pointer (.pointer ⟨id, 0, pointee⟩)
  | _, some _ =>
    match values with
    | [v] => discard <| store d.place b.pointer v
    | _ => failInternal d.place .operandUnderflow

/-- Create the variable. A pointer is never read-only itself. -/
def define (d : Declaration) (values : List Value) : Effect Binding := do
  if d.type = .void then fail d.place (.mismatch (.voidVariable d.name))
  let buffer ← allocate d.place d.type.size .scoped
  let b : Binding := ⟨buffer, d.type, d.isConst && !d.type.isPointer⟩
  modifyCurrent d.place (·.declare d.name b)
  d.fill b values
  return b

end Declaration

end BoundedC
