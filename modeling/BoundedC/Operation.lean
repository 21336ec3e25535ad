import BoundedC.Arithmetic
import BoundedC.Declaration

/-!
# Operations on values and places

What an expression does once its operands are known. A place is a pointer to storage; reading it,
assigning to it and stepping it are separate operations.

* `Effect.variablePlace`, `pointerPlace`, `elementPlace` : the places that `x`, `*p` and `a[i]` name;
* `Effect.assign`, `compoundAssign`, `step` : changes of the value at a place;
* `Effect.print` : the function that writes output.
-/

namespace BoundedC

/-- What a place is computed for. A read-only variable has no place for writing. -/
inductive Access where
  | read
  | write
  deriving DecidableEq, Repr

namespace Effect

/-! ## Places -/

def variablePlace (place : Location) (name : String) (access : Access) : Effect Pointer := do
  let b ← lookup place name
  if access = .write ∧ b.isConst then fail place (.constModification name)
  return b.pointer

def variableValue (place : Location) (name : String) : Effect Value := do
  let b ← lookup place name
  load place b.pointer

def pointerPlace (place : Location) : Value → Effect Pointer
  | .pointer p => pure p
  | v => fail place (.mismatch (.derefOperand v.type))

def elementPlace (place : Location) (array index : Value) : Effect Pointer :=
  ofExcept place (array.element index)

/-! ## Changes of values -/

/-- Store the result of an assignment. An array cannot be assigned as a whole. -/
def assign (place : Location) (target : Pointer) (v : Value) : Effect Value :=
  if target.pointee.isArray then fail place (.mismatch (.assignToArray target.pointee))
  else store place target v

def compoundAssign (op : BinaryOp) (place : Location) (target : Pointer) (v : Value) :
    Effect Value := do
  let old ← load place target
  let new ← ofExcept place (op.apply old v)
  assign place target new

/-- Step the value at a place, and yield the value before or after. -/
def step (op : StepOp) (place : Location) (target : Pointer) : Effect Value := do
  let old ← load place target
  let new ← ofExcept place (op.apply target.pointee old)
  let stored ← store place target new
  return if op.yieldsOld then old else stored

/-! ## Output -/

/-- Write bytes of a buffer to the output: the first value says where they start, the second how
many they are. -/
def print (place : Location) (start length : Value) : Effect Value := do
  match start.pointer?, length.int? with
  | none, _ => fail place (.mismatch (.printPointer start.type))
  | some _, none => fail place (.mismatch (.printLength length.type))
  | some p, some n =>
    if n < 0 then fail place (.negativeLength n)
    let bytes ← readMemory place (·.read p.buffer p.offset n.toInt.toNat)
    write place bytes
    return .int 0

end Effect

end BoundedC
