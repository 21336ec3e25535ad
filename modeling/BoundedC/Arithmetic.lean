import BoundedC.RuntimeError
import BoundedC.Storage.Displacement
import BoundedC.Storage.Value

/-!
# Operators on values

Integers have 32 bits and wrap; a `char` is widened first. Division rounds towards zero and refuses a
zero divisor. A pointer can be moved by an integer, subtracted from another, compared with another,
and tested against the integer 0.

* `BinaryOp.apply`, `UnaryOp.apply` : operators that yield a new value;
* `BinaryOp.settled?` : whether the first operand of a logical operator is enough;
* `Value.element` : the place that an index refers to, whichever side the pointer stands on;
* `StepOp.apply` : the value that a step leaves behind.
-/

namespace BoundedC

namespace BinaryOp

/-- What a comparison says of an order; other operators say nothing. -/
def holds? (op : BinaryOp) (order : Ordering) : Option Bool :=
  match op with
  | eq => some order.isEq
  | ne => some order.isNe
  | lt => some order.isLT
  | le => some order.isLE
  | gt => some order.isGT
  | ge => some order.isGE
  | _ => none

/-- What a logical operator yields if its first operand settles it. -/
def settled? (op : BinaryOp) (left : Bool) : Option Bool :=
  match op, left with
  | or, true => some true
  | and, false => some false
  | _, _ => none

/-- The operator on integers. -/
def applyInts (op : BinaryOp) (a b : Int32) : Except RuntimeFault Value :=
  match op with
  | add => .ok (.int (a + b))
  | sub => .ok (.int (a - b))
  | mul => .ok (.int (a * b))
  | div => if b = 0 then .error .divisionByZero else .ok (.int (a / b))
  | mod => if b = 0 then .error .moduloByZero else .ok (.int (a % b))
  | op =>
    match op.holds? (compare a.toInt b.toInt) with
    | some answer => .ok (.ofBool answer)
    | none => .error (.internal (.notArithmetic op))

def ofMemory {α : Type} (f : α → Value) : Except MemoryFault α → Except RuntimeFault Value
  | .ok a => .ok (f a)
  | .error fault => .error (.memory fault)

/-- The operator on any two values. -/
def apply (op : BinaryOp) (left right : Value) : Except RuntimeFault Value :=
  let refused := Except.error (.mismatch (.operands op left.type right.type))
  match left, right with
  | .pointer p, .pointer q =>
    match op with
    | sub => ofMemory .int (p.difference q)
    | op =>
      match op.holds? (p.order q) with
      | some answer => .ok (.ofBool answer)
      | none => refused
  | .pointer p, right =>
    match op, right.int? with
    | add, some n => ofMemory .pointer (p.add n)
    | sub, some n => ofMemory .pointer (p.add (-n))
    | eq, some n => if n = 0 then .ok (.ofBool p.isNull) else refused
    | ne, some n => if n = 0 then .ok (.ofBool !p.isNull) else refused
    | _, _ => refused
  | left, .pointer p =>
    match op, left.int? with
    | add, some n => ofMemory .pointer (p.add n)
    | eq, some n => if n = 0 then .ok (.ofBool p.isNull) else refused
    | ne, some n => if n = 0 then .ok (.ofBool !p.isNull) else refused
    | _, _ => refused
  | left, right =>
    match left.int?, right.int? with
    | some a, some b => op.applyInts a b
    | _, _ => refused

end BinaryOp

def UnaryOp.apply (op : UnaryOp) (v : Value) : Except RuntimeFault Value :=
  match op with
  | not => .ok (.ofBool !v.isTruthy)
  | neg =>
    match v.int? with
    | some n => .ok (.int (-n))
    | none => .error (.mismatch (.negation v.type))

/-- The place of an element: one operand is a pointer, the other counts elements. -/
def Value.element (array index : Value) : Except RuntimeFault Pointer :=
  let moved (p : Pointer) (n : Option Int32) : Except RuntimeFault Pointer :=
    match n with
    | some n => (p.add n).mapError .memory
    | none => .error (.mismatch (.indexOperands array.type index.type))
  match array, index with
  | .pointer p, index => moved p index.int?
  | array, .pointer p => moved p array.int?
  | array, index => .error (.mismatch (.indexOperands array.type index.type))

/-- The value after a step, from the value read at a place of the given type. -/
def StepOp.apply (op : StepOp) (type : CType) (old : Value) : Except RuntimeFault Value :=
  match old with
  | .pointer p =>
    if type.isArray then .error (.mismatch (.stepOperand type))
    else BinaryOp.ofMemory .pointer (p.add op.delta)
  | .int n => .ok (.int (n + op.delta))
  | .char c => .ok (.int (c.toInt32 + op.delta))

end BoundedC
