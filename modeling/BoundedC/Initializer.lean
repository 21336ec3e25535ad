import BoundedC.Mismatch

/-!
# Array initializers

An array literal gives values to the scalars of an array, which are numbered from 0: `Node.slots`
says which element goes where. Elements that are scalars fill one slot after the other; a nested
list starts at the next whole element of the array it stands in and may not have more values than
that element has room for.

Counts of scalars are kept in 64 bits and start over from 0 past the largest (`wrapCount`). Only an
array of `void`, which takes no bytes, is ever that long; for all others `wrapCount_of_le` applies. The
count of an element may come to 0 that way, or because it is an array of no elements. Where a nested
list is to start at the next whole element, the program then divides by zero (`nextMultiple`).
-/

namespace BoundedC

/-- A count of scalars as it is kept: in 64 bits, like a size. -/
def wrapCount (n : Nat) : Nat := n % (maxSize + 1)

/-- The number of scalars in an object. -/
def CType.slotCount (t : CType) : Nat := wrapCount t.scalarCount

theorem wrapCount_of_le {n : Nat} (h : n ≤ maxSize) : wrapCount n = n :=
  Nat.mod_eq_of_lt (Nat.lt_succ_of_le h)

/-- Starting over in every dimension or once at the end is the same. -/
theorem slotCount_array (t : CType) (n : Nat) :
    (CType.array t n).slotCount = wrapCount (n * t.slotCount) := by
  simp [CType.slotCount, CType.scalarCount, wrapCount]

/-- Why the scalars of a literal are not given slots. -/
inductive SlotFault where
  | mismatch (m : Mismatch)
  | divisionByZero
  deriving DecidableEq, Repr

/-- The least multiple of `width` that is at least `n`, by a division by `width`. -/
def nextMultiple (n width : Nat) : Except SlotFault Nat :=
  if width = 0 then .error .divisionByZero else .ok ((n + width - 1) / width * width)

namespace Node

def initializerKind : Node → InitializerKind
  | stringLiteral .. => .string
  | intLiteral .. | charLiteral .. => .scalar
  | _ => .other

mutual

/-- The slots of the scalar elements of an array literal, in order, for an object of the given type
whose first slot is `base`. -/
def slots (base : Nat) (type : CType) : Node → Except SlotFault (List Nat)
  | arrayLiteral _ elements =>
    match type with
    | .array element length => slotsFrom base (.array element length) element 0 elements
    | type => .error (.mismatch (.listForScalar type))
  | _ => .error (.mismatch (.listForScalar type))

/-- The slots of the elements that are left when `filled` slots of the object are passed. -/
def slotsFrom (base : Nat) (type element : CType) (filled : Nat) :
    List Node → Except SlotFault (List Nat)
  | [] => .ok []
  | node :: rest =>
    let tooMany := Except.error (.mismatch (.tooManyInitializers type.slotCount type))
    if node.isArrayLiteral then do
      let start := wrapCount (← nextMultiple filled element.slotCount)
      let stop := wrapCount (start + element.slotCount)
      if stop > type.slotCount then tooMany
      else
        let inner ← slots (base + start) element node
        let outer ← slotsFrom base type element stop rest
        return inner ++ outer
    else if filled ≥ type.slotCount then tooMany
    else do
      let outer ← slotsFrom base type element (filled + 1) rest
      return (base + filled) :: outer

end

end Node

end BoundedC
