import BoundedC.Storage.Fault

/-!
# Pointer arithmetic

`Pointer.add` moves a pointer by elements of its pointee, `Pointer.difference` counts the elements
between two pointers. Both compute in unbounded integers and refuse a result that 32 bits cannot
hold: an offset never wraps back into range.
-/

namespace BoundedC.Pointer

/-- The pointer `delta` elements behind `p`. -/
def add (p : Pointer) (delta : Int32) : Except MemoryFault Pointer :=
  let offset := p.offset + delta.toInt * p.pointee.stride
  if fitsOffset offset then .ok { p with offset } else .error (.offsetOverflow offset)

/-- The number of elements from `q` to `p`, rounded towards zero. -/
def difference (p q : Pointer) : Except MemoryFault Int32 :=
  if p.buffer = q.buffer then
    let elements := (p.offset - q.offset).tdiv (max p.pointee.stride 1)
    if fitsOffset elements then .ok (Int32.ofInt elements) else .error (.offsetOverflow elements)
  else .error .unrelatedPointers

theorem add_eq_ok_iff {p q : Pointer} {delta : Int32} :
    p.add delta = .ok q ↔
      fitsOffset (p.offset + delta.toInt * p.pointee.stride) = true ∧
        q = { p with offset := p.offset + delta.toInt * p.pointee.stride } := by
  unfold add
  by_cases h : fitsOffset (p.offset + delta.toInt * p.pointee.stride) = true
  · simp [h, eq_comm]
  · simp [h]

end BoundedC.Pointer
