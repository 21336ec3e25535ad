import BoundedC.CType

/-!
# Pointers

A pointer names a buffer, a byte offset into it and the type of what it points to; it is never an
address of the host. `Pointer.order` compares the buffers first and then the offsets.
-/

namespace BoundedC

/-- The number of a buffer. Number 0 is the null buffer, which has no bytes. -/
structure BufferId where
  index : UInt32
  deriving DecidableEq, Repr

namespace BufferId

def null : BufferId := ⟨0⟩

def describe (id : BufferId) : String := s!"#{id.index.toNat}"

theorem index_pos {id : BufferId} (h : id ≠ null) : 0 < id.index.toNat := by
  obtain ⟨n⟩ := id
  have hn : n ≠ 0 := fun h' => h (by simp [h', null])
  exact Nat.pos_of_ne_zero fun h' => hn (UInt32.toNat_inj.1 h')

end BufferId

/-- A pointer. The offset is in bytes and may lie outside the buffer; only an access there fails. -/
structure Pointer where
  buffer : BufferId
  offset : Int
  pointee : CType
  deriving DecidableEq, Repr

/-- Whether a stored pointer can hold the offset: it has 32 bits for it. -/
def fitsOffset (n : Int) : Bool := decide (-0x80000000 ≤ n ∧ n < 0x80000000)

namespace Pointer

def null (pointee : CType) : Pointer := ⟨.null, 0, pointee⟩

def isNull (p : Pointer) : Bool := p.buffer = .null && p.offset = 0

/-- The same place, seen as holding another type. -/
def retyped (p : Pointer) (pointee : CType) : Pointer := { p with pointee }

/-- The order of pointers: by buffer, then by offset. -/
def order (p q : Pointer) : Ordering :=
  (compare p.buffer.index.toNat q.buffer.index.toNat).then (compare p.offset q.offset)

end Pointer

end BoundedC
