import BoundedC.Storage.Value

/-!
# The arena of buffers

All bytes of a program lie in buffers of fixed length. Buffers are numbered from 1 in the order of
their allocation, and a number is never used again, so that a pointer into a released buffer can be
told from any other.

* `allocate`, `allocateWith` : a new buffer, of zeros or of the given bytes;
* `release` : end of a buffer; later accesses find it dangling;
* `read`, `write` : bytes of a live buffer, refused unless all of them lie in it;
* `load`, `store` : the same for a value, through a pointer.

Operations that change the arena return it together with their outcome; a failed one returns it as
it was.
-/

namespace BoundedC

/-- What a buffer was created for. -/
inductive Owner where
  /-- a string or an array literal; lives as long as the call that evaluates it -/
  | literal
  /-- a variable or a parameter; lives as long as its scope -/
  | scoped
  /-- an argument of the program, or the table of them -/
  | argument
  deriving DecidableEq, Repr

structure Buffer where
  bytes : Array UInt8
  owner : Owner
  deriving DecidableEq, Repr

namespace Buffer

/-- The buffer that null pointers refer to: every access to a byte of it is out of bounds. -/
def null : Buffer := ⟨#[], .literal⟩

def size (b : Buffer) : Nat := b.bytes.size

end Buffer

/-- Replace the bytes from `start` on. -/
def setBytes (bytes : Array UInt8) (start : Nat) : List UInt8 → Array UInt8
  | [] => bytes
  | b :: bs => setBytes (bytes.setIfInBounds start b) (start + 1) bs

@[simp] theorem size_setBytes (bytes : Array UInt8) (start : Nat) (bs : List UInt8) :
    (setBytes bytes start bs).size = bytes.size := by
  induction bs generalizing bytes start with
  | nil => rfl
  | cons b bs ih => simp [setBytes, ih]

/-- The buffers of a program: buffer number `i + 1` is the `i`-th slot, and the slot of a released
buffer is empty. -/
structure Arena where
  slots : Array (Option Buffer)
  deriving DecidableEq, Repr

/-- The length from which on an allocation is refused. -/
def allocationLimit : Nat := 0x100000000

namespace Arena

def empty : Arena := ⟨#[]⟩

/-- The slot of a buffer; the null buffer has none. -/
def slot? (id : BufferId) : Option Nat :=
  if id = .null then none else some (id.index.toNat - 1)

/-- The buffer with the given number, if it is live. -/
def get? (a : Arena) (id : BufferId) : Option Buffer :=
  match slot? id with
  | none => some .null
  | some i => a.slots[i]?.join

/-- The buffer with the given number, which must be live. -/
def get (a : Arena) (id : BufferId) : Except MemoryFault Buffer :=
  match a.get? id with
  | some b => .ok b
  | none => .error (.dangling id)

def buffers (a : Arena) : List (BufferId × Buffer) :=
  a.slots.toList.zipIdx.filterMap fun (slot, i) =>
    slot.map fun b => (⟨UInt32.ofNat (i + 1)⟩, b)

def live (a : Arena) : Nat := a.slots.toList.countP Option.isSome

/-! ## Allocation and release -/

/-- A new buffer with the given bytes. -/
def allocateWith (a : Arena) (bytes : Array UInt8) (owner : Owner) :
    Except MemoryFault BufferId × Arena :=
  let index := a.slots.size + 1
  if index < 0xffffffff then
    (.ok ⟨UInt32.ofNat index⟩, ⟨a.slots.push (some ⟨bytes, owner⟩)⟩)
  else (.error .exhausted, a)

/-- A new buffer of zeros. -/
def allocate (a : Arena) (length : Nat) (owner : Owner) : Except MemoryFault BufferId × Arena :=
  if length < allocationLimit then a.allocateWith (Array.replicate length 0) owner
  else (.error (.allocationFailed length), a)

/-- End a buffer. Numbers that are not in use, and the null buffer, are left alone. -/
def release (a : Arena) (id : BufferId) : Arena :=
  match slot? id with
  | none => a
  | some i => ⟨a.slots.setIfInBounds i none⟩

def releaseAll (a : Arena) (ids : List BufferId) : Arena := ids.foldl release a

/-! ## Numbers and slots -/

theorem slot?_of_ne_null {id : BufferId} (h : id ≠ .null) :
    slot? id = some (id.index.toNat - 1) := by
  simp [slot?, h]

/-- Buffers have slots of their own. -/
theorem slot?_inj {id other : BufferId} {i : Nat} (h : slot? id = some i)
    (h' : slot? other = some i) : id = other := by
  unfold slot? at h h'
  split at h
  · simp at h
  · split at h'
    · simp at h'
    · rename_i hid hother
      have := BufferId.index_pos hid
      have := BufferId.index_pos hother
      obtain ⟨n⟩ := id
      obtain ⟨m⟩ := other
      congr 1
      exact UInt32.toNat_inj.1 (by simp_all; omega)

@[simp] theorem get?_null (a : Arena) : a.get? .null = some .null := rfl

theorem get?_release_self (a : Arena) {id : BufferId} (h : id ≠ .null) :
    (a.release id).get? id = none := by
  simp only [get?, release, slot?_of_ne_null h, Array.getElem?_setIfInBounds_self]
  split <;> rfl

theorem get?_release_of_ne (a : Arena) {id other : BufferId} (h : other ≠ id) :
    (a.release id).get? other = a.get? other := by
  unfold release
  cases hi : slot? id with
  | none => rfl
  | some i =>
    simp only [get?]
    cases ho : slot? other with
    | none => rfl
    | some j =>
      have : i ≠ j := fun e => h (slot?_inj ho (e ▸ hi))
      simp [Array.getElem?_setIfInBounds_ne this]

theorem releaseAll_append (a : Arena) (ids others : List BufferId) :
    a.releaseAll (ids ++ others) = (a.releaseAll ids).releaseAll others := by
  simp [releaseAll, List.foldl_append]

/-! ## Bytes -/

/-- Where an access to `width` bytes starts, if all of them lie in the buffer. -/
def start (a : Arena) (id : BufferId) (offset : Int) (width : Nat) : Except MemoryFault Nat := do
  let b ← a.get id
  if 0 ≤ offset ∧ offset + width ≤ b.size then return offset.toNat
  else throw (.outOfBounds id offset width b.size)

def read (a : Arena) (id : BufferId) (offset : Int) (width : Nat) :
    Except MemoryFault (List UInt8) := do
  let start ← a.start id offset width
  let b ← a.get id
  return (b.bytes.extract start (start + width)).toList

/-- Replace bytes of a buffer, as far as it has them. -/
def overwrite (a : Arena) (id : BufferId) (start : Nat) (bytes : List UInt8) : Arena :=
  match slot? id with
  | none => a
  | some i =>
    ⟨a.slots.modify i fun slot => slot.map fun ⟨old, owner⟩ => ⟨setBytes old start bytes, owner⟩⟩

def write (a : Arena) (id : BufferId) (offset : Int) (bytes : List UInt8) :
    Except MemoryFault Unit × Arena :=
  match a.start id offset bytes.length with
  | .ok start => (.ok (), a.overwrite id start bytes)
  | .error e => (.error e, a)

/-! ## Values -/

/-- The value that a pointer refers to. An array is read as a pointer to its first element, but all
of it must lie in the buffer. -/
def load (a : Arena) (p : Pointer) : Except MemoryFault Value :=
  match p.pointee with
  | .array element _ => do
    discard <| a.start p.buffer p.offset p.pointee.size
    return .pointer (p.retyped element)
  | .void => .error (.mismatch .untypedAccess)
  | t => do Value.decode t (← a.read p.buffer p.offset t.size)

/-- Store a value through a pointer, converted to the pointee. The outcome is the value stored. -/
def store (a : Arena) (p : Pointer) (v : Value) : Except MemoryFault Value × Arena :=
  match v.convert p.pointee with
  | .error e => (.error e, a)
  | .ok stored =>
    match stored.encode p.pointee with
    | .error e => (.error e, a)
    | .ok bytes =>
      let (outcome, a) := a.write p.buffer p.offset bytes
      (outcome.map fun () => stored, a)

end Arena

end BoundedC
