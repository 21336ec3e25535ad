import BoundedC.Proofs.Ownership

/-!
# Storage and its history

What the arena answers follows from what has been done to it. `Arena.after ops` performs operations on
a fresh arena and notes, as events, what they were and how they came out. `Faithful` says in terms of
these events alone what any further operation answers.

* `Allocated`, `Released`, `lastWritten?` : what the events say about a buffer;
* `Recorded` : the arena holds what its history says, and so it does after one more operation
  (`Recorded.perform`);
* `faithful_after` : numbers, bounds, bytes and faults after any operations.
-/

namespace BoundedC

inductive StorageOp where
  | allocate (length : Nat) (owner : Owner)
  | allocateWith (bytes : Array UInt8) (owner : Owner)
  | release (id : BufferId)
  | read (id : BufferId) (offset : Int) (width : Nat)
  | write (id : BufferId) (offset : Int) (bytes : List UInt8)
  | load (p : Pointer)
  | store (p : Pointer) (v : Value)

/-- What an operation that succeeds answers. -/
inductive StorageAnswer where
  | buffer (id : BufferId)
  | bytes (bytes : List UInt8)
  | value (v : Value)
  | done
  deriving DecidableEq

/-- An operation that was performed, and how it came out. -/
structure StorageEvent where
  op : StorageOp
  outcome : Except MemoryFault StorageAnswer

/-- What was done to an arena, the latest first. -/
abbrev StorageHistory := List StorageEvent

namespace Arena

/-- The outcome of an operation, and the arena behind it. -/
def perform (a : Arena) : StorageOp → Except MemoryFault StorageAnswer × Arena
  | .allocate length owner => Prod.map (Except.map .buffer) id (a.allocate length owner)
  | .allocateWith bytes owner => Prod.map (Except.map .buffer) id (a.allocateWith bytes owner)
  | .release id => (.ok .done, a.release id)
  | .read id offset width => ((a.read id offset width).map .bytes, a)
  | .write buffer offset bytes => Prod.map (Except.map fun _ => .done) id (a.write buffer offset bytes)
  | .load p => ((a.load p).map .value, a)
  | .store p v => Prod.map (Except.map .value) id (a.store p v)

/-- Operations on a fresh arena, one after the other: what was done, and the arena then. -/
def after (ops : List StorageOp) : StorageHistory × Arena :=
  ops.foldl (fun s op => (⟨op, (s.2.perform op).1⟩ :: s.1, (s.2.perform op).2)) ([], .empty)

end Arena

/-! ## What events say -/

namespace StorageEvent

/-- The buffer of an allocation that succeeded, as it was then, with its number. -/
def allocated? : StorageEvent → Option (BufferId × Buffer)
  | ⟨.allocate length owner, .ok (.buffer id)⟩ => some (id, ⟨Array.replicate length 0, owner⟩)
  | ⟨.allocateWith bytes owner, .ok (.buffer id)⟩ => some (id, ⟨bytes, owner⟩)
  | _ => none

def releases (id : BufferId) : StorageEvent → Bool
  | ⟨.release other, _⟩ => other = id
  | _ => false

/-- Where a write that succeeded has put which bytes. -/
def written? : StorageEvent → Option (BufferId × Int × List UInt8)
  | ⟨.write id offset bytes, .ok _⟩ => some (id, offset, bytes)
  | ⟨.store p _, .ok (.value stored)⟩ =>
    (stored.encode p.pointee).toOption.map fun bytes => (p.buffer, p.offset, bytes)
  | _ => none

/-- The byte that the event has put at a position of a buffer. -/
def byte? (id : BufferId) (position : Nat) (e : StorageEvent) : Option UInt8 := do
  let (buffer, offset, bytes) ← e.written?
  if buffer = id ∧ offset ≤ position then bytes[position - offset.toNat]? else none

end StorageEvent

namespace StorageHistory

variable (past : StorageHistory) (id : BufferId)

def allocations : Nat := (past.filterMap StorageEvent.allocated?).length

/-- The buffer was allocated, and then it was `b`. -/
def Allocated (b : Buffer) : Prop := ∃ e ∈ past, e.allocated? = some (id, b)

/-- The buffer was allocated, and released later. -/
def Released : Prop :=
  ∃ later earlier : StorageHistory, past = later ++ earlier ∧ (∃ b, Allocated earlier id b) ∧
    ∃ e ∈ later, e.releases id = true

/-- The byte last written at a position of the buffer. -/
def lastWritten? (position : Nat) : Option UInt8 := past.findSome? (·.byte? id position)

end StorageHistory

open StorageHistory

/-- The bytes that an operation is to touch. -/
structure StorageAccess where
  buffer : BufferId
  offset : Int
  width : Nat

/-- The access that an operation makes. A load through an untyped pointer and a store of a value that
does not fit the pointee are refused without one. -/
def StorageOp.access? : StorageOp → Option (Except MemoryFault StorageAccess)
  | .read id offset width => some (.ok ⟨id, offset, width⟩)
  | .write id offset bytes => some (.ok ⟨id, offset, bytes.length⟩)
  | .load p => some <|
    if p.pointee = .void then .error (.mismatch .untypedAccess)
    else .ok ⟨p.buffer, p.offset, p.pointee.size⟩
  | .store p v => some <|
    (v.convert p.pointee).bind fun stored =>
      (stored.encode p.pointee).map fun _ => ⟨p.buffer, p.offset, p.pointee.size⟩
  | _ => none

/-- The buffer is live and so long. The null buffer is, and has no bytes. -/
def StorageHistory.HasLength (past : StorageHistory) (id : BufferId) (length : Nat) : Prop :=
  id = .null ∧ length = 0 ∨
    ∃ b, Allocated past id b ∧ ¬ Released past id ∧ b.size = length

/-- What operations on an arena answer follows from what was done to it. -/
structure Arena.Faithful (past : StorageHistory) (a : Arena) : Prop where
  /-- allocations count up -/
  numbered : ∀ {op : StorageOp} {id : BufferId}, (a.perform op).1 = .ok (.buffer id) →
    id.index.toNat = past.allocations + 1
  /-- a buffer never allocated, or released at some time, cannot be accessed -/
  dangling : ∀ {op : StorageOp} {access : StorageAccess},
    op.access? = some (.ok access) → access.buffer ≠ .null →
    (¬ ∃ b, Allocated past access.buffer b) ∨ Released past access.buffer →
    (a.perform op).1 = .error (.dangling access.buffer)
  /-- the owner and the length of a live buffer are those it was allocated with -/
  shape : ∀ {id b}, Allocated past id b → ¬ Released past id →
    ∃ current, a.get? id = some current ∧ current.owner = b.owner ∧ current.size = b.size
  /-- releasing the null buffer, or a number that is not in use, changes nothing -/
  unused : ∀ {id}, id = .null ∨ (¬ ∃ b, Allocated past id b) ∨ Released past id →
    a.perform (.release id) = (.ok .done, a)
  /-- an access to a live buffer succeeds exactly if all of it lies in the buffer -/
  bounds : ∀ {op : StorageOp} {access : StorageAccess} {length : Nat},
    op.access? = some (.ok access) → HasLength past access.buffer length →
    if 0 ≤ access.offset ∧ access.offset + access.width ≤ length then
      ∃ answer, (a.perform op).1 = .ok answer
    else (a.perform op).1 = .error (.outOfBounds access.buffer access.offset access.width length)
  /-- a byte that is read is the last one written there, or else the one allocated -/
  bytes : ∀ {id b offset width bytes}, Allocated past id b → a.read id offset width = .ok bytes →
    bytes.length = width ∧ ∀ k < width, bytes[k]? =
      (past.lastWritten? id (offset.toNat + k)).or b.bytes[offset.toNat + k]?
  /-- a value that is loaded is the one its bytes stand for -/
  value : ∀ {p v}, a.load p = .ok v → p.pointee.isArray = false →
    ∃ bytes, a.read p.buffer p.offset p.pointee.size = .ok bytes ∧
      Value.decode p.pointee bytes = .ok v
  /-- what is refused without an access is refused whatever the arena holds -/
  refused : ∀ {op : StorageOp} {fault : MemoryFault}, op.access? = some (.error fault) →
    (a.perform op).1 = .error fault
  /-- an operation that fails changes nothing -/
  unchanged : ∀ {op fault}, (a.perform op).1 = .error fault → (a.perform op).2 = a

/-! ## Outcomes -/

section Outcomes

variable {α β : Type} {f : α → β} {x : Except MemoryFault α}

theorem exists_of_map_eq_ok {b : β} (h : x.map f = .ok b) : ∃ a, x = .ok a ∧ f a = b := by
  cases x with
  | error fault => cases h
  | ok a =>
    cases h
    exact ⟨a, rfl, rfl⟩

theorem eq_error_of_map {fault : MemoryFault} (h : x.map f = .error fault) : x = .error fault := by
  cases x with
  | error fault =>
    cases h
    rfl
  | ok a => cases h

end Outcomes

/-! ## Buffers after an operation -/

/-- A byte of a buffer part of which was replaced is a new one, or else the old one. -/
theorem getElem?_setBytes {bytes : Array UInt8} {start : Nat} {bs : List UInt8}
    (h : start + bs.length ≤ bytes.size) (position : Nat) :
    (setBytes bytes start bs)[position]? =
      (if start ≤ position then bs[position - start]? else none).or bytes[position]? := by
  induction bs generalizing bytes start with
  | nil => simp [setBytes]
  | cons b bs ih =>
    rw [List.length_cons] at h
    have hrest : start + 1 + bs.length ≤ (bytes.setIfInBounds start b).size := by
      rw [Array.size_setIfInBounds]
      omega
    rw [setBytes, ih hrest, Array.getElem?_setIfInBounds]
    rcases Nat.lt_trichotomy position start with hlt | rfl | hgt
    · rw [if_neg (by omega), if_neg (by omega), if_neg (by omega)]
    · rw [if_neg (by omega), if_pos rfl, if_pos (by omega), if_pos (Nat.le_refl _)]
      simp
    · rw [if_pos (by omega), if_neg (by omega), if_pos (by omega)]
      have hindex : position - start = position - (start + 1) + 1 := by omega
      rw [hindex, List.getElem?_cons_succ]

namespace Arena

variable {a b : Arena} {id : BufferId}

/-- No buffer has a number that was not given yet. -/
theorem get?_of_lt (h : a.slots.size < id.index.toNat) : a.get? id = none := by
  have hid : id ≠ .null := by
    rintro rfl
    exact absurd h (Nat.not_lt_zero _)
  unfold get?
  rw [slot?_of_ne_null hid]
  have hslot : a.slots[id.index.toNat - 1]? = none := Array.getElem?_eq_none (by omega)
  simp only [hslot, Option.join_none]

theorem get?_of_allocateWith {bytes : Array UInt8} {owner : Owner}
    (h : a.allocateWith bytes owner = (.ok id, b)) :
    id.index.toNat = a.slots.size + 1 ∧ a.slots.size + 1 < 0xffffffff ∧
      b.slots.size = a.slots.size + 1 ∧ b.get? id = some ⟨bytes, owner⟩ ∧
      ∀ other, other ≠ id → b.get? other = a.get? other := by
  unfold allocateWith at h
  dsimp only at h
  split at h
  · rename_i hlt
    cases h
    have hslot := slot?_ofNat hlt
    refine ⟨?_, hlt, Array.size_push _, ?_, ?_⟩
    · rw [UInt32.toNat_ofNat']
      omega
    · simp only [get?, hslot, Array.getElem?_push_size, Option.join_some]
    · intro other hne
      unfold get?
      cases ho : slot? other with
      | none => rfl
      | some i =>
        have hi : i ≠ a.slots.size := fun hi => hne (slot?_inj (hi ▸ ho) hslot)
        simp only [Array.getElem?_push, if_neg hi]
  · cases h

theorem allocateWith_of_allocate {length : Nat} {owner : Owner}
    (h : a.allocate length owner = (.ok id, b)) :
    a.allocateWith (Array.replicate length 0) owner = (.ok id, b) := by
  unfold allocate at h
  split at h
  · exact h
  · cases h

/-- An access to a live buffer begins at its offset if all of it lies in the buffer. -/
theorem start_eq_ok_iff {offset : Int} {width start : Nat} :
    a.start id offset width = .ok start ↔
      ∃ c, a.get? id = some c ∧ 0 ≤ offset ∧ offset + width ≤ c.size ∧ start = offset.toNat := by
  unfold Arena.start get
  cases a.get? id with
  | none =>
    constructor
    · nofun
    · rintro ⟨c, hc, -⟩
      cases hc
  | some c =>
    show (if 0 ≤ offset ∧ offset + width ≤ c.size then _ else _) = _ ↔ _
    split
    · rename_i hin
      constructor
      · rintro ⟨⟩
        exact ⟨c, rfl, hin.1, hin.2, rfl⟩
      · rintro ⟨_, _, _, _, rfl⟩
        rfl
    · rename_i hout
      constructor
      · nofun
      · rintro ⟨_, ⟨⟩, hpos, hend, _⟩
        exact absurd ⟨hpos, hend⟩ hout

theorem write_eq_ok {offset : Int} {bytes : List UInt8} {u : Unit}
    (h : a.write id offset bytes = (.ok u, b)) :
    ∃ start, a.start id offset bytes.length = .ok start ∧ b = a.overwrite id start bytes := by
  unfold write at h
  split at h
  · rename_i start hstart
    cases h
    exact ⟨start, hstart, rfl⟩
  · cases h

theorem store_eq_ok {p : Pointer} {v stored : Value} (h : a.store p v = (.ok stored, b)) :
    ∃ bytes, stored.encode p.pointee = .ok bytes ∧ a.write p.buffer p.offset bytes = (.ok (), b) := by
  unfold store at h
  split at h
  · cases h
  · split at h
    · cases h
    · rename_i bytes hencode
      dsimp only at h
      rcases hwrite : a.write p.buffer p.offset bytes with ⟨fault | _, c⟩
      · rw [hwrite] at h
        cases h
      · rw [hwrite] at h
        cases h
        exact ⟨bytes, hencode, hwrite⟩

theorem allocateWith_of_error {bytes : Array UInt8} {owner : Owner} {fault : MemoryFault}
    (h : (a.allocateWith bytes owner).1 = .error fault) : (a.allocateWith bytes owner).2 = a := by
  unfold allocateWith at h ⊢
  dsimp only at h ⊢
  split
  · rename_i hlt
    rw [if_pos hlt] at h
    cases h
  · rfl

theorem allocate_of_error {length : Nat} {owner : Owner} {fault : MemoryFault}
    (h : (a.allocate length owner).1 = .error fault) : (a.allocate length owner).2 = a := by
  unfold allocate at h ⊢
  split
  · rename_i hlt
    rw [if_pos hlt] at h
    exact allocateWith_of_error h
  · rfl

theorem write_of_error {offset : Int} {bytes : List UInt8} {fault : MemoryFault}
    (h : (a.write id offset bytes).1 = .error fault) : (a.write id offset bytes).2 = a := by
  unfold write at h ⊢
  split
  · rename_i hstart
    rw [hstart] at h
    cases h
  · rfl

theorem store_of_error {p : Pointer} {v : Value} {fault : MemoryFault}
    (h : (a.store p v).1 = .error fault) : (a.store p v).2 = a := by
  unfold store at h ⊢
  split
  · rfl
  · rename_i stored hstored
    split
    · rfl
    · rename_i bytes hencode
      rw [hstored] at h
      dsimp only at h ⊢
      rw [hencode] at h
      dsimp only at h
      rcases hwrite : a.write p.buffer p.offset bytes with ⟨fault | _, c⟩
      · have := write_of_error (congrArg Prod.fst hwrite)
        rwa [hwrite] at this
      · rw [hwrite] at h
        cases h

/-- An operation that fails changes nothing. -/
theorem perform_of_error {op : StorageOp} {fault : MemoryFault}
    (h : (a.perform op).1 = .error fault) : (a.perform op).2 = a := by
  cases op with
  | allocate => exact allocate_of_error (eq_error_of_map h)
  | allocateWith => exact allocateWith_of_error (eq_error_of_map h)
  | release => cases h
  | read => rfl
  | write => exact write_of_error (eq_error_of_map h)
  | load => rfl
  | store => exact store_of_error (eq_error_of_map h)

theorem size_overwrite (a : Arena) (id : BufferId) (start : Nat) (bytes : List UInt8) :
    (a.overwrite id start bytes).slots.size = a.slots.size := by
  unfold overwrite
  split
  · rfl
  · exact Array.size_modify

theorem get?_overwrite_self (a : Arena) (h : id ≠ .null) (start : Nat) (bytes : List UInt8) :
    (a.overwrite id start bytes).get? id =
      (a.get? id).map fun b => ⟨setBytes b.bytes start bytes, b.owner⟩ := by
  unfold get? overwrite
  simp only [slot?_of_ne_null h, Array.getElem?_modify, if_pos]
  cases a.slots[id.index.toNat - 1]? with
  | none => rfl
  | some slot => cases slot <;> rfl

theorem get?_overwrite_of_ne (a : Arena) {other : BufferId} (h : other ≠ id) (start : Nat)
    (bytes : List UInt8) : (a.overwrite id start bytes).get? other = a.get? other := by
  unfold overwrite
  cases hi : slot? id with
  | none => rfl
  | some i =>
    unfold get?
    cases ho : slot? other with
    | none => rfl
    | some j =>
      have hne : i ≠ j := fun e => h (slot?_inj ho (e ▸ hi))
      simp only [Array.getElem?_modify, if_neg hne]

end Arena

/-! ## Histories one event longer -/

namespace StorageHistory

variable {past : StorageHistory} {e : StorageEvent} {id : BufferId}

theorem allocated_cons {b : Buffer} :
    Allocated (e :: past) id b ↔ e.allocated? = some (id, b) ∨ Allocated past id b := by
  simp [Allocated]

theorem allocated_cons_of_none (h : e.allocated? = none) {b : Buffer} :
    Allocated (e :: past) id b ↔ Allocated past id b := by
  simp [allocated_cons, h]

theorem released_cons :
    Released (e :: past) id ↔
      (e.releases id = true ∧ ∃ b, Allocated past id b) ∨ Released past id := by
  constructor
  · rintro ⟨later, earlier, hsplit, ⟨b, hb⟩, e', he', hrel⟩
    cases later with
    | nil => cases he'
    | cons first later =>
      cases hsplit
      rcases List.mem_cons.1 he' with rfl | hmem
      · obtain ⟨source, hsource, hb⟩ := hb
        exact .inl ⟨hrel, b, source, List.mem_append_right later hsource, hb⟩
      · exact .inr ⟨later, earlier, rfl, ⟨b, hb⟩, e', hmem, hrel⟩
  · rintro (⟨hrel, hb⟩ | ⟨later, earlier, rfl, hb, e', he', hrel⟩)
    · exact ⟨[e], past, rfl, hb, e, List.mem_singleton_self e, hrel⟩
    · exact ⟨e :: later, earlier, rfl, hb, e', List.mem_cons_of_mem e he', hrel⟩

theorem released_cons_of_false (h : e.releases id = false) :
    Released (e :: past) id ↔ Released past id := by
  simp [released_cons, h]

theorem Released.allocated (h : Released past id) : ∃ b, Allocated past id b := by
  obtain ⟨later, earlier, rfl, ⟨b, e, he, hb⟩, -⟩ := h
  exact ⟨b, e, List.mem_append_right later he, hb⟩

theorem byte?_of_written {other : BufferId} {offset : Int} {bytes : List UInt8} {position : Nat}
    (h : e.written? = some (other, offset, bytes)) (hpos : 0 ≤ offset) :
    e.byte? id position =
      if other = id ∧ offset.toNat ≤ position then bytes[position - offset.toNat]? else none := by
  have hle : offset ≤ position ↔ offset.toNat ≤ position := by omega
  rw [StorageEvent.byte?, h]
  simp only [← hle]
  rfl

theorem lastWritten?_cons (position : Nat) :
    lastWritten? (e :: past) id position = (e.byte? id position).or (past.lastWritten? id position) := by
  unfold lastWritten?
  rw [List.findSome?_cons]
  cases e.byte? id position <;> rfl

end StorageHistory

namespace Arena

variable {past : StorageHistory} {a b : Arena} {e : StorageEvent} {id : BufferId}

/-- The arena holds what its history says. -/
structure Recorded (past : StorageHistory) (a : Arena) : Prop where
  count : past.allocations = a.slots.size
  small : a.slots.size < 0xffffffff
  allocated_iff : ∀ id, (∃ b, Allocated past id b) ↔ id ≠ .null ∧ id.index.toNat ≤ a.slots.size
  /-- nothing was written but to buffers -/
  written : ∀ id position, (past.lastWritten? id position).isSome → ∃ b, Allocated past id b
  gone : ∀ id, Released past id → a.get? id = none
  kept : ∀ {id b}, Allocated past id b → ¬ Released past id →
    ∃ current, a.get? id = some current ∧ current.owner = b.owner ∧ current.size = b.size ∧
      ∀ position, current.bytes[position]? =
        (past.lastWritten? id position).or b.bytes[position]?

namespace Recorded

theorem empty : Recorded [] .empty where
  count := rfl
  small := by decide
  allocated_iff id := by
    constructor
    · rintro ⟨b, e, he, -⟩
      cases he
    · rintro ⟨hid, hle⟩
      exact absurd hle (Nat.not_le_of_lt (BufferId.index_pos hid))
  written := nofun
  gone id := by
    rintro ⟨later, earlier, hsplit, ⟨b, e, he, -⟩, -⟩
    obtain ⟨-, rfl⟩ := List.append_eq_nil_iff.1 hsplit.symm
    cases he
  kept := by
    rintro id b ⟨e, he, -⟩
    cases he

/-- An event that allocates nothing. -/
theorem keep (h : Recorded past a) (hallocated : e.allocated? = none)
    (hsize : b.slots.size = a.slots.size)
    (hwritten : ∀ id position, (e.byte? id position).isSome → ∃ b, Allocated past id b)
    (hgone : ∀ id, Released (e :: past) id → b.get? id = none)
    (hkept : ∀ {id c}, Allocated past id c → ¬ Released (e :: past) id →
      ∃ current, b.get? id = some current ∧ current.owner = c.owner ∧ current.size = c.size ∧
        ∀ position, current.bytes[position]? =
          ((e.byte? id position).or (past.lastWritten? id position)).or c.bytes[position]?) :
    Recorded (e :: past) b where
  count := by
    rw [hsize, ← h.count, allocations, allocations, List.filterMap_cons_none hallocated]
  small := hsize ▸ h.small
  allocated_iff id := by
    simp only [allocated_cons_of_none hallocated, hsize]
    exact h.allocated_iff id
  written id position := by
    simp only [allocated_cons_of_none hallocated, lastWritten?_cons, Option.isSome_or,
      Bool.or_eq_true]
    rintro (hnow | hbefore)
    · exact hwritten id position hnow
    · exact h.written id position hbefore
  gone := hgone
  kept {id c} hc hlive := by
    simp only [lastWritten?_cons]
    exact hkept ((allocated_cons_of_none hallocated).1 hc) hlive

/-- An event that leaves no trace. -/
theorem idle (h : Recorded past a) (hallocated : e.allocated? = none)
    (hreleases : ∀ id, e.releases id = false) (hbyte : ∀ id position, e.byte? id position = none) :
    Recorded (e :: past) a := by
  refine h.keep hallocated rfl (fun id position hsome => ?_) (fun id hgone => ?_) ?_
  · rw [hbyte] at hsome
    cases hsome
  · exact h.gone id ((released_cons_of_false (hreleases id)).1 hgone)
  · intro id c hc hlive
    rw [released_cons_of_false (hreleases id)] at hlive
    simp only [hbyte, Option.none_or]
    exact h.kept hc hlive

/-- One more number is in use behind an allocation. -/
theorem allocated_iff_of_allocateWith (h : Recorded past a) {bytes : Array UInt8} {owner : Owner}
    (hallocate : a.allocateWith bytes owner = (.ok id, b))
    (hallocated : e.allocated? = some (id, ⟨bytes, owner⟩)) (other : BufferId) :
    (∃ c, Allocated (e :: past) other c) ↔ other ≠ .null ∧ other.index.toNat ≤ b.slots.size := by
  obtain ⟨hindex, -, hsize, -⟩ := get?_of_allocateWith hallocate
  have hexists : (∃ c, Allocated (e :: past) other c) ↔
      id = other ∨ other ≠ .null ∧ other.index.toNat ≤ a.slots.size := by
    rw [← h.allocated_iff other]
    simp only [allocated_cons, hallocated, Option.some_inj, Prod.mk.injEq]
    constructor
    · rintro ⟨c, ⟨hid, -⟩ | hc⟩
      · exact .inl hid
      · exact .inr ⟨c, hc⟩
    · rintro (hid | ⟨c, hc⟩)
      · exact ⟨_, .inl ⟨hid, rfl⟩⟩
      · exact ⟨c, .inr hc⟩
  rw [hexists, hsize]
  constructor
  · rintro (rfl | ⟨hne, hle⟩)
    · refine ⟨?_, Nat.le_of_eq hindex⟩
      rintro rfl
      cases hindex
    · exact ⟨hne, Nat.le_succ_of_le hle⟩
  · rintro ⟨hne, hle⟩
    rcases Nat.le_succ_iff.1 hle with hold | hnew
    · exact .inr ⟨hne, hold⟩
    · left
      obtain ⟨n⟩ := other
      obtain ⟨m⟩ := id
      exact congrArg BufferId.mk (UInt32.toNat_inj.1 (hindex.trans hnew.symm))

/-- A new buffer gets the next number. -/
theorem allocateWith (h : Recorded past a) {bytes : Array UInt8} {owner : Owner}
    (hallocate : a.allocateWith bytes owner = (.ok id, b))
    (hallocated : e.allocated? = some (id, ⟨bytes, owner⟩))
    (hreleases : ∀ id, e.releases id = false) (hbyte : ∀ id position, e.byte? id position = none) :
    Recorded (e :: past) b := by
  obtain ⟨hindex, hlt, hsize, hself, hothers⟩ := get?_of_allocateWith hallocate
  have hfresh : ¬ ∃ c, Allocated past id c := by
    rw [h.allocated_iff]
    omega
  refine ⟨?_, hsize ▸ hlt, h.allocated_iff_of_allocateWith hallocate hallocated,
    fun other position => ?_, fun other hgone => ?_, ?_⟩
  · rw [hsize, ← h.count, allocations, allocations, List.filterMap_cons_some hallocated,
      List.length_cons]
  · intro hsome
    rw [lastWritten?_cons, hbyte, Option.none_or] at hsome
    obtain ⟨c, hc⟩ := h.written other position hsome
    exact ⟨c, allocated_cons.2 (.inr hc)⟩
  · rw [released_cons_of_false (hreleases other)] at hgone
    have hne : other ≠ id := by
      rintro rfl
      exact hfresh hgone.allocated
    rw [hothers other hne]
    exact h.gone other hgone
  · intro other c hc hlive
    rw [released_cons_of_false (hreleases other)] at hlive
    simp only [lastWritten?_cons, hbyte, Option.none_or]
    rw [allocated_cons, hallocated] at hc
    rcases hc with hnew | hc
    · cases hnew
      refine ⟨_, hself, rfl, rfl, fun position => ?_⟩
      have hnone : past.lastWritten? id position = none := by
        rw [← Option.not_isSome_iff_eq_none]
        exact fun hsome => hfresh (h.written id position hsome)
      rw [hnone, Option.none_or]
    · have hne : other ≠ id := by
        rintro rfl
        exact hfresh ⟨c, hc⟩
      rw [hothers other hne]
      exact h.kept hc hlive

/-- A release ends the buffer for ever. -/
theorem release (h : Recorded past a) (id : BufferId) :
    Recorded (⟨.release id, .ok .done⟩ :: past) (a.release id) := by
  have hsize : (a.release id).slots.size = a.slots.size := by
    unfold Arena.release
    split
    · rfl
    · exact Array.size_setIfInBounds
  have hreleased (other : BufferId) :
      Released (⟨.release id, .ok .done⟩ :: past) other ↔
        (id = other ∧ ∃ b, Allocated past other b) ∨ Released past other := by
    rw [released_cons]
    simp only [StorageEvent.releases, decide_eq_true_iff]
  refine h.keep rfl hsize nofun (fun other hgone => ?_) ?_
  · by_cases hid : other = id
    · subst hid
      have hallocated : ∃ b, Allocated past other b := by
        rcases (hreleased other).1 hgone with ⟨-, hb⟩ | hgone
        · exact hb
        · exact hgone.allocated
      exact get?_release_self a ((h.allocated_iff other).1 hallocated).1
    · rw [get?_release_of_ne a hid]
      exact h.gone other (((hreleased other).1 hgone).resolve_left fun hnow => hid hnow.1.symm)
  · intro other c hc hlive
    have hid : other ≠ id := fun hid => hlive ((hreleased other).2 (.inl ⟨hid.symm, c, hc⟩))
    rw [get?_release_of_ne a hid]
    exact h.kept hc fun hgone => hlive ((hreleased other).2 (.inr hgone))

/-- Bytes are put into buffers only. -/
theorem exists_allocated_of_start (h : Recorded past a) {offset : Int} {width start : Nat}
    (hstart : a.start id offset width = .ok start) (hwidth : 0 < width) :
    ∃ b, Allocated past id b := by
  obtain ⟨c, hget, hpos, hend, -⟩ := start_eq_ok_iff.1 hstart
  rw [h.allocated_iff]
  constructor
  · rintro rfl
    cases hget
    simp only [Buffer.size, Buffer.null, List.size_toArray, List.length_nil] at hend
    omega
  · refine Nat.le_of_not_lt fun hlt => ?_
    rw [get?_of_lt hlt] at hget
    cases hget

/-- A write puts its bytes and nothing else. -/
theorem overwrite (h : Recorded past a) {offset : Int} {bytes : List UInt8} {start : Nat}
    (hstart : a.start id offset bytes.length = .ok start)
    (hallocated : e.allocated? = none) (hreleases : ∀ id, e.releases id = false)
    (hwritten : e.written? = some (id, offset, bytes)) :
    Recorded (e :: past) (a.overwrite id start bytes) := by
  have hallocated_id := h.exists_allocated_of_start hstart
  obtain ⟨c, hget, hpos, hend, rfl⟩ := start_eq_ok_iff.1 hstart
  refine h.keep hallocated (size_overwrite ..) (fun other position hsome => ?_)
    (fun other hgone => ?_) ?_
  · rw [byte?_of_written hwritten hpos] at hsome
    split at hsome
    · rename_i hhere
      obtain ⟨rfl, -⟩ := hhere
      rw [Option.isSome_iff_ne_none, ne_eq, List.getElem?_eq_none_iff] at hsome
      exact hallocated_id (by omega)
    · cases hsome
  · have hnone := h.gone other ((released_cons_of_false (hreleases other)).1 hgone)
    by_cases hid : other = id
    · subst hid
      rw [hnone] at hget
      cases hget
    · rw [get?_overwrite_of_ne a hid]
      exact hnone
  · intro other d hd hlive
    rw [released_cons_of_false (hreleases other)] at hlive
    obtain ⟨current, hcurrent, howner, hsize, hbytes⟩ := h.kept hd hlive
    by_cases hid : other = id
    · subst hid
      cases hcurrent.symm.trans hget
      have hnull := ((h.allocated_iff other).1 ⟨d, hd⟩).1
      have hnew := get?_overwrite_self a hnull offset.toNat bytes
      rw [hget, Option.map_some] at hnew
      refine ⟨_, hnew, howner, (size_setBytes ..).trans hsize, fun position => ?_⟩
      have hfits : offset.toNat + bytes.length ≤ c.bytes.size := by
        have : c.size = c.bytes.size := rfl
        omega
      rw [byte?_of_written hwritten hpos, getElem?_setBytes hfits, hbytes, Option.or_assoc]
      simp only [true_and]
    · rw [get?_overwrite_of_ne a hid]
      refine ⟨current, hcurrent, howner, hsize, fun position => ?_⟩
      rw [byte?_of_written hwritten hpos, if_neg fun hhere => hid hhere.1.symm, Option.none_or]
      exact hbytes position

/-- The arena behind an operation holds what was done to it before, and the operation. -/
theorem perform (h : Recorded past a) (op : StorageOp) :
    Recorded (⟨op, (a.perform op).1⟩ :: past) (a.perform op).2 := by
  rcases hrun : a.perform op with ⟨fault | answer, b⟩
  · have hsame := perform_of_error (congrArg Prod.fst hrun)
    rw [hrun] at hsame
    subst hsame
    cases op <;> first | exact h.idle rfl (fun _ => rfl) (fun _ _ => rfl) | cases hrun
  · have hanswer := congrArg Prod.fst hrun
    have hb := congrArg Prod.snd hrun
    dsimp only at hanswer hb
    subst hb
    cases op with
    | allocate length owner =>
      obtain ⟨_, hallocate, rfl⟩ := exists_of_map_eq_ok hanswer
      exact h.allocateWith (allocateWith_of_allocate (Prod.ext hallocate rfl)) rfl (fun _ => rfl)
        fun _ _ => rfl
    | allocateWith bytes owner =>
      obtain ⟨_, hallocate, rfl⟩ := exists_of_map_eq_ok hanswer
      exact h.allocateWith (Prod.ext hallocate rfl) rfl (fun _ => rfl) fun _ _ => rfl
    | release id =>
      cases hanswer
      exact h.release id
    | read | load => exact h.idle rfl (fun _ => rfl) fun _ _ => rfl
    | write id offset bytes =>
      obtain ⟨_, hwrite, rfl⟩ := exists_of_map_eq_ok hanswer
      have hrun : a.write id offset bytes = (.ok (), (a.write id offset bytes).2) :=
        Prod.ext hwrite rfl
      obtain ⟨start, hstart, hb⟩ := write_eq_ok hrun
      show Recorded _ (a.write id offset bytes).2
      rw [hb]
      exact h.overwrite hstart rfl (fun _ => rfl) rfl
    | store p v =>
      obtain ⟨stored, hstore, rfl⟩ := exists_of_map_eq_ok hanswer
      have hrun : a.store p v = (.ok stored, (a.store p v).2) := Prod.ext hstore rfl
      obtain ⟨bytes, hencode, hwrite⟩ := store_eq_ok hrun
      obtain ⟨start, hstart, hb⟩ := write_eq_ok hwrite
      have hwritten : StorageEvent.written? ⟨.store p v, .ok (.value stored)⟩ =
          some (p.buffer, p.offset, bytes) := by
        simp only [StorageEvent.written?, hencode]
        rfl
      show Recorded _ (a.store p v).2
      rw [hb]
      exact h.overwrite hstart rfl (fun _ => rfl) hwritten

theorem after (ops : List StorageOp) : Recorded (Arena.after ops).1 (Arena.after ops).2 := by
  suffices hfrom : ∀ s : StorageHistory × Arena, Recorded s.1 s.2 →
      Recorded (ops.foldl (fun s op => (⟨op, (s.2.perform op).1⟩ :: s.1, (s.2.perform op).2)) s).1
        (ops.foldl (fun s op => (⟨op, (s.2.perform op).1⟩ :: s.1, (s.2.perform op).2)) s).2 from
    hfrom ([], .empty) empty
  induction ops with
  | nil => exact fun _ h => h
  | cons op ops ih => exact fun s h => ih _ (h.perform op)

theorem exists_get? (h : Recorded past a) {length : Nat} (hlength : HasLength past id length) :
    ∃ c, a.get? id = some c ∧ c.size = length := by
  rcases hlength with ⟨rfl, rfl⟩ | ⟨b, hb, hlive, rfl⟩
  · exact ⟨.null, rfl, rfl⟩
  · obtain ⟨c, hget, -, hsize, -⟩ := h.kept hb hlive
    exact ⟨c, hget, hsize⟩

theorem get?_eq_none (h : Recorded past a) (hid : id ≠ .null)
    (hdead : (¬ ∃ b, Allocated past id b) ∨ Released past id) : a.get? id = none := by
  rcases hdead with hnever | hgone
  · refine get?_of_lt (Nat.lt_of_not_le fun hle => ?_)
    exact hnever ((h.allocated_iff id).2 ⟨hid, hle⟩)
  · exact h.gone id hgone

end Recorded

end Arena

/-! ## Accesses -/

/-- The bytes of a value are as many as the place takes. -/
theorem Value.length_of_encode {v : Value} {t : CType} {bytes : List UInt8}
    (h : v.encode t = .ok bytes) : bytes.length = t.size := by
  unfold encode at h
  rcases hconvert : v.convert t with fault | w
  · rw [hconvert] at h
    cases h
  · simp only [hconvert, bind, Except.bind] at h
    unfold convert at hconvert
    split at hconvert
    · cases hconvert
      cases h
      rfl
    · cases hconvert
      cases h
      rfl
    · cases hconvert
      cases h
      rfl
    · cases hconvert
      cases h
      rfl
    · cases hconvert
      dsimp only at h
      split at h
      · cases h
        rfl
      · cases h
    · split at hconvert
      · cases hconvert
        cases h
        rfl
      · cases hconvert
    · cases hconvert

namespace Arena

variable {past : StorageHistory} {a : Arena} {id : BufferId} {offset : Int} {width : Nat}

theorem start_of_none (h : a.get? id = none) : a.start id offset width = .error (.dangling id) := by
  unfold Arena.start get
  rw [h]
  rfl

theorem start_of_some {c : Buffer} (h : a.get? id = some c) :
    a.start id offset width =
      if 0 ≤ offset ∧ offset + width ≤ c.size then .ok offset.toNat
      else .error (.outOfBounds id offset width c.size) := by
  unfold Arena.start get
  rw [h]
  rfl

theorem read_of_start {start : Nat} {c : Buffer} (h : a.start id offset width = .ok start)
    (hget : a.get? id = some c) :
    a.read id offset width = .ok (c.bytes.extract start (start + width)).toList := by
  unfold read get
  rw [h, hget]
  rfl

theorem read_of_error {fault : MemoryFault} (h : a.start id offset width = .error fault) :
    a.read id offset width = .error fault := by
  unfold read
  rw [h]
  rfl

theorem length_of_read {bytes : List UInt8} (h : a.read id offset width = .ok bytes) :
    bytes.length = width := by
  rcases hstart : a.start id offset width with fault | start
  · rw [read_of_error hstart] at h
    cases h
  · obtain ⟨c, hget, hpos, hend, rfl⟩ := start_eq_ok_iff.1 hstart
    rw [read_of_start hstart hget] at h
    cases h
    have : c.size = c.bytes.size := rfl
    rw [Array.length_toList, Array.size_extract]
    omega

/-- A scalar is loaded by reading its bytes. -/
theorem load_eq {p : Pointer} (harray : p.pointee.isArray = false) (hvoid : p.pointee ≠ .void) :
    a.load p = (a.read p.buffer p.offset p.pointee.size).bind (Value.decode p.pointee) := by
  obtain ⟨buffer, offset, pointee⟩ := p
  cases pointee with
  | array => cases harray
  | void => exact absurd rfl hvoid
  | _ => rfl

theorem exists_read (a : Arena) (id : BufferId) (offset : Int) (width : Nat) :
    ∃ bytes, a.read id offset width = (a.start id offset width).map fun _ => bytes := by
  rcases hstart : a.start id offset width with fault | start
  · exact ⟨[], read_of_error hstart⟩
  · obtain ⟨c, hget, -⟩ := start_eq_ok_iff.1 hstart
    exact ⟨_, read_of_start hstart hget⟩

/-- A load comes out as the check of its bounds does. An array is not read, its place is answered. -/
theorem exists_load_eq (a : Arena) {p : Pointer} (hvoid : p.pointee ≠ .void) :
    ∃ v, a.load p = (a.start p.buffer p.offset p.pointee.size).map fun _ => v := by
  cases harray : p.pointee.isArray with
  | true =>
    obtain ⟨buffer, offset, pointee⟩ := p
    cases pointee with
    | array element length =>
      refine ⟨.pointer ⟨buffer, offset, element⟩, ?_⟩
      simp only [load]
      rcases a.start buffer offset (CType.array element length).size with fault | start <;> rfl
    | _ => cases harray
  | false =>
    rw [load_eq harray hvoid]
    rcases hstart : a.start p.buffer p.offset p.pointee.size with fault | start
    · rw [read_of_error hstart]
      exact ⟨.int 0, rfl⟩
    · obtain ⟨c, hget, -⟩ := start_eq_ok_iff.1 hstart
      have hread := read_of_start hstart hget
      obtain ⟨v, hv⟩ := Value.exists_decode (length_of_read hread) harray hvoid
      rw [hread]
      exact ⟨v, hv⟩

/-- An access comes out as the check of its bounds does. -/
theorem perform_of_access {op : StorageOp} {access : StorageAccess}
    (h : op.access? = some (.ok access)) (a : Arena) :
    ∃ answer, (a.perform op).1 =
      (a.start access.buffer access.offset access.width).map fun _ => answer := by
  cases op with
  | allocate | allocateWith | release => cases h
  | read id offset width =>
    cases h
    obtain ⟨bytes, hread⟩ := a.exists_read id offset width
    refine ⟨.bytes bytes, ?_⟩
    simp only [perform, hread]
    rcases a.start id offset width with fault | start <;> rfl
  | write id offset bytes =>
    cases h
    refine ⟨.done, ?_⟩
    simp only [perform, write]
    rcases a.start id offset bytes.length with fault | start <;> rfl
  | load p =>
    by_cases hvoid : p.pointee = .void
    · simp [StorageOp.access?, hvoid] at h
    · simp only [StorageOp.access?, hvoid, if_false, Option.some.injEq, Except.ok.injEq] at h
      subst h
      obtain ⟨v, hload⟩ := a.exists_load_eq hvoid
      refine ⟨.value v, ?_⟩
      simp only [perform, hload]
      rcases a.start p.buffer p.offset p.pointee.size with fault | start <;> rfl
  | store p v =>
    rcases hconvert : v.convert p.pointee with fault | stored
    · simp [StorageOp.access?, hconvert, Except.bind] at h
    · rcases hencode : stored.encode p.pointee with fault | bytes
      · simp [StorageOp.access?, hconvert, hencode, Except.bind, Except.map] at h
      · simp only [StorageOp.access?, hconvert, hencode, Except.bind, Except.map,
          Option.some.injEq, Except.ok.injEq] at h
        subst h
        refine ⟨.value stored, ?_⟩
        simp only [perform, store, hconvert, hencode, write, Value.length_of_encode hencode]
        rcases a.start p.buffer p.offset p.pointee.size with fault | start <;> rfl

/-- What makes no access is refused for what it is asked to do. -/
theorem perform_of_refused {op : StorageOp} {fault : MemoryFault}
    (h : op.access? = some (.error fault)) (a : Arena) : (a.perform op).1 = .error fault := by
  cases op with
  | allocate | allocateWith | release | read | write => cases h
  | load p =>
    obtain ⟨buffer, offset, pointee⟩ := p
    cases pointee with
    | void =>
      cases h
      rfl
    | _ => cases h
  | store p v =>
    rcases hconvert : v.convert p.pointee with e | stored
    · simp only [StorageOp.access?, hconvert, Except.bind, Option.some.injEq,
        Except.error.injEq] at h
      subst h
      simp only [perform, store, hconvert]
      rfl
    · rcases hencode : stored.encode p.pointee with e | bytes
      · simp only [StorageOp.access?, hconvert, hencode, Except.bind, Except.map,
          Option.some.injEq, Except.error.injEq] at h
        subst h
        simp only [perform, store, hconvert, hencode]
        rfl
      · simp [StorageOp.access?, hconvert, hencode, Except.bind, Except.map] at h

theorem index_of_perform {op : StorageOp} (h : (a.perform op).1 = .ok (.buffer id)) :
    id.index.toNat = a.slots.size + 1 := by
  cases op with
  | allocate length owner =>
    obtain ⟨_, hallocate, ⟨⟩⟩ := exists_of_map_eq_ok h
    exact (get?_of_allocateWith (allocateWith_of_allocate (Prod.ext hallocate rfl))).1
  | allocateWith bytes owner =>
    obtain ⟨_, hallocate, ⟨⟩⟩ := exists_of_map_eq_ok h
    exact (get?_of_allocateWith (Prod.ext hallocate rfl)).1
  | release => cases h
  | read | write | load | store =>
    obtain ⟨_, _, hanswer⟩ := exists_of_map_eq_ok h
    cases hanswer

/-- Releasing a number without a buffer changes nothing. -/
theorem release_of_none (h : id ≠ .null → a.get? id = none) : a.release id = a := by
  by_cases hid : id = .null
  · subst hid
    rfl
  · have hnone := h hid
    unfold get? at hnone
    unfold release
    rw [slot?_of_ne_null hid] at hnone ⊢
    refine congrArg Arena.mk (Array.ext Array.size_setIfInBounds fun i _ hi => ?_)
    rw [Array.getElem_setIfInBounds]
    split
    · rename_i hindex
      subst hindex
      simp only [Array.getElem?_eq_getElem hi, Option.join_some] at hnone
      exact hnone.symm
    · rfl

/-! ## What operations answer -/

/-- The arena answers as its history says. -/
theorem Recorded.faithful (h : Recorded past a) : Faithful past a where
  numbered hperform := by rw [index_of_perform hperform, h.count]
  dangling {op access} haccess hid hdead := by
    obtain ⟨answer, hperform⟩ := perform_of_access haccess a
    rw [hperform, start_of_none (h.get?_eq_none hid hdead)]
    rfl
  shape hb hlive := by
    obtain ⟨c, hget, howner, hsize, -⟩ := h.kept hb hlive
    exact ⟨c, hget, howner, hsize⟩
  unused {id} hunused := by
    have hnone (hid : id ≠ .null) : a.get? id = none :=
      h.get?_eq_none hid (hunused.resolve_left hid)
    exact congrArg (Prod.mk _) (release_of_none hnone)
  bounds {op access length} haccess hlength := by
    obtain ⟨answer, hperform⟩ := perform_of_access haccess a
    obtain ⟨c, hget, rfl⟩ := h.exists_get? hlength
    rw [hperform, start_of_some hget]
    split
    · exact ⟨answer, rfl⟩
    · rfl
  bytes {id b offset width bytes} hb hread := by
    refine ⟨length_of_read hread, fun k hk => ?_⟩
    rcases hstart : a.start id offset width with fault | start
    · rw [read_of_error hstart] at hread
      cases hread
    · obtain ⟨c, hget, hpos, hend, rfl⟩ := start_eq_ok_iff.1 hstart
      have hlive : ¬ Released past id := by
        intro hgone
        rw [h.gone id hgone] at hget
        cases hget
      obtain ⟨current, hcurrent, -, -, hbytes⟩ := h.kept hb hlive
      cases hcurrent.symm.trans hget
      rw [read_of_start hstart hget] at hread
      cases hread
      have hsize : c.size = c.bytes.size := rfl
      rw [Array.getElem?_toList, Array.getElem?_extract, if_pos (by omega), hbytes]
  value {p v} hload harray := by
    have hvoid : p.pointee ≠ .void := by
      intro hvoid
      obtain ⟨buffer, offset, pointee⟩ := p
      cases hvoid
      cases hload
    rw [load_eq harray hvoid] at hload
    rcases hread : a.read p.buffer p.offset p.pointee.size with fault | bytes
    · rw [hread] at hload
      cases hload
    · rw [hread] at hload
      exact ⟨bytes, rfl, hload⟩
  refused hrefused := perform_of_refused hrefused a
  unchanged hfailed := perform_of_error hfailed

end Arena

/-- Whatever was done to a fresh arena, every further operation answers as this history says. -/
theorem faithful_after (ops : List StorageOp) :
    (Arena.after ops).2.Faithful (Arena.after ops).1 :=
  (Arena.Recorded.after ops).faithful

/-- A load through an untyped pointer is refused as such, also where the buffer was released. -/
theorem untyped_load_of_released :
    let ops : List StorageOp := [.allocate 1 .scoped, .release ⟨1⟩]
    Released (Arena.after ops).1 ⟨1⟩ ∧
      ((Arena.after ops).2.perform (.load ⟨⟨1⟩, 0, .void⟩)).1 ≠ .error (.dangling ⟨1⟩) := by
  refine ⟨⟨[⟨.release ⟨1⟩, .ok .done⟩], [⟨.allocate 1 .scoped, .ok (.buffer ⟨1⟩)⟩], rfl,
    ⟨⟨#[0], .scoped⟩, _, List.mem_singleton_self _, rfl⟩, _, List.mem_singleton_self _, rfl⟩, nofun⟩

end BoundedC
