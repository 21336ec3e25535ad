import BoundedC.Evaluator
import BoundedC.Proofs.Release
import BoundedC.Proofs.Slots
import BoundedC.Proofs.TypedStorage
import Mathlib.Data.List.Zip

/-!
# Contents of initialized arrays

What `a[i]...[k]` is right after an array was declared with an array literal. The value of a scalar of
the literal stands in the slot that the literal gives it; indexing comes to the slot with the
row-major number of the indices; where no value was stored, there are zeros.

* `CType.IsGrid` : arrays of scalars with any number of dimensions;
* `CType.slotAt?` : the slot that indices lead to;
* `Effect.run_storeSlots_eq_ok` : storage after values were stored in slots;
* `Evaluator.reads_indexed` : an indexed expression reads the slot of its indices;
* `contents_of_define` : an array after its declaration.
-/

namespace BoundedC

/-! ## Grids -/

namespace CType

/-- A scalar, or an array of positive length whose elements are grids themselves. -/
inductive IsGrid : CType → Prop
  | scalar {t : CType} (h : t.isScalar = true) : IsGrid t
  | array {element : CType} {length : Nat} (hlength : 0 < length) (h : IsGrid element) :
    IsGrid (array element length)

/-- The slot that indices lead to, the outermost first, if there are as many as the type has dimensions
and each is in range: rows lie one behind the other. -/
def slotAt? : CType → List Nat → Option Nat
  | array element length, index :: inner =>
    if index < length then (element.slotAt? inner).map (index * element.scalarCount + ·) else none
  | array .., [] => none
  | _, [] => some 0
  | _, _ :: _ => none

variable {t element : CType} {length : Nat}

theorem scalar_of_isScalar (h : t.isScalar = true) : t.scalar = t := by
  cases t with
  | array => cases h
  | _ => rfl

theorem scalarCount_of_isScalar (h : t.isScalar = true) : t.scalarCount = 1 := by
  cases t with
  | array => cases h
  | _ => rfl

theorem size_array_of_le (hlength : 0 < length) (h : (array element length).size ≤ maxObjectBytes) :
    (array element length).size = length * element.size ∧ element.size ≤ maxObjectBytes := by
  have hmax : maxObjectBytes < maxSize := by decide
  cases helement : element.size? with
  | none =>
    have hsize : (array element length).size = maxSize := by simp [size, size?, helement]
    omega
  | some bytes =>
    by_cases hfits : bytes * length ≤ maxSize
    · have hsize : (array element length).size = bytes * length := by
        simp [size, size?, helement, hfits]
      have hbytes : element.size = bytes := by simp [size, helement]
      rw [hsize] at h
      rw [hsize, hbytes, Nat.mul_comm]
      exact ⟨rfl, Nat.le_trans (Nat.le_mul_of_pos_right bytes hlength) h⟩
    · have hsize : (array element length).size = maxSize := by simp [size, size?, helement, hfits]
      omega

namespace IsGrid

theorem isScalar_scalar (h : t.IsGrid) : t.scalar.isScalar = true := by
  induction h with
  | scalar h => rwa [scalar_of_isScalar h]
  | array _ _ ih => exact ih

theorem ne_void (h : t.IsGrid) : t ≠ void := by
  rintro rfl
  cases h
  contradiction

theorem stride_eq (h : t.IsGrid) : t.stride = t.size := by
  cases t with
  | void => exact absurd rfl h.ne_void
  | _ => rfl

theorem size_eq (h : t.IsGrid) (hsize : t.size ≤ maxObjectBytes) :
    t.size = t.scalarCount * t.scalar.size := by
  induction h with
  | scalar h => rw [scalarCount_of_isScalar h, scalar_of_isScalar h, Nat.one_mul]
  | @array element length hlength _ ih =>
    obtain ⟨heq, hle⟩ := size_array_of_le hlength hsize
    rw [heq, ih hle, scalarCount, CType.scalar, Nat.mul_assoc]

theorem scalarCount_pos (h : t.IsGrid) : 0 < t.scalarCount := by
  induction h with
  | scalar h =>
    rw [scalarCount_of_isScalar h]
    exact Nat.one_pos
  | array hlength _ ih => exact Nat.mul_pos hlength ih

theorem counted (h : t.IsGrid) (hsize : t.size ≤ maxObjectBytes) : t.Counted := by
  refine ⟨h.scalarCount_pos, Nat.le_trans ?_ hsize⟩
  rw [h.size_eq hsize]
  exact Nat.le_mul_of_pos_right _ (size_pos_of_isScalar h.isScalar_scalar)

/-- A slot ends within the object. -/
theorem slot_end_le (h : t.IsGrid) (hsize : t.size ≤ maxObjectBytes) {slot : Nat}
    (hslot : slot < t.scalarCount) : slot * t.scalar.size + t.scalar.size ≤ t.size := by
  rw [h.size_eq hsize, ← Nat.succ_mul]
  exact Nat.mul_le_mul_right _ hslot

end IsGrid

theorem slotAt?_array_eq_some {indices : List Nat} {slot : Nat}
    (h : (array element length).slotAt? indices = some slot) :
    ∃ index inner rest, indices = index :: inner ∧ index < length ∧
      element.slotAt? inner = some rest ∧ slot = index * element.scalarCount + rest := by
  cases indices with
  | nil => cases h
  | cons index inner =>
    rw [slotAt?] at h
    split at h
    · obtain ⟨rest, hrest, rfl⟩ := Option.map_eq_some_iff.1 h
      exact ⟨index, inner, rest, rfl, ‹_›, hrest, rfl⟩
    · cases h

theorem slotAt?_scalar_eq_some (ht : t.isScalar = true) {indices : List Nat} {slot : Nat}
    (h : t.slotAt? indices = some slot) : indices = [] ∧ slot = 0 := by
  cases t with
  | void | array => cases ht
  | _ =>
    cases indices with
    | nil =>
      cases h
      exact ⟨rfl, rfl⟩
    | cons => cases h

theorem IsGrid.slotAt?_lt (ht : t.IsGrid) {indices : List Nat} {slot : Nat}
    (h : t.slotAt? indices = some slot) : slot < t.scalarCount := by
  induction ht generalizing indices slot with
  | scalar ht =>
    obtain ⟨-, rfl⟩ := slotAt?_scalar_eq_some ht h
    rw [scalarCount_of_isScalar ht]
    exact Nat.one_pos
  | @array element length hlength _ ih =>
    obtain ⟨index, inner, rest, -, hindex, hrest, rfl⟩ := slotAt?_array_eq_some h
    have hle := Nat.mul_le_mul_right element.scalarCount (Nat.succ_le_of_lt hindex)
    have := ih hrest
    rw [Nat.succ_mul] at hle
    rw [scalarCount]
    omega

/-- Every slot has indices. -/
theorem IsGrid.exists_slotAt? (ht : t.IsGrid) {slot : Nat} (h : slot < t.scalarCount) :
    ∃ indices, t.slotAt? indices = some slot := by
  induction ht generalizing slot with
  | @scalar t ht =>
    cases t with
    | void | array => cases ht
    | _ => exact ⟨[], congrArg some (Nat.lt_one_iff.1 h).symm⟩
  | @array element length _ helement ih =>
    rw [scalarCount] at h
    have hrow : slot / element.scalarCount < length := Nat.div_lt_of_lt_mul (by rwa [Nat.mul_comm])
    obtain ⟨inner, hinner⟩ := ih (Nat.mod_lt slot helement.scalarCount_pos)
    refine ⟨slot / element.scalarCount :: inner, ?_⟩
    rw [slotAt?, if_pos hrow, hinner, Option.map_some, Nat.mul_comm, Nat.div_add_mod]

end CType

/-! ## Storage -/

theorem Value.decode_zeros {t : CType} (h : t.isScalar = true) :
    decode t (List.replicate t.size 0) = (int 0).convert t := by
  cases t with
  | void | array => cases h
  | _ => rfl

namespace Arena

variable {a b : Arena} {id : BufferId} {p : Pointer}

theorem start_of_allocate {length : Nat} {owner : Owner} (h : a.allocate length owner = (.ok id, b)) :
    b.start id 0 length = .ok 0 := by
  obtain ⟨-, -, -, hget, -⟩ := get?_of_allocateWith (allocateWith_of_allocate h)
  have hsize : Buffer.size ⟨Array.replicate length 0, owner⟩ = length := Array.size_replicate
  exact start_eq_ok_iff.2 ⟨_, hget, Int.le_refl 0, by rw [hsize, Int.zero_add], rfl⟩

/-- A new buffer holds zeros. -/
theorem load_of_allocate {length : Nat} {owner : Owner} (h : a.allocate length owner = (.ok p.buffer, b))
    (hp : p.pointee.isScalar = true) (hpos : 0 ≤ p.offset) (hend : p.offset + p.pointee.size ≤ length) :
    b.load p = (Value.int 0).convert p.pointee := by
  obtain ⟨-, -, -, hget, -⟩ := get?_of_allocateWith (allocateWith_of_allocate h)
  have hsize : Buffer.size ⟨Array.replicate length 0, owner⟩ = length := Array.size_replicate
  have hstart : b.start p.buffer p.offset p.pointee.size = .ok p.offset.toNat :=
    start_eq_ok_iff.2 ⟨_, hget, hpos, by rwa [hsize], rfl⟩
  have hzeros : ((Array.replicate length (0 : UInt8)).extract p.offset.toNat
      (p.offset.toNat + p.pointee.size)).toList = List.replicate p.pointee.size 0 := by
    rw [Array.extract_replicate, Array.toList_replicate, Nat.min_eq_left (by omega),
      Nat.add_sub_cancel_left]
  rw [load_eq_of_isScalar b hp, read_of_start hstart hget, hzeros]
  exact Value.decode_zeros hp

/-- Part of an access that stays within its buffer stays there, too. -/
theorem start_within {offset : Int} {width start inner part : Nat}
    (h : a.start id offset width = .ok start) (hpart : inner + part ≤ width) :
    a.start id (start + inner : Nat) part = .ok (start + inner) := by
  obtain ⟨c, hget, hpos, hend, rfl⟩ := start_eq_ok_iff.1 h
  exact start_eq_ok_iff.2 ⟨c, hget, Int.natCast_nonneg _, by omega, rfl⟩

theorem load_array_of_start {offset : Int} {element : CType} {length start : Nat}
    (h : a.start id offset (CType.array element length).size = .ok start) :
    a.load ⟨id, offset, .array element length⟩ = .ok (.pointer ⟨id, offset, element⟩) := by
  simp only [load, h]
  rfl

/-- A scalar that lies in a live buffer can be loaded. -/
theorem exists_load_of_start {offset : Int} {t : CType} {start : Nat} (ht : t.isScalar = true)
    (h : a.start id offset t.size = .ok start) : ∃ v, a.load ⟨id, offset, t⟩ = .ok v := by
  have hvoid : t ≠ .void := by
    rintro rfl
    cases ht
  obtain ⟨v, hv⟩ := exists_load_eq a (p := ⟨id, offset, t⟩) hvoid
  rw [h] at hv
  exact ⟨v, hv⟩

theorem start_of_store {v stored : Value} (h : a.store p v = (.ok stored, b)) (id : BufferId)
    (offset : Int) (width : Nat) : b.start id offset width = a.start id offset width := by
  obtain ⟨-, bytes, start, -, -, rfl⟩ := store_eq_ok_iff.1 h
  exact start_overwrite ..

end Arena

/-- The place of a slot in a buffer that is divided into slots of a type. -/
def Pointer.toSlot (id : BufferId) (type : CType) (slot : Nat) : Pointer := ⟨id, slot * type.size, type⟩

theorem Pointer.toSlot_eq (id : BufferId) (type : CType) (slot : Nat) :
    toSlot id type slot = ⟨id, (slot * type.size : Nat), type⟩ := by
  rw [toSlot]
  push_cast
  rfl

/-- Different slots lie apart. -/
theorem Pointer.toSlot_apart (id : BufferId) (type : CType) {slot other : Nat} (h : slot ≠ other) :
    (toSlot id type slot).offset + type.size ≤ (toSlot id type other).offset ∨
      (toSlot id type other).offset + type.size ≤ (toSlot id type slot).offset := by
  have hrow {m n : Nat} (h : m < n) : m * type.size + type.size ≤ n * type.size := by
    have := Nat.mul_le_mul_right type.size (Nat.succ_le_of_lt h)
    rwa [Nat.succ_mul] at this
  simp only [toSlot_eq]
  rcases Nat.lt_or_gt_of_ne h with h | h
  · exact .inl (by exact_mod_cast hrow h)
  · exact .inr (by exact_mod_cast hrow h)

theorem nodup_map_snd_zip {slots : List Nat} (h : slots.Nodup) (values : List Value) :
    ((values.zip slots).map Prod.snd).Nodup := by
  rw [List.zip_eq_zip_take_min, List.map_snd_zip (by simp)]
  exact h.sublist (List.take_sublist ..)

namespace Effect

open Arena

/-- A value that is stored in a slot stands there, and other slots are as they were. -/
theorem run_storeSlots_eq_ok {place : Location} {id : BufferId} {type : CType}
    (htype : type.isScalar = true) {pairs : List (Value × Nat)} (hslots : (pairs.map Prod.snd).Nodup)
    {s t : ProgramState} {u : Unit} (h : (storeSlots place id type pairs).run s = (.ok u, t)) :
    t.calls = s.calls ∧
      (∀ other offset width, t.memory.start other offset width = s.memory.start other offset width) ∧
      ∀ slot, t.memory.load (.toSlot id type slot) =
        match (pairs.map Prod.swap).lookup slot with
        | some v => v.convert type
        | none => s.memory.load (.toSlot id type slot) := by
  induction pairs generalizing s with
  | nil =>
    cases h
    exact ⟨rfl, fun _ _ _ => rfl, fun _ => rfl⟩
  | cons pair rest ih =>
    obtain ⟨v, first⟩ := pair
    obtain ⟨_, m, hm, h⟩ := run_bind_eq_ok_iff.1 h
    obtain ⟨stored, hm⟩ := run_discard_eq_ok hm
    obtain ⟨hstore, hcalls⟩ := run_onMemory_eq_ok hm
    obtain ⟨hfirst, hrest⟩ := List.nodup_cons.1 hslots
    obtain ⟨hcalls', hstarts, hloads⟩ := ih hrest h
    refine ⟨hcalls'.trans hcalls, fun other offset width =>
      (hstarts other offset width).trans (start_of_store hstore ..), fun slot => ?_⟩
    rw [hloads slot, List.map_cons, Prod.swap_prod_mk, List.lookup_cons]
    by_cases hslot : slot = first
    · subst hslot
      have hnone : (rest.map Prod.swap).lookup slot = none := by
        refine List.lookup_eq_none_iff.2 fun q hq => ?_
        obtain ⟨pair, hpair, rfl⟩ := List.mem_map.1 hq
        simpa using fun h : slot = pair.2 => hfirst (List.mem_map.2 ⟨pair, hpair, h.symm⟩)
      rw [hnone, beq_self_eq_true]
      exact (load_of_store hstore).trans (store_eq_ok_iff.1 hstore).1.symm
    · rw [beq_false_of_ne hslot]
      rcases (rest.map Prod.swap).lookup slot with _ | w
      · exact load_of_store_apart hstore htype fun _ => Pointer.toSlot_apart id type hslot
      · rfl

end Effect

/-! ## Reading places -/

/-- The expression with subscripts behind it, each with the place it is indexed at. -/
def Node.indexed (array : Node) (subscripts : List (Location × Node)) : Node :=
  subscripts.foldl (fun array subscript => .index subscript.1 array subscript.2) array

/-- An index moves within the range of offsets. -/
theorem Value.element_of_natCast {v : Value} {n : Int32} {index offset : Nat} {id : BufferId} {t : CType}
    (hn : v.int? = some n) (hindex : n.toInt = index) (hstride : t.stride = t.size)
    (hend : offset + index * t.size ≤ maxObjectBytes) :
    (Value.pointer ⟨id, offset, t⟩).element v = .ok ⟨id, (offset + index * t.size : Nat), t⟩ := by
  have hmax : maxObjectBytes < 0x80000000 := by decide
  have hcast : (offset : Int) + index * t.size = (offset + index * t.size : Nat) := by
    push_cast
    rfl
  have hadd : Pointer.add ⟨id, offset, t⟩ n = .ok ⟨id, (offset + index * t.size : Nat), t⟩ := by
    rw [Pointer.add_eq_ok_iff, hindex, hstride, hcast]
    exact ⟨decide_eq_true ⟨by omega, by omega⟩, rfl⟩
  simp only [Value.element, hn, hadd]
  rfl

namespace Evaluator

open Evaluation

variable (i : Interpreter) (s : ProgramState) {node array index : Node} {place : Location}

/-- With enough fuel the expression has the value, and its evaluation changes nothing. -/
def Yields (node : Node) (v : Value) : Prop :=
  ∃ enough, ∀ fuel, enough ≤ fuel → (evaluate i fuel node).run s = some (.ok v, s)

/-- The expression has the value that the place holds. -/
def Reads (node : Node) (p : Pointer) : Prop := ∀ v, s.memory.load p = .ok v → Yields i s node v

/-- The expression counts elements. -/
def Counts (node : Node) (index : Nat) : Prop :=
  ∃ v n, Yields i s node v ∧ v.int? = some n ∧ n.toInt = index

variable {i s}

theorem reads_identifier {name : String} {b : Binding}
    (hb : s.calls.top?.bind (·.lookup? name) = some b) : Reads i s (.identifier place name) b.pointer := by
  intro v hv
  refine ⟨1, fun fuel hfuel => ?_⟩
  obtain ⟨fuel, rfl⟩ := Nat.exists_eq_add_of_le' hfuel
  have hload : (Effect.load place b.pointer).run s = (.ok v, s) := Effect.run_readMemory_of_ok place hv
  rw [evaluate, run_ofEffect, Effect.variableValue,
    Effect.run_bind_of_ok (Effect.run_lookup_of_some place hb), hload]

theorem counts_intLiteral {n : Int32} {index : Nat} (h : n.toInt = index) :
    Counts i s (.intLiteral place n) index := by
  refine ⟨.int n, n, ⟨1, fun fuel hfuel => ?_⟩, rfl, h⟩
  obtain ⟨fuel, rfl⟩ := Nat.exists_eq_add_of_le' hfuel
  rw [evaluate]
  rfl

/-- Indexing comes to an element of the pointer and reads it. -/
theorem yields_index {a v w : Value} {p : Pointer} (harray : Yields i s array a)
    (hindex : Yields i s index v) (hp : a.element v = .ok p) (hw : s.memory.load p = .ok w) :
    Yields i s (.index place array index) w := by
  obtain ⟨m, hm⟩ := harray
  obtain ⟨n, hn⟩ := hindex
  refine ⟨max m n + 2, fun fuel hfuel => ?_⟩
  obtain ⟨fuel, rfl⟩ := Nat.exists_eq_add_of_le' hfuel
  have hplace : (Effect.elementPlace place a v).run s = (.ok p, s) := by
    rw [Effect.elementPlace, hp]
    rfl
  have hlocate : (locate i (fuel + max m n + 1) (.index place array index) .read).run s =
      some (.ok p, s) := by
    rw [locate, run_bind_eq_ok_iff]
    refine ⟨a, s, hm _ (by omega), ?_⟩
    rw [run_bind_eq_ok_iff]
    exact ⟨v, s, hn _ (by omega), by rw [run_ofEffect, hplace]⟩
  have hload : (Effect.load place p).run s = (.ok w, s) := Effect.run_readMemory_of_ok place hw
  show (evaluate i (fuel + max m n + 1 + 1) _).run s = _
  rw [evaluate, run_bind_eq_ok_iff]
  exact ⟨p, s, hlocate, by rw [run_ofEffect, hload]⟩

/-- Indexing a grid comes to the slot of the indices. -/
theorem reads_indexed {t : CType} (ht : t.IsGrid) {id : BufferId} {offset : Nat}
    (hend : offset + t.size ≤ maxObjectBytes) (hstart : s.memory.start id offset t.size = .ok offset)
    {indices : List Nat} {slot : Nat} (hslot : t.slotAt? indices = some slot)
    {subscripts : List (Location × Node)}
    (hcounts : List.Forall₂ (fun subscript => Counts i s subscript.2) subscripts indices)
    (hnode : Reads i s node ⟨id, offset, t⟩) :
    Reads i s (node.indexed subscripts) ⟨id, (offset + slot * t.scalar.size : Nat), t.scalar⟩ := by
  induction ht generalizing offset indices slot subscripts node with
  | @scalar t h =>
    obtain ⟨rfl, rfl⟩ := CType.slotAt?_scalar_eq_some h hslot
    cases hcounts
    rwa [Nat.zero_mul, CType.scalar_of_isScalar h]
  | @array element length hlength helement ih =>
    obtain ⟨index, inner, rest, rfl, hindex, hrest, rfl⟩ := CType.slotAt?_array_eq_some hslot
    have harray : (CType.array element length).size ≤ maxObjectBytes := by omega
    obtain ⟨heq, hle⟩ := CType.size_array_of_le hlength harray
    cases hcounts with
    | @cons first _ others _ hfirst hothers =>
      obtain ⟨v, n, hv, hn, hnindex⟩ := hfirst
      have hrow := Nat.mul_le_mul_right element.size (Nat.succ_le_of_lt hindex)
      rw [Nat.succ_mul] at hrow
      have hstart' : s.memory.start id (offset + index * element.size : Nat) element.size =
          .ok (offset + index * element.size) := Arena.start_within hstart (by omega)
      have hplace : (Value.pointer ⟨id, offset, element⟩).element v =
          .ok ⟨id, (offset + index * element.size : Nat), element⟩ :=
        Value.element_of_natCast hn hnindex (helement.stride_eq) (by omega)
      have hload := Arena.load_array_of_start hstart
      have hreads : Reads i s (.index first.1 node first.2)
          ⟨id, (offset + index * element.size : Nat), element⟩ :=
        fun w hw => yields_index (hnode _ hload) hv hplace hw
      have hslots : offset + (index * element.scalarCount + rest) * element.scalar.size =
          offset + index * element.size + rest * element.scalar.size := by
        rw [helement.size_eq hle, Nat.add_mul, Nat.mul_assoc, Nat.add_assoc]
      rw [Node.indexed, List.foldl_cons, CType.scalar, hslots]
      exact ih (by omega) hstart' hrest hothers hreads

end Evaluator

/-! ## Declarations -/

namespace Effect

variable {d : Declaration} {element : CType} {length : Nat} {site : Location} {elements : List Node}
  {values : List Value} {b : Binding} {s t : ProgramState}

/-- A literal fills an array by its slots. -/
theorem run_fill_eq_ok (htype : d.type = .array element length)
    (hinit : d.init = some (.arrayLiteral site elements)) {u : Unit}
    (h : (d.fill b values).run s = (.ok u, t)) :
    ∃ slots, (Node.arrayLiteral site elements).slots 0 d.type = .ok slots ∧
      (storeSlots d.place b.buffer d.type.scalar (values.zip slots)).run s = (.ok u, t) := by
  obtain ⟨place, name, type, isConst, init⟩ := d
  cases htype
  cases hinit
  simp only [Declaration.fill] at h ⊢
  rcases hslots : (Node.arrayLiteral site elements).slots 0 (.array element length) with fault | slots
  · rw [hslots] at h
    cases fault <;> cases h
  · rw [hslots] at h
    exact ⟨slots, rfl, h⟩

/-- The values of the scalars of the list are what the declaration needs. -/
theorem operands_eq_leavesOf (htype : d.type = .array element length)
    (hinit : d.init = some (.arrayLiteral site elements)) : d.operands = Node.leavesOf elements := by
  obtain ⟨place, name, type, isConst, init⟩ := d
  cases htype
  cases hinit
  rfl

/-- A declaration that succeeds allocates the variable, binds its name and fills it. -/
theorem run_define_eq_ok (h : (d.define values).run s = (.ok b, t)) :
    ∃ u, s.memory.allocate d.type.size .scoped = (.ok b.buffer, u.memory) ∧ b.type = d.type ∧
      u.calls.top?.bind (·.lookup? d.name) = some b ∧ (d.fill b values).run u = (.ok (), t) := by
  unfold Declaration.define at h
  split at h
  · obtain ⟨_, _, hu, _⟩ := run_bind_eq_ok_iff.1 h
    cases hu
  · obtain ⟨id, u, hu, h⟩ := run_bind_eq_ok_iff.1 h
    obtain ⟨_, v, hv, h⟩ := run_bind_eq_ok_iff.1 h
    obtain ⟨_, w, hw, h⟩ := run_bind_eq_ok_iff.1 h
    cases h
    obtain ⟨a, callers, -, hcalls, hmemory⟩ := run_modifyCurrent_eq_ok hv
    refine ⟨v, hmemory ▸ (run_onMemory_eq_ok hu).1, rfl, ?_, hw⟩
    rw [Stack.top?, hcalls, List.head?_cons, Option.bind_some]
    exact a.lookup?_declare_self d.name _

/-- The storage of an array behind its declaration: a slot of the literal holds the value that was given
for it, and the other slots hold zeros. -/
theorem run_define_list_eq_ok (htype : d.type = .array element length) (hgrid : d.type.IsGrid)
    (hsize : d.type.size ≤ maxObjectBytes) (hinit : d.init = some (.arrayLiteral site elements))
    (h : (d.define values).run s = (.ok b, t)) :
    ∃ slots, (Node.arrayLiteral site elements).slots 0 d.type = .ok slots ∧ b.type = d.type ∧
      t.calls.top?.bind (·.lookup? d.name) = some b ∧
      t.memory.start b.buffer (0 : Nat) d.type.size = .ok 0 ∧
      ∀ slot < d.type.scalarCount, t.memory.load (.toSlot b.buffer d.type.scalar slot) =
        (((slots.zip values).lookup slot).getD (.int 0)).convert d.type.scalar := by
  obtain ⟨u, hallocate, hbtype, hlookup, hfill⟩ := run_define_eq_ok h
  obtain ⟨slots, hslots, hstore⟩ := run_fill_eq_ok htype hinit hfill
  have hnodup : slots.Nodup :=
    (Node.ascending_of_slots (hgrid.counted hsize) 0 _ hslots).1.increasing.imp Nat.ne_of_lt
  obtain ⟨hcalls, hstarts, hloads⟩ :=
    run_storeSlots_eq_ok hgrid.isScalar_scalar (nodup_map_snd_zip hnodup values) hstore
  refine ⟨slots, hslots, hbtype, hcalls ▸ hlookup,
    (hstarts ..).trans (Arena.start_of_allocate hallocate), fun slot hslot => ?_⟩
  rw [hloads slot, List.zip_swap]
  rcases (slots.zip values).lookup slot with _ | v
  · have hend := hgrid.slot_end_le hsize hslot
    rw [Pointer.toSlot_eq]
    refine Arena.load_of_allocate hallocate hgrid.isScalar_scalar (Int.natCast_nonneg _) ?_
    dsimp only
    exact_mod_cast hend
  · rfl

end Effect

/-- A declaration of an array takes a value for each scalar of its array literal. The slots of the literal
increase, one for each scalar, and each list in it has a whole element for itself; every slot of the array
has indices; and once the array is declared, an indexed expression has the value that was given for the
slot of the indices, converted, or else is zero. -/
theorem contents_of_define {d : Declaration} {element : CType} {length : Nat} {site : Location}
    {elements : List Node} (htype : d.type = .array element length) (hgrid : d.type.IsGrid)
    (hsize : d.type.size ≤ maxObjectBytes) (hinit : d.init = some (.arrayLiteral site elements)) :
    d.operands = Node.leavesOf elements ∧
    (∀ base slots, (Node.arrayLiteral site elements).slots base d.type = .ok slots →
      Node.Spread base 0 element length elements slots) ∧
    (∀ slot < d.type.scalarCount, ∃ indices, d.type.slotAt? indices = some slot) ∧
    ∀ (i : Interpreter) (values : List Value) (b : Binding) (s t : ProgramState),
      (d.define values).run s = (.ok b, t) →
      ∃ slots, (Node.arrayLiteral site elements).slots 0 d.type = .ok slots ∧
        ∀ (place : Location) (subscripts : List (Location × Node)) (indices : List Nat) (slot : Nat),
          d.type.slotAt? indices = some slot →
          List.Forall₂ (fun subscript => Evaluator.Counts i t subscript.2) subscripts indices →
          ∃ v, (((slots.zip values).lookup slot).getD (.int 0)).convert d.type.scalar = .ok v ∧
            Evaluator.Yields i t ((Node.identifier place d.name).indexed subscripts) v := by
  refine ⟨Effect.operands_eq_leavesOf htype hinit, fun base slots h => ?_,
    fun slot => hgrid.exists_slotAt?, fun i values b s t h => ?_⟩
  · have hcounted := hgrid.counted hsize
    rw [htype] at h hcounted
    exact Node.spread_of_slots hcounted h
  · obtain ⟨slots, hslots, hbtype, hlookup, hstart, hloads⟩ :=
      Effect.run_define_list_eq_ok htype hgrid hsize hinit h
    refine ⟨slots, hslots, fun place subscripts indices slot hslot hcounts => ?_⟩
    have hlt := hgrid.slotAt?_lt hslot
    have hidentifier : Evaluator.Reads i t (.identifier place d.name) ⟨b.buffer, (0 : Nat), d.type⟩ := by
      rw [← hbtype]
      exact Evaluator.reads_identifier hlookup
    have hreads := Evaluator.reads_indexed hgrid (by omega) hstart hslot hcounts hidentifier
    obtain ⟨v, hv⟩ := Arena.exists_load_of_start hgrid.isScalar_scalar
      (Arena.start_within hstart (hgrid.slot_end_le hsize hlt))
    rw [Nat.zero_add, ← Pointer.toSlot_eq] at hreads hv
    exact ⟨v, (hloads slot hlt).symm.trans hv, hreads v hv⟩

/-- After `int a[2][3] = {1, {2}}` it is 2 that stands in `a[1][0]`, and `a[0][2]` is zero. -/
theorem exists_contents_of_define : ∃ (d : Declaration) (b : Binding) (s t : ProgramState),
    d.type = .array (.array .int 3) 2 ∧
      d.init = some (.arrayLiteral .start
        [.intLiteral .start 1, .arrayLiteral .start [.intLiteral .start 2]]) ∧
      (d.define [.int 1, .int 2]).run s = (.ok b, t) ∧
      ∀ (i : Interpreter) (place : Location),
        Evaluator.Yields i t (.index place (.index place (.identifier place d.name) (.intLiteral place 1))
          (.intLiteral place 0)) (.int 2) ∧
        Evaluator.Yields i t (.index place (.index place (.identifier place d.name) (.intLiteral place 0))
          (.intLiteral place 2)) (.int 0) := by
  let element := CType.array .int 3
  let elements := [Node.intLiteral .start 1, .arrayLiteral .start [.intLiteral .start 2]]
  let d : Declaration := ⟨.start, "a", .array element 2, false, some (.arrayLiteral .start elements)⟩
  let s : ProgramState := ⟨.empty, .push .empty (.start "main" .int none), .unlimited, 0⟩
  let b : Binding := ⟨⟨1⟩, .array element 2, false⟩
  have hgrid : d.type.IsGrid := .array (by decide) (.array (by decide) (.scalar rfl))
  have hrun : (d.define [.int 1, .int 2]).run s = (.ok b, ((d.define [.int 1, .int 2]).run s).2) :=
    Prod.ext (by decide +kernel) rfl
  obtain ⟨-, -, -, hcontents⟩ := contents_of_define (d := d) rfl hgrid (by decide) rfl
  refine ⟨d, b, s, _, rfl, rfl, hrun, fun i place => ?_⟩
  obtain ⟨slots, hslots, hvalues⟩ := hcontents i _ b s _ hrun
  have hexpected : (Node.arrayLiteral .start elements).slots 0 d.type = .ok [0, 3] := by decide
  cases hexpected.symm.trans hslots
  constructor
  · obtain ⟨v, hv, hyields⟩ := hvalues place [(place, .intLiteral place 1), (place, .intLiteral place 0)]
      [1, 0] 3 rfl (.cons (Evaluator.counts_intLiteral rfl) (.cons (Evaluator.counts_intLiteral rfl) .nil))
    cases hv
    exact hyields
  · obtain ⟨v, hv, hyields⟩ := hvalues place [(place, .intLiteral place 0), (place, .intLiteral place 2)]
      [0, 2] 2 rfl (.cons (Evaluator.counts_intLiteral rfl) (.cons (Evaluator.counts_intLiteral rfl) .nil))
    cases hv
    exact hyields

end BoundedC
