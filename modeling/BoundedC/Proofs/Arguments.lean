import BoundedC.Proofs.ArrayContents

/-!
# The arguments of `main`

What `argc` and `argv` are. The table of the arguments is allocated first, as zeros. Then each argument
in turn gets a buffer of its own, and a pointer to it is stored in the next slot of the table; the last
slot keeps its zeros, which are a null pointer.

* `Arena.Tabled a b table slot args strings` : what the loop makes of an arena `a`. All that was in `a`
  is as it was, but for the slots of the table that were filled;
* `Effect.exists_tabled` : the loop succeeds and does that, by induction on the arguments;
* `Arena.HoldsArguments` : what a program finds in its memory when it starts;
* `exists_holdsArguments` : it finds that.
-/

namespace BoundedC

abbrev argumentType : CType := .pointer .char

namespace Arena

variable {a b c : Arena} {table id : BufferId} {slot : Nat} {arg : List UInt8} {args : List (List UInt8)}
  {strings : List BufferId}

/-- What an access comes to depends on no other buffer. -/
theorem start_congr (h : b.get? id = a.get? id) (offset : Int) (width : Nat) :
    b.start id offset width = a.start id offset width := by
  unfold Arena.start Arena.get
  rw [h]

theorem load_congr {p : Pointer} (h : b.get? p.buffer = a.get? p.buffer) : b.load p = a.load p := by
  have hget : b.get p.buffer = a.get p.buffer := by
    unfold Arena.get
    rw [h]
  unfold load read
  simp only [start_congr h, hget]

/-- While there are numbers left, an allocation of given bytes succeeds. -/
theorem exists_allocateWith (h : a.slots.size + 1 < 0xffffffff) (bytes : Array UInt8) (owner : Owner) :
    ∃ id b, a.allocateWith bytes owner = (.ok id, b) :=
  ⟨_, _, if_pos h⟩

theorem get?_of_store {p : Pointer} {v stored : Value} (h : a.store p v = (.ok stored, b))
    (hid : id ≠ p.buffer) : b.get? id = a.get? id := by
  obtain ⟨-, bytes, start, -, -, rfl⟩ := store_eq_ok_iff.1 h
  exact get?_overwrite_of_ne a hid start bytes

theorem size_of_store {p : Pointer} {v stored : Value} (h : a.store p v = (.ok stored, b)) :
    b.slots.size = a.slots.size := by
  obtain ⟨-, bytes, start, -, -, rfl⟩ := store_eq_ok_iff.1 h
  exact size_overwrite ..

/-! ## The loop -/

/-- The buffer holds the argument, closed by a NUL. -/
def HasString (a : Arena) (arg : List UInt8) (id : BufferId) : Prop :=
  a.get? id = some ⟨(arg ++ [0]).toArray, .argument⟩

/-- The arena `b` is `a` with the arguments in buffers of their own, and with pointers to them in the
table, from a slot on. -/
structure Tabled (a b : Arena) (table : BufferId) (slot : Nat) (args : List (List UInt8))
    (strings : List BufferId) : Prop where
  fresh : ∀ id ∈ strings, a.slots.size < id.index.toNat
  distinct : strings.Nodup
  contents : List.Forall₂ b.HasString args strings
  entries : ∀ k id, strings[k]? = some id →
    b.load (.toSlot table argumentType (slot + k)) = .ok (.pointer ⟨id, 0, .char⟩)
  rest : ∀ k, k < slot ∨ slot + args.length ≤ k →
    b.load (.toSlot table argumentType k) = a.load (.toSlot table argumentType k)
  bounds : ∀ offset width, b.start table offset width = a.start table offset width
  others : ∀ id, id ≠ table → id ∉ strings → b.get? id = a.get? id

theorem Tabled.nil (a : Arena) (table : BufferId) (slot : Nat) : Tabled a a table slot [] [] where
  fresh := by simp
  distinct := List.nodup_nil
  contents := .nil
  entries := by simp
  rest := fun _ _ => rfl
  bounds := fun _ _ => rfl
  others := fun _ _ _ => rfl

/-- One argument, and then the others: neither the stores of the others nor their buffers touch its
string or its slot. -/
theorem Tabled.cons {u v : Arena} (htable : table.index.toNat ≤ a.slots.size)
    (hallocate : a.allocateWith (arg ++ [0]).toArray .argument = (.ok id, u))
    (hstore : u.store (.toSlot table argumentType slot) (.pointer ⟨id, 0, .char⟩) =
      (.ok (.pointer ⟨id, 0, .char⟩), v))
    (h : Tabled v b table (slot + 1) args strings) :
    Tabled a b table slot (arg :: args) (id :: strings) := by
  obtain ⟨hindex, -, hsize, hget, hothers⟩ := get?_of_allocateWith hallocate
  have hvsize : v.slots.size = a.slots.size + 1 := (size_of_store hstore).trans hsize
  have hid : id ≠ table := by
    rintro rfl
    omega
  have hnotMem : id ∉ strings := by
    intro hmem
    have := h.fresh id hmem
    omega
  have htableGet : u.get? table = a.get? table := hothers table hid.symm
  refine ⟨?_, List.nodup_cons.2 ⟨hnotMem, h.distinct⟩, .cons ?_ h.contents, ?_, ?_, ?_, ?_⟩
  · intro other hother
    rcases List.mem_cons.1 hother with rfl | hother
    · omega
    · have := h.fresh other hother
      omega
  · rw [HasString, h.others id hid hnotMem, get?_of_store hstore hid, hget]
  · intro k other hk
    cases k with
    | zero =>
      cases hk
      rw [Nat.add_zero, h.rest slot (.inl (Nat.lt_succ_self slot)), load_of_store hstore]
    | succ k =>
      rw [show slot + (k + 1) = slot + 1 + k by omega]
      exact h.entries k other hk
  · intro k hk
    rw [List.length_cons] at hk
    have hne : k ≠ slot := by omega
    rw [h.rest k (by omega), load_of_store_apart hstore rfl fun _ => Pointer.toSlot_apart table _ hne]
    exact load_congr htableGet
  · intro offset width
    rw [h.bounds, start_of_store hstore, start_congr htableGet]
  · intro other hne hother
    rw [List.mem_cons, not_or] at hother
    rw [h.others other hne hother.2, get?_of_store hstore hne, hothers other hother.1]

end Arena

namespace Effect

open Arena

variable {place : Location} {table : BufferId} {slot width : Nat} {s : ProgramState}

/-- One argument: its buffer is new, and there is a slot for the pointer to it. -/
theorem exists_run_argument (place : Location) (arg : List UInt8)
    (hroom : s.memory.slots.size + 1 < 0xffffffff) (htable : s.memory.start table 0 width = .ok 0)
    (hslot : (slot + 1) * pointerBytes ≤ width) :
    ∃ id u v, s.memory.allocateWith (arg ++ [0]).toArray .argument = (.ok id, u) ∧
      u.store (.toSlot table argumentType slot) (.pointer ⟨id, 0, .char⟩) =
        (.ok (.pointer ⟨id, 0, .char⟩), v) ∧
      table.index.toNat ≤ s.memory.slots.size ∧ v.start table 0 width = .ok 0 ∧
      ∀ rest : Effect Unit, (do
        let id ← allocateWith place (arg ++ [0]) .argument
        storeSlots place table argumentType [(.pointer ⟨id, 0, .char⟩, slot)]
        rest).run s = rest.run { s with memory := v } := by
  have hlive : table.index.toNat ≤ s.memory.slots.size := by
    obtain ⟨c, hget, -⟩ := start_eq_ok_iff.1 htable
    by_contra hlt
    rw [get?_of_lt (Nat.lt_of_not_le hlt)] at hget
    cases hget
  obtain ⟨id, u, hallocate⟩ := exists_allocateWith hroom (arg ++ [0]).toArray .argument
  obtain ⟨hindex, -, -, -, hothers⟩ := get?_of_allocateWith hallocate
  have hid : table ≠ id := by
    rintro rfl
    omega
  have hutable : u.start table 0 width = .ok 0 := by rw [start_congr (hothers table hid), htable]
  have hstart : u.start table (slot * pointerBytes : Nat) pointerBytes = .ok (slot * pointerBytes) := by
    have hend : slot * pointerBytes + pointerBytes ≤ width := by rwa [← Nat.succ_mul]
    have := start_within hutable hend
    rwa [Nat.zero_add] at this
  obtain ⟨v, hstore⟩ := exists_store_of_start (a := u) (p := .toSlot table argumentType slot)
    (v := .pointer ⟨id, 0, .char⟩) (Value.isStorable_pointer rfl) rfl
    (by rw [Pointer.toSlot_eq]; exact hstart)
  refine ⟨id, u, v, hallocate, hstore, hlive, by rw [start_of_store hstore, hutable], fun rest => ?_⟩
  have hallocated : (allocateWith place (arg ++ [0]) .argument).run s =
      (.ok id, { s with memory := u }) := run_onMemory_of_ok hallocate
  have hstored : (store place (.toSlot table argumentType slot) (.pointer ⟨id, 0, .char⟩)).run
      { s with memory := u } = (.ok (.pointer ⟨id, 0, .char⟩), { s with memory := v }) :=
    run_onMemory_of_ok hstore
  have hdone : (storeSlots place table argumentType [(.pointer ⟨id, 0, .char⟩, slot)]).run
      { s with memory := u } = (.ok (), { s with memory := v }) :=
    run_bind_of_ok (run_bind_of_ok hstored fun _ => pure ()) fun _ => pure ()
  rw [run_bind_of_ok hallocated, run_bind_of_ok hdone]

/-- The loop that fills the table succeeds if there are numbers for its buffers and slots for its
pointers. -/
theorem exists_tabled (place : Location) (slot : Nat) (args : List (List UInt8))
    (hroom : s.memory.slots.size + args.length < 0xffffffff)
    (htable : s.memory.start table 0 width = .ok 0) (hslots : (slot + args.length) * pointerBytes ≤ width) :
    ∃ strings memory, (bindArgumentsFrom place table slot args).run s = (.ok (), { s with memory }) ∧
      Tabled s.memory memory table slot args strings := by
  induction args generalizing slot s with
  | nil => exact ⟨[], s.memory, rfl, .nil ..⟩
  | cons arg args ih =>
    rw [List.length_cons] at hroom hslots
    have hslot : (slot + 1) * pointerBytes ≤ width :=
      Nat.le_trans (Nat.mul_le_mul_right _ (by omega)) hslots
    obtain ⟨id, u, v, hallocate, hstore, hlive, hvtable, hrun⟩ :=
      exists_run_argument place arg (by omega) htable hslot
    have hvsize : v.slots.size = s.memory.slots.size + 1 := by
      rw [size_of_store hstore, (get?_of_allocateWith hallocate).2.2.1]
    obtain ⟨strings, memory, hrest, htabled⟩ := ih (slot + 1) (s := { s with memory := v })
      (by simp only [hvsize]; omega) hvtable (by rwa [Nat.add_assoc, Nat.add_comm 1])
    refine ⟨id :: strings, memory, ?_, .cons hlive hallocate hstore htabled⟩
    rw [bindArgumentsFrom, hrun, hrest]

end Effect

/-! ## The memory of a program that starts -/

namespace Arena

/-- The arena holds a table of arguments and their strings, and nothing else. -/
structure HoldsArguments (a : Arena) (args : List (List UInt8)) (table : BufferId)
    (strings : List BufferId) : Prop where
  distinct : (table :: strings).Nodup
  contents : List.Forall₂ a.HasString args strings
  entries : ∀ k id, strings[k]? = some id →
    a.load (.toSlot table argumentType k) = .ok (.pointer ⟨id, 0, .char⟩)
  closed : a.load (.toSlot table argumentType args.length) = .ok (.pointer (.null .char))
  bounds : ∀ offset width, a.start table offset width =
    if 0 ≤ offset ∧ offset + width ≤ ((args.length + 1) * pointerBytes : Nat) then .ok offset.toNat
    else .error (.outOfBounds table offset width ((args.length + 1) * pointerBytes))
  only : ∀ id, id ≠ .null → ((a.get? id).isSome ↔ id ∈ table :: strings)

variable {a b : Arena} {table id : BufferId} {args : List (List UInt8)} {strings : List BufferId}

theorem isSome_get?_of_contents (h : List.Forall₂ a.HasString args strings) (hid : id ∈ strings) :
    (a.get? id).isSome := by
  induction h with
  | nil => cases hid
  | cons hstring _ ih =>
    rcases List.mem_cons.1 hid with rfl | hid
    · rw [hstring]
      rfl
    · exact ih hid

theorem holdsArguments_of_tabled
    (hallocate : Arena.empty.allocate ((args.length + 1) * pointerBytes) .argument = (.ok table, a))
    (h : Tabled a b table 0 args strings) : HoldsArguments b args table strings := by
  obtain ⟨hindex, -, hsize, hget, hothers⟩ := get?_of_allocateWith (allocateWith_of_allocate hallocate)
  have hnotMem : table ∉ strings := by
    intro hmem
    have := h.fresh table hmem
    omega
  refine ⟨List.nodup_cons.2 ⟨hnotMem, h.distinct⟩, h.contents, fun k id hk => ?_, ?_, ?_, ?_⟩
  · have := h.entries k id hk
    rwa [Nat.zero_add] at this
  · rw [h.rest args.length (.inr (by omega)), Pointer.toSlot_eq]
    refine load_of_allocate hallocate rfl (Int.natCast_nonneg _) ?_
    show ((args.length * pointerBytes : Nat) : Int) + pointerBytes ≤ _
    rw [Nat.succ_mul]
    omega
  · intro offset width
    rw [h.bounds, start_of_some hget, Buffer.size, Array.size_replicate]
  · intro id hid
    rw [List.mem_cons]
    constructor
    · intro hlive
      by_contra hout
      rw [not_or] at hout
      have hnone : Arena.empty.get? id = none := get?_of_lt (BufferId.index_pos hid)
      rw [h.others id hout.1 hout.2, hothers id hout.1, hnone] at hlive
      cases hlive
    · rintro (rfl | hmem)
      · have hstart : b.start id 0 0 = .ok 0 := by
          rw [h.bounds]
          exact start_within (start_of_allocate hallocate) (show 0 + 0 ≤ _ from Nat.zero_le _)
        obtain ⟨c, hc, -⟩ := start_eq_ok_iff.1 hstart
        rw [hc]
        rfl
      · exact isSome_get?_of_contents h.contents hmem

/-- A part of an access outside the slots of the table makes all of it out of bounds. -/
theorem HoldsArguments.perform_outside (h : HoldsArguments a args table strings) {op : StorageOp}
    {access : StorageAccess} (haccess : op.access? = some (.ok access)) (htable : access.buffer = table)
    (hout : access.offset < 0 ∨ ((args.length + 1) * pointerBytes : Nat) < access.offset + access.width) :
    a.perform op =
      (.error (.outOfBounds table access.offset access.width ((args.length + 1) * pointerBytes)), a) := by
  obtain ⟨answer, hanswer⟩ := perform_of_access haccess a
  rw [htable, h.bounds, if_neg (by omega)] at hanswer
  exact Prod.ext hanswer (perform_of_error hanswer)

end Arena

/-- Before `main` is entered, memory holds the arguments and the table of them: the slots of the table
have pointers to strings that are the arguments, each closed by a NUL, in buffers of their own, and behind
them a null pointer; all that reaches beyond these slots is refused; and there is no other buffer. -/
theorem exists_holdsArguments (place : Location) (sink : Sink) {args : List (List UInt8)}
    (hbytes : (args.length + 1) * pointerBytes < 0x80000000) :
    ∃ table strings memory,
      (Effect.bindArguments place args).run (.fresh sink) =
        (.ok [.int (Int32.ofNat args.length), .pointer ⟨table, 0, argumentType⟩],
          { ProgramState.fresh sink with memory }) ∧
      (Int32.ofNat args.length).toInt = args.length ∧
      memory.HoldsArguments args table strings ∧
      ∀ (op : StorageOp) (access : StorageAccess), op.access? = some (.ok access) →
        access.buffer = table →
        access.offset < 0 ∨ ((args.length + 1) * pointerBytes : Nat) < access.offset + access.width →
        memory.perform op =
          (.error (.outOfBounds table access.offset access.width ((args.length + 1) * pointerBytes)),
            memory) := by
  have hbytes' : (args.length + 1) * 8 < 0x80000000 := hbytes
  have hlimit : (args.length + 1) * pointerBytes < allocationLimit := Nat.lt_trans hbytes (by decide)
  obtain ⟨table, a, hallocate⟩ : ∃ table a,
      Arena.empty.allocate ((args.length + 1) * pointerBytes) .argument = (.ok table, a) :=
    ⟨_, _, if_pos hlimit⟩
  have hsize : a.slots.size = 1 :=
    (Arena.get?_of_allocateWith (Arena.allocateWith_of_allocate hallocate)).2.2.1
  obtain ⟨strings, memory, hrun, htabled⟩ := Effect.exists_tabled
    (s := { ProgramState.fresh sink with memory := a }) place 0 args (by simp only [hsize]; omega)
    (Arena.start_of_allocate hallocate) (Nat.mul_le_mul_right _ (by omega))
  have hholds := Arena.holdsArguments_of_tabled hallocate htabled
  refine ⟨table, strings, memory, ?_, ?_, hholds, fun op access => hholds.perform_outside⟩
  · have hallocated : (Effect.allocate place ((args.length + 1) * pointerBytes) .argument).run
        (.fresh sink) = (.ok table, { ProgramState.fresh sink with memory := a }) :=
      Effect.run_onMemory_of_ok hallocate
    rw [Effect.bindArguments, Effect.run_bind_of_ok hallocated, Effect.run_bind_of_ok hrun,
      if_neg (by omega)]
    rfl
  · exact Int32.toInt_ofNat_of_lt (by omega)

/-- An empty argument and one that has a NUL in its midst. -/
theorem exists_holdsArguments_two :
    let args : List (List UInt8) := [[], [0x61, 0, 0x62]]
    (args.length + 1) * pointerBytes < 0x80000000 ∧
      ∃ table strings memory,
        (Effect.bindArguments .start args).run (.fresh .unlimited) =
          (.ok [.int 2, .pointer ⟨table, 0, argumentType⟩],
            { ProgramState.fresh .unlimited with memory }) ∧
        memory.HoldsArguments args table strings ∧
        memory.perform (.load ⟨table, 24, argumentType⟩) =
          (.error (.outOfBounds table 24 8 24), memory) := by
  intro args
  have hbytes : (args.length + 1) * pointerBytes < 0x80000000 := by decide
  obtain ⟨table, strings, memory, hrun, -, hholds, houtside⟩ :=
    exists_holdsArguments .start .unlimited hbytes
  exact ⟨hbytes, table, strings, memory, hrun, hholds,
    houtside (.load ⟨table, 24, argumentType⟩) ⟨table, 24, 8⟩ rfl rfl
      (.inr (show ((3 * pointerBytes : Nat) : Int) < 24 + (8 : Nat) by decide))⟩

end BoundedC
