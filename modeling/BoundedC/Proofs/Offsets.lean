import BoundedC.Interpreter
import BoundedC.Proofs.TypedStorage

/-!
# Offsets in range

A stored pointer has 32 bits for its offset. Places begin at offset 0, what is read from storage fits
by its form, and arithmetic on pointers refuses what does not fit. So the effects of a program make
storable values from storable ones, and none of them finds an offset out of range but arithmetic.

* `StaysInRange` : operations of storage that find no offset out of range;
* `BinaryOp.Overflows` : operands that lead out of range;
* `Effect.Answers` : the result of an effect, and the offsets that it may find out of range.
-/

namespace BoundedC

/-! ## Storage -/

section StaysInRange

variable {α β : Type}

/-- The operation does not fail for an offset out of range. -/
structure StaysInRange (x : Except MemoryFault α) : Prop where
  ne_error : ∀ offset, x ≠ .error (.offsetOverflow offset)

theorem staysInRange_ok (a : α) : StaysInRange (.ok a) := ⟨nofun⟩

theorem staysInRange_mismatch (m : Mismatch) :
    StaysInRange (.error (.mismatch m) : Except MemoryFault α) := ⟨nofun⟩

theorem StaysInRange.map {x : Except MemoryFault α} (hx : StaysInRange x) (f : α → β) :
    StaysInRange (x.map f) :=
  ⟨fun offset h => hx.ne_error offset (eq_error_of_map h)⟩

end StaysInRange

theorem Value.staysInRange_convert (v : Value) (t : CType) : StaysInRange (v.convert t) := by
  refine ⟨fun offset h => ?_⟩
  cases t with
  | pointer t =>
    cases v with
    | pointer p => cases h
    | int | char =>
      simp only [convert] at h
      split at h <;> cases h
  | _ => cases v <;> cases h

/-- What has to be in range are the offsets of pointers. -/
theorem Value.staysInRange_encode {v : Value} (hv : v.IsStorable) (t : CType) :
    StaysInRange (v.encode t) := by
  rcases hconvert : v.convert t with fault | w
  · refine ⟨fun offset h => ?_⟩
    unfold encode at h
    rw [hconvert] at h
    cases h
    exact (staysInRange_convert v t).ne_error offset hconvert
  · obtain ⟨bytes, hbytes, -⟩ := exists_encode hv hconvert
    rw [hbytes]
    exact staysInRange_ok bytes

namespace Arena

variable {a b : Arena} {p : Pointer} {v : Value}

theorem staysInRange_start (a : Arena) (id : BufferId) (offset : Int) (width : Nat) :
    StaysInRange (a.start id offset width) := by
  refine ⟨fun o h => ?_⟩
  cases hget : a.get? id with
  | none =>
    rw [start_of_none hget] at h
    cases h
  | some c =>
    rw [start_of_some hget] at h
    split at h <;> cases h

theorem staysInRange_read (a : Arena) (id : BufferId) (offset : Int) (width : Nat) :
    StaysInRange (a.read id offset width) := by
  obtain ⟨bytes, h⟩ := exists_read a id offset width
  rw [h]
  exact (staysInRange_start ..).map _

theorem staysInRange_write (a : Arena) (id : BufferId) (offset : Int) (bytes : List UInt8) :
    StaysInRange (a.write id offset bytes).1 := by
  have hstart := staysInRange_start a id offset bytes.length
  unfold write
  split
  · exact staysInRange_ok ()
  · rename_i fault h
    rw [h] at hstart
    exact hstart.map fun _ => ()

theorem staysInRange_allocateWith (a : Arena) (bytes : Array UInt8) (owner : Owner) :
    StaysInRange (a.allocateWith bytes owner).1 := by
  unfold allocateWith
  dsimp only
  split
  · exact staysInRange_ok _
  · exact ⟨nofun⟩

theorem staysInRange_allocate (a : Arena) (length : Nat) (owner : Owner) :
    StaysInRange (a.allocate length owner).1 := by
  unfold allocate
  split
  · exact staysInRange_allocateWith ..
  · exact ⟨nofun⟩

theorem staysInRange_load (a : Arena) (p : Pointer) : StaysInRange (a.load p) := by
  by_cases hvoid : p.pointee = .void
  · obtain ⟨buffer, offset, pointee⟩ := p
    cases hvoid
    exact staysInRange_mismatch _
  · obtain ⟨v, h⟩ := exists_load_eq a hvoid
    rw [h]
    exact (staysInRange_start ..).map _

theorem staysInRange_store (a : Arena) (p : Pointer) (hv : v.IsStorable) :
    StaysInRange (a.store p v).1 := by
  have hrange := Value.staysInRange_convert v p.pointee
  unfold store
  rcases hconvert : v.convert p.pointee with fault | w
  · rwa [hconvert] at hrange
  · have hrange := Value.staysInRange_encode (hv.convert hconvert) p.pointee
    dsimp only
    rcases hencode : w.encode p.pointee with fault | bytes
    · rw [hencode] at hrange
      exact hrange.map fun _ => w
    · exact (staysInRange_write ..).map _

theorem isStorable_of_load (hp : fitsOffset p.offset = true) (h : a.load p = .ok v) :
    v.IsStorable := by
  obtain ⟨buffer, offset, pointee⟩ := p
  cases pointee with
  | array element length =>
    simp only [load] at h
    rcases hstart : a.start buffer offset (CType.array element length).size with fault | start
    · rw [hstart] at h
      cases h
    · rw [hstart] at h
      cases h
      exact Value.isStorable_pointer hp
  | void => cases h
  | _ =>
    obtain ⟨bytes, -, hdecode⟩ := exists_read_of_load rfl h
    exact Value.isStorable_of_decode hdecode

theorem isStorable_of_store {stored : Value} (h : a.store p v = (.ok stored, b)) :
    stored.IsStorable := by
  obtain ⟨hconvert, bytes, start, hencode, -⟩ := store_eq_ok_iff.1 h
  exact Value.isStorable_of_encode (Value.convert_of_convert hconvert) hencode

end Arena

/-! ## Arithmetic -/

theorem Pointer.fits_of_add {p q : Pointer} {n : Int32} (h : p.add n = .ok q) :
    fitsOffset q.offset = true := by
  obtain ⟨hfits, rfl⟩ := add_eq_ok_iff.1 h
  exact hfits

/-- The offset, or the number of elements, that the operator would have to yield for a pointer is out of
range. -/
inductive BinaryOp.Overflows (offset : Int) : BinaryOp → Value → Value → Prop
  | add {p : Pointer} {v : Value} {n : Int32} (hn : v.int? = some n)
    (h : p.add n = .error (.offsetOverflow offset)) : Overflows offset .add (.pointer p) v
  | addTo {p : Pointer} {v : Value} {n : Int32} (hn : v.int? = some n)
    (h : p.add n = .error (.offsetOverflow offset)) : Overflows offset .add v (.pointer p)
  | sub {p : Pointer} {v : Value} {n : Int32} (hn : v.int? = some n)
    (h : p.add (-n) = .error (.offsetOverflow offset)) : Overflows offset .sub (.pointer p) v
  | difference {p q : Pointer} (h : p.difference q = .error (.offsetOverflow offset)) :
    Overflows offset .sub (.pointer p) (.pointer q)

namespace BinaryOp

variable {op : BinaryOp} {l r v : Value} {offset : Int}

theorem ofMemory_eq_ok {α : Type} {f : α → Value} {x : Except MemoryFault α}
    (h : ofMemory f x = .ok v) : ∃ a, x = .ok a ∧ v = f a := by
  cases x with
  | ok a =>
    cases h
    exact ⟨a, rfl, rfl⟩
  | error fault => cases h

theorem ofMemory_eq_error {α : Type} {f : α → Value} {x : Except MemoryFault α} {fault : MemoryFault}
    (h : ofMemory f x = .error (.memory fault)) : x = .error fault := by
  cases x with
  | ok a => cases h
  | error e =>
    cases h
    rfl

theorem isStorable_of_add {p : Pointer} {n : Int32} (h : ofMemory .pointer (p.add n) = .ok v) :
    v.IsStorable := by
  obtain ⟨q, hq, rfl⟩ := ofMemory_eq_ok h
  exact Value.isStorable_pointer (Pointer.fits_of_add hq)

theorem isStorable_ofBool (b : Bool) : (Value.ofBool b).IsStorable := Value.isStorable_int _

/-- A test of an integer that is refused unless it is a test for the null pointer. -/
theorem isStorable_of_test {c : Prop} [Decidable c] {b : Bool} {fault : RuntimeFault}
    (h : (if c then .ok (.ofBool b) else .error fault) = Except.ok v) : v.IsStorable := by
  split at h
  · cases h
    exact isStorable_ofBool b
  · cases h

theorem isStorable_of_applyInts {a b : Int32} (h : op.applyInts a b = .ok v) : v.IsStorable := by
  cases op with
  | add | sub | mul =>
    cases h
    exact Value.isStorable_int _
  | div | mod =>
    simp only [applyInts] at h
    split at h
    · cases h
    · cases h
      exact Value.isStorable_int _
  | and | or => cases h
  | _ =>
    cases h
    exact isStorable_ofBool _

/-- What an operator yields can be stored. -/
theorem isStorable_of_apply (h : op.apply l r = .ok v) : v.IsStorable := by
  unfold apply at h
  dsimp only at h
  split at h
  · split at h
    · obtain ⟨n, -, rfl⟩ := ofMemory_eq_ok h
      exact Value.isStorable_int n
    · split at h
      · cases h
        exact isStorable_ofBool _
      · cases h
  · split at h
    · exact isStorable_of_add h
    · exact isStorable_of_add h
    · exact isStorable_of_test h
    · exact isStorable_of_test h
    · cases h
  · split at h
    · exact isStorable_of_add h
    · exact isStorable_of_test h
    · exact isStorable_of_test h
    · cases h
  · split at h
    · exact isStorable_of_applyInts h
    · cases h

theorem applyInts_ne_memory {a b : Int32} {fault : MemoryFault} :
    op.applyInts a b ≠ .error (.memory fault) := by
  intro h
  cases op with
  | div | mod =>
    simp only [applyInts] at h
    split at h <;> cases h
  | _ => cases h

/-- An operator leads out of range by moving or subtracting pointers only. -/
theorem overflows_of_apply (h : op.apply l r = .error (.memory (.offsetOverflow offset))) :
    op.Overflows offset l r := by
  unfold apply at h
  dsimp only at h
  split at h
  · split at h
    · exact .difference (ofMemory_eq_error h)
    · split at h <;> cases h
  · split at h
    · exact .add ‹_› (ofMemory_eq_error h)
    · exact .sub ‹_› (ofMemory_eq_error h)
    · split at h <;> cases h
    · split at h <;> cases h
    · cases h
  · split at h
    · exact .addTo ‹_› (ofMemory_eq_error h)
    · split at h <;> cases h
    · split at h <;> cases h
    · cases h
  · split at h
    · exact absurd h applyInts_ne_memory
    · cases h

end BinaryOp

theorem UnaryOp.isStorable_of_apply {op : UnaryOp} {v w : Value} (h : op.apply v = .ok w) :
    w.IsStorable := by
  cases op with
  | not =>
    cases h
    exact BinaryOp.isStorable_ofBool _
  | neg =>
    simp only [apply] at h
    split at h
    · cases h
      exact Value.isStorable_int _
    · cases h

theorem UnaryOp.apply_ne_memory {op : UnaryOp} {v : Value} {fault : MemoryFault} :
    op.apply v ≠ .error (.memory fault) := by
  intro h
  cases op with
  | not => cases h
  | neg =>
    simp only [apply] at h
    split at h <;> cases h

namespace StepOp

variable {op : StepOp} {type : CType} {old new : Value}

theorem isStorable_of_apply (h : op.apply type old = .ok new) : new.IsStorable := by
  cases old with
  | int | char =>
    cases h
    exact Value.isStorable_int _
  | pointer p =>
    simp only [apply] at h
    split at h
    · cases h
    · exact BinaryOp.isStorable_of_add h

theorem add_of_apply {offset : Int} (h : op.apply type old = .error (.memory (.offsetOverflow offset))) :
    ∃ p, old = .pointer p ∧ p.add op.delta = .error (.offsetOverflow offset) := by
  cases old with
  | int | char => cases h
  | pointer p =>
    simp only [apply] at h
    split at h
    · cases h
    · exact ⟨p, rfl, BinaryOp.ofMemory_eq_error h⟩

end StepOp

namespace Value

variable {array index : Value}

/-- The place of an element is found by moving the pointer of the two. -/
theorem element_eq_mapError (h : ∀ m, array.element index ≠ .error (.mismatch m)) :
    ∃ q v n, (array = .pointer q ∧ index = v ∨ array = v ∧ index = .pointer q) ∧ v.int? = some n ∧
      array.element index = (q.add n).mapError .memory := by
  cases array with
  | pointer q =>
    cases hn : index.int? with
    | some n => exact ⟨q, index, n, .inl ⟨rfl, rfl⟩, hn, by simp only [element, hn]⟩
    | none => exact absurd (by simp only [element, hn]) (h (.indexOperands (pointer q).type index.type))
  | int n =>
    cases index with
    | pointer q => exact ⟨q, .int n, n, .inr ⟨rfl, rfl⟩, rfl, rfl⟩
    | _ => exact absurd rfl (h _)
  | char c =>
    cases index with
    | pointer q => exact ⟨q, .char c, c.toInt32, .inr ⟨rfl, rfl⟩, rfl, rfl⟩
    | _ => exact absurd rfl (h _)

theorem fits_of_element {p : Pointer} (h : array.element index = .ok p) : fitsOffset p.offset = true := by
  obtain ⟨q, v, n, -, -, hmoved⟩ := element_eq_mapError fun m hm => by cases h.symm.trans hm
  rw [h] at hmoved
  rcases hadd : q.add n with fault | moved
  · rw [hadd] at hmoved
    cases hmoved
  · rw [hadd] at hmoved
    cases hmoved
    exact Pointer.fits_of_add hadd

/-- An index leads out of range as the sum does. -/
theorem overflows_of_element {offset : Int}
    (h : array.element index = .error (.memory (.offsetOverflow offset))) :
    BinaryOp.Overflows offset .add array index := by
  obtain ⟨q, v, n, hoperands, hn, hmoved⟩ := element_eq_mapError fun m hm => by cases h.symm.trans hm
  rw [h] at hmoved
  rcases hadd : q.add n with fault | moved
  · rw [hadd] at hmoved
    cases hmoved
    rcases hoperands with ⟨rfl, rfl⟩ | ⟨rfl, rfl⟩
    · exact .add hn hadd
    · exact .addTo hn hadd
  · rw [hadd] at hmoved
    cases hmoved

end Value

/-! ## Effects -/

namespace Effect

variable {α β : Type} {E : Int → Prop} {P : α → Prop} {Q : β → Prop} {s : ProgramState}

/-- From the state, the effect has a result with the property, or fails; where it fails for an offset
out of range, it is one of the given offsets. -/
structure Answers (E : Int → Prop) (P : α → Prop) (x : Effect α) (s : ProgramState) : Prop where
  ok : ∀ a t, x.run s = (.ok a, t) → P a
  error : ∀ offset place t, x.run s = (.error (.fault (.memory (.offsetOverflow offset)) place), t) →
    E offset

theorem answers_pure {a : α} (h : P a) : Answers E P (pure a) s := by
  constructor
  · rintro _ _ ⟨⟩
    exact h
  · rintro _ _ _ ⟨⟩

theorem answers_breakOff : Answers E P (breakOff : Effect α) s := by
  constructor
  · rintro _ _ ⟨⟩
  · rintro _ _ _ ⟨⟩

theorem answers_bind {x : Effect α} {f : α → Effect β} (hx : Answers E P x s)
    (hf : ∀ a t, P a → Answers E Q (f a) t) : Answers E Q (x >>= f) s := by
  constructor
  · intro b t h
    obtain ⟨a, u, hu, h⟩ := run_bind_eq_ok_iff.1 h
    exact (hf a u (hx.ok a u hu)).ok b t h
  · intro offset place t h
    rw [run_bind] at h
    rcases hrun : x.run s with ⟨e | a, u⟩
    · rw [hrun] at h
      cases h
      exact hx.error offset place t hrun
    · rw [hrun] at h
      exact (hf a u (hx.ok a u hrun)).error offset place t h

theorem Answers.mono {E' : Int → Prop} {P' : α → Prop} {x : Effect α} (h : Answers E P x s)
    (hE : ∀ offset, E offset → E' offset) (hP : ∀ a, P a → P' a) : Answers E' P' x s :=
  ⟨fun a t hrun => hP a (h.ok a t hrun), fun offset place t hrun => hE offset (h.error offset place t hrun)⟩

theorem answers_discard {x : Effect α} (hx : Answers E P x s) :
    Answers E (fun _ => True) (discard x) s :=
  answers_bind hx fun _ _ _ => answers_pure trivial

theorem answers_fail (place : Location) {fault : RuntimeFault}
    (h : ∀ offset, fault ≠ .memory (.offsetOverflow offset)) :
    Answers E P (fail place fault : Effect α) s := by
  constructor
  · rintro _ _ ⟨⟩
  · intro offset _ _ hrun
    cases hrun
    exact absurd rfl (h offset)

theorem answers_mismatch (place : Location) (m : Mismatch) :
    Answers E P (fail place (.mismatch m) : Effect α) s := answers_fail place nofun

theorem answers_failInternal (place : Location) (fault : InternalFault) :
    Answers E P (failInternal place fault : Effect α) s := answers_fail place nofun

/-- A refusal that stands in front of the rest. -/
theorem answers_guard (place : Location) {fault : RuntimeFault} (c : Prop) [Decidable c] {x : Effect α}
    (h : ∀ offset, fault ≠ .memory (.offsetOverflow offset)) (hx : Answers E P x s) :
    Answers E P (if c then (do fail place fault; x) else x) s := by
  split
  · exact answers_bind (answers_fail (P := fun _ => False) place h) fun _ _ => False.elim
  · exact hx

theorem answers_ofExcept (place : Location) {x : Except RuntimeFault α} (hok : ∀ a, x = .ok a → P a)
    (herror : ∀ offset, x = .error (.memory (.offsetOverflow offset)) → E offset) :
    Answers E P (ofExcept place x) s := by
  cases x with
  | ok a => exact answers_pure (hok a rfl)
  | error fault =>
    constructor
    · rintro _ _ ⟨⟩
    · intro offset _ _ h
      cases h
      exact herror offset rfl

theorem answers_modify (f : ProgramState → ProgramState) :
    Answers E (fun _ => True) (modify f) s := by
  constructor
  · exact fun _ _ _ => trivial
  · rintro _ _ _ ⟨⟩

/-! ## Memory and calls -/

theorem answers_onMemory (place : Location) {f : Arena → Except MemoryFault α × Arena}
    (hok : ∀ a b, f s.memory = (.ok a, b) → P a) (herror : StaysInRange (f s.memory).1) :
    Answers E P (onMemory place f) s := by
  rcases hf : f s.memory with ⟨fault | a, b⟩
  · rw [hf] at herror
    constructor
    · intro _ _ h
      rw [run_onMemory_of_error hf] at h
      cases h
    · intro offset _ _ h
      rw [run_onMemory_of_error hf] at h
      cases h
      exact absurd rfl (herror.ne_error offset)
  · constructor
    · intro _ _ h
      rw [run_onMemory_of_ok hf] at h
      cases h
      exact hok a b hf
    · intro _ _ _ h
      rw [run_onMemory_of_ok hf] at h
      cases h

/-- A question to the arena leaves the state alone. -/
theorem answers_readMemory_bind (place : Location) {f : Arena → Except MemoryFault α} {g : α → Effect β}
    (herror : StaysInRange (f s.memory)) (hok : ∀ a, f s.memory = .ok a → Answers E Q (g a) s) :
    Answers E Q (readMemory place f >>= g) s := by
  rcases hf : f s.memory with fault | a
  · have hrun : (readMemory place f).run s = (.error (.fault (.memory fault) place), s) := by
      rw [run_readMemory, hf]
      rfl
    rw [hf] at herror
    constructor
    · intro _ _ h
      rw [run_bind_of_error hrun] at h
      cases h
    · intro offset _ _ h
      rw [run_bind_of_error hrun] at h
      cases h
      exact absurd rfl (herror.ne_error offset)
  · have hrun : (readMemory place f).run s = (.ok a, s) := by
      rw [run_readMemory, hf]
      rfl
    have hanswers := hok a hf
    constructor
    · intro b t h
      rw [run_bind_of_ok hrun] at h
      exact hanswers.ok b t h
    · intro offset place' t h
      rw [run_bind_of_ok hrun] at h
      exact hanswers.error offset place' t h

theorem answers_readMemory (place : Location) {f : Arena → Except MemoryFault α}
    (herror : StaysInRange (f s.memory)) (hok : ∀ a, f s.memory = .ok a → P a) :
    Answers E P (readMemory place f) s := by
  have h := answers_readMemory_bind (E := E) place herror fun a ha => answers_pure (s := s) (hok a ha)
  rwa [bind_pure] at h

theorem answers_load (place : Location) {p : Pointer} (hp : fitsOffset p.offset = true) :
    Answers E Value.IsStorable (load place p) s :=
  answers_readMemory place (s.memory.staysInRange_load p) fun _ => Arena.isStorable_of_load hp

theorem answers_store (place : Location) (p : Pointer) {v : Value} (hv : v.IsStorable) :
    Answers E Value.IsStorable (store place p v) s :=
  answers_onMemory place (fun _ _ => Arena.isStorable_of_store) (s.memory.staysInRange_store p hv)

theorem answers_allocate (place : Location) (length : Nat) (owner : Owner) :
    Answers E (fun _ => True) (allocate place length owner) s :=
  answers_onMemory place (fun _ _ _ => trivial) (s.memory.staysInRange_allocate length owner)

theorem answers_storeSlots (place : Location) (id : BufferId) (type : CType)
    {pairs : List (Value × Nat)} (h : ∀ pair ∈ pairs, pair.1.IsStorable) :
    Answers E (fun _ => True) (storeSlots place id type pairs) s := by
  induction pairs generalizing s with
  | nil => exact answers_pure trivial
  | cons pair rest ih =>
    obtain ⟨hpair, hrest⟩ := List.forall_mem_cons.1 h
    exact answers_bind (answers_discard (answers_store place _ hpair)) fun _ _ _ => ih hrest

theorem answers_write (place : Location) (bytes : List UInt8) :
    Answers E (fun _ => True) (write place bytes) s := by
  refine ⟨fun _ _ _ => trivial, fun offset _ _ h => ?_⟩
  unfold write ExceptT.run ExceptT.mk at h
  dsimp only at h
  split at h <;> cases h

theorem answers_get : Answers E (fun _ => True) (get : Effect ProgramState) s := by
  constructor
  · exact fun _ _ _ => trivial
  · rintro _ _ _ ⟨⟩

theorem answers_current (place : Location) : Answers E (fun _ => True) (current place) s := by
  refine answers_bind answers_get fun s _ _ => ?_
  split
  · exact answers_pure trivial
  · exact answers_failInternal ..

theorem answers_modifyCurrent (place : Location) (f : Activation → Activation) :
    Answers E (fun _ => True) (modifyCurrent place f) s :=
  answers_bind (answers_discard (answers_current place)) fun _ _ _ => answers_modify _

theorem answers_closeScope (place : Location) : Answers E (fun _ => True) (closeScope place) s :=
  answers_bind (answers_current place) fun _ _ _ => answers_bind (answers_modify _) fun _ _ _ =>
    answers_modifyCurrent ..

theorem answers_lookup (place : Location) (name : String) :
    Answers E (fun _ => True) (lookup place name) s := by
  refine answers_bind answers_get fun s _ _ => ?_
  split
  · exact answers_pure trivial
  · exact answers_fail place nofun

theorem answers_countStep (limits : Limits) (place : Location) :
    Answers E (fun _ => True) (countStep limits place) s := by
  refine answers_bind (answers_modify _) fun _ _ _ => ?_
  cases limits.maxSteps with
  | none => exact answers_pure trivial
  | some limit =>
    refine answers_bind answers_get fun _ _ _ => ?_
    split
    · exact answers_fail place nofun
    · exact answers_pure trivial

end Effect

end BoundedC
