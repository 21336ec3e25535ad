import BoundedC.Operation
import BoundedC.Call
import Mathlib.Logic.Relation

/-!
# How a call changes the state

As far as buffers and calls are concerned, a call that neither opens nor closes a scope and neither
begins nor ends a call can do three things: change contents, keep a new buffer for a literal, and
declare a variable with a new buffer (`Change`). The effects of expressions and declarations are
made of these (`Effect.Changing`).
-/

namespace BoundedC

/-- What is fixed about a buffer from its allocation on. -/
def Buffer.shape (b : Buffer) : Owner × Nat := (b.owner, b.size)

namespace Arena

def shapes (a : Arena) : Array (Option (Owner × Nat)) := a.slots.map (·.map Buffer.shape)

theorem shapes_overwrite (a : Arena) (id : BufferId) (start : Nat) (bytes : List UInt8) :
    (a.overwrite id start bytes).shapes = a.shapes := by
  unfold overwrite
  cases slot? id with
  | none => rfl
  | some i =>
    apply Array.ext (by simp [shapes])
    intro j hj hj'
    simp only [shapes, Array.getElem_map, Array.getElem_modify]
    split
    · rw [Option.map_map]
      congr 1
      funext b
      simp [Buffer.shape, Buffer.size]
    · rfl

theorem shapes_write (a : Arena) (id : BufferId) (offset : Int) (bytes : List UInt8) :
    (a.write id offset bytes).2.shapes = a.shapes := by
  unfold write
  split
  · exact shapes_overwrite ..
  · rfl

theorem shapes_store (a : Arena) (p : Pointer) (v : Value) :
    (a.store p v).2.shapes = a.shapes := by
  unfold store
  split
  · rfl
  · split
    · rfl
    · exact shapes_write ..

end Arena

/-- A change of the state within the call in progress. -/
inductive Change (s t : ProgramState) : Prop
  /-- other contents of buffers, more output, more statements counted -/
  | contents (hm : t.memory.shapes = s.memory.shapes) (hc : t.calls = s.calls)
  /-- a new buffer for the literal at a place -/
  | adopt {a : Activation} {callers : List Activation} {site : Location} {id : BufferId}
      {length : Nat} (hs : s.calls.items = a :: callers)
      (hm : s.memory.allocate length .literal = (.ok id, t.memory))
      (ht : t.calls.items = a.adopt site id :: callers)
  /-- a new variable in a new buffer -/
  | declare {a : Activation} {callers : List Activation} {name : String} {b : Binding}
      (hs : s.calls.items = a :: callers) (hb : b.type ≠ .void)
      (hm : s.memory.allocate b.type.size .scoped = (.ok b.buffer, t.memory))
      (ht : t.calls.items = a.declare name b :: callers)

abbrev Changes : ProgramState → ProgramState → Prop := Relation.ReflTransGen Change

namespace Effect

variable {α β : Type}

/-- Where the effect succeeds, it has changed the state within the call in progress. -/
def Changing (x : Effect α) : Prop := ∀ ⦃s a t⦄, x.run s = (.ok a, t) → Changes s t

theorem changing_pure (a : α) : Changing (pure a : Effect α) := by
  intro s b t h
  cases h
  exact .refl

theorem changing_fail (place : Location) (fault : RuntimeFault) :
    Changing (fail place fault : Effect α) := by
  intro s b t h
  cases h

theorem changing_breakOff : Changing (breakOff : Effect α) := by
  intro s b t h
  cases h

theorem changing_bind {x : Effect α} {f : α → Effect β} (hx : Changing x)
    (hf : ∀ a, Changing (f a)) : Changing (x >>= f) := by
  intro s b t h
  obtain ⟨a, u, hu, ht⟩ := run_bind_eq_ok_iff.1 h
  exact (hx hu).trans (hf a ht)

theorem run_discard_eq_ok {x : Effect α} {s t : ProgramState} {u : Unit}
    (h : (discard x).run s = (.ok u, t)) : ∃ a, x.run s = (.ok a, t) := by
  obtain ⟨a, v, hv, ht⟩ := run_bind_eq_ok_iff.1 (show (x >>= fun _ => pure ()).run s = _ from h)
  cases ht
  exact ⟨a, hv⟩

theorem changing_discard {x : Effect α} (hx : Changing x) : Changing (discard x) :=
  changing_bind hx fun _ => changing_pure _

theorem changing_ofExcept (place : Location) (x : Except RuntimeFault α) :
    Changing (ofExcept place x) := by
  cases x with
  | error fault => exact changing_fail place fault
  | ok a => exact changing_pure a

theorem run_ofExcept_eq_ok {place : Location} {x : Except RuntimeFault α} {a : α}
    {s t : ProgramState} (h : (ofExcept place x).run s = (.ok a, t)) : x = .ok a := by
  cases x with
  | error fault => cases h
  | ok b =>
    cases h
    rfl

/-! ## Memory and output -/

/-- An operation of the arena that succeeds changes nothing but memory. -/
theorem run_onMemory_eq_ok {place : Location} {f : Arena → Except MemoryFault α × Arena}
    {s t : ProgramState} {a : α} (h : (onMemory place f).run s = (.ok a, t)) :
    f s.memory = (.ok a, t.memory) ∧ t.calls = s.calls := by
  unfold onMemory ExceptT.run ExceptT.mk at h
  dsimp only at h
  split at h
  · rename_i hm
    cases h
    exact ⟨hm, rfl⟩
  · cases h

theorem changing_onMemory (place : Location) {f : Arena → Except MemoryFault α × Arena}
    (hf : ∀ m, (f m).2.shapes = m.shapes) : Changing (onMemory place f) := by
  intro s a t h
  obtain ⟨hm, hc⟩ := run_onMemory_eq_ok h
  have hs := hf s.memory
  rw [hm] at hs
  exact .single (.contents hs hc)

theorem changing_readMemory (place : Location) (f : Arena → Except MemoryFault α) :
    Changing (readMemory place f) := by
  refine changing_bind (fun s a t h => ?_) fun s => ?_
  · cases h
    exact .refl
  · split
    · exact changing_pure _
    · exact changing_fail _ _

theorem changing_load (place : Location) (p : Pointer) : Changing (load place p) :=
  changing_readMemory _ _

theorem changing_store (place : Location) (p : Pointer) (v : Value) :
    Changing (store place p v) :=
  changing_onMemory _ fun m => m.shapes_store p v

theorem changing_storeSlots (place : Location) (id : BufferId) (type : CType)
    (values : List (Value × Nat)) : Changing (storeSlots place id type values) := by
  induction values with
  | nil => exact changing_pure _
  | cons head rest ih =>
    exact changing_bind (changing_discard (changing_store ..)) fun _ => ih

theorem changing_write (place : Location) (bytes : List UInt8) : Changing (write place bytes) := by
  intro s a t h
  unfold write ExceptT.run ExceptT.mk at h
  dsimp only at h
  split at h
  · cases h
    exact .single (.contents rfl rfl)
  · cases h

theorem changing_countStep (limits : Limits) (place : Location) :
    Changing (countStep limits place) := by
  intro s a t h
  obtain ⟨_, u, hu, ht⟩ := run_bind_eq_ok_iff.1 h
  have hu' : Change s u := by
    cases hu
    exact .contents rfl rfl
  refine .head hu' ?_
  cases hl : limits.maxSteps with
  | none =>
    rw [hl] at ht
    exact changing_pure _ ht
  | some limit =>
    rw [hl] at ht
    change (if limit < u.steps then fail place (.stepLimit limit) else pure () : Effect Unit).run u
      = _ at ht
    split at ht
    · exact changing_fail _ _ ht
    · exact changing_pure _ ht

theorem changing_lookup (place : Location) (name : String) : Changing (lookup place name) := by
  refine changing_bind (fun s a t h => ?_) fun s => ?_
  · cases h
    exact .refl
  · split
    · exact changing_pure _
    · exact changing_fail _ _

/-! ## Operations -/

theorem changing_variablePlace (place : Location) (name : String) (access : Access) :
    Changing (variablePlace place name access) := by
  refine changing_bind (changing_lookup ..) fun b => ?_
  dsimp only
  split
  · exact changing_bind (changing_fail ..) fun _ => changing_pure _
  · exact changing_pure _

theorem changing_variableValue (place : Location) (name : String) :
    Changing (variableValue place name) :=
  changing_bind (changing_lookup ..) fun _ => changing_load ..

theorem changing_pointerPlace (place : Location) (v : Value) : Changing (pointerPlace place v) := by
  cases v with
  | pointer p => exact changing_pure p
  | _ => exact changing_fail _ _

theorem changing_assign (place : Location) (target : Pointer) (v : Value) :
    Changing (assign place target v) := by
  unfold assign
  split
  · exact changing_fail _ _
  · exact changing_store ..

theorem changing_compoundAssign (op : BinaryOp) (place : Location) (target : Pointer) (v : Value) :
    Changing (compoundAssign op place target v) :=
  changing_bind (changing_load ..) fun _ =>
    changing_bind (changing_ofExcept ..) fun _ => changing_assign ..

theorem changing_step (op : StepOp) (place : Location) (target : Pointer) :
    Changing (step op place target) :=
  changing_bind (changing_load ..) fun _ => changing_bind (changing_ofExcept ..) fun _ =>
    changing_bind (changing_store ..) fun _ => changing_pure _

theorem changing_print (place : Location) (start length : Value) :
    Changing (print place start length) := by
  unfold print
  split
  · exact changing_fail _ _
  · exact changing_fail _ _
  · dsimp only
    split
    · exact changing_bind (changing_fail ..) fun _ => changing_bind (changing_readMemory ..) fun _ =>
        changing_bind (changing_write ..) fun _ => changing_pure _
    · exact changing_bind (changing_readMemory ..) fun _ =>
        changing_bind (changing_write ..) fun _ => changing_pure _

/-! ## Literals -/

/-- The call in progress is found if there is one, and nothing is changed by looking. -/
theorem run_current_eq_ok {place : Location} {s t : ProgramState} {a : Activation}
    (h : (current place).run s = (.ok a, t)) : t = s ∧ ∃ callers, s.calls.items = a :: callers := by
  obtain ⟨s', u, hu, h⟩ := run_bind_eq_ok_iff.1 h
  cases hu
  split at h
  · rename_i htop
    cases h
    exact ⟨rfl, List.head?_eq_some_iff.1 htop⟩
  · cases h

/-- The calls after a change of the call in progress. -/
theorem run_modifyCurrent_eq_ok {place : Location} {f : Activation → Activation}
    {s t : ProgramState} {u : Unit} (h : (modifyCurrent place f).run s = (.ok u, t)) :
    ∃ a callers, s.calls.items = a :: callers ∧ t.calls.items = f a :: callers ∧
      t.memory = s.memory := by
  obtain ⟨_, s', hs', ht⟩ := run_bind_eq_ok_iff.1 h
  obtain ⟨a, ha⟩ := run_discard_eq_ok hs'
  obtain ⟨rfl, callers, hc⟩ := run_current_eq_ok ha
  cases ht
  exact ⟨a, callers, hc, Stack.items_modifyTop_of_cons hc f, rfl⟩

theorem changing_fresh (site : Location) (length : Nat) :
    Changing (literalStorage.fresh site length) := by
  intro s id t h
  obtain ⟨id', u, hu, h⟩ := run_bind_eq_ok_iff.1 h
  obtain ⟨_, v, hv, h⟩ := run_bind_eq_ok_iff.1 h
  cases h
  obtain ⟨hm, hc⟩ := run_onMemory_eq_ok hu
  obtain ⟨a, callers, hu, ht, htm⟩ := run_modifyCurrent_eq_ok hv
  rw [hc] at hu
  exact .single (.adopt hu (htm ▸ hm) ht)

theorem changing_current (place : Location) : Changing (current place) := by
  intro s a t h
  rw [(run_current_eq_ok h).1]

theorem changing_literalStorage (site : Location) (length : Nat) :
    Changing (literalStorage site length) := by
  refine changing_bind (changing_current _) fun a => ?_
  dsimp only
  split
  · intro s id t h
    obtain ⟨s', u, hu, h⟩ := run_bind_eq_ok_iff.1 h
    cases hu
    split at h
    · exact changing_pure _ h
    · exact changing_fresh _ _ h
  · exact changing_fresh _ _

theorem changing_stringLiteral (site : Location) (bytes : List UInt8) :
    Changing (stringLiteral site bytes) :=
  changing_bind (changing_literalStorage ..) fun _ =>
    changing_bind (changing_onMemory _ fun m => m.shapes_write ..) fun _ => changing_pure _

theorem changing_filledLiteral (site : Location) (element : CType) (values : List Value) :
    Changing (filledLiteral site element values) :=
  changing_bind (changing_literalStorage ..) fun _ =>
    changing_bind (changing_storeSlots ..) fun _ => changing_pure _

theorem changing_arrayLiteral (site : Location) (values : List Value) :
    Changing (arrayLiteral site values) :=
  changing_bind (changing_filledLiteral ..) fun _ => changing_pure _

/-! ## Declarations -/

theorem changing_fill (d : Declaration) (b : Binding) (values : List Value) :
    Changing (d.fill b values) := by
  unfold Declaration.fill
  dsimp only
  split
  · exact changing_pure _
  · split
    · exact changing_onMemory _ fun m => m.shapes_write ..
    · exact changing_fail _ _
  · split
    · exact changing_storeSlots ..
    · exact changing_fail _ _
    · exact changing_breakOff
  · exact changing_fail _ _
  · split
    · exact changing_fail _ _
    · exact changing_bind (changing_filledLiteral ..) fun _ => changing_discard (changing_store ..)
  · split
    · exact changing_discard (changing_store ..)
    · exact changing_fail _ _

theorem changing_define (d : Declaration) (values : List Value) : Changing (d.define values) := by
  intro s b t h
  unfold Declaration.define at h
  split at h
  · obtain ⟨_, _, hu, _⟩ := run_bind_eq_ok_iff.1 h
    cases hu
  · rename_i hv
    obtain ⟨id, u, hu, h⟩ := run_bind_eq_ok_iff.1 h
    obtain ⟨_, v, hw, h⟩ := run_bind_eq_ok_iff.1 h
    obtain ⟨_, w, hf, h⟩ := run_bind_eq_ok_iff.1 h
    cases h
    obtain ⟨hm, hc⟩ := run_onMemory_eq_ok hu
    obtain ⟨a, callers, hu, ht, htm⟩ := run_modifyCurrent_eq_ok hw
    rw [hc] at hu
    exact .head (.declare hu hv (htm ▸ hm) ht) (changing_fill _ _ _ hf)

end Effect

end BoundedC
