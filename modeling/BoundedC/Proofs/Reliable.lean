import BoundedC.Proofs.Callers
import BoundedC.Proofs.WellFormed

/-!
# Operations do not fail internally

An effect or an evaluation is reliable if it does not fail internally and leaves as many calls in
progress as it is said to (`Evaluation.Reliable`). The operations of the language are, where a call
is in progress, and where they get the operands they were made for.

* `Reliable.bind`, `Effect.reliable_bind` : one after the other;
* `Effect.reliable_enterCall`, `Effect.reliable_popCall` : one call more, one call less;
* `Effect.reliable_define` : declarations, whose initializers have the values they need.
-/

namespace BoundedC

def RuntimeFault.isInternal : RuntimeFault → Bool
  | internal _ => true
  | _ => false

def Stop.isInternal : Stop → Bool
  | fault f _ => f.isInternal
  | _ => false

namespace Evaluation

variable {α β : Type}

theorem run_bind_eq_error_iff {x : Evaluation α} {f : α → Evaluation β} {e : Stop}
    {s t : ProgramState} :
    (x >>= f).run s = some (.error e, t) ↔ x.run s = some (.error e, t) ∨
      ∃ a u, x.run s = some (.ok a, u) ∧ (f a).run u = some (.error e, t) := by
  rw [run_bind]
  constructor
  · intro h
    rcases hx : x.run s with _ | ⟨_ | a, u⟩
    · rw [hx] at h
      cases h
    · rw [hx] at h
      cases h
      exact .inl rfl
    · rw [hx] at h
      exact .inr ⟨a, u, rfl, h⟩
  · rintro (h | ⟨a, u, hu, h⟩)
    · rw [h]
    · rw [hu]
      exact h

theorem ofEffect_bind (x : Effect α) (f : α → Effect β) :
    ofEffect (x >>= f) = ofEffect x >>= fun a => ofEffect (f a) := by
  funext s
  change some ((x >>= f).run s) = (ofEffect x >>= fun a => ofEffect (f a)).run s
  rw [run_bind, run_ofEffect, Effect.run_bind]
  rcases x.run s with ⟨_ | a, u⟩ <;> rfl

/-- The evaluation does not fail internally, and where it succeeds, its result has the property. The
numbers are those of the calls in progress, before and after. -/
structure Reliable (before after : Nat) (P : α → Prop) (x : Evaluation α) : Prop where
  error : ∀ ⦃s e t⦄, s.calls.items.length = before → x.run s = some (.error e, t) →
    e.isInternal = false
  ok : ∀ ⦃s a t⦄, s.calls.items.length = before → x.run s = some (.ok a, t) →
    P a ∧ t.calls.items.length = after

variable {k m n : Nat} {P : α → Prop} {Q : β → Prop}

namespace Reliable

theorem pure {a : α} (h : P a) : Reliable n n P (pure a) := by
  constructor
  · rintro s e t - ⟨⟩
  · rintro s _ _ hs ⟨⟩
    exact ⟨h, hs⟩

theorem exhausted : Reliable m n P Evaluation.exhausted := by
  constructor
  · rintro s e t - ⟨⟩
  · rintro s a t - ⟨⟩

theorem bind {x : Evaluation α} {f : α → Evaluation β} (hx : Reliable k m P x)
    (hf : ∀ a, P a → Reliable m n Q (f a)) : Reliable k n Q (x >>= f) := by
  constructor
  · intro s e t hs h
    rcases run_bind_eq_error_iff.1 h with h | ⟨a, u, hu, h⟩
    · exact hx.error hs h
    · obtain ⟨ha, hm⟩ := hx.ok hs hu
      exact (hf a ha).error hm h
  · intro s b t hs h
    obtain ⟨a, u, hu, h⟩ := run_bind_eq_ok_iff.1 h
    obtain ⟨ha, hm⟩ := hx.ok hs hu
    exact (hf a ha).ok hm h

theorem imp {P' : α → Prop} {x : Evaluation α} (hx : Reliable m n P x) (h : ∀ a, P a → P' a) :
    Reliable m n P' x := by
  refine ⟨hx.error, fun s a t hs hrun => ?_⟩
  obtain ⟨ha, ht⟩ := hx.ok hs hrun
  exact ⟨h a ha, ht⟩

theorem discard {x : Evaluation α} (hx : Reliable m n P x) :
    Reliable m n (fun _ => True) (Functor.discard x) :=
  hx.bind fun _ _ => .pure trivial

end Reliable

end Evaluation

/-! ## Effects -/

namespace Effect

open Evaluation

variable {α β : Type} {k m n : Nat}

/-- The effect does not fail internally. The numbers are those of the calls in progress. -/
abbrev Reliable (before after : Nat) (x : Effect α) : Prop :=
  Evaluation.Reliable before after (fun _ => True) (ofEffect x)

theorem reliable_of_run {x : Effect α}
    (herror : ∀ ⦃s e t⦄, s.calls.items.length = m → x.run s = (.error e, t) → e.isInternal = false)
    (hok : ∀ ⦃s a t⦄, s.calls.items.length = m → x.run s = (.ok a, t) →
      t.calls.items.length = n) : Reliable m n x :=
  ⟨fun _ _ _ hs h => herror hs (Option.some.inj h),
    fun _ _ _ hs h => ⟨trivial, hok hs (Option.some.inj h)⟩⟩

theorem reliable_pure (a : α) : Reliable n n (pure a) := Evaluation.Reliable.pure trivial

theorem reliable_bind {x : Effect α} {f : α → Effect β} (hx : Reliable k m x)
    (hf : ∀ a, Reliable m n (f a)) : Reliable k n (x >>= f) := by
  rw [Reliable, ofEffect_bind]
  exact hx.bind fun a _ => hf a

theorem reliable_fail (place : Location) {fault : RuntimeFault} (h : fault.isInternal = false) :
    Reliable m n (fail place fault : Effect α) := by
  refine reliable_of_run ?_ ?_
  · rintro s e t - ⟨⟩
    exact h
  · rintro s a t - ⟨⟩

theorem reliable_breakOff : Reliable m n (breakOff : Effect α) := by
  refine reliable_of_run ?_ ?_
  · rintro s e t - ⟨⟩
    rfl
  · rintro s a t - ⟨⟩

theorem reliable_discard {x : Effect α} (hx : Reliable m n x) : Reliable m n (discard x) :=
  reliable_bind hx fun _ => reliable_pure _

theorem reliable_ofExcept (place : Location) {x : Except RuntimeFault α}
    (h : ∀ fault, x = .error fault → fault.isInternal = false) :
    Reliable n n (ofExcept place x) := by
  cases x with
  | ok a => exact reliable_pure a
  | error fault => exact reliable_fail place (h fault rfl)

theorem reliable_get : Reliable n n get := by
  refine reliable_of_run ?_ ?_
  · rintro s e t - ⟨⟩
  · rintro s a t hs ⟨⟩
    exact hs

/-- A change of the state that cannot fail. -/
theorem reliable_modify {f : ProgramState → ProgramState}
    (hf : ∀ s, s.calls.items.length = m → (f s).calls.items.length = n) :
    Reliable m n (modify f) := by
  refine reliable_of_run ?_ ?_
  · rintro s e t - ⟨⟩
  · rintro s a t hs ⟨⟩
    exact hf s hs

theorem reliable_onMemory (place : Location) (f : Arena → Except MemoryFault α × Arena) :
    Reliable n n (onMemory place f) := by
  refine reliable_of_run (fun s e t hs h => ?_) fun s a t hs h => ?_
  · unfold onMemory ExceptT.run ExceptT.mk at h
    dsimp only at h
    split at h <;> cases h
    rfl
  · rw [(run_onMemory_eq_ok h).2, hs]

theorem reliable_readMemory (place : Location) (f : Arena → Except MemoryFault α) :
    Reliable n n (readMemory place f) := by
  refine reliable_bind reliable_get fun s => ?_
  split
  · exact reliable_pure _
  · exact reliable_fail _ rfl

theorem reliable_load (place : Location) (p : Pointer) : Reliable n n (load place p) :=
  reliable_readMemory _ _

theorem reliable_store (place : Location) (p : Pointer) (v : Value) : Reliable n n (store place p v) :=
  reliable_onMemory _ _

theorem reliable_allocate (place : Location) (length : Nat) (owner : Owner) :
    Reliable n n (allocate place length owner) :=
  reliable_onMemory _ _

theorem reliable_storeSlots (place : Location) (id : BufferId) (type : CType)
    (values : List (Value × Nat)) : Reliable n n (storeSlots place id type values) := by
  induction values with
  | nil => exact reliable_pure _
  | cons head rest ih => exact reliable_bind (reliable_discard (reliable_store ..)) fun _ => ih

theorem reliable_write (place : Location) (bytes : List UInt8) : Reliable n n (write place bytes) := by
  refine reliable_of_run (fun s e t hs h => ?_) fun s a t hs h => ?_
  · unfold write ExceptT.run ExceptT.mk at h
    dsimp only at h
    split at h <;> cases h
    rfl
  · unfold write ExceptT.run ExceptT.mk at h
    dsimp only at h
    split at h <;> cases h
    exact hs

theorem reliable_lookup (place : Location) (name : String) : Reliable n n (lookup place name) := by
  refine reliable_bind reliable_get fun s => ?_
  split
  · exact reliable_pure _
  · exact reliable_fail _ rfl

/-! ## Effects on the call in progress -/

theorem reliable_current (place : Location) : Reliable (n + 1) (n + 1) (current place) := by
  have hget : Evaluation.Reliable (n + 1) (n + 1) (fun s : ProgramState => s.calls.items ≠ [])
      (ofEffect get) := by
    refine ⟨reliable_get.error, ?_⟩
    rintro s _ _ hs ⟨⟩
    exact ⟨List.ne_nil_of_length_eq_add_one hs, hs⟩
  rw [Reliable, current, ofEffect_bind]
  refine hget.bind fun s hs => ?_
  obtain ⟨a, callers, ha⟩ := List.exists_cons_of_ne_nil hs
  rw [Stack.top?, ha]
  exact reliable_pure a

theorem reliable_modifyCurrent (place : Location) (f : Activation → Activation) :
    Reliable (n + 1) (n + 1) (modifyCurrent place f) := by
  refine reliable_bind (reliable_discard (reliable_current _)) fun _ => reliable_modify fun s hs => ?_
  obtain ⟨a, callers, ha⟩ := List.exists_cons_of_ne_nil (List.ne_nil_of_length_eq_add_one hs)
  rw [ha] at hs
  rw [Stack.items_modifyTop_of_cons ha]
  exact hs

theorem reliable_releaseAll (ids : List BufferId) : Reliable n n (releaseAll ids) :=
  reliable_modify fun _ hs => hs

theorem reliable_openScope (place : Location) : Reliable (n + 1) (n + 1) (openScope place) :=
  reliable_modifyCurrent _ _

theorem reliable_closeScope (place : Location) : Reliable (n + 1) (n + 1) (closeScope place) :=
  reliable_bind (reliable_current _) fun _ => reliable_bind (reliable_releaseAll _) fun _ =>
    reliable_modifyCurrent _ _

theorem reliable_countStep (limits : Limits) (place : Location) :
    Reliable n n (countStep limits place) := by
  refine reliable_bind (reliable_modify fun _ hs => hs) fun _ => ?_
  cases limits.maxSteps with
  | none => exact reliable_pure _
  | some limit =>
    refine reliable_bind reliable_get fun s => ?_
    split
    · exact reliable_fail _ rfl
    · exact reliable_pure _

theorem reliable_bindParams (place : Location) (a : Activation) (params : List (Param × Value)) :
    Reliable n n (bindParams place a params) := by
  induction params generalizing a with
  | nil => exact reliable_pure _
  | cons head rest ih =>
    exact reliable_bind (reliable_allocate ..) fun _ =>
      reliable_bind (reliable_discard (reliable_store ..)) fun _ => ih _

/-- A call that begins is one call more. -/
theorem reliable_enterCall (limits : Limits) (f : Function) (args : List Value)
    (callSite : Option Location) : Reliable n (n + 1) (enterCall limits f args callSite) := by
  refine reliable_bind reliable_get fun s => ?_
  have hpush (a : Activation) : Reliable n (n + 1)
      (modify fun s => { s with calls := s.calls.push a }) :=
    reliable_modify fun s hs => by rw [Stack.items_push, List.length_cons, hs]
  split
  · exact reliable_bind (reliable_fail _ rfl) fun _ => reliable_bind (reliable_bindParams ..) hpush
  · exact reliable_bind (reliable_bindParams ..) hpush

/-- A call that ends is one call less. -/
theorem reliable_popCall (place : Location) : Reliable (n + 1) n (popCall place) := by
  refine reliable_bind (reliable_current _) fun a => reliable_bind ?_ fun _ => reliable_pure _
  refine reliable_modify fun s hs => ?_
  rw [Stack.items_pop, List.length_tail, hs]
  rfl

theorem reliable_callResult (place : Location) (returnType : CType) (v : Option Value) :
    Reliable n n (callResult place returnType v) := by
  cases v with
  | none => exact reliable_pure _
  | some v =>
    unfold callResult
    dsimp only
    split
    · exact reliable_pure _
    · exact reliable_readMemory _ _

theorem reliable_exitValue (place : Location) (result : Value) :
    Reliable n n (exitValue place result) := by
  unfold exitValue
  split
  · exact reliable_pure _
  · exact reliable_fail _ rfl

end Effect

/-! ## Operators -/

theorem BinaryOp.isLogical_of_isArithmetic {op : BinaryOp} (h : op.isArithmetic = true) :
    op.isLogical = false := by
  cases op with
  | and | or => cases h
  | _ => rfl

theorem BinaryOp.isInternal_of_ofMemory {α : Type} {f : α → Value} {x : Except MemoryFault α}
    {fault : RuntimeFault} (h : ofMemory f x = .error fault) : fault.isInternal = false := by
  cases x with
  | ok a => cases h
  | error e =>
    cases h
    rfl

theorem BinaryOp.isInternal_of_applyInts {op : BinaryOp} (hop : op.isLogical = false) {a b : Int32}
    {fault : RuntimeFault} (h : op.applyInts a b = .error fault) : fault.isInternal = false := by
  cases op with
  | and | or => cases hop
  | div | mod =>
    simp only [applyInts] at h
    split at h <;> cases h
    rfl
  | _ => cases h

/-- Operators other than the logical ones apply to all values, or refuse them. -/
theorem BinaryOp.isInternal_of_apply {op : BinaryOp} (hop : op.isLogical = false) {l r : Value}
    {fault : RuntimeFault} (h : op.apply l r = .error fault) : fault.isInternal = false := by
  unfold apply at h
  dsimp only at h
  split at h
  · split at h
    · exact isInternal_of_ofMemory h
    · split at h <;> cases h
      rfl
  · split at h
    · exact isInternal_of_ofMemory h
    · exact isInternal_of_ofMemory h
    · split at h <;> cases h
      rfl
    · split at h <;> cases h
      rfl
    · cases h
      rfl
  · split at h
    · exact isInternal_of_ofMemory h
    · split at h <;> cases h
      rfl
    · split at h <;> cases h
      rfl
    · cases h
      rfl
  · split at h
    · exact isInternal_of_applyInts hop h
    · cases h
      rfl

theorem UnaryOp.isInternal_of_apply {op : UnaryOp} {v : Value} {fault : RuntimeFault}
    (h : op.apply v = .error fault) : fault.isInternal = false := by
  cases op with
  | not => cases h
  | neg =>
    unfold apply at h
    dsimp only at h
    split at h <;> cases h
    rfl

theorem StepOp.isInternal_of_apply {op : StepOp} {type : CType} {old : Value} {fault : RuntimeFault}
    (h : op.apply type old = .error fault) : fault.isInternal = false := by
  cases old with
  | int | char => cases h
  | pointer p =>
    unfold apply at h
    dsimp only at h
    split at h
    · cases h
      rfl
    · exact BinaryOp.isInternal_of_ofMemory h

theorem Value.isInternal_of_element {array index : Value} {fault : RuntimeFault}
    (h : array.element index = .error fault) : fault.isInternal = false := by
  have moved {x : Except MemoryFault Pointer} (h : x.mapError RuntimeFault.memory = .error fault) :
      fault.isInternal = false := by
    cases x with
    | ok p => cases h
    | error e =>
      cases h
      rfl
  unfold element at h
  dsimp only at h
  split at h
  · split at h
    · exact moved h
    · cases h
      rfl
  · split at h
    · exact moved h
    · cases h
      rfl
  · cases h
    rfl

/-! ## Operations -/

namespace Effect

variable {n : Nat}

theorem reliable_variablePlace (place : Location) (name : String) (access : Access) :
    Reliable n n (variablePlace place name access) := by
  refine reliable_bind (reliable_lookup ..) fun b => ?_
  dsimp only
  split
  · exact reliable_bind (reliable_fail _ rfl) fun _ => reliable_pure _
  · exact reliable_pure _

theorem reliable_variableValue (place : Location) (name : String) :
    Reliable n n (variableValue place name) :=
  reliable_bind (reliable_lookup ..) fun _ => reliable_load ..

theorem reliable_pointerPlace (place : Location) (v : Value) : Reliable n n (pointerPlace place v) := by
  cases v with
  | pointer p => exact reliable_pure p
  | _ => exact reliable_fail _ rfl

theorem reliable_elementPlace (place : Location) (array index : Value) :
    Reliable n n (elementPlace place array index) :=
  reliable_ofExcept _ fun _ h => Value.isInternal_of_element h

theorem reliable_assign (place : Location) (target : Pointer) (v : Value) :
    Reliable n n (assign place target v) := by
  unfold assign
  split
  · exact reliable_fail _ rfl
  · exact reliable_store ..

theorem reliable_compoundAssign {op : BinaryOp} (hop : op.isLogical = false) (place : Location)
    (target : Pointer) (v : Value) : Reliable n n (compoundAssign op place target v) :=
  reliable_bind (reliable_load ..) fun _ =>
    reliable_bind (reliable_ofExcept _ fun _ h => BinaryOp.isInternal_of_apply hop h) fun _ =>
      reliable_assign ..

theorem reliable_step (op : StepOp) (place : Location) (target : Pointer) :
    Reliable n n (step op place target) :=
  reliable_bind (reliable_load ..) fun _ =>
    reliable_bind (reliable_ofExcept _ fun _ h => StepOp.isInternal_of_apply h) fun _ =>
      reliable_bind (reliable_store ..) fun _ => reliable_pure _

theorem reliable_print (place : Location) (start length : Value) :
    Reliable n n (print place start length) := by
  unfold print
  split
  · exact reliable_fail _ rfl
  · exact reliable_fail _ rfl
  · have hwrite (p : Pointer) (n' : Int32) : Reliable n n (do
        let bytes ← readMemory place (·.read p.buffer p.offset n'.toInt.toNat)
        write place bytes
        return .int 0 : Effect Value) :=
      reliable_bind (reliable_readMemory ..) fun _ => reliable_bind (reliable_write ..) fun _ =>
        reliable_pure _
    dsimp only
    split
    · exact reliable_bind (reliable_fail _ rfl) fun _ => hwrite _ _
    · exact hwrite _ _

/-! ## Literals and declarations -/

theorem reliable_fresh (site : Location) (length : Nat) :
    Reliable (n + 1) (n + 1) (literalStorage.fresh site length) :=
  reliable_bind (reliable_allocate ..) fun _ => reliable_bind (reliable_modifyCurrent ..) fun _ =>
    reliable_pure _

theorem reliable_literalStorage (site : Location) (length : Nat) :
    Reliable (n + 1) (n + 1) (literalStorage site length) := by
  refine reliable_bind (reliable_current _) fun a => ?_
  dsimp only
  split
  · refine reliable_bind reliable_get fun s => ?_
    split
    · exact reliable_pure _
    · exact reliable_fresh ..
  · exact reliable_fresh ..

theorem reliable_stringLiteral (site : Location) (bytes : List UInt8) :
    Reliable (n + 1) (n + 1) (stringLiteral site bytes) :=
  reliable_bind (reliable_literalStorage ..) fun _ => reliable_bind (reliable_onMemory ..) fun _ =>
    reliable_pure _

theorem reliable_filledLiteral (site : Location) (element : CType) (values : List Value) :
    Reliable (n + 1) (n + 1) (filledLiteral site element values) :=
  reliable_bind (reliable_literalStorage ..) fun _ => reliable_bind (reliable_storeSlots ..) fun _ =>
    reliable_pure _

theorem reliable_arrayLiteral (site : Location) (values : List Value) :
    Reliable (n + 1) (n + 1) (arrayLiteral site values) :=
  reliable_bind (reliable_filledLiteral ..) fun _ => reliable_pure _

/-- An initializer that neither fills an array nor points at a list is its own operand. -/
theorem operands_eq_singleton {d : Declaration} {init : Node} (hinit : d.init = some init)
    (harray : ∀ element length, d.type ≠ .array element length)
    (hlist : ∀ pointee site elements, d.type = .pointer pointee → init ≠ .arrayLiteral site elements) :
    d.operands = [init] := by
  unfold Declaration.operands
  split
  · rename_i hnone
    cases hinit.symm.trans hnone
  · rename_i htype _
    exact absurd htype (harray _ _)
  · rename_i htype _
    exact absurd htype (harray _ _)
  · rename_i htype hsome
    cases hinit.symm.trans hsome
    exact absurd rfl (hlist _ _ _ htype)
  · rename_i hsome _ _ _
    cases hinit.symm.trans hsome
    rfl

/-- An initializer gets a value for each of its operands. -/
theorem reliable_fill (d : Declaration) (b : Binding) {values : List Value}
    (hvalues : values.length = d.operands.length) : Reliable (n + 1) (n + 1) (d.fill b values) := by
  unfold Declaration.fill
  dsimp only
  split
  · exact reliable_pure _
  · split
    · exact reliable_onMemory ..
    · exact reliable_fail _ rfl
  · split
    · exact reliable_storeSlots ..
    · exact reliable_fail _ rfl
    · exact reliable_breakOff
  · exact reliable_fail _ rfl
  · split
    · exact reliable_fail _ rfl
    · exact reliable_bind (reliable_filledLiteral ..) fun _ => reliable_discard (reliable_store ..)
  · rename_i hinit _ _ harray hlist
    rw [operands_eq_singleton hinit harray hlist] at hvalues
    obtain ⟨v, rfl⟩ := List.length_eq_one_iff.1 hvalues
    exact reliable_discard (reliable_store ..)

theorem reliable_define (d : Declaration) {values : List Value}
    (hvalues : values.length = d.operands.length) : Reliable (n + 1) (n + 1) (d.define values) := by
  unfold Declaration.define
  have hrest : Reliable (n + 1) (n + 1) (do
      let buffer ← allocate d.place d.type.size .scoped
      let b : Binding := ⟨buffer, d.type, d.isConst && !d.type.isPointer⟩
      modifyCurrent d.place (·.declare d.name b)
      d.fill b values
      return b) :=
    reliable_bind (reliable_allocate ..) fun _ => reliable_bind (reliable_modifyCurrent ..) fun _ =>
      reliable_bind (reliable_fill d _ hvalues) fun _ => reliable_pure _
  split
  · exact reliable_bind (reliable_fail _ rfl) fun _ => hrest
  · exact hrest

end Effect

end BoundedC
