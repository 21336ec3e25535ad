import BoundedC.Proofs.Change
import BoundedC.Run

/-!
# Effects without a ceiling

A run has two ceilings, one on the calls in progress and one on the statements executed. All effects
but two have nothing to do with them: such an effect counts no statement, begins no call and never
reports a ceiling, and whatever was written before it stays written (`Effect.Unmetered`). The two are
`Effect.countStep` and `Effect.enterCall`.

* `unmetered_evaluate`, `unmetered_locate`, `unmetered_executed` : expressions, places and statements
  once they are counted;
* `unmetered_perform` : all jobs but statements and calls;
* `Interpreter.execute_eq` : a statement is counted first, and what follows is unmetered.
-/

namespace BoundedC

namespace Stop

def isStepLimit : Stop → Bool
  | fault (.stepLimit _) _ => true
  | _ => false

def isStackOverflow : Stop → Bool
  | fault (.stackOverflow _) _ => true
  | _ => false

def isCeiling (e : Stop) : Bool := e.isStepLimit || e.isStackOverflow

end Stop

def RuntimeFault.isCeiling : RuntimeFault → Bool
  | stepLimit _ | stackOverflow _ => true
  | _ => false

theorem Stop.isCeiling_fault (fault : RuntimeFault) (place : Location) :
    (Stop.fault fault place).isCeiling = fault.isCeiling := by
  cases fault <;> rfl

def ProgramState.output (s : ProgramState) : List UInt8 := s.sink.written.toList

/-- No statement was counted on the way from `s` to `t` and no call begun, and the output has at most
grown. -/
structure Spares (s t : ProgramState) : Prop where
  steps : t.steps = s.steps
  calls : t.calls.height ≤ s.calls.height
  output : s.output <+: t.output

theorem Spares.refl (s : ProgramState) : Spares s s := ⟨rfl, Nat.le_refl _, List.prefix_refl _⟩

theorem Spares.trans {s t u : ProgramState} (h : Spares s t) (h' : Spares t u) : Spares s u :=
  ⟨h'.steps.trans h.steps, Nat.le_trans h'.calls h.calls, h.output.trans h'.output⟩

namespace Effect

variable {α β : Type}

/-- Whatever the outcome, the effect spares the ceilings, and it fails for another reason if at all. -/
def Unmetered (x : Effect α) : Prop :=
  ∀ s, Spares s (x.run s).2 ∧ ∀ e, (x.run s).1 = .error e → e.isCeiling = false

theorem unmetered_of_ok {x : Effect α}
    (h : ∀ s, ∃ a t, x.run s = (.ok a, t) ∧ Spares s t) : Unmetered x := by
  intro s
  obtain ⟨a, t, hrun, hst⟩ := h s
  rw [hrun]
  exact ⟨hst, nofun⟩

theorem unmetered_pure (a : α) : Unmetered (pure a : Effect α) :=
  unmetered_of_ok fun s => ⟨a, s, rfl, .refl s⟩

theorem unmetered_get : Unmetered get := unmetered_of_ok fun s => ⟨s, s, rfl, .refl s⟩

theorem unmetered_modify {f : ProgramState → ProgramState} (hf : ∀ s, Spares s (f s)) :
    Unmetered (modify f) :=
  unmetered_of_ok fun s => ⟨(), f s, rfl, hf s⟩

theorem unmetered_fail (place : Location) {fault : RuntimeFault} (h : fault.isCeiling = false) :
    Unmetered (fail place fault : Effect α) := by
  intro s
  refine ⟨.refl s, ?_⟩
  rintro _ ⟨⟩
  rwa [Stop.isCeiling_fault]

theorem unmetered_breakOff : Unmetered (breakOff : Effect α) := by
  intro s
  refine ⟨.refl s, ?_⟩
  rintro _ ⟨⟩
  rfl

theorem unmetered_bind {x : Effect α} {f : α → Effect β} (hx : Unmetered x)
    (hf : ∀ a, Unmetered (f a)) : Unmetered (x >>= f) := by
  intro s
  obtain ⟨hst, herror⟩ := hx s
  rw [run_bind]
  rcases hrun : x.run s with ⟨e | a, t⟩
  · rw [hrun] at hst herror
    refine ⟨hst, ?_⟩
    rintro _ ⟨⟩
    exact herror e rfl
  · rw [hrun] at hst
    obtain ⟨htu, herror'⟩ := hf a t
    exact ⟨hst.trans htu, herror'⟩

theorem unmetered_discard {x : Effect α} (hx : Unmetered x) : Unmetered (discard x) :=
  unmetered_bind hx fun _ => unmetered_pure ()

theorem unmetered_ofExcept (place : Location) {x : Except RuntimeFault α}
    (h : ∀ fault, x = .error fault → fault.isCeiling = false) : Unmetered (ofExcept place x) := by
  cases x with
  | ok a => exact unmetered_pure a
  | error fault => exact unmetered_fail place (h fault rfl)

/-- A guard that fails for another reason. -/
theorem unmetered_guard (place : Location) {fault : RuntimeFault} (h : fault.isCeiling = false)
    (p : Prop) [Decidable p] {x : Effect α} (hx : Unmetered x) :
    Unmetered (if p then (do fail place fault; x) else x) := by
  split
  · exact unmetered_bind (unmetered_fail place h) fun _ => hx
  · exact hx

/-! ## Memory, calls and output -/

theorem unmetered_onMemory (place : Location) (f : Arena → Except MemoryFault α × Arena) :
    Unmetered (onMemory place f) := by
  intro s
  rcases hm : f s.memory with ⟨fault | a, m⟩
  · rw [run_onMemory_of_error hm]
    refine ⟨⟨rfl, Nat.le_refl _, List.prefix_refl _⟩, ?_⟩
    rintro _ ⟨⟩
    rfl
  · rw [run_onMemory_of_ok hm]
    exact ⟨⟨rfl, Nat.le_refl _, List.prefix_refl _⟩, nofun⟩

theorem unmetered_readMemory (place : Location) (f : Arena → Except MemoryFault α) :
    Unmetered (readMemory place f) := by
  refine unmetered_bind unmetered_get fun s => ?_
  split
  · exact unmetered_pure _
  · exact unmetered_fail place rfl

theorem unmetered_load (place : Location) (p : Pointer) : Unmetered (load place p) :=
  unmetered_readMemory _ _

theorem unmetered_store (place : Location) (p : Pointer) (v : Value) :
    Unmetered (store place p v) := unmetered_onMemory _ _

theorem unmetered_storeSlots (place : Location) (id : BufferId) (type : CType)
    (values : List (Value × Nat)) : Unmetered (storeSlots place id type values) := by
  induction values with
  | nil => exact unmetered_pure ()
  | cons head rest ih =>
    exact unmetered_bind (unmetered_discard (unmetered_store _ _ _)) fun _ => ih

theorem unmetered_releaseAll (ids : List BufferId) : Unmetered (releaseAll ids) :=
  unmetered_modify fun _ => ⟨rfl, Nat.le_refl _, List.prefix_refl _⟩

theorem unmetered_current (place : Location) : Unmetered (current place) := by
  refine unmetered_bind unmetered_get fun s => ?_
  split
  · exact unmetered_pure _
  · exact unmetered_fail place rfl

theorem height_modifyTop {γ : Type} (s : Stack γ) (f : γ → γ) :
    (s.modifyTop f).height = s.height := by
  unfold Stack.modifyTop
  split <;> rfl

theorem unmetered_modifyCurrent (place : Location) (f : Activation → Activation) :
    Unmetered (modifyCurrent place f) := by
  refine unmetered_bind (unmetered_discard (unmetered_current place)) fun _ => ?_
  refine unmetered_modify fun s => ⟨rfl, ?_, List.prefix_refl _⟩
  exact Nat.le_of_eq (height_modifyTop s.calls f)

theorem unmetered_openScope (place : Location) : Unmetered (openScope place) :=
  unmetered_modifyCurrent _ _

theorem unmetered_closeScope (place : Location) : Unmetered (closeScope place) :=
  unmetered_bind (unmetered_current place) fun _ => unmetered_bind (unmetered_releaseAll _) fun _ =>
    unmetered_modifyCurrent _ _

theorem unmetered_lookup (place : Location) (name : String) : Unmetered (lookup place name) := by
  refine unmetered_bind unmetered_get fun s => ?_
  split
  · exact unmetered_pure _
  · exact unmetered_fail place rfl

/-- A write adds to the output, or leaves it as it was. -/
theorem unmetered_write (place : Location) (bytes : List UInt8) : Unmetered (write place bytes) := by
  intro s
  by_cases hroom : s.sink.hasRoom bytes.length
  · rw [run_write_of_ok (Sink.write_of_hasRoom hroom)]
    refine ⟨⟨rfl, Nat.le_refl _, ?_⟩, nofun⟩
    show s.sink.written.toList <+: (s.sink.written ++ bytes).toList
    rw [Array.toList_appendList]
    exact List.prefix_append _ _
  · have hwrite : s.sink.write bytes = (.error .closed, s.sink) := by
      simp [Sink.write, hroom]
    rw [run_write_of_error hwrite]
    refine ⟨.refl s, ?_⟩
    rintro _ ⟨⟩
    rfl

/-! ## Operations -/

end Effect

theorem RuntimeFault.isCeiling_of_mapError {α : Type} {x : Except MemoryFault α} {fault : RuntimeFault}
    (h : x.mapError .memory = .error fault) : fault.isCeiling = false := by
  cases x with
  | ok a => cases h
  | error e =>
    cases h
    rfl

theorem BinaryOp.isCeiling_of_ofMemory {α : Type} {f : α → Value} {x : Except MemoryFault α}
    {fault : RuntimeFault} (h : ofMemory f x = .error fault) : fault.isCeiling = false := by
  cases x with
  | ok a => cases h
  | error e =>
    cases h
    rfl

theorem BinaryOp.isCeiling_of_applyInts {op : BinaryOp} {a b : Int32} {fault : RuntimeFault}
    (h : op.applyInts a b = .error fault) : fault.isCeiling = false := by
  unfold applyInts at h
  grind [RuntimeFault.isCeiling]

theorem BinaryOp.isCeiling_of_apply {op : BinaryOp} {l r : Value} {fault : RuntimeFault}
    (h : op.apply l r = .error fault) : fault.isCeiling = false := by
  unfold apply at h
  grind [RuntimeFault.isCeiling, isCeiling_of_ofMemory, isCeiling_of_applyInts]

theorem UnaryOp.isCeiling_of_apply {op : UnaryOp} {v : Value} {fault : RuntimeFault}
    (h : op.apply v = .error fault) : fault.isCeiling = false := by
  unfold apply at h
  grind [RuntimeFault.isCeiling]

theorem StepOp.isCeiling_of_apply {op : StepOp} {type : CType} {old : Value} {fault : RuntimeFault}
    (h : op.apply type old = .error fault) : fault.isCeiling = false := by
  unfold apply at h
  grind [RuntimeFault.isCeiling, BinaryOp.isCeiling_of_ofMemory]

theorem Value.isCeiling_of_element {array index : Value} {fault : RuntimeFault}
    (h : array.element index = .error fault) : fault.isCeiling = false := by
  unfold element at h
  grind [RuntimeFault.isCeiling, RuntimeFault.isCeiling_of_mapError]

theorem Interpreter.isCeiling_of_callee {i : Interpreter} {name : String} {count : Nat}
    {fault : RuntimeFault} (h : i.callee name count = .error fault) : fault.isCeiling = false := by
  unfold callee at h
  grind [RuntimeFault.isCeiling]

namespace Effect

theorem unmetered_variablePlace (place : Location) (name : String) (access : Access) :
    Unmetered (variablePlace place name access) :=
  unmetered_bind (unmetered_lookup place name) fun _ =>
    unmetered_guard place rfl _ (unmetered_pure _)

theorem unmetered_variableValue (place : Location) (name : String) :
    Unmetered (variableValue place name) :=
  unmetered_bind (unmetered_lookup place name) fun _ => unmetered_load place _

theorem unmetered_pointerPlace (place : Location) (v : Value) : Unmetered (pointerPlace place v) := by
  cases v with
  | pointer p => exact unmetered_pure p
  | _ => exact unmetered_fail place rfl

theorem unmetered_elementPlace (place : Location) (array index : Value) :
    Unmetered (elementPlace place array index) :=
  unmetered_ofExcept place fun _ h => Value.isCeiling_of_element h

theorem unmetered_assign (place : Location) (target : Pointer) (v : Value) :
    Unmetered (assign place target v) := by
  unfold assign
  split
  · exact unmetered_fail place rfl
  · exact unmetered_store place target v

theorem unmetered_compoundAssign (op : BinaryOp) (place : Location) (target : Pointer) (v : Value) :
    Unmetered (compoundAssign op place target v) :=
  unmetered_bind (unmetered_load place target) fun _ =>
    unmetered_bind (unmetered_ofExcept place fun _ h => BinaryOp.isCeiling_of_apply h) fun _ =>
    unmetered_assign place target _

theorem unmetered_step (op : StepOp) (place : Location) (target : Pointer) :
    Unmetered (step op place target) :=
  unmetered_bind (unmetered_load place target) fun _ =>
    unmetered_bind (unmetered_ofExcept place fun _ h => StepOp.isCeiling_of_apply h) fun _ =>
    unmetered_bind (unmetered_store place target _) fun _ => unmetered_pure _

theorem unmetered_print (place : Location) (start length : Value) :
    Unmetered (print place start length) := by
  unfold print
  split
  · exact unmetered_fail place rfl
  · exact unmetered_fail place rfl
  · refine unmetered_guard place rfl _ ?_
    exact unmetered_bind (unmetered_readMemory place _) fun bytes =>
      unmetered_bind (unmetered_write place bytes) fun _ => unmetered_pure _

/-! ## Literals and declarations -/

theorem unmetered_literalStorage (site : Location) (length : Nat) :
    Unmetered (literalStorage site length) := by
  have hfresh : Unmetered (literalStorage.fresh site length) :=
    unmetered_bind (unmetered_onMemory site _) fun id =>
      unmetered_bind (unmetered_modifyCurrent site _) fun _ => unmetered_pure id
  refine unmetered_bind (unmetered_current site) fun a => ?_
  dsimp only
  split
  · refine unmetered_bind unmetered_get fun s => ?_
    split
    · exact unmetered_pure _
    · exact hfresh
  · exact hfresh

theorem unmetered_stringLiteral (site : Location) (bytes : List UInt8) :
    Unmetered (stringLiteral site bytes) :=
  unmetered_bind (unmetered_literalStorage site _) fun _ =>
    unmetered_bind (unmetered_onMemory site _) fun _ => unmetered_pure _

theorem unmetered_filledLiteral (site : Location) (element : CType) (values : List Value) :
    Unmetered (filledLiteral site element values) :=
  unmetered_bind (unmetered_literalStorage site _) fun _ =>
    unmetered_bind (unmetered_storeSlots site _ element _) fun _ => unmetered_pure _

theorem unmetered_arrayLiteral (site : Location) (values : List Value) :
    Unmetered (arrayLiteral site values) :=
  unmetered_bind (unmetered_filledLiteral site _ values) fun _ => unmetered_pure _

theorem unmetered_fill (d : Declaration) (b : Binding) (values : List Value) :
    Unmetered (d.fill b values) := by
  unfold Declaration.fill
  dsimp only
  split
  · exact unmetered_pure ()
  · split
    · exact unmetered_onMemory d.place _
    · exact unmetered_fail d.place rfl
  · split
    · exact unmetered_storeSlots d.place _ _ _
    · exact unmetered_fail d.place rfl
    · exact unmetered_breakOff
  · exact unmetered_fail d.place rfl
  · split
    · exact unmetered_fail d.place rfl
    · exact unmetered_bind (unmetered_filledLiteral _ _ values) fun _ =>
        unmetered_discard (unmetered_store d.place _ _)
  · split
    · exact unmetered_discard (unmetered_store d.place _ _)
    · exact unmetered_fail d.place rfl

theorem unmetered_define (d : Declaration) (values : List Value) : Unmetered (d.define values) := by
  refine unmetered_guard d.place rfl _ ?_
  exact unmetered_bind (unmetered_onMemory d.place _) fun _ =>
    unmetered_bind (unmetered_modifyCurrent d.place _) fun _ =>
    unmetered_bind (unmetered_fill d _ values) fun _ => unmetered_pure _

/-! ## Calls -/

theorem unmetered_bindParams (place : Location) (a : Activation) (params : List (Param × Value)) :
    Unmetered (bindParams place a params) := by
  induction params generalizing a with
  | nil => exact unmetered_pure a
  | cons head rest ih =>
    exact unmetered_bind (unmetered_onMemory place _) fun _ =>
      unmetered_bind (unmetered_discard (unmetered_store place _ _)) fun _ => ih _

theorem unmetered_popCall (place : Location) : Unmetered (popCall place) := by
  refine unmetered_bind (unmetered_current place) fun a => ?_
  refine unmetered_bind (unmetered_modify fun s => ⟨rfl, ?_, List.prefix_refl _⟩) fun _ =>
    unmetered_pure a
  exact Nat.sub_le s.calls.height 1

theorem unmetered_callResult (place : Location) (returnType : CType) (v : Option Value) :
    Unmetered (callResult place returnType v) := by
  cases v with
  | none => exact unmetered_pure _
  | some v =>
    unfold callResult
    dsimp only
    split
    · exact unmetered_pure _
    · exact unmetered_readMemory place fun _ => v.convert returnType

theorem unmetered_leaveCall (place : Location) (value : Option Value) :
    Unmetered (leaveCall place value) :=
  unmetered_bind (unmetered_popCall place) fun a =>
    unmetered_bind (unmetered_callResult place a.returnType value) fun _ =>
    unmetered_bind (unmetered_releaseAll a.owned) fun _ => unmetered_pure _

theorem unmetered_exitValue (place : Location) (result : Value) :
    Unmetered (exitValue place result) := by
  unfold exitValue
  split
  · exact unmetered_pure _
  · exact unmetered_fail place rfl

theorem unmetered_bindArgumentsFrom (place : Location) (table : BufferId) (slot : Nat)
    (args : List (List UInt8)) : Unmetered (bindArgumentsFrom place table slot args) := by
  induction args generalizing slot with
  | nil => exact unmetered_pure ()
  | cons arg rest ih =>
    exact unmetered_bind (unmetered_onMemory place _) fun _ =>
      unmetered_bind (unmetered_storeSlots place table _ _) fun _ => ih _

theorem unmetered_bindArguments (place : Location) (args : List (List UInt8)) :
    Unmetered (bindArguments place args) :=
  unmetered_bind (unmetered_onMemory place _) fun table =>
    unmetered_bind (unmetered_bindArgumentsFrom place table 0 args) fun _ =>
    unmetered_guard place rfl _ (unmetered_pure _)

end Effect

/-! ## Jobs -/

open Effect

namespace Pending

theorem unmetered_pop (place : Location) (p : Pending) : Unmetered (p.pop place) := by
  unfold pop
  split
  · exact unmetered_pure _
  · exact unmetered_fail place rfl

theorem unmetered_popPlace (place : Location) (p : Pending) : Unmetered (p.popPlace place) := by
  refine unmetered_bind (unmetered_pop place p) fun r => ?_
  split
  · exact unmetered_pure _
  · exact unmetered_fail place rfl

theorem unmetered_popMany (place : Location) (p : Pending) (count : Nat) :
    Unmetered (p.popMany place count) := by
  unfold popMany
  split
  · exact unmetered_pure _
  · exact unmetered_fail place rfl

theorem unmetered_unwind (place : Location) (isTarget : Job → Bool) (jobs : List Job)
    (stack : Stack Job) : Unmetered (unwind place isTarget jobs stack) := by
  fun_induction unwind place isTarget jobs stack with
  | case1 stack => exact unmetered_fail place rfl
  | case2 stack end_ rest => exact unmetered_fail place rfl
  | case3 stack scope rest ih => exact unmetered_bind (unmetered_closeScope place) fun _ => ih
  | case4 stack job rest hend hscope htarget => exact unmetered_pure _
  | case5 stack job rest hend hscope htarget ih => exact ih

theorem unmetered_unwindTo (place : Location) (isTarget : Job → Bool) (p : Pending) :
    Unmetered (p.unwindTo place isTarget) :=
  unmetered_bind (unmetered_unwind place isTarget _ _) fun _ => unmetered_pure _

end Pending

/-- Whether the job is a statement or a call, to which the ceilings apply. -/
def Job.isMetered : Job → Bool
  | execute _ | call .. => true
  | _ => false

namespace Interpreter

variable (i : Interpreter)

theorem unmetered_evaluate (node : Node) (p : Pending) : Unmetered (i.evaluate node p) := by
  cases node with
  | stringLiteral place bytes =>
    exact unmetered_bind (unmetered_stringLiteral place bytes) fun _ => unmetered_pure _
  | identifier place name =>
    exact unmetered_bind (unmetered_variableValue place name) fun _ => unmetered_pure _
  | binary place op left right =>
    unfold evaluate
    dsimp only
    split <;> exact unmetered_pure _
  | call place name args =>
    exact unmetered_bind (unmetered_ofExcept place fun _ h => isCeiling_of_callee h) fun _ =>
      unmetered_pure _
  | intLiteral | charLiteral | arrayLiteral | unary | step | deref | index | addressOf | assign
  | compoundAssign | declaration => exact unmetered_pure _
  | _ => exact unmetered_fail _ rfl

theorem unmetered_locate (node : Node) (access : Access) (p : Pending) :
    Unmetered (locate node access p) := by
  cases node with
  | identifier place name =>
    exact unmetered_bind (unmetered_variablePlace place name access) fun _ => unmetered_pure _
  | deref | index => exact unmetered_pure _
  | _ => exact unmetered_fail _ rfl

/-- What a statement does once it is counted. -/
def executed (node : Node) (p : Pending) : Effect Pending :=
  match node with
  | .declaration place name type isConst init =>
    return declare ⟨place, name, type, isConst, init⟩ false p
  | .block place statements => do
    openScope place
    return p.schedule (statements.map .execute ++ [.closeScope place])
  | .ifElse place condition thenBranch elseBranch =>
    return p.schedule [.evaluate condition, .branch thenBranch elseBranch place]
  | .whileLoop place condition body =>
    return p.schedule [.evaluate condition, .whileTest condition body place, .loopEnd]
  | .forLoop place init condition increment body => do
    openScope place
    return p.schedule (init.toList.map .execute ++
      [.forCondition ⟨place, condition, increment, body⟩, .loopEnd, .closeScope place])
  | .returnFrom place value =>
    return p.schedule (value.toList.map .evaluate ++ [.giveBack value.isSome place])
  | .breakLoop place => p.leaveLoop place
  | .continueLoop place => p.continueLoop place
  | .expression place value => return p.schedule [.evaluate value, .discard place]
  | .function place name .. => failInternal place (.nestedDefinition name)
  | value => return p.schedule [.evaluate value, .discard value.place]

/-- A statement is counted, and all else that it does has nothing to do with ceilings. -/
theorem execute_eq (node : Node) (p : Pending) :
    i.execute node p = countStep i.limits node.place >>= fun _ => executed node p := by
  cases node <;> rfl

theorem unmetered_executed (node : Node) (p : Pending) : Unmetered (executed node p) := by
  cases node with
  | block place => exact unmetered_bind (unmetered_openScope place) fun _ => unmetered_pure _
  | forLoop place => exact unmetered_bind (unmetered_openScope place) fun _ => unmetered_pure _
  | breakLoop place => exact Pending.unmetered_unwindTo place Job.isLoopEnd p
  | continueLoop place => exact Pending.unmetered_unwindTo place Job.isContinueTarget p
  | function place => exact unmetered_fail place rfl
  | _ => exact unmetered_pure _

theorem unmetered_resume (result : Value) (place : Location) (p : Pending) (bases : List Heights) :
    Unmetered (resume result place p bases) := by
  unfold resume
  split
  · exact unmetered_pure _
  · exact unmetered_bind (unmetered_exitValue place result) fun _ => unmetered_pure _

theorem unmetered_giveBack (value : Option Value) (place : Location) (p : Pending)
    (bases : List Heights) : Unmetered (giveBack value place p bases) :=
  unmetered_bind (unmetered_leaveCall place value) fun _ => unmetered_resume _ place p bases

/-- Jobs other than statements and calls have nothing to do with ceilings. -/
theorem unmetered_perform {job : Job} (hjob : job.isMetered = false) (p : Pending)
    (bases : List Heights) : Unmetered (i.perform job p bases) := by
  have hgo {next : Effect Pending} (hnext : Unmetered next) :
      Unmetered (do return Progress.running ⟨← next, bases⟩) :=
    unmetered_bind hnext fun _ => unmetered_pure _
  have hpop {place : Location} {f : Value × Pending → Effect Pending} (hf : ∀ r, Unmetered (f r)) :
      Unmetered (p.pop place >>= f) := unmetered_bind (Pending.unmetered_pop place p) hf
  cases job with
  | execute | call => cases hjob
  | evaluate node => exact hgo (unmetered_evaluate i node p)
  | locate node access => exact hgo (unmetered_locate node access p)
  | discard place => exact hgo (hpop fun _ => unmetered_pure _)
  | closeScope place => exact hgo (unmetered_bind (unmetered_closeScope place) fun _ => unmetered_pure p)
  | binary op place =>
    refine hgo (hpop fun r => unmetered_bind (Pending.unmetered_pop place r.2) fun l => ?_)
    exact unmetered_bind (unmetered_ofExcept place fun _ h => BinaryOp.isCeiling_of_apply h) fun _ =>
      unmetered_pure _
  | logical op right place =>
    refine hgo (hpop fun r => ?_)
    dsimp only
    split <;> exact unmetered_pure _
  | truth place => exact hgo (hpop fun _ => unmetered_pure _)
  | unary op place =>
    refine hgo (hpop fun r => ?_)
    exact unmetered_bind (unmetered_ofExcept place fun _ h => UnaryOp.isCeiling_of_apply h) fun _ =>
      unmetered_pure _
  | step op place =>
    exact hgo (unmetered_bind (Pending.unmetered_popPlace place p) fun r =>
      unmetered_bind (unmetered_step op place r.1) fun _ => unmetered_pure _)
  | load place =>
    exact hgo (unmetered_bind (Pending.unmetered_popPlace place p) fun r =>
      unmetered_bind (unmetered_load place r.1) fun _ => unmetered_pure _)
  | requirePointer place =>
    exact hgo (hpop fun r => unmetered_bind (unmetered_pointerPlace place r.1) fun _ => unmetered_pure _)
  | index place =>
    exact hgo (hpop fun r => unmetered_bind (Pending.unmetered_pop place r.2) fun a =>
      unmetered_bind (unmetered_elementPlace place a.1 r.1) fun _ => unmetered_pure _)
  | assign place =>
    exact hgo (hpop fun r => unmetered_bind (Pending.unmetered_popPlace place r.2) fun t =>
      unmetered_bind (unmetered_assign place t.1 r.1) fun _ => unmetered_pure _)
  | compoundAssign op place =>
    exact hgo (hpop fun r => unmetered_bind (Pending.unmetered_popPlace place r.2) fun t =>
      unmetered_bind (unmetered_compoundAssign op place t.1 r.1) fun _ => unmetered_pure _)
  | arrayLiteral count place =>
    exact hgo (unmetered_bind (Pending.unmetered_popMany place p count) fun r =>
      unmetered_bind (unmetered_arrayLiteral place r.1) fun _ => unmetered_pure _)
  | declare d asValue =>
    refine hgo (unmetered_bind (Pending.unmetered_popMany d.place p _) fun r =>
      unmetered_bind (unmetered_define d r.1) fun b => ?_)
    split
    · exact unmetered_bind (unmetered_load d.place b.pointer) fun _ => unmetered_pure _
    · exact unmetered_pure _
  | print place =>
    exact hgo (hpop fun r => unmetered_bind (Pending.unmetered_pop place r.2) fun start =>
      unmetered_bind (unmetered_print place start.1 r.1) fun _ => unmetered_pure _)
  | branch thenBranch elseBranch place =>
    refine hgo (hpop fun r => ?_)
    dsimp only
    split <;> exact unmetered_pure _
  | whileTest condition body place =>
    refine hgo (hpop fun r => ?_)
    dsimp only
    split <;> exact unmetered_pure _
  | forTest loop =>
    refine hgo (hpop fun r => ?_)
    dsimp only
    split <;> exact unmetered_pure _
  | forCondition | forNext | continueTarget | loopEnd => exact hgo (unmetered_pure _)
  | giveBack hasValue place =>
    cases hasValue with
    | false => exact unmetered_giveBack none place p bases
    | true =>
      exact unmetered_bind (Pending.unmetered_pop place p) fun r =>
        unmetered_giveBack (some r.1) place r.2 bases
  | bodyEnd place => exact unmetered_giveBack none place p bases

end Interpreter

end BoundedC
