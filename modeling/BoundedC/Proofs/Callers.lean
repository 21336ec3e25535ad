import BoundedC.Evaluator
import BoundedC.Proofs.Change

/-!
# The callers of a call are left alone

Whatever a call does until it ends, the activations below its own stay as they are.

* `Changes.callers` : within a call;
* `run_openScope_eq_ok`, `run_closeScope_eq_ok`, `run_enterCall_eq_ok`, `run_popCall_eq_ok` : at its
  scopes, its beginning and its end;
* `Evaluator.callersKept` : throughout direct evaluation.
-/

namespace BoundedC

/-- The activations of `t` are those of `s` but for the topmost one. -/
def KeepsCallers (s t : ProgramState) : Prop :=
  ∀ a callers, s.calls.items = a :: callers → ∃ b, t.calls.items = b :: callers

theorem KeepsCallers.refl (s : ProgramState) : KeepsCallers s s := fun a _ h => ⟨a, h⟩

theorem KeepsCallers.trans {s t u : ProgramState} (h : KeepsCallers s t) (h' : KeepsCallers t u) :
    KeepsCallers s u := by
  intro a callers hs
  obtain ⟨b, ht⟩ := h a callers hs
  exact h' b callers ht

theorem KeepsCallers.ne_nil {s t : ProgramState} (h : KeepsCallers s t) (hs : s.calls.items ≠ []) :
    t.calls.items ≠ [] := by
  obtain ⟨a, callers, ha⟩ := List.exists_cons_of_ne_nil hs
  obtain ⟨b, hb⟩ := h a callers ha
  rw [hb]
  exact List.cons_ne_nil _ _

theorem Change.callers {s t : ProgramState} (h : Change s t) : KeepsCallers s t := by
  intro a callers hs
  cases h with
  | contents _ hc => exact ⟨a, hc ▸ hs⟩
  | adopt hs' _ ht =>
    cases hs'.symm.trans hs
    exact ⟨_, ht⟩
  | declare hs' _ _ ht =>
    cases hs'.symm.trans hs
    exact ⟨_, ht⟩

theorem Changes.callers {s t : ProgramState} (h : Changes s t) : KeepsCallers s t := by
  induction h with
  | refl => exact .refl s
  | tail _ hc ih => exact ih.trans hc.callers

namespace Effect

/-! ## Scopes -/

theorem run_openScope_eq_ok {place : Location} {s t : ProgramState} {u : Unit}
    (h : (openScope place).run s = (.ok u, t)) :
    ∃ a callers, s.calls.items = a :: callers ∧ t.calls.items = a.openScope :: callers ∧
      t.memory = s.memory :=
  run_modifyCurrent_eq_ok h

theorem run_current_of_cons (place : Location) {s : ProgramState} {a : Activation}
    {callers : List Activation} (hs : s.calls.items = a :: callers) :
    (current place).run s = (.ok a, s) := by
  have htop : s.calls.top? = some a := by rw [Stack.top?, hs, List.head?_cons]
  rw [current, run_bind_of_ok (run_get _), htop]
  rfl

theorem run_discard_current_of_cons (place : Location) {s : ProgramState} {a : Activation}
    {callers : List Activation} (hs : s.calls.items = a :: callers) :
    (discard (current place) : Effect Unit).run s = (.ok (), s) :=
  run_bind_of_ok (run_current_of_cons place hs) fun _ => pure ()

theorem run_modifyCurrent_of_cons (place : Location) (f : Activation → Activation) {s : ProgramState}
    {a : Activation} {callers : List Activation} (hs : s.calls.items = a :: callers) :
    (modifyCurrent place f).run s = (.ok (), { s with calls := s.calls.modifyTop f }) :=
  run_bind_of_ok (run_discard_current_of_cons place hs) _

/-- Closing a scope succeeds wherever there is a call in progress, whatever place it is reported at. -/
theorem run_closeScope_of_cons (place : Location) {s : ProgramState} {a : Activation}
    {callers : List Activation} (hs : s.calls.items = a :: callers) :
    (closeScope place).run s =
      (.ok (), ⟨s.memory.releaseAll a.innermost.buffers, s.calls.modifyTop Activation.closeScope,
        s.sink, s.steps⟩) := by
  rw [closeScope, run_bind_of_ok (run_current_of_cons place hs)]
  exact run_modifyCurrent_of_cons place _ hs

theorem run_closeScope_eq_ok {place : Location} {s t : ProgramState} {u : Unit}
    (h : (closeScope place).run s = (.ok u, t)) :
    ∃ a callers, s.calls.items = a :: callers ∧ t.calls.items = a.closeScope :: callers ∧
      t.memory = s.memory.releaseAll a.innermost.buffers := by
  rw [closeScope, run_bind_eq_ok_iff] at h
  obtain ⟨a, s', ha, h⟩ := h
  obtain ⟨rfl, callers, hs⟩ := run_current_eq_ok ha
  rw [run_bind_eq_ok_iff] at h
  obtain ⟨_, u, hu, h⟩ := h
  cases hu
  obtain ⟨b, callers', hb, ht, hm⟩ := run_modifyCurrent_eq_ok h
  cases hs.symm.trans hb
  exact ⟨a, callers, hs, ht, hm⟩

/-! ## Calls -/

theorem run_popCall_eq_ok {place : Location} {s t : ProgramState} {a : Activation}
    (h : (popCall place).run s = (.ok a, t)) :
    s.calls.items = a :: t.calls.items ∧ t.memory = s.memory := by
  rw [popCall, run_bind_eq_ok_iff] at h
  obtain ⟨b, s', hb, h⟩ := h
  obtain ⟨rfl, callers, hs⟩ := run_current_eq_ok hb
  cases h
  exact ⟨by simp [hs], rfl⟩

theorem run_popCall_of_cons (place : Location) {s : ProgramState} {a : Activation}
    {callers : List Activation} (hs : s.calls.items = a :: callers) :
    (popCall place).run s = (.ok a, { s with calls := s.calls.pop }) := by
  rw [popCall, run_bind_of_ok (run_current_of_cons place hs)]
  rfl

/-- Binding parameters leaves the calls in progress alone. -/
theorem run_bindParams_eq_ok {place : Location} {params : List (Param × Value)}
    {a b : Activation} {s t : ProgramState} (h : (bindParams place a params).run s = (.ok b, t)) :
    t.calls = s.calls := by
  induction params generalizing a s with
  | nil =>
    cases h
    rfl
  | cons head rest ih =>
    obtain ⟨id, u, hu, h⟩ := run_bind_eq_ok_iff.1 h
    obtain ⟨_, v, hv, h⟩ := run_bind_eq_ok_iff.1 h
    obtain ⟨w, hw⟩ := run_discard_eq_ok hv
    rw [ih h, (run_onMemory_eq_ok hw).2, (run_onMemory_eq_ok hu).2]

/-- Parameters are variables of the function's outermost scope. -/
theorem length_scopes_of_bindParams {place : Location} {params : List (Param × Value)}
    {a b : Activation} {s t : ProgramState} (h : (bindParams place a params).run s = (.ok b, t))
    (ha : a.scopes ≠ []) : b.scopes.length = a.scopes.length := by
  induction params generalizing a s with
  | nil =>
    cases h
    rfl
  | cons head rest ih =>
    obtain ⟨id, u, -, h⟩ := run_bind_eq_ok_iff.1 h
    obtain ⟨_, v, -, h⟩ := run_bind_eq_ok_iff.1 h
    obtain ⟨scope, scopes, hscopes⟩ := List.exists_cons_of_ne_nil ha
    rw [ih h (by simp [Activation.declare])]
    simp [Activation.declare, hscopes]

theorem run_enterCall_eq_ok {limits : Limits} {f : Function} {args : List Value}
    {callSite : Option Location} {s t : ProgramState} {u : Unit}
    (h : (enterCall limits f args callSite).run s = (.ok u, t)) :
    s.calls.height < limits.maxDepth ∧
      ∃ a v, (bindParams (callSite.getD f.place) (.start f.name f.returnType callSite)
          (f.params.zip args)).run s = (.ok a, v) ∧
        t = { v with calls := s.calls.push a } := by
  unfold enterCall at h
  obtain ⟨s', u, hu, h⟩ := run_bind_eq_ok_iff.1 h
  cases hu
  split at h
  · obtain ⟨_, _, hu, _⟩ := run_bind_eq_ok_iff.1 h
    cases hu
  · rename_i hd
    obtain ⟨a, v, hv, h⟩ := run_bind_eq_ok_iff.1 h
    cases h
    refine ⟨Nat.lt_of_not_le hd, a, v, hv, ?_⟩
    rw [← run_bindParams_eq_ok hv]

/-- Converting a result neither needs nor changes the state. -/
theorem run_callResult (place : Location) (returnType : CType) (v : Option Value) :
    ∃ r, ∀ s, (callResult place returnType v).run s = (r, s) := by
  cases v with
  | none => exact ⟨_, fun _ => rfl⟩
  | some v =>
    unfold callResult
    dsimp only
    split
    · exact ⟨_, fun _ => rfl⟩
    · cases v.convert returnType with
      | ok w => exact ⟨_, fun _ => rfl⟩
      | error fault => exact ⟨_, fun _ => rfl⟩

/-- The activation that ends is the topmost one. -/
theorem run_leaveCall_eq_ok {place : Location} {value : Option Value} {s t : ProgramState} {v : Value}
    (h : (leaveCall place value).run s = (.ok v, t)) :
    ∃ a, s.calls.items = a :: t.calls.items ∧ t.memory = s.memory.releaseAll a.owned := by
  obtain ⟨a, u, hu, h⟩ := run_bind_eq_ok_iff.1 h
  obtain ⟨hc, hm⟩ := run_popCall_eq_ok hu
  obtain ⟨r, hr⟩ := run_callResult place a.returnType value
  obtain ⟨_, w, hw, h⟩ := run_bind_eq_ok_iff.1 h
  cases (hr u).symm.trans hw
  cases h
  exact ⟨a, hc, by rw [← hm]⟩

/-- An exit value comes from the result alone. -/
theorem run_exitValue_eq_ok {place : Location} {result : Value} {s t : ProgramState} {code : Int32}
    (h : (exitValue place result).run s = (.ok code, t)) : t = s := by
  unfold exitValue at h
  split at h
  · cases h
    rfl
  · cases h

/-- The buffers of the arguments are a table and one for each of them. -/
theorem run_bindArguments_eq_ok {place : Location} {args : List (List UInt8)} {s t : ProgramState}
    {values : List Value} (h : (bindArguments place args).run s = (.ok values, t)) :
    ∃ table u, (allocate place ((args.length + 1) * pointerBytes) .argument).run s = (.ok table, u) ∧
      (bindArgumentsFrom place table 0 args).run u = (.ok (), t) := by
  obtain ⟨table, u, hu, h⟩ := run_bind_eq_ok_iff.1 h
  obtain ⟨_, v, hv, h⟩ := run_bind_eq_ok_iff.1 h
  refine ⟨table, u, hu, ?_⟩
  split at h
  · obtain ⟨_, _, hw, _⟩ := run_bind_eq_ok_iff.1 h
    cases hw
  · cases h
    exact hv

/-- A run begins by binding its arguments and entering `main`. -/
theorem run_enterMain_eq_ok {i : Interpreter} {args : List (List UInt8)} {s t : ProgramState}
    {main : Function} (h : (i.enterMain args).run s = (.ok main, t)) :
    i.function? Interpreter.entryPoint = some main ∧
      ∃ values u, (bindArguments main.place args).run s = (.ok values, u) ∧
        (enterCall i.limits main (values.take main.params.length) none).run u = (.ok (), t) := by
  unfold Interpreter.enterMain at h
  split at h
  · cases h
  · rename_i f hf
    split at h
    · obtain ⟨_, _, hu, _⟩ := run_bind_eq_ok_iff.1 h
      cases hu
    · obtain ⟨values, u, hu, h⟩ := run_bind_eq_ok_iff.1 h
      obtain ⟨_, v, hv, h⟩ := run_bind_eq_ok_iff.1 h
      cases h
      exact ⟨hf, values, u, hu, hv⟩

end Effect

/-! ## Direct evaluation -/

namespace Evaluation

variable {α β : Type}

/-- Where the evaluation succeeds, it has left the callers alone. -/
def LeavesCallers (x : Evaluation α) : Prop :=
  ∀ ⦃s a t⦄, x.run s = some (.ok a, t) → KeepsCallers s t

theorem leavesCallers_pure (a : α) : LeavesCallers (pure a : Evaluation α) := by
  intro s b t h
  cases h
  exact .refl s

theorem leavesCallers_exhausted : LeavesCallers (exhausted : Evaluation α) := by
  intro s b t h
  cases h

theorem leavesCallers_bind {x : Evaluation α} {f : α → Evaluation β} (hx : LeavesCallers x)
    (hf : ∀ a, LeavesCallers (f a)) : LeavesCallers (x >>= f) := by
  intro s b t h
  obtain ⟨a, u, hu, ht⟩ := run_bind_eq_ok_iff.1 h
  exact (hx hu).trans (hf a ht)

theorem leavesCallers_discard {x : Evaluation α} (hx : LeavesCallers x) :
    LeavesCallers (discard x) :=
  leavesCallers_bind hx fun _ => leavesCallers_pure _

theorem leavesCallers_of_changing {x : Effect α} (hx : x.Changing) :
    LeavesCallers (ofEffect x) := by
  intro s a t h
  exact (hx (Option.some.inj h)).callers

theorem leavesCallers_openScope (place : Location) :
    LeavesCallers (ofEffect (Effect.openScope place)) := by
  intro s a t h
  obtain ⟨b, callers, hs, ht, -⟩ := Effect.run_openScope_eq_ok (Option.some.inj h)
  intro a' callers' hs'
  cases hs.symm.trans hs'
  exact ⟨_, ht⟩

theorem leavesCallers_closeScope (place : Location) :
    LeavesCallers (ofEffect (Effect.closeScope place)) := by
  intro s a t h
  obtain ⟨b, callers, hs, ht, -⟩ := Effect.run_closeScope_eq_ok (Option.some.inj h)
  intro a' callers' hs'
  cases hs.symm.trans hs'
  exact ⟨_, ht⟩

end Evaluation

namespace Evaluator

open Evaluation Effect

theorem leavesCallers_evaluateAll {value : Node → Evaluation Value}
    (h : ∀ node, LeavesCallers (value node)) (nodes : List Node) :
    LeavesCallers (evaluateAll value nodes) := by
  induction nodes with
  | nil => exact leavesCallers_pure _
  | cons node nodes ih =>
    exact leavesCallers_bind (h node) fun _ => leavesCallers_bind ih fun _ => leavesCallers_pure _

theorem leavesCallers_executeAll {complete : Node → Evaluation Completion}
    (h : ∀ node, LeavesCallers (complete node)) (nodes : List Node) :
    LeavesCallers (executeAll complete nodes) := by
  induction nodes with
  | nil => exact leavesCallers_pure _
  | cons node nodes ih =>
    refine leavesCallers_bind (h node) fun c => ?_
    cases c with
    | normal => exact ih
    | _ => exact leavesCallers_pure _

/-- The evaluations with the given fuel leave the callers alone. -/
structure CallersKept (i : Interpreter) (fuel : Nat) : Prop where
  evaluate (node : Node) : LeavesCallers (evaluate i fuel node)
  locate (node : Node) (access : Access) : LeavesCallers (locate i fuel node access)
  execute (node : Node) : LeavesCallers (execute i fuel node)
  whileFrom (condition body : Node) : LeavesCallers (whileFrom i fuel condition body)
  forFrom (condition increment : Option Node) (body : Node) :
    LeavesCallers (forFrom i fuel condition increment body)
  call (f : Function) (args : List Value) (place : Location) :
    LeavesCallers (call i fuel f args place)

theorem changing_print (place : Location) (values : List Value) :
    Changing (Evaluator.print place values) := by
  unfold Evaluator.print
  split
  · exact Effect.changing_print ..
  · exact changing_fail _ _

theorem changing_callResult (place : Location) (returnType : CType) (v : Option Value) :
    Changing (callResult place returnType v) := by
  cases v with
  | none => exact changing_pure _
  | some v =>
    unfold callResult
    dsimp only
    split
    · exact changing_pure _
    · exact changing_readMemory ..

theorem changing_returnValue (place : Location) (v : Value) : Changing (returnValue place v) :=
  changing_bind (changing_current _) fun _ => changing_callResult ..

theorem run_finishCall_eq_ok {f : Function} {c : Completion} {s t : ProgramState}
    {r : Value × Location} (h : (finishCall f c).run s = (.ok r, t)) :
    ∃ a, s.calls.items = a :: t.calls.items ∧ t.memory = s.memory.releaseAll a.owned := by
  rw [finishCall, Effect.run_bind_eq_ok_iff] at h
  obtain ⟨r', u, hu, h⟩ := h
  have hs : u = s := by
    cases c with
    | normal | returned => cases hu; rfl
    | broke | continued => cases hu
  obtain ⟨a, v, hv, h⟩ := Effect.run_bind_eq_ok_iff.1 h
  obtain ⟨hc, hm⟩ := run_popCall_eq_ok hv
  cases h
  subst hs
  exact ⟨a, hc, by rw [← hm]⟩

theorem callersKept_zero (i : Interpreter) : CallersKept i 0 where
  evaluate _ := leavesCallers_exhausted
  locate _ _ := leavesCallers_exhausted
  execute _ := leavesCallers_exhausted
  whileFrom _ _ := leavesCallers_exhausted
  forFrom _ _ _ := leavesCallers_exhausted
  call _ _ _ := leavesCallers_exhausted

variable {i : Interpreter} {fuel : Nat}

theorem CallersKept.call_succ (ih : CallersKept i fuel) (f : Function) (args : List Value)
    (place : Location) : LeavesCallers (Evaluator.call i (fuel + 1) f args place) := by
  intro s v t h b callers hs
  rw [Evaluator.call, Evaluation.run_bind_eq_ok_iff] at h
  obtain ⟨_, s₁, h₁, h⟩ := h
  obtain ⟨-, a, s₀, -, rfl⟩ := run_enterCall_eq_ok (Option.some.inj h₁)
  obtain ⟨c, s₂, h₂, h⟩ := Evaluation.run_bind_eq_ok_iff.1 h
  obtain ⟨a', ha'⟩ := leavesCallers_executeAll ih.execute f.body h₂ a (b :: callers) (by simp [hs])
  obtain ⟨r, s₃, h₃, h⟩ := Evaluation.run_bind_eq_ok_iff.1 h
  obtain ⟨a'', ha'', -⟩ := run_finishCall_eq_ok (Option.some.inj h₃)
  cases h
  exact ⟨b, (List.cons.inj (ha''.symm.trans ha')).2⟩

theorem CallersKept.evaluate_succ (ih : CallersKept i fuel) (node : Node) :
    LeavesCallers (Evaluator.evaluate i (fuel + 1) node) := by
  have all (nodes : List Node) := leavesCallers_evaluateAll ih.evaluate nodes
  have ofChanging {α : Type} {x : Effect α} (h : x.Changing) := leavesCallers_of_changing h
  unfold Evaluator.evaluate
  cases node with
  | intLiteral | charLiteral => exact leavesCallers_pure _
  | stringLiteral => exact ofChanging (changing_stringLiteral ..)
  | arrayLiteral =>
    exact leavesCallers_bind (all _) fun _ => ofChanging (changing_arrayLiteral ..)
  | identifier => exact ofChanging (changing_variableValue ..)
  | binary place op left right =>
    show LeavesCallers (Evaluator.evaluate i (fuel + 1) (.binary place op left right))
    rw [Evaluator.evaluate_binary]
    refine leavesCallers_bind (ih.evaluate left) fun l => ?_
    split
    · split
      · exact leavesCallers_pure _
      · exact leavesCallers_bind (ih.evaluate right) fun _ => leavesCallers_pure _
    · exact leavesCallers_bind (ih.evaluate right) fun _ => ofChanging (changing_ofExcept ..)
  | unary =>
    exact leavesCallers_bind (ih.evaluate _) fun _ => ofChanging (changing_ofExcept ..)
  | step => exact leavesCallers_bind (ih.locate ..) fun _ => ofChanging (changing_step ..)
  | deref | index =>
    exact leavesCallers_bind (ih.locate ..) fun _ => ofChanging (changing_load ..)
  | addressOf => exact leavesCallers_bind (ih.locate ..) fun _ => leavesCallers_pure _
  | assign =>
    exact leavesCallers_bind (ih.locate ..) fun _ =>
      leavesCallers_bind (ih.evaluate _) fun _ => ofChanging (changing_assign ..)
  | compoundAssign =>
    exact leavesCallers_bind (ih.locate ..) fun _ =>
      leavesCallers_bind (ih.evaluate _) fun _ => ofChanging (changing_compoundAssign ..)
  | call place name args =>
    refine leavesCallers_bind (ofChanging (changing_ofExcept ..)) fun callee =>
      leavesCallers_bind (all args) fun values => ?_
    cases callee with
    | defined f => exact ih.call ..
    | print => exact ofChanging (changing_print ..)
  | declaration =>
    exact leavesCallers_bind (all _) fun _ =>
      leavesCallers_bind (ofChanging (changing_define ..)) fun _ => ofChanging (changing_load ..)
  | _ => exact ofChanging (changing_fail ..)

theorem CallersKept.locate_succ (ih : CallersKept i fuel) (node : Node) (access : Access) :
    LeavesCallers (Evaluator.locate i (fuel + 1) node access) := by
  unfold Evaluator.locate
  cases node with
  | identifier => exact leavesCallers_of_changing (changing_variablePlace ..)
  | deref =>
    exact leavesCallers_bind (ih.evaluate _) fun _ =>
      leavesCallers_of_changing (changing_pointerPlace ..)
  | index =>
    exact leavesCallers_bind (ih.evaluate _) fun _ => leavesCallers_bind (ih.evaluate _) fun _ =>
      leavesCallers_of_changing (changing_ofExcept ..)
  | _ => exact leavesCallers_of_changing (changing_fail ..)

theorem CallersKept.whileFrom_succ (ih : CallersKept i fuel) (condition body : Node) :
    LeavesCallers (Evaluator.whileFrom i (fuel + 1) condition body) := by
  unfold Evaluator.whileFrom
  refine leavesCallers_bind (ih.evaluate _) fun v => ?_
  split
  · refine leavesCallers_bind (ih.execute _) fun c => ?_
    cases c with
    | normal | continued => exact ih.whileFrom ..
    | broke | returned => exact leavesCallers_pure _
  · exact leavesCallers_pure _

theorem CallersKept.forFrom_succ (ih : CallersKept i fuel) (condition increment : Option Node)
    (body : Node) : LeavesCallers (Evaluator.forFrom i (fuel + 1) condition increment body) := by
  unfold Evaluator.forFrom
  refine leavesCallers_bind (leavesCallers_evaluateAll ih.evaluate _) fun v => ?_
  split
  · refine leavesCallers_bind (ih.execute _) fun c => ?_
    cases c with
    | normal | continued =>
      exact leavesCallers_bind (leavesCallers_discard (leavesCallers_evaluateAll ih.evaluate _))
        fun _ => ih.forFrom ..
    | broke | returned => exact leavesCallers_pure _
  · exact leavesCallers_pure _

theorem CallersKept.execute_succ (ih : CallersKept i fuel) (node : Node) :
    LeavesCallers (Evaluator.execute i (fuel + 1) node) := by
  have all (nodes : List Node) := leavesCallers_executeAll ih.execute nodes
  unfold Evaluator.execute
  refine leavesCallers_bind (leavesCallers_of_changing (changing_countStep ..)) fun _ => ?_
  cases node with
  | declaration =>
    exact leavesCallers_bind (leavesCallers_evaluateAll ih.evaluate _) fun _ =>
      leavesCallers_bind (leavesCallers_discard (leavesCallers_of_changing (changing_define ..)))
        fun _ => leavesCallers_pure _
  | block =>
    exact leavesCallers_bind (leavesCallers_openScope _) fun _ => leavesCallers_bind (all _) fun _ =>
      leavesCallers_bind (leavesCallers_closeScope _) fun _ => leavesCallers_pure _
  | ifElse place condition thenBranch elseBranch =>
    refine leavesCallers_bind (ih.evaluate _) fun v => ?_
    split
    · exact ih.execute _
    · cases elseBranch with
      | some node => exact ih.execute _
      | none => exact leavesCallers_pure _
  | whileLoop => exact ih.whileFrom ..
  | forLoop place init condition increment body =>
    refine leavesCallers_bind (leavesCallers_openScope _) fun _ => leavesCallers_bind (all _) fun c => ?_
    have close (c : Completion) : LeavesCallers
        (do ofEffect (Effect.closeScope place); return c : Evaluation Completion) :=
      leavesCallers_bind (leavesCallers_closeScope _) fun _ => leavesCallers_pure _
    cases c with
    | normal => exact leavesCallers_bind (ih.forFrom ..) close
    | broke => exact leavesCallers_bind (leavesCallers_pure _) close
    | continued | returned => exact leavesCallers_bind (leavesCallers_pure _) close
  | returnFrom place value =>
    cases value with
    | none => exact leavesCallers_pure _
    | some value =>
      exact leavesCallers_bind (ih.evaluate _) fun _ =>
        leavesCallers_bind (leavesCallers_of_changing (changing_returnValue ..)) fun _ =>
          leavesCallers_pure _
  | breakLoop | continueLoop => exact leavesCallers_pure _
  | function => exact leavesCallers_of_changing (changing_fail ..)
  | _ => exact leavesCallers_bind (leavesCallers_discard (ih.evaluate _)) fun _ => leavesCallers_pure _

/-- Direct evaluation leaves the callers alone. -/
theorem callersKept (i : Interpreter) (fuel : Nat) : CallersKept i fuel := by
  induction fuel with
  | zero => exact callersKept_zero i
  | succ fuel ih =>
    exact ⟨ih.evaluate_succ, ih.locate_succ, ih.execute_succ, ih.whileFrom_succ, ih.forFrom_succ,
      ih.call_succ⟩

end Evaluator

end BoundedC
