import BoundedC.Proofs.Reading
import BoundedC.Proofs.Refinement
import BoundedC.Proofs.Reliable
import Mathlib.Algebra.Group.Nat.Defs

/-!
# Programs that were read do not fail internally

The faults that an `InternalFault` stands for are excluded by the shape of a well-formed tree, or by
the fact that a call is in progress. This is shown for direct evaluation, which fails as the machine
does.

* `Evaluator.dependable` : expressions, statements and calls, by induction on the fuel;
* `isInternal_of_run` : the runs of well-formed programs;
* `kind_ne_internalError` : what is left of the kind `InternalError` for programs that were read.
-/

namespace BoundedC

/-! ## Expressions and statements -/

def Interpreter.WellFormed (i : Interpreter) : Prop :=
  ∀ f ∈ i.functions, ∀ s ∈ f.body, s.IsStatement 0

theorem Interpreter.wellFormed_ofProgram {program : Program} (h : program.WellFormed)
    (limits : Limits) : (ofProgram program limits).WellFormed :=
  fun f hf => h f (List.mem_reverse.1 hf)

theorem Interpreter.mem_of_callee_eq_defined {i : Interpreter} {name : String} {count : Nat}
    {f : Function} (h : i.callee name count = .ok (.defined f)) : f ∈ i.functions := by
  unfold callee at h
  split at h
  · rename_i hf
    split at h <;> cases h
    exact List.mem_of_find?_eq_some hf
  · split at h
    · split at h <;> cases h
    · cases h

theorem Interpreter.isInternal_of_callee {i : Interpreter} {name : String} {count : Nat}
    {fault : RuntimeFault} (h : i.callee name count = .error fault) : fault.isInternal = false := by
  unfold callee at h
  split at h
  · split at h <;> cases h
    rfl
  · split at h
    · split at h <;> cases h
      rfl
    · cases h
      rfl

/-- A completion that a statement inside so many loops may have. -/
def Completion.Fits (loops : Nat) : Completion → Prop
  | broke _ | continued _ => loops ≠ 0
  | normal | returned .. => True

namespace Evaluator

open Evaluation Effect

variable {n : Nat}

theorem reliable_evaluateAll {value : Node → Evaluation Value} {nodes : List Node}
    (h : ∀ node ∈ nodes, Evaluation.Reliable n n (fun _ => True) (value node)) :
    Evaluation.Reliable n n (fun values => values.length = nodes.length) (evaluateAll value nodes) := by
  induction nodes with
  | nil => exact .pure rfl
  | cons node nodes ih =>
    obtain ⟨hnode, hnodes⟩ := List.forall_mem_cons.1 h
    exact hnode.bind fun v _ => (ih hnodes).bind fun values hvalues =>
      .pure (congrArg (· + 1) hvalues)

theorem reliable_executeAll {complete : Node → Evaluation Completion} {nodes : List Node}
    {loops : Nat} (h : ∀ node ∈ nodes, Evaluation.Reliable n n (Completion.Fits loops) (complete node)) :
    Evaluation.Reliable n n (Completion.Fits loops) (executeAll complete nodes) := by
  induction nodes with
  | nil => exact .pure trivial
  | cons node nodes ih =>
    obtain ⟨hnode, hnodes⟩ := List.forall_mem_cons.1 h
    refine hnode.bind fun c hc => ?_
    cases c with
    | normal => exact ih hnodes
    | _ => exact .pure hc

theorem reliable_print (place : Location) {values : List Value}
    (hvalues : values.length = Interpreter.printArity) :
    Effect.Reliable n n (Evaluator.print place values) := by
  obtain ⟨start, length, rfl⟩ := List.length_eq_two.1 hvalues
  exact Effect.reliable_print ..

theorem reliable_returnValue (place : Location) (v : Value) :
    Effect.Reliable (n + 1) (n + 1) (returnValue place v) :=
  reliable_bind (reliable_current _) fun _ => reliable_callResult ..

/-- The body of a function is not left by loop control. -/
theorem reliable_finishCall (f : Function) {c : Completion} (hc : c.Fits 0) :
    Effect.Reliable (n + 1) n (finishCall f c) := by
  have hresult : Effect.Reliable (n + 1) (n + 1) (c.result f) := by
    cases c with
    | normal | returned => exact reliable_pure _
    | broke | continued => exact absurd rfl hc
  exact reliable_bind hresult fun _ => reliable_bind (reliable_popCall _) fun _ =>
    reliable_bind (reliable_releaseAll _) fun _ => reliable_pure _

variable {i : Interpreter} {fuel : Nat}

/-- The evaluations of well-formed trees with the given fuel are reliable. -/
structure Dependable (i : Interpreter) (fuel : Nat) : Prop where
  evaluate {node : Node} (n : Nat) (h : node.IsExpression) :
    Evaluation.Reliable (n + 1) (n + 1) (fun _ => True) (evaluate i fuel node)
  locate {node : Node} (n : Nat) (access : Access) (h : node.IsExpression) :
    Evaluation.Reliable (n + 1) (n + 1) (fun _ => True) (locate i fuel node access)
  execute {node : Node} {loops : Nat} (n : Nat) (h : node.IsStatement loops) :
    Evaluation.Reliable (n + 1) (n + 1) (Completion.Fits loops) (execute i fuel node)
  whileFrom {condition body : Node} {loops : Nat} (n : Nat) (hc : condition.IsExpression)
    (hb : body.IsStatement (loops + 1)) :
    Evaluation.Reliable (n + 1) (n + 1) (Completion.Fits 0) (whileFrom i fuel condition body)
  forFrom {condition increment : Option Node} {body : Node} {loops : Nat} (n : Nat)
    (hc : ∀ c ∈ condition, c.IsExpression) (hi : ∀ v ∈ increment, v.IsExpression)
    (hb : body.IsStatement (loops + 1)) :
    Evaluation.Reliable (n + 1) (n + 1) (Completion.Fits 0) (forFrom i fuel condition increment body)
  call {f : Function} (n : Nat) (hf : f ∈ i.functions) (args : List Value) (place : Location) :
    Evaluation.Reliable (n + 1) (n + 1) (fun _ => True) (call i fuel f args place)

theorem dependable_zero (i : Interpreter) : Dependable i 0 where
  evaluate _ _ := .exhausted
  locate _ _ _ := .exhausted
  execute _ _ := .exhausted
  whileFrom _ _ _ := .exhausted
  forFrom _ _ _ _ := .exhausted
  call _ _ _ _ := .exhausted

/-- A completion outside of all loops fits inside of any. -/
theorem fits_of_zero {c : Completion} (h : c.Fits 0) (loops : Nat) : c.Fits loops := by
  cases c with
  | normal | returned => exact trivial
  | broke | continued => exact absurd rfl h

theorem Dependable.evaluateAll (ih : Dependable i fuel) {nodes : List Node}
    (h : ∀ node ∈ nodes, node.IsExpression) : Evaluation.Reliable (n + 1) (n + 1)
      (fun values => values.length = nodes.length) (Evaluator.evaluateAll (Evaluator.evaluate i fuel) nodes) :=
  reliable_evaluateAll fun node hnode => ih.evaluate n (h node hnode)

theorem Dependable.executeAll (ih : Dependable i fuel) {nodes : List Node} {loops : Nat}
    (h : ∀ node ∈ nodes, node.IsStatement loops) : Evaluation.Reliable (n + 1) (n + 1)
      (Completion.Fits loops) (Evaluator.executeAll (Evaluator.execute i fuel) nodes) :=
  reliable_executeAll fun node hnode => ih.execute n (h node hnode)

/-- The elements of an array literal are expressions, however its lists are nested. -/
theorem isExpression_of_mem_leaves :
    (∀ node : Node, node.IsExpression → ∀ leaf ∈ node.leaves, leaf.IsExpression) ∧
      ∀ nodes : List Node, (∀ e ∈ nodes, e.IsExpression) →
        ∀ leaf ∈ Node.leavesOf nodes, leaf.IsExpression := by
  refine Node.leaves.mutual_induct _ _ ?_ ?_ ?_ ?_
  · intro place elements ih h
    cases h with
    | arrayLiteral h => exact ih h
  · intro node hnode h leaf hleaf
    rw [Node.leaves.eq_2 _ hnode] at hleaf
    rw [List.mem_singleton.1 hleaf]
    exact h
  · intro _ leaf hleaf
    cases hleaf
  · intro e es ihe ihes h leaf hleaf
    obtain ⟨he, hes⟩ := List.forall_mem_cons.1 h
    rcases List.mem_append.1 hleaf with hleaf | hleaf
    · exact ihe he leaf hleaf
    · exact ihes hes leaf hleaf

theorem isExpression_of_mem_operands {d : Declaration} (h : ∀ v ∈ d.init, v.IsExpression) :
    ∀ node ∈ d.operands, node.IsExpression := by
  have hlist {place : Location} {elements : List Node}
      (hinit : d.init = some (.arrayLiteral place elements)) :
      ∀ leaf ∈ Node.leavesOf elements, leaf.IsExpression := by
    cases h _ hinit with
    | arrayLiteral h => exact isExpression_of_mem_leaves.2 _ h
  unfold Declaration.operands
  split
  · exact nofun
  · exact nofun
  · rename_i hinit
    exact hlist hinit
  · rename_i hinit
    exact hlist hinit
  · rename_i hinit _ _ _
    exact List.forall_mem_singleton.2 (h _ hinit)

theorem Dependable.evaluate_succ (ih : Dependable i fuel) {node : Node}
    (h : node.IsExpression) :
    Evaluation.Reliable (n + 1) (n + 1) (fun _ => True) (Evaluator.evaluate i (fuel + 1) node) := by
  unfold Evaluator.evaluate
  cases h with
  | intLiteral | charLiteral => exact .pure trivial
  | stringLiteral => exact reliable_stringLiteral ..
  | arrayLiteral h => exact (ih.evaluateAll h).bind fun _ _ => reliable_arrayLiteral ..
  | identifier => exact reliable_variableValue ..
  | @binary place op left right hl hr =>
    show Evaluation.Reliable (n + 1) (n + 1) (fun _ => True)
      (Evaluator.evaluate i (fuel + 1) (.binary place op left right))
    rw [Evaluator.evaluate_binary]
    refine (ih.evaluate n hl).bind fun l _ => ?_
    split
    · split
      · exact .pure trivial
      · exact (ih.evaluate n hr).bind fun _ _ => .pure trivial
    · rename_i hop
      exact (ih.evaluate n hr).bind fun _ _ =>
        reliable_ofExcept _ fun _ hf => BinaryOp.isInternal_of_apply (by simpa using hop) hf
  | unary h =>
    exact (ih.evaluate n h).bind fun _ _ =>
      reliable_ofExcept _ fun _ hf => UnaryOp.isInternal_of_apply hf
  | step _ h => exact (ih.locate n _ h).bind fun _ _ => reliable_step ..
  | deref h => exact (ih.locate n _ (.deref h)).bind fun _ _ => reliable_load ..
  | index ha hi => exact (ih.locate n _ (.index ha hi)).bind fun _ _ => reliable_load ..
  | addressOf _ h => exact (ih.locate n _ h).bind fun _ _ => .pure trivial
  | assign _ ht hv =>
    exact (ih.locate n _ ht).bind fun _ _ => (ih.evaluate n hv).bind fun _ _ => reliable_assign ..
  | compoundAssign hop _ ht hv =>
    exact (ih.locate n _ ht).bind fun _ _ => (ih.evaluate n hv).bind fun _ _ =>
      reliable_compoundAssign (BinaryOp.isLogical_of_isArithmetic hop) ..
  | @call place name args h =>
    have hcallee : Evaluation.Reliable (n + 1) (n + 1) (fun c => i.callee name args.length = .ok c)
        (ofEffect (ofExcept place (i.callee name args.length))) := by
      have hreliable : Effect.Reliable (n + 1) (n + 1) (ofExcept place (i.callee name args.length)) :=
        reliable_ofExcept _ fun _ hf => Interpreter.isInternal_of_callee hf
      refine ⟨hreliable.error, fun s c t hs hrun => ?_⟩
      exact ⟨run_ofExcept_eq_ok (Option.some.inj hrun), (hreliable.ok hs hrun).2⟩
    refine hcallee.bind fun callee hc => (ih.evaluateAll h).bind fun values hvalues => ?_
    cases callee with
    | defined f => exact ih.call n (Interpreter.mem_of_callee_eq_defined hc) _ _
    | print => exact reliable_print _ (hvalues.trans (Interpreter.length_of_callee_eq_print hc))
  | @declaration place name type isConst init _ h =>
    have hinit : ∀ v ∈ some init, v.IsExpression := by
      rintro _ ⟨⟩
      exact h
    exact (ih.evaluateAll (isExpression_of_mem_operands
      (d := ⟨place, name, type, isConst, some init⟩) hinit)).bind fun _ hvalues =>
        Evaluation.Reliable.bind (reliable_define _ hvalues) fun _ _ => reliable_load ..

theorem Dependable.locate_succ (ih : Dependable i fuel) {node : Node} (access : Access)
    (h : node.IsExpression) :
    Evaluation.Reliable (n + 1) (n + 1) (fun _ => True) (Evaluator.locate i (fuel + 1) node access) := by
  unfold Evaluator.locate
  cases h with
  | identifier => exact reliable_variablePlace ..
  | deref h => exact (ih.evaluate n h).bind fun _ _ => reliable_pointerPlace ..
  | index ha hi =>
    exact (ih.evaluate n ha).bind fun _ _ => (ih.evaluate n hi).bind fun _ _ =>
      reliable_elementPlace ..
  | _ => exact reliable_fail _ rfl

theorem Dependable.whileFrom_succ (ih : Dependable i fuel) {condition body : Node} {loops : Nat}
    (hc : condition.IsExpression) (hb : body.IsStatement (loops + 1)) :
    Evaluation.Reliable (n + 1) (n + 1) (Completion.Fits 0)
      (Evaluator.whileFrom i (fuel + 1) condition body) := by
  unfold Evaluator.whileFrom
  refine (ih.evaluate n hc).bind fun v _ => ?_
  split
  · refine (ih.execute n hb).bind fun c _ => ?_
    cases c with
    | normal | continued => exact ih.whileFrom n hc hb
    | broke | returned => exact .pure trivial
  · exact .pure trivial

theorem Dependable.forFrom_succ (ih : Dependable i fuel) {condition increment : Option Node}
    {body : Node} {loops : Nat} (hc : ∀ c ∈ condition, c.IsExpression)
    (hi : ∀ v ∈ increment, v.IsExpression) (hb : body.IsStatement (loops + 1)) :
    Evaluation.Reliable (n + 1) (n + 1) (Completion.Fits 0)
      (Evaluator.forFrom i (fuel + 1) condition increment body) := by
  unfold Evaluator.forFrom
  refine (ih.evaluateAll fun c h => hc c (Option.mem_toList.1 h)).bind fun v _ => ?_
  split
  · refine (ih.execute n hb).bind fun c _ => ?_
    have hnext : Evaluation.Reliable (n + 1) (n + 1) (Completion.Fits 0) (do
        discard <| Evaluator.evaluateAll (Evaluator.evaluate i fuel) increment.toList
        Evaluator.forFrom i fuel condition increment body) :=
      (ih.evaluateAll fun v h => hi v (Option.mem_toList.1 h)).discard.bind fun _ _ =>
        ih.forFrom n hc hi hb
    cases c with
    | normal | continued => exact hnext
    | broke | returned => exact .pure trivial
  · exact .pure trivial

/-- A value that is not wanted. -/
theorem Dependable.discarded (ih : Dependable i fuel) {node : Node} (loops : Nat)
    (h : node.IsExpression) : Evaluation.Reliable (n + 1) (n + 1) (Completion.Fits loops) (do
      discard <| Evaluator.evaluate i fuel node
      return .normal) :=
  (ih.evaluate n h).discard.bind fun _ _ => .pure trivial

theorem Dependable.declared (ih : Dependable i fuel) {d : Declaration} (loops : Nat)
    (h : ∀ v ∈ d.init, v.IsExpression) : Evaluation.Reliable (n + 1) (n + 1) (Completion.Fits loops) (do
      let values ← Evaluator.evaluateAll (Evaluator.evaluate i fuel) d.operands
      discard <| ofEffect (d.define values)
      return .normal) :=
  (ih.evaluateAll (isExpression_of_mem_operands h)).bind fun _ hvalues =>
    (Evaluation.Reliable.discard (reliable_define d hvalues)).bind fun _ _ => .pure trivial

theorem Dependable.execute_succ (ih : Dependable i fuel) {node : Node} {loops : Nat}
    (h : node.IsStatement loops) : Evaluation.Reliable (n + 1) (n + 1) (Completion.Fits loops)
      (Evaluator.execute i (fuel + 1) node) := by
  unfold Evaluator.execute
  refine Evaluation.Reliable.bind (reliable_countStep ..) fun _ _ => ?_
  have close (place : Location) {c : Completion} (hc : c.Fits loops) :
      Evaluation.Reliable (n + 1) (n + 1) (Completion.Fits loops)
        (do ofEffect (Effect.closeScope place); return c) :=
    Evaluation.Reliable.bind (reliable_closeScope _) fun _ _ => .pure hc
  cases h with
  | value h =>
    have hvalue := h
    cases h with
    | @declaration place name type isConst init _ h =>
      refine ih.declared (d := ⟨place, name, type, isConst, some init⟩) loops ?_
      rintro _ ⟨⟩
      exact h
    | _ => exact ih.discarded loops hvalue
  | @declaration _ place name type isConst init _ h =>
    exact ih.declared (d := ⟨place, name, type, isConst, init⟩) loops h
  | block h =>
    exact Evaluation.Reliable.bind (reliable_openScope _) fun _ _ => (ih.executeAll h).bind
      fun _ hc => close _ hc
  | ifElse hc ht he =>
    refine (ih.evaluate n hc).bind fun v _ => ?_
    split
    · exact ih.execute n ht
    · split
      · exact ih.execute n (he _ rfl)
      · exact .pure trivial
  | whileLoop hc hb => exact (ih.whileFrom n hc hb).imp fun _ hc => fits_of_zero hc loops
  | forLoop hinit hc hi hb =>
    refine Evaluation.Reliable.bind (reliable_openScope _) fun _ _ =>
      (ih.executeAll fun s h => hinit s (Option.mem_toList.1 h)).bind fun c hfits => ?_
    cases c with
    | normal => exact (ih.forFrom n hc hi hb).bind fun _ hc => close _ (fits_of_zero hc loops)
    | returned v place =>
      have hreturned : (Completion.returned v place).Fits loops := trivial
      exact (Evaluation.Reliable.pure hreturned).bind fun _ hc => close _ hc
    | broke | continued => exact absurd rfl hfits
  | @returnFrom _ place value h =>
    cases value with
    | none => exact .pure trivial
    | some value =>
      exact (ih.evaluate n (h value rfl)).bind fun _ _ =>
        Evaluation.Reliable.bind (reliable_returnValue ..) fun _ _ => .pure trivial
  | breakLoop _ h | continueLoop _ h => exact .pure h
  | expression h => exact ih.discarded loops h

theorem Dependable.call_succ (hi : i.WellFormed) (ih : Dependable i fuel) {f : Function}
    (hf : f ∈ i.functions) (args : List Value) (place : Location) :
    Evaluation.Reliable (n + 1) (n + 1) (fun _ => True)
      (Evaluator.call i (fuel + 1) f args place) := by
  unfold Evaluator.call
  exact Evaluation.Reliable.bind (reliable_enterCall ..) fun _ _ => (ih.executeAll (hi f hf)).bind
    fun _ hc => Evaluation.Reliable.bind (reliable_finishCall f hc) fun _ _ => .pure trivial

/-- Well-formed trees are evaluated without internal failures. -/
theorem dependable (hi : i.WellFormed) (fuel : Nat) : Dependable i fuel := by
  induction fuel with
  | zero => exact dependable_zero i
  | succ fuel ih =>
    exact ⟨fun _ h => ih.evaluate_succ h, fun _ access h => ih.locate_succ access h,
      fun _ h => ih.execute_succ h, fun _ hc hb => ih.whileFrom_succ hc hb,
      fun _ hc hs hb => ih.forFrom_succ hc hs hb, fun _ hf args place => ih.call_succ hi hf args place⟩

end Evaluator

/-! ## Whole runs -/

namespace Effect

variable {n : Nat}

theorem reliable_bindArgumentsFrom (place : Location) (table : BufferId) (slot : Nat)
    (args : List (List UInt8)) : Reliable n n (bindArgumentsFrom place table slot args) := by
  induction args generalizing slot with
  | nil => exact reliable_pure _
  | cons arg args ih =>
    exact reliable_bind (reliable_onMemory ..) fun _ => reliable_bind (reliable_storeSlots ..) fun _ =>
      ih _

/-- Arguments that can be counted are bound. -/
theorem reliable_bindArguments (place : Location) {args : List (List UInt8)}
    (hargs : args.length < 2 ^ 31) : Reliable n n (bindArguments place args) := by
  refine reliable_bind (reliable_allocate ..) fun _ =>
    reliable_bind (reliable_bindArgumentsFrom ..) fun _ => ?_
  rw [if_neg (by omega)]
  exact reliable_pure _

end Effect

open Evaluation Effect

variable {i : Interpreter} {args : List (List UInt8)}

theorem reliable_enterMain (hargs : args.length < 2 ^ 31) :
    Evaluation.Reliable 0 1 (· ∈ i.functions) (ofEffect (i.enterMain args)) := by
  unfold Interpreter.enterMain
  split
  · refine ⟨?_, ?_⟩
    · rintro s e t - ⟨⟩
      rfl
    · rintro s a t - ⟨⟩
  · rename_i main hmain
    have hmem : main ∈ i.functions := List.mem_of_find?_eq_some hmain
    have hrest : Evaluation.Reliable 0 1 (· ∈ i.functions) (ofEffect (do
        let values ← bindArguments main.place args
        enterCall i.limits main (values.take main.params.length) none
        return main)) := by
      rw [ofEffect_bind]
      refine Evaluation.Reliable.bind (reliable_bindArguments _ hargs) fun values _ => ?_
      rw [ofEffect_bind]
      exact Evaluation.Reliable.bind (reliable_enterCall ..) fun _ _ => .pure hmem
    split
    · rw [ofEffect_bind]
      exact Evaluation.Reliable.bind (reliable_fail (n := 0) _ rfl) fun _ _ => hrest
    · exact hrest

theorem reliable_exitCode (hi : i.WellFormed) (hargs : args.length < 2 ^ 31) (fuel : Nat) :
    Evaluation.Reliable 0 0 (fun _ => True) (Evaluator.exitCode i fuel args) :=
  (reliable_enterMain hargs).bind fun main hmain =>
    ((Evaluator.dependable hi fuel).executeAll (hi main hmain)).bind fun _ hc =>
      Evaluation.Reliable.bind (Evaluator.reliable_finishCall main hc) fun _ _ => reliable_exitValue ..

/-- Runs of well-formed programs do not fail internally. -/
theorem isInternal_of_run (hi : i.WellFormed) (hargs : args.length < 2 ^ 31) {sink : Sink}
    {fuel : Nat} {e : Stop} {s : ProgramState}
    (h : i.run fuel args sink = some (.error e, s)) : e.isInternal = false := by
  obtain ⟨fuel', t, ht, -⟩ := Interpreter.exists_evaluation_of_run h
  exact (reliable_exitCode hi hargs fuel').error rfl ht

/-- What a fault of the kind `InternalError` is, if it is not internal. -/
theorem eq_allocation_of_kind {fault : RuntimeFault} (h : fault.isInternal = false)
    (hkind : fault.kind = "InternalError") :
    (∃ length, fault = .memory (.allocationFailed length)) ∨ fault = .memory .exhausted := by
  cases fault with
  | memory m =>
    cases m with
    | allocationFailed length => exact .inl ⟨length, rfl⟩
    | exhausted => exact .inr rfl
    | _ => simp [RuntimeFault.kind] at hkind
  | internal f => cases h
  | _ => simp [RuntimeFault.kind] at hkind

/-- A program that was read from a text never fails with an error of the kind `InternalError`, with
any ceilings and any arguments that can be counted, unless memory cannot be allocated. -/
theorem kind_ne_internalError (text : String) (program : Program) (limits : Limits)
    (args : List (List UInt8)) (sink : Sink) (fuel : Nat) (e : RuntimeError) (s : ProgramState)
    (hcompile : compile text = .ok program) (hargs : args.length < 2 ^ 31)
    (hrun : (Interpreter.ofProgram program limits).run fuel args sink = some (.error (.failure e), s)) :
    e.kind ≠ "InternalError" ∨
      ∃ place, (∃ length, e = .fault (.memory (.allocationFailed length)) place) ∨
        e = .fault (.memory .exhausted) place := by
  have hi := Interpreter.wellFormed_ofProgram (wellFormed_of_compile hcompile) limits
  have hinternal := isInternal_of_run hi hargs hrun
  rw [ne_eq, or_iff_not_imp_left, not_not]
  intro hkind
  cases e with
  | missingMain => exact absurd hkind (by decide)
  | fault fault place =>
    refine ⟨place, ?_⟩
    rcases eq_allocation_of_kind hinternal hkind with ⟨length, rfl⟩ | rfl
    · exact .inl ⟨length, rfl⟩
    · exact .inr rfl

/-- A program that divides by zero. -/
theorem exists_kind_ne_internalError :
    ∃ program e s, compile "int main(){return 1/0;}" = .ok program ∧
      (Interpreter.ofProgram program .default).run 20 [] .unlimited = some (.error (.failure e), s) ∧
      (e.kind ≠ "InternalError" ∨
        ∃ place, (∃ length, e = .fault (.memory (.allocationFailed length)) place) ∨
          e = .fault (.memory .exhausted) place) := by
  have hrun : ((compile "int main(){return 1/0;}").toOption.bind fun program =>
      ((Interpreter.ofProgram program .default).run 20 [] .unlimited).map (·.1.mapError Stop.kind?)) =
        some (.error (some "DivideByZero")) := by
    decide +kernel
  obtain ⟨program, hprogram, hrun⟩ := Option.bind_eq_some_iff.1 hrun
  obtain ⟨⟨(e | _) | _, s⟩, hrun, hresult⟩ := Option.map_eq_some_iff.1 hrun
  · have hcompile : compile "int main(){return 1/0;}" = .ok program := eq_ok_of_toOption hprogram
    exact ⟨program, e, s, hcompile, hrun,
      kind_ne_internalError _ program .default [] .unlimited 20 e s hcompile (by decide) hrun⟩
  · cases hresult
  · cases hresult

end BoundedC
