import BoundedC.Proofs.Simulation
import Mathlib.Data.List.Basic

/-!
# The machine refines direct evaluation

`Interpreter.Leaves` and `Interpreter.Completes` say what one job does in terms of a direct
evaluation, whatever lies below it on the two stacks. `Mirrors` holds these facts for all jobs that
take a node apart, with evaluations of some fuel, and is proved by induction on the fuel. An
evaluation that lacks fuel keeps the machine busy for at least half as many jobs, so that the machine
goes on for ever where no fuel is enough.

* `mirrors` : each job does what the evaluation of its node does;
* `run_refines_evaluation` : machine and evaluation end alike, if one of them ends.
-/

namespace BoundedC.Interpreter

open Effect Evaluation

variable {α : Type} {i : Interpreter} {n : Nat}

/-- The job leaves the value of the evaluation on the operand stack. -/
def Leaves (i : Interpreter) (n : Nat) (f : α → Value) (job : Job) (x : Evaluation α) : Prop :=
  ∀ (jobs : Stack Job) (operands : Stack Value) (base : Heights) (bases : List Heights)
    (s : ProgramState),
    i.Follows n (fun a t => .working jobs (operands.push (f a)) (base :: bases) t)
      (.working (jobs.push job) operands (base :: bases) s) (x.run s)

/-- The job leads behind the statement that the evaluation completes. -/
def Completes (i : Interpreter) (n : Nat) (job : Job) (x : Evaluation Completion) : Prop :=
  ∀ (jobs : Stack Job) (operands : Stack Value) (base : Heights) (bases : List Heights)
    (s : ProgramState), s.calls.items ≠ [] → base.jobs ≤ jobs.height →
    i.Follows n (.after jobs operands (base :: bases))
      (.working (jobs.push job) operands (base :: bases) s) (x.run s)

/-! ## Several nodes -/

theorem follows_evaluateAll {value : Node → Evaluation Value}
    (h : ∀ node, i.Leaves n id (.evaluate node) (value node)) (nodes : List Node)
    (jobs : Stack Job) (operands : Stack Value) (base : Heights) (bases : List Heights)
    (s : ProgramState) :
    i.Follows n (fun vs t => .working jobs (operands.pushAll vs.reverse) (base :: bases) t)
      (.working (jobs.pushAll (nodes.map .evaluate)) operands (base :: bases) s)
      ((Evaluator.evaluateAll value nodes).run s) := by
  induction nodes generalizing operands s with
  | nil => exact ⟨0, rfl⟩
  | cons node nodes ih =>
    rw [List.map_cons, Stack.pushAll_cons]
    refine (h node ..).bind fun v t _ => ?_
    refine (ih (operands.push v) t).bind fun vs u _ => ?_
    refine ⟨0, ?_⟩
    change _ = Run.working jobs (operands.pushAll (v :: vs).reverse) (base :: bases) u
    rw [List.reverse_cons, Stack.pushAll_append]
    rfl

theorem follows_executeAll {complete : Node → Evaluation Completion}
    (h : ∀ node, i.Completes n (.execute node) (complete node))
    (hkeep : ∀ node, LeavesCallers (complete node)) (nodes : List Node)
    (jobs : Stack Job) (operands : Stack Value) (base : Heights) (bases : List Heights)
    (s : ProgramState) (hs : s.calls.items ≠ []) (hbase : base.jobs ≤ jobs.height) :
    i.Follows n (.after jobs operands (base :: bases))
      (.working (jobs.pushAll (nodes.map .execute)) operands (base :: bases) s)
      ((Evaluator.executeAll complete nodes).run s) := by
  induction nodes generalizing s with
  | nil => exact ⟨0, rfl⟩
  | cons node nodes ih =>
    have hle : base.jobs ≤ (jobs.pushAll (nodes.map .execute)).height :=
      Nat.le_trans hbase (Nat.le_add_right _ _)
    rw [List.map_cons, Stack.pushAll_cons]
    refine (h node _ _ _ _ s hs hle).bind fun c t ht => ?_
    have hskip {c : Completion} (hc : ∀ m, c.skips (.execute m) = true) :
        Run.after (jobs.pushAll (nodes.map .execute)) operands (base :: bases) c t =
          Run.after jobs operands (base :: bases) c t := by
      refine Run.after_pushAll_of_skips (fun job hjob => ?_) hbase t
      obtain ⟨m, -, rfl⟩ := List.mem_map.1 hjob
      exact hc m
    cases c with
    | normal => exact ih t ((hkeep node ht).ne_nil hs)
    | broke place => exact ⟨0, hskip fun _ => rfl⟩
    | continued place => exact ⟨0, hskip fun _ => rfl⟩
    | returned v place => exact ⟨0, hskip fun _ => rfl⟩

/-! ## Ends of calls -/

/-- The machine takes the call off the stack before it converts the result, the evaluation does
not; both show the same if the conversion fails. -/
theorem follows_giveBack (v : Value) (place : Location) (jobs : Stack Job)
    (operands : Stack Value) (base : Heights) (bases : List Heights) (s : ProgramState)
    (hs : s.calls.items ≠ []) :
    i.Follows n (.after jobs operands (base :: bases))
      (.working (jobs.push (.giveBack true place)) (operands.push v) (base :: bases) s)
      ((do return .returned (← ofEffect (Evaluator.returnValue place v)) place :
        Evaluation Completion).run s) := by
  obtain ⟨a, callers, ha⟩ := List.exists_cons_of_ne_nil hs
  obtain ⟨r, hr⟩ := run_callResult place a.returnType (some v)
  have hreturn : (Evaluator.returnValue place v).run s = (r, s) := by
    rw [Evaluator.returnValue, run_bind_of_ok (run_current_of_cons place ha), hr]
  refine .step rfl ?_
  change i.Follows _ _ (.ofStep ((i.perform (.giveBack true place) ⟨jobs, operands.push v⟩
    (base :: bases)).run s)) _
  have hperform : i.perform (.giveBack true place) ⟨jobs, operands.push v⟩ (base :: bases) =
      popCall place >>= fun a => callResult place a.returnType (some v) >>= fun r =>
        releaseAll a.owned >>= fun _ => resume r place ⟨jobs, operands⟩ (base :: bases) := by
    simp [perform, giveBack, leaveCall]
  rw [hperform, run_bind_of_ok (run_popCall_of_cons place ha), Evaluation.run_bind, run_ofEffect,
    hreturn]
  cases r with
  | error e =>
    rw [run_bind_of_error (hr _)]
    exact ⟨0, _, rfl, rfl⟩
  | ok w =>
    rw [run_bind_of_ok (hr _)]
    refine ⟨0, ?_⟩
    simp only [Run.after]
    rw [run_bind_of_ok (run_popCall_of_cons place ha)]
    rfl

/-- The end of a call, however its body completes: by its last job, by the job that gave back a
result, or by loop control that finds no loop. -/
theorem follows_finishCall (f : Function) (c : Completion) (jobs : Stack Job)
    (operands : Stack Value) (base : Heights) (bases : List Heights) (s : ProgramState)
    (hbase : base.jobs ≤ jobs.height) :
    i.Follows n (fun r t => .ofStep ((resume r.1 r.2 ⟨jobs, operands⟩ (base :: bases)).run t))
      (.after (jobs.push (.bodyEnd f.place)) operands (base :: bases) c s)
      ((ofEffect (Evaluator.finishCall f c)).run s) := by
  cases c with
  | normal =>
    refine .step rfl ?_
    change i.Follows _ _ (.ofStep ((i.perform (.bodyEnd f.place) ⟨jobs, operands⟩
      (base :: bases)).run s)) _
    have hperform : i.perform (.bodyEnd f.place) ⟨jobs, operands⟩ (base :: bases) =
        Evaluator.finishCall f .normal >>= fun r => resume r.1 r.2 ⟨jobs, operands⟩ (base :: bases) := by
      simp [perform, giveBack, leaveCall, Evaluator.finishCall, Completion.result, callResult]
    rw [hperform, ← bind_pure (ofEffect _)]
    exact .ofStep fun r t _ => ⟨0, rfl⟩
  | broke place => exact ⟨0, s, rfl, rfl⟩
  | continued place => exact ⟨0, s, rfl, rfl⟩
  | returned v place =>
    rw [Run.after_returned_push v place _ hbase]
    have hfinish : Evaluator.finishCall f (.returned v place) =
        popCall place >>= fun a => releaseAll a.owned >>= fun _ => pure (v, place) := by
      simp [Evaluator.finishCall, Completion.result]
    have hafter : Run.after jobs operands (base :: bases) (.returned v place) s =
        .ofStep ((Evaluator.finishCall f (.returned v place) >>= fun r =>
          resume r.1 r.2 ⟨jobs, operands⟩ (base :: bases)).run s) := by
      rw [hfinish]
      simp [Run.after]
    rw [hafter, ← bind_pure (ofEffect _)]
    exact .ofStep fun r t _ => ⟨0, rfl⟩

/-! ## Jobs and evaluations, with some fuel -/

/-- The jobs that take nodes apart do what evaluations with the given fuel do. A job that is not
behind a job of its own, as the condition of a `while` loop is, has one job less to show for its
fuel. -/
structure Mirrors (i : Interpreter) (fuel : Nat) : Prop where
  evaluate (node : Node) {n : Nat} (hn : 2 * n ≤ fuel + 1) :
    i.Leaves n id (.evaluate node) (Evaluator.evaluate i fuel node)
  locate (node : Node) (access : Access) {n : Nat} (hn : 2 * n ≤ fuel + 1) :
    i.Leaves n .pointer (.locate node access) (Evaluator.locate i fuel node access)
  execute (node : Node) {n : Nat} (hn : 2 * n ≤ fuel + 1) :
    i.Completes n (.execute node) (Evaluator.execute i fuel node)
  whileFrom (condition body : Node) (place : Location) {n : Nat} (hn : 2 * n ≤ fuel)
    (jobs : Stack Job) (operands : Stack Value) (base : Heights) (bases : List Heights)
    (s : ProgramState) (hs : s.calls.items ≠ []) (hbase : base.jobs ≤ jobs.height) :
    i.Follows n (.after jobs operands (base :: bases))
      (.working (((jobs.push .loopEnd).push (.whileTest condition body place)).push
        (.evaluate condition)) operands (base :: bases) s)
      ((Evaluator.whileFrom i fuel condition body).run s)
  forFrom (loop : ForLoop) {n : Nat} (hn : 2 * n ≤ fuel + 1)
    (jobs : Stack Job) (operands : Stack Value) (base : Heights) (bases : List Heights)
    (s : ProgramState) (hs : s.calls.items ≠ []) (hbase : base.jobs ≤ jobs.height) :
    i.Follows n (.after jobs operands (base :: bases))
      (.working ((jobs.push .loopEnd).push (.forCondition loop)) operands (base :: bases) s)
      ((Evaluator.forFrom i fuel loop.condition loop.increment loop.body).run s)
  call (f : Function) (args : List Value) (place : Location) (hargs : args.length = f.params.length)
    {n : Nat} (hn : 2 * n ≤ fuel + 1) (jobs : Stack Job) (operands : Stack Value)
    (base : Heights) (bases : List Heights) (s : ProgramState) :
    i.Follows n (fun v t => .working jobs (operands.push v) (base :: bases) t)
      (.working (jobs.push (.call f place)) (operands.pushAll args.reverse) (base :: bases) s)
      ((Evaluator.call i fuel f args place).run s)

theorem mirrors_zero (i : Interpreter) : i.Mirrors 0 where
  evaluate _ n hn _ _ _ _ _ := by
    obtain rfl : n = 0 := by omega
    exact ⟨_, _, rfl⟩
  locate _ _ n hn _ _ _ _ _ := by
    obtain rfl : n = 0 := by omega
    exact ⟨_, _, rfl⟩
  execute _ n hn _ _ _ _ _ _ _ := by
    obtain rfl : n = 0 := by omega
    exact ⟨_, _, rfl⟩
  whileFrom _ _ _ n hn _ _ _ _ _ _ _ := by
    obtain rfl : n = 0 := by omega
    exact ⟨_, _, rfl⟩
  forFrom _ n hn _ _ _ _ _ _ _ := by
    obtain rfl : n = 0 := by omega
    exact ⟨_, _, rfl⟩
  call _ _ _ _ n hn _ _ _ _ _ := by
    obtain rfl : n = 0 := by omega
    exact ⟨_, _, rfl⟩

variable {fuel : Nat}

/-- Each expression has one value. -/
theorem length_evaluateAll {value : Node → Evaluation Value} {nodes : List Node} {vs : List Value}
    {s t : ProgramState} (h : (Evaluator.evaluateAll value nodes).run s = some (.ok vs, t)) :
    vs.length = nodes.length := by
  induction nodes generalizing vs s with
  | nil =>
    cases h
    rfl
  | cons node nodes ih =>
    obtain ⟨v, u, hu, h⟩ := Evaluation.run_bind_eq_ok_iff.1 h
    obtain ⟨ws, w, hw, h⟩ := Evaluation.run_bind_eq_ok_iff.1 h
    cases h
    simp [ih hw]

/-! ## Expressions -/

theorem leaves_evaluate_succ (ih : i.Mirrors fuel) (node : Node) {n : Nat}
    (hn : 2 * n ≤ fuel + 1 + 1) :
    i.Leaves n id (.evaluate node) (Evaluator.evaluate i (fuel + 1) node) := by
  intro jobs operands base bases s
  have hn' : 2 * (n - 1) ≤ fuel + 1 := by omega
  have all (nodes : List Node) := follows_evaluateAll (fun m => ih.evaluate m hn') nodes
  have scheduled (js : List Job) (job : Job) :
      jobs.pushAll (js ++ [job]) = (jobs.push job).pushAll js := jobs.pushAll_append js [job]
  unfold Evaluator.evaluate
  cases node with
  | intLiteral place m => exact .step rfl ⟨0, rfl⟩
  | charLiteral place c => exact .step rfl ⟨0, rfl⟩
  | stringLiteral place bytes => exact .finish (by simp [perform, evaluate, Pending.push])
  | identifier place name => exact .finish (by simp [perform, evaluate, Pending.push])
  | arrayLiteral place elements =>
    refine .job (m := ⟨⟨(jobs.push (.arrayLiteral elements.length place)).pushAll _, operands⟩, _⟩)
      (by simp [perform, evaluate, Pending.schedule, scheduled]; rfl) ?_
    refine (all elements ..).bind fun vs t ht => ?_
    have hlen := length_evaluateAll ht
    exact .finish (by simp [perform, Pending.arrayLiteral, ← hlen, Pending.popMany_pushAll, Pending.push])
  | binary place op left right =>
    show i.Follows _ _ _ ((Evaluator.evaluate i (fuel + 1) (.binary place op left right)).run s)
    rw [Evaluator.evaluate_binary]
    by_cases hop : op.isLogical
    · refine .job (m := ⟨⟨(jobs.push (.logical op right place)).push _, operands⟩, _⟩)
        (by simp [perform, evaluate, Pending.schedule, Stack.pushAll_cons, hop]; rfl) ?_
      refine (ih.evaluate left hn' ..).bind fun l t _ => ?_
      rw [if_pos hop]
      cases hl : op.settled? l.isTruthy with
      | some answer =>
        exact .job (m := ⟨⟨jobs, operands.push (.ofBool answer)⟩, _⟩)
          (by simp [perform, Pending.logical, Pending.push, hl]) ⟨0, rfl⟩
      | none =>
        refine .job (m := ⟨⟨(jobs.push (.truth place)).push _, operands⟩, _⟩)
          (by simp [perform, Pending.logical, Pending.schedule, Stack.pushAll_cons, hl]; rfl) ?_
        refine (ih.evaluate right (by omega) ..).bind fun r u _ => ?_
        exact .job (m := ⟨⟨jobs, operands.push (.ofBool r.isTruthy)⟩, _⟩)
          (by simp [perform, Pending.truth, Pending.push]) ⟨0, rfl⟩
    · refine .job (m := ⟨⟨((jobs.push (.binary op place)).push (.evaluate right)).push _, operands⟩, _⟩)
        (by simp [perform, evaluate, Pending.schedule, Stack.pushAll_cons, hop]; rfl) ?_
      refine (ih.evaluate left hn' ..).bind fun l t _ => ?_
      rw [if_neg hop]
      refine (ih.evaluate right hn' ..).bind fun r u _ => ?_
      exact .finish (by simp [perform, Pending.binary, Pending.push])
  | unary place op operand =>
    refine .job (m := ⟨⟨(jobs.push (.unary op place)).push _, operands⟩, _⟩)
      (by simp [perform, evaluate, Pending.schedule, Stack.pushAll_cons]; rfl) ?_
    refine (ih.evaluate operand hn' ..).bind fun v t _ => ?_
    exact .finish (by simp [perform, Pending.unary, Pending.push])
  | step place op operand =>
    refine .job (m := ⟨⟨(jobs.push (.step op place)).push _, operands⟩, _⟩)
      (by simp [perform, evaluate, Pending.schedule, Stack.pushAll_cons]; rfl) ?_
    refine (ih.locate operand .write hn' ..).bind fun target t _ => ?_
    exact .finish (by simp [perform, Pending.step, Pending.push])
  | deref place operand =>
    refine .job (m := ⟨⟨(jobs.push (.load place)).push _, operands⟩, _⟩)
      (by simp [perform, evaluate, Pending.schedule, Stack.pushAll_cons]; rfl) ?_
    refine (ih.locate (.deref place operand) .read hn' ..).bind fun target t _ => ?_
    exact .finish (by simp [perform, Pending.load, Pending.push])
  | index place array index =>
    refine .job (m := ⟨⟨(jobs.push (.load place)).push _, operands⟩, _⟩)
      (by simp [perform, evaluate, Pending.schedule, Stack.pushAll_cons]; rfl) ?_
    refine (ih.locate (.index place array index) .read hn' ..).bind fun target t _ => ?_
    exact .finish (by simp [perform, Pending.load, Pending.push])
  | addressOf place operand =>
    refine .job (m := ⟨⟨jobs.push _, operands⟩, _⟩)
      (by simp [perform, evaluate, Pending.schedule, Stack.pushAll_cons]; rfl) ?_
    refine (ih.locate operand .read hn' ..).bind fun target t _ => ?_
    exact ⟨0, rfl⟩
  | assign place target value =>
    refine .job (m := ⟨⟨((jobs.push (.assign place)).push (.evaluate value)).push _, operands⟩, _⟩)
      (by simp [perform, evaluate, Pending.schedule, Stack.pushAll_cons]; rfl) ?_
    refine (ih.locate target .write hn' ..).bind fun p t _ => ?_
    refine (ih.evaluate value hn' ..).bind fun v u _ => ?_
    exact .finish (by simp [perform, Pending.assign, Pending.push])
  | compoundAssign place op target value =>
    refine .job
      (m := ⟨⟨((jobs.push (.compoundAssign op place)).push (.evaluate value)).push _, operands⟩, _⟩)
      (by simp [perform, evaluate, Pending.schedule, Stack.pushAll_cons]; rfl) ?_
    refine (ih.locate target .write hn' ..).bind fun p t _ => ?_
    refine (ih.evaluate value hn' ..).bind fun v u _ => ?_
    exact .finish (by simp [perform, Pending.compoundAssign, Pending.push])
  | call place name args =>
    refine .begin (g := fun callee => pure (.running
      ⟨⟨(jobs.push (callJob place callee)).pushAll (args.map .evaluate), operands⟩, base :: bases⟩))
      (by simp [perform, evaluate, Pending.schedule, scheduled]) fun callee t ht => ?_
    refine (all args ..).bind fun vs u hu => ?_
    have hlen := length_evaluateAll hu
    have hcallee := run_ofExcept_eq_ok ht
    cases callee with
    | defined f =>
      exact ih.call f vs place (hlen.trans (length_of_callee_eq_defined hcallee)) hn' ..
    | print =>
      obtain ⟨start, length, rfl⟩ : ∃ a b, vs = [a, b] := by
        rw [← List.length_eq_two, hlen, length_of_callee_eq_print hcallee, Interpreter.printArity]
      exact .finish (by
        simp [perform, callJob, Pending.print, Pending.push, Stack.pushAll_cons, Evaluator.print])
  | declaration place name type isConst init =>
    have hd := all (Declaration.operands ⟨place, name, type, isConst, init⟩)
    refine .job (m := ⟨⟨(jobs.push (.declare ⟨place, name, type, isConst, init⟩ true)).pushAll _,
      operands⟩, _⟩)
      (by simp [perform, evaluate, declare, Pending.schedule, scheduled]; rfl) ?_
    refine (hd ..).bind fun vs t ht => ?_
    have hlen := length_evaluateAll ht
    refine .begin (g := fun b => Effect.load place b.pointer >>= fun v =>
      pure (.running ⟨⟨jobs, operands.push v⟩, base :: bases⟩)) ?_ fun b u _ => ?_
    · simp [perform, Pending.declare, ← hlen, Pending.popMany_pushAll, Pending.push]
    · exact .ofEffect
  | _ => exact .step rfl ⟨0, _, rfl, rfl⟩

theorem leaves_locate_succ (ih : i.Mirrors fuel) (node : Node) (access : Access) {n : Nat}
    (hn : 2 * n ≤ fuel + 1 + 1) :
    i.Leaves n .pointer (.locate node access) (Evaluator.locate i (fuel + 1) node access) := by
  intro jobs operands base bases s
  have hn' : 2 * (n - 1) ≤ fuel + 1 := by omega
  unfold Evaluator.locate
  cases node with
  | identifier place name => exact .finish (by simp [perform, locate, Pending.push])
  | deref place operand =>
    refine .job (m := ⟨⟨(jobs.push (.requirePointer place)).push _, operands⟩, _⟩)
      (by simp [perform, locate, Pending.schedule, Stack.pushAll_cons]; rfl) ?_
    refine (ih.evaluate operand hn' ..).bind fun v t _ => ?_
    exact .finish (by simp [perform, Pending.requirePointer, Pending.push])
  | index place array index =>
    refine .job (m := ⟨⟨((jobs.push (.index place)).push (.evaluate index)).push _, operands⟩, _⟩)
      (by simp [perform, locate, Pending.schedule, Stack.pushAll_cons]; rfl) ?_
    refine (ih.evaluate array hn' ..).bind fun a t _ => ?_
    refine (ih.evaluate index hn' ..).bind fun v u _ => ?_
    exact .finish (by simp [perform, Pending.index, Pending.push])
  | _ => exact .step rfl ⟨0, _, rfl, rfl⟩

/-! ## Loops -/

/-- The body of a loop. Behind it the other jobs of the loop go on as the completion of the body
says. -/
theorem follows_turn (own : List Job) {body : Node} {x next : Evaluation Completion}
    {rest : Completion → Evaluation Completion} (hx : i.Completes n (.execute body) x)
    (hkeep : LeavesCallers x) (hnormal : rest .normal = next)
    (hcontinued : ∀ p, rest (.continued p) = next) (hbroke : ∀ p, rest (.broke p) = pure .normal)
    (hreturned : ∀ v p, rest (.returned v p) = pure (.returned v p))
    (hown : ∀ p, ∀ job ∈ own, (Completion.broke p).skips job = true)
    {jobs : Stack Job} {operands : Stack Value} {base : Heights} {bases : List Heights}
    {s : ProgramState} (hs : s.calls.items ≠ []) (hbase : base.jobs ≤ jobs.height)
    (hnext : ∀ m ≤ n, ∀ t : ProgramState, t.calls.items ≠ [] →
      i.Follows m (.after jobs operands (base :: bases))
        (.working ((jobs.push .loopEnd).pushAll own) operands (base :: bases) t) (next.run t)) :
    i.Follows n (.after jobs operands (base :: bases))
      (.working ((((jobs.push .loopEnd).pushAll own).push .continueTarget).push (.execute body))
        operands (base :: bases) s) ((x >>= rest).run s) := by
  have hend : base.jobs ≤ (jobs.push .loopEnd).height := Nat.le_add_right_of_le hbase
  have hturn : base.jobs ≤ ((jobs.push .loopEnd).pushAll own).height := Nat.le_add_right_of_le hend
  refine (hx _ _ _ _ s hs (Nat.le_add_right_of_le hturn)).bind fun c t ht => ?_
  have hts := (hkeep ht).ne_nil hs
  cases c with
  | normal =>
    rw [hnormal]
    exact .job (by simp [perform]) (hnext _ (Nat.sub_le ..) t hts)
  | continued p =>
    rw [hcontinued, Run.after_continued_continueTarget]
    exact hnext n (Nat.le_refl n) t hts
  | broke p =>
    rw [hbroke, Run.after_push_of_skips rfl hturn, Run.after_pushAll_of_skips (hown p) hend,
      Run.after_broke_loopEnd]
    exact ⟨0, rfl⟩
  | returned v p =>
    have hskips : ∀ job ∈ own, (Completion.returned v p).skips job = true :=
      fun job hjob => Completion.skips_of_broke (hown p job hjob) v p
    rw [hreturned, Run.after_push_of_skips rfl hturn, Run.after_pushAll_of_skips hskips hend,
      Run.after_push_of_skips rfl hbase]
    exact ⟨0, rfl⟩

theorem whileFrom_succ (ih : i.Mirrors fuel) (condition body : Node) (place : Location) {n : Nat}
    (hn : 2 * n ≤ fuel + 1) (jobs : Stack Job) (operands : Stack Value) (base : Heights)
    (bases : List Heights) (s : ProgramState) (hs : s.calls.items ≠ [])
    (hbase : base.jobs ≤ jobs.height) :
    i.Follows n (.after jobs operands (base :: bases))
      (.working (((jobs.push .loopEnd).push (.whileTest condition body place)).push
        (.evaluate condition)) operands (base :: bases) s)
      ((Evaluator.whileFrom i (fuel + 1) condition body).run s) := by
  have kept := Evaluator.callersKept i fuel
  unfold Evaluator.whileFrom
  refine (ih.evaluate condition hn ..).bind fun v t ht => ?_
  have hts := (kept.evaluate condition ht).ne_nil hs
  cases hv : v.isTruthy with
  | false =>
    refine .job (m := ⟨⟨jobs.push .loopEnd, operands⟩, base :: bases⟩)
      (by simp [perform, Pending.whileTest, hv]) ?_
    exact .job (by simp [perform]) ⟨0, rfl⟩
  | true =>
    let turn := ((jobs.push .loopEnd).push (.whileTest condition body place)).push
      (.evaluate condition)
    refine .job (m := ⟨⟨(turn.push .continueTarget).push (.execute body), operands⟩, _⟩)
      (by simp [perform, Pending.whileTest, Pending.schedule, Stack.pushAll_cons, hv, turn]; rfl) ?_
    refine follows_turn [.evaluate condition, .whileTest condition body place]
      (ih.execute body (by omega)) (kept.execute body) (by rfl) (fun _ => by rfl) (fun _ => by rfl)
      (fun _ _ => by rfl) (by simp [Completion.skips, Job.isLoopEnd]) hts hbase fun m hm u hus => ?_
    exact ih.whileFrom condition body place (by omega) _ _ _ _ u hus hbase

/-- What comes after the body of a `for` loop, from the increment on. -/
theorem follows_forNext (ih : i.Mirrors fuel) (loop : ForLoop) {n : Nat} (hn : 2 * n ≤ fuel + 1)
    (jobs : Stack Job) (operands : Stack Value) (base : Heights) (bases : List Heights)
    (s : ProgramState) (hs : s.calls.items ≠ []) (hbase : base.jobs ≤ jobs.height) :
    i.Follows n (.after jobs operands (base :: bases))
      (.working ((jobs.push .loopEnd).push (.forNext loop)) operands (base :: bases) s)
      ((do
        discard <| Evaluator.evaluateAll (Evaluator.evaluate i fuel) loop.increment.toList
        Evaluator.forFrom i fuel loop.condition loop.increment loop.body :
          Evaluation Completion).run s) := by
  have again {n : Nat} (hn : 2 * n ≤ fuel + 1) (t : ProgramState) (ht : t.calls.items ≠ []) :=
    ih.forFrom loop hn jobs operands base bases t ht hbase
  cases hi : loop.increment with
  | none =>
    rw [hi] at again
    refine .job (m := ⟨⟨(jobs.push .loopEnd).push (.forCondition loop), operands⟩, _⟩)
      (by simp [perform, Pending.forNext, hi, Pending.schedule, Stack.pushAll_cons]; rfl) ?_
    exact again (by omega) s hs
  | some increment =>
    rw [hi] at again
    refine .job (m := ⟨⟨(((jobs.push .loopEnd).push (.forCondition loop)).push
      (.discard loop.place)).push (.evaluate increment), operands⟩, _⟩)
      (by simp [perform, Pending.forNext, hi, Pending.schedule, Stack.pushAll_cons]; rfl) ?_
    have hsingle : (do
        discard <| Evaluator.evaluateAll (Evaluator.evaluate i fuel) (some increment).toList
        Evaluator.forFrom i fuel loop.condition (some increment) loop.body) =
      Evaluator.evaluate i fuel increment >>= fun _ =>
        Evaluator.forFrom i fuel loop.condition (some increment) loop.body := by
      simp [Evaluator.evaluateAll, Functor.discard, map_const]
    rw [hsingle]
    refine (ih.evaluate increment (by omega) ..).bind fun v t ht => ?_
    refine .job (m := ⟨⟨(jobs.push .loopEnd).push (.forCondition loop), operands⟩, base :: bases⟩)
      (by simp [perform, Pending.discard]) ?_
    exact again (by omega) t ((Evaluator.callersKept i fuel).evaluate increment ht |>.ne_nil hs)

/-- The body of a `for` loop, and what comes after it. -/
theorem follows_forBody (ih : i.Mirrors fuel) (loop : ForLoop) {n : Nat} (hn : 2 * n ≤ fuel + 1)
    (jobs : Stack Job) (operands : Stack Value) (base : Heights) (bases : List Heights)
    (s : ProgramState) (hs : s.calls.items ≠ []) (hbase : base.jobs ≤ jobs.height) :
    i.Follows n (.after jobs operands (base :: bases))
      (.underWay ⟨Pending.forBody loop ⟨jobs.push .loopEnd, operands⟩, base :: bases⟩ s)
      ((do match ← Evaluator.execute i fuel loop.body with
        | .normal | .continued _ =>
          discard <| Evaluator.evaluateAll (Evaluator.evaluate i fuel) loop.increment.toList
          Evaluator.forFrom i fuel loop.condition loop.increment loop.body
        | .broke _ => return .normal
        | .returned v place => return .returned v place : Evaluation Completion).run s) := by
  refine follows_turn [.forNext loop] (ih.execute loop.body hn)
    ((Evaluator.callersKept i fuel).execute loop.body) (by rfl) (fun _ => by rfl) (fun _ => by rfl)
    (fun _ _ => by rfl) (by simp [Completion.skips, Job.isLoopEnd]) hs hbase fun m hm t hts => ?_
  exact follows_forNext ih loop (by omega) jobs operands base bases t hts hbase

theorem forFrom_succ (ih : i.Mirrors fuel) (loop : ForLoop) {n : Nat}
    (hn : 2 * n ≤ fuel + 1 + 1) (jobs : Stack Job) (operands : Stack Value) (base : Heights)
    (bases : List Heights) (s : ProgramState) (hs : s.calls.items ≠ [])
    (hbase : base.jobs ≤ jobs.height) :
    i.Follows n (.after jobs operands (base :: bases))
      (.working ((jobs.push .loopEnd).push (.forCondition loop)) operands (base :: bases) s)
      ((Evaluator.forFrom i (fuel + 1) loop.condition loop.increment loop.body).run s) := by
  have kept := Evaluator.callersKept i fuel
  have turn {n : Nat} (hn : 2 * n ≤ fuel + 1) := follows_forBody ih loop hn jobs operands base bases
  unfold Evaluator.forFrom
  cases hc : loop.condition with
  | none =>
    refine .job (by simp [perform, Pending.forCondition, hc]; rfl) ?_
    have := turn (n := n - 1) (by omega) s hs hbase
    rw [hc] at this
    exact this
  | some condition =>
    refine .job (m := ⟨⟨((jobs.push .loopEnd).push (.forTest loop)).push (.evaluate condition),
      operands⟩, _⟩)
      (by simp [perform, Pending.forCondition, hc, Pending.schedule, Stack.pushAll_cons]; rfl) ?_
    have hsingle : Evaluator.evaluateAll (Evaluator.evaluate i fuel) (some condition).toList =
        Evaluator.evaluate i fuel condition >>= fun v => pure [v] := by
      simp [Evaluator.evaluateAll]
    rw [hsingle, bind_assoc]
    refine (ih.evaluate condition (by omega) ..).bind fun v t ht => ?_
    have hts := (kept.evaluate condition ht).ne_nil hs
    cases hv : v.isTruthy with
    | false =>
      refine .job (m := ⟨⟨jobs.push .loopEnd, operands⟩, base :: bases⟩)
        (by simp [perform, Pending.forTest, hv]) ?_
      simp only [pure_bind, List.all_cons, hv]
      exact .job (by simp [perform]) ⟨0, rfl⟩
    | true =>
      refine .job (by simp [perform, Pending.forTest, hv]; rfl) ?_
      have := turn (n := n - 1 - 1) (by omega) t hts hbase
      rw [hc] at this
      simp only [pure_bind, List.all_cons, hv]
      exact this

/-! ## Statements -/

/-- A value that nothing looks at. -/
theorem discard_bind (x : Evaluation α) (y : Evaluation Completion) :
    (do discard x; y) = x >>= fun _ => y := by
  simp [Functor.discard, map_const]

/-- Each statement is counted first. -/
theorem follows_counted {node : Node} {jobs : Stack Job} {operands : Stack Value}
    {bases : List Heights} {s : ProgramState} {g : Effect Progress} {x : Evaluation Completion}
    {k : Completion → ProgramState → Run} (hs : s.calls.items ≠ [])
    (hp : i.perform (.execute node) ⟨jobs, operands⟩ bases =
      countStep i.limits node.place >>= fun _ => g)
    (h : ∀ t, t.calls.items ≠ [] → i.Follows (n - 1) k (.ofStep (g.run t)) (x.run t)) :
    i.Follows n k (.working (jobs.push (.execute node)) operands bases s)
      ((do ofEffect (countStep i.limits node.place); x : Evaluation Completion).run s) :=
  .begin hp fun _ t ht => h t ((changing_countStep _ _ ht).callers.ne_nil hs)

/-- An expression that stands as a statement. -/
theorem follows_discarded {value : Node} {x : Evaluation Value} {place : Location}
    (h : i.Leaves n id (.evaluate value) x) (jobs : Stack Job) (operands : Stack Value)
    (base : Heights) (bases : List Heights) (s : ProgramState) :
    i.Follows n (.after jobs operands (base :: bases))
      (.working ((jobs.push (.discard place)).push (.evaluate value)) operands (base :: bases) s)
      ((do discard x; return .normal : Evaluation Completion).run s) := by
  rw [discard_bind]
  refine (h ..).bind fun v t _ => ?_
  exact .job (m := ⟨⟨jobs, operands⟩, base :: bases⟩) (by simp [perform, Pending.discard]) ⟨0, rfl⟩

theorem completes_execute_succ (ih : i.Mirrors fuel) (node : Node) {n : Nat}
    (hn : 2 * n ≤ fuel + 1 + 1) :
    i.Completes n (.execute node) (Evaluator.execute i (fuel + 1) node) := by
  intro jobs operands base bases s hs hbase
  have kept := Evaluator.callersKept i fuel
  have hn' : 2 * (n - 1) ≤ fuel + 1 := by omega
  have all (nodes : List Node) := follows_executeAll (fun m => ih.execute m hn') kept.execute nodes
  have scheduled (js : List Job) (job : Job) :
      jobs.pushAll (js ++ [job]) = (jobs.push job).pushAll js := jobs.pushAll_append js [job]
  unfold Evaluator.execute
  cases node with
  | declaration place name type isConst init =>
    have hd := follows_evaluateAll (fun m => ih.evaluate m hn')
      (Declaration.operands ⟨place, name, type, isConst, init⟩)
    refine follows_counted (g := pure (.running
      ⟨⟨(jobs.push (.declare ⟨place, name, type, isConst, init⟩ false)).pushAll _, operands⟩, _⟩)) hs
      (by simp [perform, execute, declare, Pending.schedule, scheduled]; rfl) fun t ht => ?_
    refine (hd ..).bind fun vs u hu => ?_
    have hlen := length_evaluateAll hu
    rw [discard_bind]
    refine .begin (g := fun _ => pure (.running ⟨⟨jobs, operands⟩, base :: bases⟩)) ?_
      fun b w _ => ⟨0, rfl⟩
    simp [perform, Pending.declare, ← hlen, Pending.popMany_pushAll]
  | block place statements =>
    refine follows_counted (g := openScope place >>= fun _ => pure (.running
      ⟨⟨(jobs.push (.closeScope place)).pushAll (statements.map .execute), operands⟩,
        base :: bases⟩)) hs (by simp [perform, execute, Pending.schedule, scheduled]) fun t ht => ?_
    refine .ofStep fun _ u hu => ?_
    have hus := (leavesCallers_openScope place (congrArg some hu)).ne_nil ht
    refine (all statements _ _ _ _ u hus (Nat.le_succ_of_le hbase)).bind fun c w hw => ?_
    have hws := (Evaluator.leavesCallers_executeAll kept.execute statements hw).ne_nil hus
    exact follows_closeScope place c hws hbase
  | ifElse place condition thenBranch elseBranch =>
    refine follows_counted (g := pure (.running
      ⟨⟨(jobs.push (.branch thenBranch elseBranch place)).push (.evaluate condition), operands⟩, _⟩))
      hs (by simp [perform, execute, Pending.schedule, Stack.pushAll_cons]; rfl) fun t ht => ?_
    refine (ih.evaluate condition hn' ..).bind fun v u hu => ?_
    have hus := (kept.evaluate condition hu).ne_nil ht
    cases hv : v.isTruthy with
    | true =>
      refine .job (m := ⟨⟨jobs.push (.execute thenBranch), operands⟩, base :: bases⟩)
        (by simp [perform, Pending.branch, Pending.schedule, Stack.pushAll_cons, hv]) ?_
      exact ih.execute thenBranch (by omega) _ _ _ _ u hus hbase
    | false =>
      cases elseBranch with
      | none =>
        exact .job (m := ⟨⟨jobs, operands⟩, base :: bases⟩)
          (by simp [perform, Pending.branch, Pending.schedule, hv]) ⟨0, rfl⟩
      | some elseBranch =>
        refine .job (m := ⟨⟨jobs.push (.execute elseBranch), operands⟩, base :: bases⟩)
          (by simp [perform, Pending.branch, Pending.schedule, Stack.pushAll_cons, hv]) ?_
        exact ih.execute elseBranch (by omega) _ _ _ _ u hus hbase
  | whileLoop place condition body =>
    refine follows_counted (g := pure (.running
      ⟨⟨((jobs.push .loopEnd).push (.whileTest condition body place)).push (.evaluate condition),
        operands⟩, _⟩))
      hs (by simp [perform, execute, Pending.schedule, Stack.pushAll_cons]; rfl) fun t ht => ?_
    exact ih.whileFrom condition body place (by omega) _ _ _ _ t ht hbase
  | forLoop place init condition increment body =>
    let loop : ForLoop := ⟨place, condition, increment, body⟩
    let entry := ((jobs.push (.closeScope place)).push .loopEnd).push (.forCondition loop)
    have hscope : base.jobs ≤ (jobs.push (.closeScope place)).height := Nat.le_add_right_of_le hbase
    have hend : base.jobs ≤ ((jobs.push (.closeScope place)).push .loopEnd).height :=
      Nat.le_add_right_of_le hscope
    have hentry (js : List Job) : jobs.pushAll
        (js ++ [.forCondition loop, .loopEnd, .closeScope place]) = entry.pushAll js := by
      rw [Stack.pushAll_append]
      rfl
    refine follows_counted (g := openScope place >>= fun _ => pure (.running
      ⟨⟨entry.pushAll (init.toList.map .execute), operands⟩, base :: bases⟩)) hs
      (by simp [perform, execute, Pending.schedule, ← hentry, loop]) fun t ht => ?_
    refine .ofStep fun _ u hu => ?_
    have hus := (leavesCallers_openScope place (congrArg some hu)).ne_nil ht
    refine (all init.toList _ _ _ _ u hus (Nat.le_succ_of_le hend)).bind fun c w hw => ?_
    have hws := (Evaluator.leavesCallers_executeAll kept.execute _ hw).ne_nil hus
    cases c with
    | normal =>
      refine (ih.forFrom loop hn' (jobs.push (.closeScope place)) _ _ _ w hws hscope).bind
        fun c x hx => ?_
      exact follows_closeScope place c ((kept.forFrom _ _ _ hx).ne_nil hws) hbase
    | broke p =>
      rw [Run.after_push_of_skips rfl hend, Run.after_broke_loopEnd]
      exact follows_closeScope place .normal hws hbase
    | continued p =>
      rw [Run.after_push_of_skips rfl hend, Run.after_push_of_skips rfl hscope]
      exact follows_closeScope place (.continued p) hws hbase
    | returned v p =>
      rw [Run.after_push_of_skips rfl hend, Run.after_push_of_skips rfl hscope]
      exact follows_closeScope place (.returned v p) hws hbase
  | returnFrom place value =>
    cases value with
    | none =>
      refine follows_counted (g := pure (.running ⟨⟨jobs.push (.giveBack false place), operands⟩, _⟩))
        hs (by simp [perform, execute, Pending.schedule, Stack.pushAll_cons]; rfl) fun t ht => ?_
      refine .step rfl ⟨0, ?_⟩
      change Run.ofStep ((i.perform (.giveBack false place) ⟨jobs, operands⟩ (base :: bases)).run t) = _
      simp [perform, giveBack, leaveCall, callResult, Run.after]
    | some value =>
      refine follows_counted (g := pure (.running
        ⟨⟨(jobs.push (.giveBack true place)).push (.evaluate value), operands⟩, _⟩))
        hs (by simp [perform, execute, Pending.schedule, Stack.pushAll_cons]; rfl) fun t ht => ?_
      refine (ih.evaluate value hn' ..).bind fun v u hu => ?_
      exact follows_giveBack v place _ _ _ _ u ((kept.evaluate value hu).ne_nil ht)
  | breakLoop place =>
    exact follows_counted (g := (fun p => .running ⟨p, base :: bases⟩) <$>
      Pending.leaveLoop place ⟨jobs, operands⟩) hs (by simp [perform, execute]) fun t _ =>
        ⟨0, by simp [Run.after, advance]⟩
  | continueLoop place =>
    exact follows_counted (g := (fun p => .running ⟨p, base :: bases⟩) <$>
      Pending.continueLoop place ⟨jobs, operands⟩) hs (by simp [perform, execute]) fun t _ =>
        ⟨0, by simp [Run.after, advance]⟩
  | expression place value =>
    exact follows_counted (g := pure (.running
      ⟨⟨(jobs.push (.discard place)).push (.evaluate value), operands⟩, _⟩))
      hs (by simp [perform, execute, Pending.schedule, Stack.pushAll_cons]) fun t _ =>
        follows_discarded (ih.evaluate value hn') ..
  | function place name returnType params body =>
    exact follows_counted (g := failInternal place (.nestedDefinition name)) hs
      (by simp [perform, execute, failInternal, Effect.fail]) fun t _ => ⟨0, _, rfl, rfl⟩
  | _ =>
    exact follows_counted (g := pure (.running
      ⟨⟨(jobs.push (.discard _)).push (.evaluate _), operands⟩, _⟩))
      hs (by simp [perform, execute, Pending.schedule, Stack.pushAll_cons]; rfl) fun t _ =>
        follows_discarded (ih.evaluate _ hn') ..

/-! ## Calls -/

/-- The body of a function and the end of its call. -/
theorem follows_body (ih : i.Mirrors fuel) (f : Function) {n : Nat} (hn : 2 * n ≤ fuel + 1)
    (jobs : Stack Job) (operands : Stack Value) (bases : List Heights) (s : ProgramState)
    (hs : s.calls.items ≠ []) :
    i.Follows n (fun r t => .ofStep ((resume r.1 r.2 ⟨jobs, operands⟩
        (Pending.heights ⟨jobs, operands⟩ :: bases)).run t))
      (.underWay (.enter f ⟨jobs, operands⟩ bases) s)
      ((do
        let c ← Evaluator.executeAll (Evaluator.execute i fuel) f.body
        ofEffect (Evaluator.finishCall f c) : Evaluation (Value × Location)).run s) := by
  have hm : Machine.enter f ⟨jobs, operands⟩ bases =
      ⟨⟨(jobs.push (.bodyEnd f.place)).pushAll (f.body.map .execute), operands⟩,
        Pending.heights ⟨jobs, operands⟩ :: bases⟩ := by
    rw [Machine.enter, Pending.schedule, Stack.pushAll_append]
    rfl
  rw [hm]
  refine (follows_executeAll (fun m => ih.execute m hn) (Evaluator.callersKept i fuel).execute
    f.body _ _ _ _ s hs (Nat.le_succ _)).bind fun c t _ => ?_
  exact follows_finishCall f c jobs operands _ bases t (Nat.le_refl _)

theorem call_succ (ih : i.Mirrors fuel) (f : Function) (args : List Value) (place : Location)
    (hargs : args.length = f.params.length) {n : Nat} (hn : 2 * n ≤ fuel + 1 + 1)
    (jobs : Stack Job) (operands : Stack Value) (base : Heights) (bases : List Heights)
    (s : ProgramState) :
    i.Follows n (fun v t => .working jobs (operands.push v) (base :: bases) t)
      (.working (jobs.push (.call f place)) (operands.pushAll args.reverse) (base :: bases) s)
      ((Evaluator.call i (fuel + 1) f args place).run s) := by
  unfold Evaluator.call
  refine .begin (g := fun _ => pure (.running (.enter f ⟨jobs, operands⟩ (base :: bases))))
    (by simp [perform, call, ← hargs, Pending.popMany_pushAll]) fun _ t ht => ?_
  obtain ⟨-, a, u, -, rfl⟩ := run_enterCall_eq_ok ht
  rw [← bind_assoc]
  refine (follows_body ih f (by omega) jobs operands (base :: bases) _ (by simp)).bind
    fun r v _ => ⟨0, ?_⟩
  change Run.underWay ⟨(Pending.cutTo ⟨jobs, operands⟩ _).push r.1, base :: bases⟩ v = _
  simp only [Pending.cutTo, Pending.heights, Stack.cutTo_height]
  rfl

/-- Each job does what the evaluation of its node does. -/
theorem mirrors (i : Interpreter) (fuel : Nat) : i.Mirrors fuel := by
  induction fuel with
  | zero => exact mirrors_zero i
  | succ fuel ih =>
    exact ⟨leaves_evaluate_succ ih, leaves_locate_succ ih, completes_execute_succ ih,
      whileFrom_succ ih, forFrom_succ ih, call_succ ih⟩

/-! ## Runs -/

/-- The run of a program follows its direct evaluation. -/
theorem follows_exitCode (i : Interpreter) (fuel : Nat) {n : Nat} (hn : 2 * n ≤ fuel + 1)
    (args : List (List UInt8)) (sink : Sink) :
    i.Follows n (fun code t => .ended (.ok code) t) (i.begin args sink)
      (Evaluator.run i fuel args sink) := by
  unfold Evaluator.run Evaluator.exitCode
  rw [Evaluation.run_bind, run_ofEffect, begin]
  rcases hm : (i.enterMain args).run (.fresh sink) with ⟨e | main, s⟩
  · exact ⟨0, s, rfl, rfl⟩
  obtain ⟨-, values, u, -, henter⟩ := run_enterMain_eq_ok hm
  obtain ⟨-, a, v, -, rfl⟩ := run_enterCall_eq_ok henter
  dsimp only
  rw [← bind_assoc]
  refine (follows_body (mirrors i fuel) main hn .empty .empty [] _ (by simp)).bind fun r t _ => ?_
  change i.Follows _ _ (.ofStep ((exitValue r.2 r.1 >>= fun code =>
    pure (Progress.exited code) : Effect Progress).run t)) ((ofEffect (exitValue r.2 r.1)).run t)
  rw [← bind_pure (ofEffect _)]
  exact .ofStep fun code w _ => ⟨0, rfl⟩

/-- A direct evaluation that ends shows what the run shows. -/
theorem exists_run_of_evaluation {args : List (List UInt8)} {sink : Sink} {fuel : Nat}
    {result : Except Stop Int32} {s : ProgramState}
    (h : Evaluator.run i fuel args sink = some (result, s)) :
    ∃ m t, i.run m args sink = some (result, t) ∧ t.observed = s.observed := by
  have hf := follows_exitCode i fuel (n := 0) (Nat.zero_le _) args sink
  rw [h] at hf
  cases result with
  | error e =>
    obtain ⟨m, t, hm, ht⟩ := hf
    exact ⟨m, t, by rw [run, hm], ht⟩
  | ok code =>
    obtain ⟨m, hm⟩ := hf
    exact ⟨m, s, by rw [run, hm], rfl⟩

/-- A run has one end. -/
theorem run_unique {args : List (List UInt8)} {sink : Sink} {m n : Nat}
    {e f : Except Stop Int32 × ProgramState} (hm : i.run m args sink = some e)
    (hn : i.run n args sink = some f) : e = f := by
  have hmn := i.advance_add m n (i.begin args sink)
  rw [Nat.add_comm, advance_add, advance_of_run hm, advance_of_run hn, advance_ended,
    advance_ended] at hmn
  injection hmn with h₁ h₂
  exact Prod.ext h₁.symm h₂.symm

/-- A run that ends shows what a direct evaluation shows. -/
theorem exists_evaluation_of_run {args : List (List UInt8)} {sink : Sink} {m : Nat}
    {result : Except Stop Int32} {t : ProgramState}
    (h : i.run m args sink = some (result, t)) :
    ∃ fuel s, Evaluator.run i fuel args sink = some (result, s) ∧ t.observed = s.observed := by
  have hf := follows_exitCode i (2 * m) (Nat.le_succ _) args sink
  rcases hs : Evaluator.run i (2 * m) args sink with _ | ⟨result', s⟩
  · rw [hs] at hf
    obtain ⟨c, s, hc⟩ := hf
    rw [run, hc] at h
    cases h
  · obtain ⟨m', t', ht', hobs⟩ := exists_run_of_evaluation hs
    cases run_unique h ht'
    exact ⟨2 * m, s, hs, hobs⟩

/-- The machine refines direct evaluation: for every program, with any ceilings and arguments, the
two end alike if one of them ends, with the same exit value or error, the same memory and output, and
after the same number of statements. -/
theorem run_refines_evaluation (program : Program) (limits : Limits) (args : List (List UInt8))
    (sink : Sink) (result : Except Stop Int32) (memory : Arena) (output : Sink)
    (steps : Nat) :
    (∃ fuel s, Evaluator.run (.ofProgram program limits) fuel args sink = some (result, s) ∧
        s.memory = memory ∧ s.sink = output ∧ s.steps = steps) ↔
      ∃ fuel s, (Interpreter.ofProgram program limits).run fuel args sink = some (result, s) ∧
        s.memory = memory ∧ s.sink = output ∧ s.steps = steps := by
  constructor
  · rintro ⟨fuel, s, hs, rfl, rfl, rfl⟩
    obtain ⟨m, t, ht, hobs⟩ := exists_run_of_evaluation hs
    injection hobs with hmemory hrest
    injection hrest with hsink hsteps
    exact ⟨m, t, ht, hmemory, hsink, hsteps⟩
  · rintro ⟨m, t, ht, rfl, rfl, rfl⟩
    obtain ⟨fuel, s, hs, hobs⟩ := exists_evaluation_of_run ht
    injection hobs with hmemory hrest
    injection hrest with hsink hsteps
    exact ⟨fuel, s, hs, hmemory.symm, hsink.symm, hsteps.symm⟩

end BoundedC.Interpreter
