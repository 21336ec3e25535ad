import BoundedC.Compile
import BoundedC.Proofs.Composition
import BoundedC.Proofs.StackDiscipline
import BoundedC.Session

/-!
# Runs do not influence each other

Whatever a session has gone through, its next run is the run of a new session. The sink goes on behind
what was written, which no effect can see as long as the sink never fails. The place of the last
statement could be seen in a report, but the first job of a run is a statement, or else the end of an
empty body, which cannot fail.

* `Session.run_eq` : the runs of sessions are the runs of the interpreter;
* `Session.finish_behind` : what was written before does not matter;
* `Session.finish_enter` : the last statement does not matter where a body begins;
* `run_after_history` : the next run after any history.
-/

namespace BoundedC

open Effect Interpreter

namespace Session

variable {i : Interpreter} {s : Session} {earlier : Array UInt8}

/-! ## Sessions and runs -/

/-- The kind of the error, or the exit value. -/
abbrev kindOf (r : Except Stop Int32) : Except (Option String) Int32 := r.mapError Stop.kind?

theorem kind_report (job : Job) (last : Location) (e : Stop) :
    (job.report last e).kind? = e.kind? := by
  cases e with
  | failure e => cases e <;> rfl
  | abort => rfl

theorem exists_job {m : Machine} {t : ProgramState} (h : Above Bottom m t) :
    ∃ job, m.pending.jobs.top? = some job := by
  obtain ⟨⟨own, operands, a⟩, jobs, _, _, _, -, hbody, htop⟩ := h
  cases own with
  | nil => exact hbody.demand.elim
  | cons job rest =>
    rw [htop.machine]
    exact ⟨job, rfl⟩

/-- A session does the jobs of a machine as a run does them. -/
theorem finish_eq {m : Machine} {t : ProgramState} (h : Above Bottom m t) (last : Location)
    (fuel : Nat) :
    (finish i fuel ⟨m, t, last, none⟩).map (fun r => (kindOf r.1, r.2.state)) =
      match i.advance fuel (.underWay m t) with
      | .ended r u => some (kindOf r, u)
      | .underWay .. => none := by
  obtain ⟨job, hjob⟩ := exists_job h
  induction fuel generalizing m t last job with
  | zero => exact congrArg (Option.map _) (finish_zero hjob)
  | succ fuel ih =>
    rw [finish_succ hjob, advance_succ, next, step]
    dsimp only
    rcases hstep : (i.step m).run t with ⟨e | progress, u⟩
    · rw [Run.ofStep, advance_ended]
      exact congrArg (fun kind => some (Except.error kind, u)) (kind_report job _ e)
    · cases progress with
      | running m' =>
        have h' := h.step_bottom hstep
        obtain ⟨job', hjob'⟩ := exists_job h'
        exact ih h' _ job' hjob'
      | exited code =>
        rw [Run.ofStep, advance_ended]
        exact congrArg (Option.map _) (finish_of_none rfl fuel)

/-- The runs of a session are the runs of the interpreter that write to its sink, but for the place at
which faults of the stacks are reported. -/
theorem run_eq (i : Interpreter) (s : Session) (fuel : Nat) (args : List (List UInt8)) :
    (s.run i fuel args).map (fun r => (kindOf r.1, r.2.state)) =
      (i.run fuel args s.state.sink).map fun r => (kindOf r.1, r.2) := by
  have hstate : s.reset.state = .fresh s.state.sink := rfl
  unfold run Interpreter.run
  dsimp only
  rw [hstate]
  rcases hmain : (i.enterMain args).run (.fresh s.state.sink) with ⟨e | main, t⟩
  · have hbegin : i.begin args s.state.sink = .ended (.error e) t := by rw [begin, hmain]
    rw [hbegin, advance_ended]
    rfl
  · have hbegin : i.begin args s.state.sink = .underWay (.enter main .empty []) t := by
      rw [begin, hmain]
    rw [hbegin]
    refine (finish_eq (above_begin hbegin) s.last fuel).trans ?_
    cases i.advance fuel (.underWay (.enter main .empty []) t) <;> rfl

/-! ## What was written before -/

/-- The session as it would be if some bytes had been written before. -/
def behind (earlier : Array UInt8) (s : Session) : Session :=
  { s with state := s.state.behind earlier }

theorem step_behind (job : Job) (earlier : Array UInt8) (hs : s.state.sink.capacity = none) :
    (s.behind earlier).step i job = Prod.map id (behind earlier) (s.step i job) ∧
      (s.step i job).2.state.sink.capacity = none := by
  obtain ⟨hrun, hcapacity⟩ := (composed_step i s.machine).run_behind earlier hs
  have hmachine : (s.behind earlier).machine = s.machine := rfl
  have hstate : (s.behind earlier).state = s.state.behind earlier := rfl
  unfold step
  rw [hmachine, hstate, hrun]
  rcases hstep : (i.step s.machine).run s.state with ⟨e | progress, t⟩
  · rw [hstep] at hcapacity
    exact ⟨rfl, hcapacity⟩
  · rw [hstep] at hcapacity
    cases progress <;> exact ⟨rfl, hcapacity⟩

/-- With other bytes written before, a run comes out as it does, behind them. -/
theorem finish_behind (earlier : Array UInt8) (fuel : Nat) {s : Session}
    (hs : s.state.sink.capacity = none) :
    finish i fuel (s.behind earlier) = (finish i fuel s).map (Prod.map id (behind earlier)) ∧
      ∀ r ∈ finish i fuel s, r.2.state.sink.capacity = none := by
  have htop : (s.behind earlier).machine.pending.jobs.top? = s.machine.pending.jobs.top? := rfl
  cases hjob : s.machine.pending.jobs.top? with
  | none =>
    rw [finish_of_none hjob, finish_of_none (htop.trans hjob)]
    refine ⟨rfl, ?_⟩
    rintro _ ⟨⟩
    exact hs
  | some job =>
    cases fuel with
    | zero =>
      rw [finish_zero hjob, finish_zero (htop.trans hjob)]
      refine ⟨rfl, ?_⟩
      rintro _ ⟨⟩
    | succ fuel =>
      obtain ⟨hstep, hcapacity⟩ := step_behind (i := i) job earlier hs
      rw [finish_succ hjob, finish_succ (htop.trans hjob), hstep]
      rcases hrun : s.step i job with ⟨e | _, t⟩
      · rw [hrun] at hcapacity
        refine ⟨rfl, ?_⟩
        rintro _ ⟨⟩
        exact hcapacity
      · rw [hrun] at hcapacity
        exact finish_behind earlier fuel hcapacity

/-! ## Which statement was the last one -/

/-- The end of an empty body, right after the call began, cannot fail. -/
theorem run_step_enter {f : Function} {t : ProgramState} {a : Activation} {callers : List Activation}
    (hbody : f.body = []) (ht : t.calls.items = a :: callers) :
    ∃ u, (i.step (.enter f .empty [])).run t = (.ok (.exited 0), u) := by
  have hstep : i.step (.enter f .empty []) =
      Interpreter.giveBack none f.place .empty [Pending.empty.heights] := by
    unfold Machine.enter
    rw [hbody]
    rfl
  rw [hstep, Interpreter.giveBack, leaveCall, run_bind, run_bind_of_ok (run_popCall_of_cons f.place ht)]
  exact ⟨_, rfl⟩

/-- What an outcome shows: the result, the memory, the count of statements, and all that was written. -/
def shown (outcome : Except Stop Int32 × Session) :
    Except Stop Int32 × Arena × Nat × List UInt8 :=
  (outcome.1, outcome.2.state.memory, outcome.2.state.steps, outcome.2.written)

/-- Where a body begins, the last statement does not matter. -/
theorem finish_enter (f : Function) {t : ProgramState} {a : Activation} {callers : List Activation}
    (ht : t.calls.items = a :: callers) (last last' : Location) (fuel : Nat) :
    (finish i fuel ⟨.enter f .empty [], t, last, none⟩).map shown =
      (finish i fuel ⟨.enter f .empty [], t, last', none⟩).map shown := by
  cases hbody : f.body with
  | nil =>
    have hjob : (Machine.enter f .empty []).pending.jobs.top? = some (.bodyEnd f.place) := by
      unfold Machine.enter
      rw [hbody]
      rfl
    cases fuel with
    | zero => rw [finish_zero hjob, finish_zero hjob]
    | succ fuel =>
      obtain ⟨u, hu⟩ := run_step_enter (i := i) hbody ht
      have hidle : (idle.pending.jobs.top? : Option Job) = none := rfl
      rw [finish_succ hjob, finish_succ hjob, step, step]
      dsimp only
      rw [hu]
      dsimp only
      rw [finish_of_none hidle, finish_of_none hidle]
      rfl
  | cons node rest =>
    have hjob : (Machine.enter f .empty []).pending.jobs.top? = some (.execute node) := by
      unfold Machine.enter
      rw [hbody]
      rfl
    cases fuel with
    | zero => rw [finish_zero hjob, finish_zero hjob]
    | succ fuel =>
      -- the first statement takes the place of the last one
      rw [finish_succ hjob, finish_succ hjob]
      rfl

/-! ## The next run -/

/-- Once `main` has been entered there is a call. -/
theorem calls_of_enterMain {args : List (List UInt8)} {main : Function} {t u : ProgramState}
    (h : (i.enterMain args).run t = (.ok main, u)) : ∃ a callers, u.calls.items = a :: callers := by
  obtain ⟨-, values, v, -, henter⟩ := run_enterMain_eq_ok h
  obtain ⟨-, a, w, -, rfl⟩ := run_enterCall_eq_ok henter
  exact ⟨a, _, rfl⟩

/-- With other bytes written before, a run comes out as it does, behind them. -/
theorem run_behind (earlier : Array UInt8) (hs : s.state.sink.capacity = none) (fuel : Nat)
    (args : List (List UInt8)) :
    (s.behind earlier).run i fuel args = (s.run i fuel args).map (Prod.map id (behind earlier)) ∧
      ∀ r ∈ s.run i fuel args, r.2.state.sink.capacity = none := by
  have hcomposed : Effect.Composed False true (i.enterMain args) := composed_enterMain i args
  obtain ⟨hmain, hcapacity⟩ := hcomposed.run_behind earlier (s := s.reset.state) hs
  have hfresh : (s.behind earlier).reset.state = s.reset.state.behind earlier := rfl
  unfold run
  dsimp only
  rw [hfresh, hmain]
  rcases hrun : (i.enterMain args).run s.reset.state with ⟨e | main, t⟩
  · rw [hrun] at hcapacity
    refine ⟨rfl, ?_⟩
    rintro _ ⟨⟩
    exact hcapacity
  · rw [hrun] at hcapacity
    exact finish_behind earlier fuel (s := { s.reset with machine := .enter main .empty [], state := t })
      hcapacity

/-- Of all that a session holds, the next run sees the sink only. -/
theorem run_shown {s s' : Session} (h : s'.state.sink = s.state.sink) (fuel : Nat)
    (args : List (List UInt8)) : (s'.run i fuel args).map shown = (s.run i fuel args).map shown := by
  have hfresh : s'.reset.state = s.reset.state := congrArg ProgramState.fresh h
  unfold run
  dsimp only
  rw [hfresh]
  rcases hrun : (i.enterMain args).run s.reset.state with ⟨e | main, t⟩
  · rfl
  · obtain ⟨a, callers, hcalls⟩ := calls_of_enterMain hrun
    exact finish_enter main hcalls s'.last s.last fuel

/-! ## After a history -/

theorem capacity_after {history : List (Nat × List (List UInt8))}
    (hs : s.state.sink.capacity = none) {t : Session} (h : s.after i history = some t) :
    t.state.sink.capacity = none := by
  induction history generalizing s with
  | nil =>
    cases h
    exact hs
  | cons entry rest ih =>
    obtain ⟨ended, hrun, h⟩ := Option.bind_eq_some_iff.1 h
    exact ih ((run_behind #[] hs entry.1 entry.2).2 ended hrun) h

end Session

open Session

/-- Runs do not influence each other. Whatever a session has gone through, runs with any arguments that
have ended with an exit value or at an error, the next run comes out as that of a new session: with the
same result, memory and count of statements, and with the same bytes behind those written before. The
sink is one that never fails. -/
theorem run_after_history (i : Interpreter) (history : List (Nat × List (List UInt8))) (s : Session)
    (h : (create .unlimited).after i history = some s) (fuel : Nat) (args : List (List UInt8)) :
    (s.run i fuel args).map shown = ((create .unlimited).run i fuel args).map fun ended =>
      (ended.1, ended.2.state.memory, ended.2.state.steps, s.written ++ ended.2.written) := by
  have hcapacity : s.state.sink.capacity = none := capacity_after rfl h
  have hsink : s.state.sink = ((create .unlimited).behind s.state.sink.written).state.sink := by
    show s.state.sink = ⟨s.state.sink.written ++ #[], none⟩
    rw [Array.append_empty, ← hcapacity]
  rw [run_shown hsink, (run_behind _ rfl fuel args).1, Option.map_map]
  refine congrArg (Option.map · _) (funext fun ended => ?_)
  simp [shown, behind, written, ProgramState.behind]

/-- A program that divides by the number of its arguments. -/
def divisionByCount : String :=
  "int f(int n) \x7b return 6 / n; \x7d int main(int n) \x7b print(\"a\", 1); return f(n); \x7d"

/-- After a run that has divided by zero and left two calls behind, a run with two arguments comes out as
in a new session. -/
theorem exists_run_after_failure :
    ∃ program s, compile divisionByCount = .ok program ∧
      (create .unlimited).after (.ofProgram program .default) [(40, [])] = some s ∧
      s.state.calls.height = 2 ∧
      (s.run (.ofProgram program .default) 40 [[], []]).map shown =
        ((create .unlimited).run (.ofProgram program .default) 40 [[], []]).map fun ended =>
          (ended.1, ended.2.state.memory, ended.2.state.steps, s.written ++ ended.2.written) := by
  have hafter : ((compile divisionByCount).toOption.bind fun program =>
      ((create .unlimited).after (.ofProgram program .default) [(40, [])]).map
        (·.state.calls.height)) = some 2 := by decide +kernel
  obtain ⟨program, hprogram, hafter⟩ := Option.bind_eq_some_iff.1 hafter
  obtain ⟨s, hs, hheight⟩ := Option.map_eq_some_iff.1 hafter
  have hcompile : compile divisionByCount = .ok program := eq_ok_of_toOption hprogram
  exact ⟨program, s, hcompile, hs, hheight, run_after_history _ _ s hs 40 [[], []]⟩

end BoundedC
