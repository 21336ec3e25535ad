import BoundedC.Run
import BoundedC.Proofs.Callers

/-!
# Runs that follow a direct evaluation

A run of the machine follows a direct evaluation (`Interpreter.Follows`) if it does what the outcome
of the evaluation says: it reaches a given run where the evaluation succeeds, fails where it fails,
and stays under way for a number of jobs where the evaluation runs out of fuel. The relation is
built up along the evaluation:

* `Follows.bind` : one evaluation after the other;
* `Follows.step` : the machine does a job of its own;
* `Follows.ofStep` : machine and evaluation have the same effect.

`Run.after` is where the machine stands once a statement has completed.
-/

namespace BoundedC

/-- What is seen of a state when a run has ended: memory, output and the number of statements. -/
def ProgramState.observed (s : ProgramState) : Arena × Sink × Nat := (s.memory, s.sink, s.steps)

/-- A run under way, by its two stacks and the beginnings of its calls. -/
abbrev Run.working (jobs : Stack Job) (operands : Stack Value) (bases : List Heights)
    (s : ProgramState) : Run := .underWay ⟨⟨jobs, operands⟩, bases⟩ s

namespace Interpreter

variable {α β γ : Type} {i : Interpreter} {n : Nat}

/-- The run `r` does what the outcome of an evaluation says. After success it is the run `k` of the
value and the state; after a failure it has ended with the same error and shows the same; without
fuel it is still under way after `n` jobs. -/
def Follows (i : Interpreter) (n : Nat) (k : α → ProgramState → Run) (r : Run) :
    Option (Except Stop α × ProgramState) → Prop
  | none => ∃ m s, i.advance n r = .underWay m s
  | some (.ok a, s) => ∃ steps, i.advance steps r = k a s
  | some (.error e, s) =>
    ∃ steps t, i.advance steps r = .ended (.error e) t ∧ t.observed = s.observed

/-- A run that is under way was so before. -/
theorem underWay_of_le {m : Nat} (hmn : m ≤ n) {r : Run} {c : Machine} {s : ProgramState}
    (h : i.advance n r = .underWay c s) : ∃ d t, i.advance m r = .underWay d t := by
  cases hr : i.advance m r with
  | underWay d t => exact ⟨d, t, rfl⟩
  | ended result t =>
    obtain ⟨k, rfl⟩ := Nat.exists_eq_add_of_le hmn
    rw [advance_add, hr, advance_ended] at h
    cases h

theorem Follows.of_advance {k : α → ProgramState → Run} {r : Run}
    {o : Option (Except Stop α × ProgramState)} (steps : Nat)
    (h : i.Follows n k (i.advance steps r) o) : i.Follows n k r o := by
  rcases o with _ | ⟨e | a, s⟩
  · obtain ⟨m, s, h⟩ := h
    rw [← advance_add] at h
    exact underWay_of_le (Nat.le_add_left n steps) h
  · obtain ⟨k, t, h, ht⟩ := h
    exact ⟨steps + k, t, by rw [advance_add, h], ht⟩
  · obtain ⟨k, h⟩ := h
    exact ⟨steps + k, by rw [advance_add, h]⟩

/-- The machine does a job of its own, while the evaluation goes on. -/
theorem Follows.step {k : α → ProgramState → Run} {c : Machine} {s : ProgramState} {r : Run}
    {o : Option (Except Stop α × ProgramState)} (hr : i.next (.underWay c s) = r)
    (h : i.Follows (n - 1) k r o) : i.Follows n k (.underWay c s) o := by
  rcases o with _ | ⟨e | a, t⟩
  · cases n with
    | zero => exact ⟨c, s, rfl⟩
    | succ n =>
      obtain ⟨d, t, h⟩ := h
      refine ⟨d, t, ?_⟩
      rw [advance_succ, hr]
      exact h
  · obtain ⟨m, u, h, hu⟩ := h
    exact ⟨m + 1, u, by rw [advance_succ, hr, h], hu⟩
  · obtain ⟨m, h⟩ := h
    exact ⟨m + 1, by rw [advance_succ, hr, h]⟩

/-- Evaluations one after the other. -/
theorem Follows.bind {x : Evaluation α} {f : α → Evaluation β} {k : α → ProgramState → Run}
    {l : β → ProgramState → Run} {r : Run} {s : ProgramState} (hx : i.Follows n k r (x.run s))
    (hf : ∀ a t, x.run s = some (.ok a, t) → i.Follows n l (k a t) ((f a).run t)) :
    i.Follows n l r ((x >>= f).run s) := by
  rw [Evaluation.run_bind]
  rcases hs : x.run s with _ | ⟨e | a, t⟩
  · rw [hs] at hx
    exact hx
  · rw [hs] at hx
    exact hx
  · rw [hs] at hx
    obtain ⟨steps, hsteps⟩ := hx
    refine .of_advance steps ?_
    rw [hsteps]
    exact hf a t hs

/-- The machine and the evaluation begin with the same effect. -/
theorem Follows.ofStep {x : Effect α} {g : α → Effect Progress} {f : α → Evaluation β}
    {k : β → ProgramState → Run} {s : ProgramState}
    (hf : ∀ a t, x.run s = (.ok a, t) → i.Follows n k (.ofStep ((g a).run t)) ((f a).run t)) :
    i.Follows n k (.ofStep ((x >>= g).run s)) ((Evaluation.ofEffect x >>= f).run s) := by
  rw [Evaluation.run_bind, Evaluation.run_ofEffect, Effect.run_bind]
  rcases hs : x.run s with ⟨e | a, t⟩
  · exact ⟨0, t, rfl, rfl⟩
  · exact hf a t hs

/-- The machine and the evaluation have the same effect, and the machine is where it should be. -/
theorem Follows.ofEffect {x : Effect α} {m : α → Machine} {s : ProgramState} :
    i.Follows n (fun a t => .underWay (m a) t)
      (.ofStep ((x >>= fun a => Pure.pure (Progress.running (m a)) : Effect Progress).run s))
      ((Evaluation.ofEffect x).run s) := by
  rw [Evaluation.run_ofEffect, Effect.run_bind]
  rcases x.run s with ⟨e | a, t⟩
  · exact ⟨0, t, rfl, rfl⟩
  · exact ⟨0, rfl⟩

/-- The machine's next job has the effect that the evaluation ends with. -/
theorem Follows.finish {x : Effect α} {m : α → Machine} {job : Job} {jobs : Stack Job}
    {operands : Stack Value} {bases : List Heights} {s : ProgramState}
    (h : i.perform job ⟨jobs, operands⟩ bases = x >>= fun a => Pure.pure (Progress.running (m a))) :
    i.Follows n (fun a t => .underWay (m a) t) (.working (jobs.push job) operands bases s)
      ((Evaluation.ofEffect x).run s) := by
  refine .step rfl ?_
  change i.Follows _ _ (.ofStep ((i.perform job ⟨jobs, operands⟩ bases).run s)) _
  rw [h]
  exact .ofEffect

/-- The machine's next job changes nothing but the machine. -/
theorem Follows.job {k : α → ProgramState → Run} {m : Machine} {job : Job} {jobs : Stack Job}
    {operands : Stack Value} {bases : List Heights} {s : ProgramState}
    {o : Option (Except Stop α × ProgramState)}
    (hp : i.perform job ⟨jobs, operands⟩ bases = Pure.pure (Progress.running m))
    (h : i.Follows (n - 1) k (.underWay m s) o) :
    i.Follows n k (.working (jobs.push job) operands bases s) o := by
  refine .step rfl ?_
  change i.Follows _ _ (.ofStep ((i.perform job ⟨jobs, operands⟩ bases).run s)) _
  rw [hp]
  exact h

/-- The machine's next job begins with the effect that the evaluation begins with. -/
theorem Follows.begin {x : Effect α} {g : α → Effect Progress} {f : α → Evaluation β}
    {k : β → ProgramState → Run} {job : Job} {jobs : Stack Job} {operands : Stack Value}
    {bases : List Heights} {s : ProgramState}
    (hp : i.perform job ⟨jobs, operands⟩ bases = x >>= g)
    (hf : ∀ a t, x.run s = (.ok a, t) →
      i.Follows (n - 1) k (.ofStep ((g a).run t)) ((f a).run t)) :
    i.Follows n k (.working (jobs.push job) operands bases s)
      ((Evaluation.ofEffect x >>= f).run s) := by
  refine .step rfl ?_
  change i.Follows _ _ (.ofStep ((i.perform job ⟨jobs, operands⟩ bases).run s)) _
  rw [hp]
  exact .ofStep hf

/-- One job further, by what the job does. -/
theorem next_working (job : Job) (jobs : Stack Job) (operands : Stack Value)
    (bases : List Heights) (s : ProgramState) :
    i.next (.working (jobs.push job) operands bases s) =
      .ofStep ((i.perform job ⟨jobs, operands⟩ bases).run s) := rfl

end Interpreter

/-! ## Behind a statement -/

/-- The run that goes on behind a statement with the given completion. -/
def Run.after (jobs : Stack Job) (operands : Stack Value) (bases : List Heights) :
    Completion → ProgramState → Run
  | .normal, s => .working jobs operands bases s
  | .broke place, s =>
    .ofStep ((do return .running ⟨← Pending.leaveLoop place ⟨jobs, operands⟩, bases⟩ :
      Effect Progress).run s)
  | .continued place, s =>
    .ofStep ((do return .running ⟨← Pending.continueLoop place ⟨jobs, operands⟩, bases⟩ :
      Effect Progress).run s)
  | .returned v place, s =>
    .ofStep ((do
      Effect.releaseAll (← Effect.popCall place).owned
      Interpreter.resume v place ⟨jobs, operands⟩ bases : Effect Progress).run s)

def Completion.skips : Completion → Job → Bool
  | normal, _ => false
  | _, .closeScope _ | _, .bodyEnd _ => false
  | broke _, job => !job.isLoopEnd
  | continued _, job => !job.isContinueTarget
  | returned .., _ => true

/-- What a `break` passes over, a `return` passes over as well. -/
theorem Completion.skips_of_broke {place : Location} {job : Job}
    (h : (broke place).skips job = true) (v : Value) (p : Location) :
    (returned v p).skips job = true := by
  cases job with
  | closeScope | bodyEnd => cases h
  | _ => rfl

namespace Pending

variable {place : Location} {isTarget : Job → Bool} {job : Job}

theorem unwindTo_push_of_skips (hscope : ∀ p, job ≠ .closeScope p) (hend : ∀ p, job ≠ .bodyEnd p)
    (ht : isTarget job = false) (jobs : Stack Job) (operands : Stack Value) :
    unwindTo place isTarget ⟨jobs.push job, operands⟩ = unwindTo place isTarget ⟨jobs, operands⟩ := by
  unfold unwindTo
  rw [Stack.items_push, unwind_cons hscope hend, ht, if_neg Bool.false_ne_true, Stack.pop_push]

end Pending

namespace Run

variable {jobs : Stack Job} {operands : Stack Value} {base : Heights} {bases : List Heights}

/-- The end of a call does not depend on the jobs that the call leaves behind. -/
theorem after_returned_push (v : Value) (place : Location) (job : Job)
    (hbase : base.jobs ≤ jobs.height) (s : ProgramState) :
    after (jobs.push job) operands (base :: bases) (.returned v place) s =
      after jobs operands (base :: bases) (.returned v place) s := by
  cases bases with
  | nil => rfl
  | cons caller bases =>
    simp only [after, Interpreter.resume, Pending.cutTo, Stack.cutTo_push hbase]

/-- A `break` goes on behind its loop. -/
theorem after_broke_loopEnd (place : Location) (s : ProgramState) :
    after (jobs.push .loopEnd) operands bases (.broke place) s =
      .working jobs operands bases s := by
  simp [after, Pending.leaveLoop, Pending.unwindTo, Pending.unwind, Job.isLoopEnd, ofStep,
    Stack.pop_push]

/-- A `continue` goes on behind the body of its loop. -/
theorem after_continued_continueTarget (place : Location) (s : ProgramState) :
    after (jobs.push .continueTarget) operands bases (.continued place) s =
      .working jobs operands bases s := by
  simp [after, Pending.continueLoop, Pending.unwindTo, Pending.unwind, Job.isContinueTarget, ofStep,
    Stack.pop_push]

/-- What a completion passes over makes no difference. -/
theorem after_push_of_skips {c : Completion} {job : Job} (h : c.skips job = true)
    (hbase : base.jobs ≤ jobs.height) (s : ProgramState) :
    after (jobs.push job) operands (base :: bases) c s =
      after jobs operands (base :: bases) c s := by
  have hscope (p : Location) : job ≠ .closeScope p := by
    rintro rfl
    cases c <;> simp [Completion.skips] at h
  have hend (p : Location) : job ≠ .bodyEnd p := by
    rintro rfl
    cases c <;> simp [Completion.skips] at h
  cases c with
  | normal => simp [Completion.skips] at h
  | broke place =>
    have ht : job.isLoopEnd = false := by
      cases job <;> simp_all [Completion.skips]
    simp only [after, Pending.leaveLoop]
    rw [Pending.unwindTo_push_of_skips hscope hend ht]
  | continued place =>
    have ht : job.isContinueTarget = false := by
      cases job <;> simp_all [Completion.skips]
    simp only [after, Pending.continueLoop]
    rw [Pending.unwindTo_push_of_skips hscope hend ht]
  | returned v place => exact after_returned_push v place job hbase s

theorem after_pushAll_of_skips {c : Completion} {skipped : List Job}
    (h : ∀ job ∈ skipped, c.skips job = true) (hbase : base.jobs ≤ jobs.height)
    (s : ProgramState) :
    after (jobs.pushAll skipped) operands (base :: bases) c s =
      after jobs operands (base :: bases) c s := by
  induction skipped with
  | nil => rw [Stack.pushAll_nil]
  | cons job skipped ih =>
    rw [Stack.pushAll_cons, after_push_of_skips (h job List.mem_cons_self)
      (Nat.le_trans hbase (Nat.le_add_right _ _)), ih fun j hj => h j (List.mem_cons_of_mem _ hj)]

end Run

namespace Interpreter

open Effect Evaluation

variable {i : Interpreter} {n : Nat} {jobs : Stack Job} {operands : Stack Value} {base : Heights}
  {bases : List Heights} {s : ProgramState}

/-- A scope is closed whichever way its statement is left: by its own job, by the loop control that
passes it, or together with all scopes of the call. -/
theorem follows_closeScope (place : Location) (c : Completion) (hs : s.calls.items ≠ [])
    (hbase : base.jobs ≤ jobs.height) :
    i.Follows n (.after jobs operands (base :: bases))
      (.after (jobs.push (.closeScope place)) operands (base :: bases) c s)
      ((do ofEffect (closeScope place); return c : Evaluation Completion).run s) := by
  obtain ⟨a, callers, ha⟩ := List.exists_cons_of_ne_nil hs
  have hclose (p : Location) := run_closeScope_of_cons p ha
  rw [Evaluation.run_bind, run_ofEffect, hclose]
  have unwound (p : Location) (isTarget : Job → Bool) :
      (do return .running ⟨← Pending.unwindTo p isTarget ⟨jobs.push (.closeScope place), operands⟩,
        base :: bases⟩ : Effect Progress).run s =
      (do return .running ⟨← Pending.unwindTo p isTarget ⟨jobs, operands⟩, base :: bases⟩ :
        Effect Progress).run ⟨s.memory.releaseAll a.innermost.buffers,
          s.calls.modifyTop Activation.closeScope, s.sink, s.steps⟩ := by
    simp only [Pending.unwindTo, Stack.items_push, Pending.unwind, bind_assoc, Stack.pop_push]
    rw [run_bind_of_ok (hclose p)]
  cases c with
  | normal =>
    have hp : i.perform (.closeScope place) ⟨jobs, operands⟩ (base :: bases) =
        closeScope place >>= fun _ => pure (.running ⟨⟨jobs, operands⟩, base :: bases⟩) := by
      simp [perform]
    refine ⟨1, ?_⟩
    change i.next (.working (jobs.push _) operands _ s) = _
    rw [next_working, hp, run_bind_of_ok (hclose place)]
    rfl
  | broke p => exact ⟨0, congrArg Run.ofStep (unwound p _)⟩
  | continued p => exact ⟨0, congrArg Run.ofStep (unwound p _)⟩
  | returned v p =>
    refine ⟨0, ?_⟩
    have ht : (s.calls.modifyTop Activation.closeScope).items = a.closeScope :: callers :=
      Stack.items_modifyTop_of_cons ha _
    change Run.after (jobs.push _) operands _ _ _ = _
    rw [Run.after_returned_push v p _ hbase]
    simp only [Run.after]
    rw [run_bind_of_ok (run_popCall_of_cons p ha), run_bind_of_ok (run_popCall_of_cons p ht),
      run_bind_of_ok (run_releaseAll ..), run_bind_of_ok (run_releaseAll ..)]
    simp only [Stack.pop_modifyTop, Activation.owned_closeScope a, Arena.releaseAll_append]

end Interpreter

end BoundedC
