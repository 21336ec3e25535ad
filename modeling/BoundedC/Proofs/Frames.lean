import BoundedC.Proofs.Demand

/-!
# The frames of a machine

A `Frame` is the part of a machine that belongs to one call: its jobs, its operands and its
activation. The frames of the callers lie below, each with the demand for one more operand, the
result of the call above it (`Awaiting`).

* `Frame.step_expression`, `Frame.step_body`, `Frame.step_endsCall` : what one job does to the
  latest frame;
* `Above.step` : a machine whose frames above some ground are sound stays like that, until the first
  of them leaves its result to the ground;
* `Above.reworks` : what one job does to all jobs and to the state.
-/

namespace BoundedC

open Effect Interpreter

/-- What belongs to one call. -/
structure Frame where
  jobs : List Job
  operands : List Value
  activation : Activation

/-- What a job makes of the jobs from itself on and of the state: it puts others in its place and
adds to the state, or it drops some of those behind it and takes away from the state. -/
inductive Reworks : List Job → ProgramState → List Job → ProgramState → Prop
  | adds {job : Job} {rest : List Job} {s t : ProgramState} (new : List Job)
      (hends : job.endsScope = false) (hstate : Gains s t) :
      Reworks (job :: rest) s (new ++ rest) t
  | drops {job : Job} {rest rest' : List Job} {s t : ProgramState} (hjobs : rest' <:+ rest)
      (hstate : Losses s t) : Reworks (job :: rest) s rest' t

/-- It is the same with other jobs below. -/
theorem Reworks.append {own own' : List Job} {s t : ProgramState} (h : Reworks own s own' t)
    (below : List Job) : Reworks (own ++ below) s (own' ++ below) t := by
  cases h with
  | adds new hends hstate =>
    rw [List.append_assoc]
    exact .adds new hends hstate
  | drops hjobs hstate =>
    obtain ⟨dropped, rfl⟩ := hjobs
    rw [List.cons_append, List.append_assoc]
    exact .drops (List.suffix_append _ _) hstate

namespace Frame

/-- The frame is the latest one of the machine. The stacks are those of the callers. -/
structure OnTop (f : Frame) (jobs : Stack Job) (operands : Stack Value) (bases : List Heights)
    (callers : List Activation) (m : Machine) (s : ProgramState) : Prop where
  machine : m = ⟨⟨jobs.pushAll f.jobs, operands.pushAll f.operands⟩, bases⟩
  calls : s.calls.items = f.activation :: callers

/-- The jobs find their operands, and each open scope beyond the first ones has a job that closes
it. -/
structure Sound (goal : List Value → Prop) (depth : Nat) (f : Frame) : Prop where
  demand : Demand goal f.jobs f.operands
  scopes : f.activation.scopes.length = depth + 1 + f.jobs.countP Job.isCloseScope

/-- The frame of a call. Its jobs come to the end of a body. -/
abbrev Body (f : Frame) : Prop := f.Sound (fun _ => False) 0

/-- The frame is sound as soon as it gets one more operand. -/
def Suspended (goal : List Value → Prop) (depth : Nat) (f : Frame) : Prop :=
  ∀ v, Sound goal depth { f with operands := v :: f.operands }

def IsExpression (f : Frame) : Prop := ∀ job ∈ f.jobs, job.gives.isSome

/-- What a job that does not end the call makes of its frame. -/
inductive Next (goal : List Value → Prop) (depth : Nat) (jobs : Stack Job) (operands : Stack Value)
    (bases : List Heights) (callers : List Activation) (f : Frame) (s : ProgramState) (m : Machine)
    (t : ProgramState) : Prop
  | stays (g : Frame) (top : g.OnTop jobs operands bases callers m t) (sound : g.Sound goal depth)
      (expr : f.IsExpression → g.IsExpression) (reworks : Reworks f.jobs s g.jobs t)
  | enters (g callee : Frame) (suspended : g.Suspended goal depth)
      (expr : f.IsExpression → g.IsExpression) (body : callee.Body)
      (top : callee.OnTop (jobs.pushAll g.jobs) (operands.pushAll g.operands)
        (⟨(jobs.pushAll g.jobs).height, (operands.pushAll g.operands).height⟩ :: bases)
        (g.activation :: callers) m t)
      (reworks : Reworks f.jobs s (callee.jobs ++ g.jobs) t)

variable {i : Interpreter} {goal : List Value → Prop} {depth : Nat} {jobs : Stack Job}
  {operands : Stack Value} {bases : List Heights} {callers : List Activation} {m m' : Machine}
  {s s' : ProgramState} {job : Job} {rest : List Job} {own : List Value} {a : Activation}

/-- The next job of a machine, by its latest frame. -/
theorem OnTop.step_eq (h : OnTop ⟨job :: rest, own, a⟩ jobs operands bases callers m s) :
    i.step m = i.perform job ⟨jobs.pushAll rest, operands.pushAll own⟩ bases := by
  rw [h.machine, Stack.pushAll_cons]
  rfl

/-- A job that puts jobs and operands in its place. -/
theorem next_of_works {f : Frame} {taken below : List Value} {x : Effect Pending}
    (hf : f = ⟨job :: rest, taken ++ below, a⟩) (h : f.OnTop jobs operands bases callers m s)
    (hsound : f.Sound goal depth) (hends : job.endsScope = false)
    (hawaits : Awaits goal rest below job.gives)
    (hx : Works job.gives (jobs.pushAll rest) (operands.pushAll below) x)
    (hstep : (do return Progress.running ⟨← x, bases⟩ : Effect Progress).run s =
      (.ok (.running m'), s')) :
    f.Next goal depth jobs operands bases callers s m' s' := by
  subst hf
  obtain ⟨p, u, hp, hm⟩ := run_bind_eq_ok_iff.1 hstep
  cases hm
  obtain ⟨new, out, rfl, ⟨hexpr, hcarry⟩, hgrows, hgains⟩ := hx hp
  have hscopes := hsound.scopes
  rw [List.countP_cons_of_neg (by simp [(Job.not_endsScope hends).1])] at hscopes
  have hne : a.scopes ≠ [] := by
    rw [← List.length_pos_iff, hscopes]
    omega
  obtain ⟨b, hb, hlen⟩ := hgrows a callers h.calls hne
  refine .stays ⟨new ++ rest, out ++ below, b⟩ ⟨?_, hb⟩ ⟨hcarry goal rest below hawaits, ?_⟩ ?_
    (.adds new hends hgains)
  · rw [Stack.pushAll_append, Stack.pushAll_append]
  · rw [List.countP_append, hlen, hscopes]
    omega
  · intro hall j hj
    rcases List.mem_append.1 hj with hj | hj
    · exact hexpr (hall job List.mem_cons_self) j hj
    · exact hall j (List.mem_cons_of_mem _ hj)

/-- The frame of a function that is about to execute its body. -/
theorem body_enter {limits : Limits} {f : Function} {args : List Value}
    {callSite : Option Location} {s t : ProgramState} {u : Unit}
    (h : (enterCall limits f args callSite).run s = (.ok u, t)) (jobs : Stack Job)
    (operands : Stack Value) (bases : List Heights) :
    ∃ g : Frame, g.Body ∧ g.OnTop jobs operands (⟨jobs.height, operands.height⟩ :: bases) s.calls.items
      (.enter f ⟨jobs, operands⟩ bases) t := by
  obtain ⟨-, a, v, hv, rfl⟩ := run_enterCall_eq_ok h
  have hscopes := length_scopes_of_bindParams hv (List.cons_ne_nil _ _)
  refine ⟨⟨f.body.map .execute ++ [.bodyEnd f.place], [], a⟩, ⟨?_, ?_⟩, ⟨rfl, rfl⟩⟩
  · exact .executeAll ⟨[], [], rfl, .nil, rfl, .inl ⟨rfl, rfl⟩⟩
  · rw [hscopes]
    simp [Activation.start, List.countP_eq_zero, Job.isCloseScope]

/-- A call suspends its frame. -/
theorem next_of_call {f : Function} {place : Location}
    (h : OnTop ⟨.call f place :: rest, own, a⟩ jobs operands bases callers m s)
    (hsound : Sound goal depth ⟨.call f place :: rest, own, a⟩)
    (hstep : (i.step m).run s = (.ok (.running m'), s')) :
    Next goal depth jobs operands bases callers ⟨.call f place :: rest, own, a⟩ s m' s' := by
  obtain ⟨taken, below, rfl, ht, hawaits⟩ := hsound.demand.awaits rfl
  have hpop := popMany_of_admits (jobs.pushAll rest) (operands.pushAll below) place ht
  rw [← Stack.pushAll_append] at hpop
  rw [h.step_eq] at hstep
  change (i.call f place ⟨jobs.pushAll rest, operands.pushAll (taken ++ below)⟩ bases).run s = _ at hstep
  rw [call, hpop, pure_bind] at hstep
  obtain ⟨_, u, hu, hm⟩ := run_bind_eq_ok_iff.1 hstep
  cases hm
  obtain ⟨g, hbody, htop⟩ := body_enter hu (jobs.pushAll rest) (operands.pushAll below) bases
  rw [h.calls] at htop
  refine .enters ⟨rest, below, a⟩ g (fun v => ⟨hawaits v trivial, hsound.scopes⟩) ?_ hbody htop
    (.adds g.jobs rfl (gains_enterCall hu))
  exact fun hall j hj => hall j (List.mem_cons_of_mem _ hj)

/-- A job that is done within the call. -/
theorem next_of_isLocal (hlocal : isLocal job)
    (h : OnTop ⟨job :: rest, own, a⟩ jobs operands bases callers m s)
    (hsound : Sound goal depth ⟨job :: rest, own, a⟩)
    (hstep : (i.step m).run s = (.ok (.running m'), s')) :
    Next goal depth jobs operands bases callers ⟨job :: rest, own, a⟩ s m' s' := by
  have hends : job.endsScope = false := by
    cases job with
    | closeScope | bodyEnd => cases hlocal
    | _ => rfl
  obtain ⟨taken, below, rfl, ht, hawaits⟩ := hsound.demand.awaits (Job.not_endsScope hends).2
  obtain ⟨x, hperform, hx⟩ := i.exists_works hlocal ht (jobs.pushAll rest) (operands.pushAll below) bases
  rw [h.step_eq, Stack.pushAll_append, hperform] at hstep
  exact next_of_works rfl h hsound hends hawaits hx hstep

/-- One job of an expression. -/
theorem step_expression (hjob : job.gives.isSome)
    (h : OnTop ⟨job :: rest, own, a⟩ jobs operands bases callers m s)
    (hsound : Sound goal depth ⟨job :: rest, own, a⟩)
    (hstep : (i.step m).run s = (.ok (.running m'), s')) :
    Next goal depth jobs operands bases callers ⟨job :: rest, own, a⟩ s m' s' := by
  by_cases hlocal : isLocal job
  · exact next_of_isLocal hlocal h hsound hstep
  · cases job with
    | call f place => exact next_of_call h hsound hstep
    | execute | closeScope | giveBack | bodyEnd => cases hjob
    | _ => exact absurd rfl hlocal

/-- Loop control goes on behind one of the jobs of its own call. -/
theorem next_of_unwind {place : Location} {isTarget : Job → Bool} {node : Node}
    (h : OnTop ⟨.execute node :: rest, own, a⟩ jobs operands bases callers m s)
    (hbody : Body ⟨.execute node :: rest, own, a⟩)
    (htarget : ∀ job, isTarget job = true → job = .loopEnd ∨ job = .continueTarget)
    (hstep : (do
      countStep i.limits node.place
      let p ← Pending.unwindTo place isTarget ⟨jobs.pushAll rest, operands.pushAll own⟩
      return Progress.running ⟨p, bases⟩ : Effect Progress).run s = (.ok (.running m'), s')) :
    Next (fun _ => False) 0 jobs operands bases callers ⟨.execute node :: rest, own, a⟩ s m' s' := by
  obtain ⟨_, u, hu, hstep⟩ := run_bind_eq_ok_iff.1 hstep
  obtain ⟨p, t, hp, hm⟩ := run_bind_eq_ok_iff.1 hstep
  cases hm
  obtain ⟨remaining, v, hunwind, hp⟩ := run_bind_eq_ok_iff.1 hp
  cases hp
  obtain ⟨taken, below, rfl, ht, rfl, hrest⟩ := hbody.demand.awaits rfl
  cases ht
  obtain ⟨hlosses, skipped, target, rest', rfl, htgt, hskipped, rfl, hcalls⟩ :=
    run_unwind_eq_ok hrest.exists_isBodyEnd hunwind
  have hscopes : a.scopes.length = 0 + 1 + (skipped ++ target :: rest').countP Job.isCloseScope :=
    hbody.scopes
  have hcount : target.isCloseScope = false := by
    rcases htarget target htgt with rfl | rfl <;> rfl
  rw [List.countP_append, List.countP_cons_of_neg (by simp [hcount])] at hscopes
  have hne : a.scopes ≠ [] := by
    rw [← List.length_pos_iff, hscopes]
    omega
  obtain ⟨b, hub, hb⟩ := (changing_countStep _ _ hu).grows a callers h.calls hne
  obtain ⟨c, hc, hlen⟩ := hcalls b callers hub (by omega)
  have hdemand : Demand (fun _ => False) rest' [] := by
    obtain ⟨operands', h'⟩ := hrest.drop hskipped
    rcases htarget target htgt with rfl | rfl
    · obtain ⟨_, _, _, _, _, h'⟩ := h'.awaits rfl
      exact h'
    · obtain ⟨_, _, _, _, _, h'⟩ := h'.awaits rfl
      exact h'
  refine .stays ⟨rest', [], c⟩ ⟨rfl, hc⟩ ⟨hdemand, ?_⟩ (fun hall => ?_)
    (.drops ?_ ((losses_countStep hu).trans hlosses))
  · simp only
    omega
  · exact absurd (hall _ List.mem_cons_self) (by simp [Job.gives])
  · exact ⟨skipped ++ [target], by simp⟩

theorem next_of_closeScope {place : Location}
    (h : OnTop ⟨.closeScope place :: rest, own, a⟩ jobs operands bases callers m s)
    (hbody : Body ⟨.closeScope place :: rest, own, a⟩)
    (hstep : (i.step m).run s = (.ok (.running m'), s')) :
    Next (fun _ => False) 0 jobs operands bases callers ⟨.closeScope place :: rest, own, a⟩ s m' s' := by
  obtain ⟨taken, below, rfl, ht, rfl, hrest⟩ := hbody.demand.awaits rfl
  cases ht
  rw [h.step_eq] at hstep
  obtain ⟨p, t, hp, hm⟩ := run_bind_eq_ok_iff.1
    (show ((closeScope place >>= fun _ => pure _) >>= fun p => pure (.running ⟨p, bases⟩) :
      Effect Progress).run s = _ from hstep)
  cases hm
  obtain ⟨_, u, hu, hp⟩ := run_bind_eq_ok_iff.1 hp
  cases hp
  obtain ⟨b, callers', hb, hc, -⟩ := run_closeScope_eq_ok hu
  cases h.calls.symm.trans hb
  have hscopes : a.scopes.length = 0 + 1 + (Job.closeScope place :: rest).countP Job.isCloseScope :=
    hbody.scopes
  rw [List.countP_cons_of_pos rfl] at hscopes
  refine .stays ⟨rest, [], a.closeScope⟩ ⟨rfl, hc⟩ ⟨hrest, ?_⟩ (fun hall => ?_)
    (.drops (List.suffix_refl _) (losses_closeScope hu))
  · simp only [Activation.closeScope, List.length_tail]
    omega
  · exact absurd (hall _ List.mem_cons_self) (by simp [Job.gives])

theorem next_of_loopControl {node : Node} (hnode : isLoopControl node)
    (h : OnTop ⟨.execute node :: rest, own, a⟩ jobs operands bases callers m s)
    (hbody : Body ⟨.execute node :: rest, own, a⟩)
    (hstep : (i.step m).run s = (.ok (.running m'), s')) :
    Next (fun _ => False) 0 jobs operands bases callers ⟨.execute node :: rest, own, a⟩ s m' s' := by
  rw [h.step_eq] at hstep
  have hunwind (place : Location) (isTarget : Job → Bool) (p : Pending) :
      (do return Progress.running ⟨← (do
        countStep i.limits place
        p.unwindTo place isTarget), bases⟩ : Effect Progress) =
      (do
        countStep i.limits place
        let p ← p.unwindTo place isTarget
        return Progress.running ⟨p, bases⟩) := bind_assoc ..
  cases node with
  | breakLoop place =>
    refine next_of_unwind h hbody (fun job hj => .inl ?_)
      ((congrArg (·.run s) (hunwind place Job.isLoopEnd _)).symm.trans hstep)
    cases job with
    | loopEnd => rfl
    | _ => cases hj
  | continueLoop place =>
    refine next_of_unwind h hbody (fun job hj => .inr ?_)
      ((congrArg (·.run s) (hunwind place Job.isContinueTarget _)).symm.trans hstep)
    cases job with
    | continueTarget => rfl
    | _ => cases hj
  | _ => cases hnode

/-- One job of a call that does not end it. -/
theorem step_body (hends : job.endsCall = false)
    (h : OnTop ⟨job :: rest, own, a⟩ jobs operands bases callers m s)
    (hbody : Body ⟨job :: rest, own, a⟩) (hstep : (i.step m).run s = (.ok (.running m'), s')) :
    Next (fun _ => False) 0 jobs operands bases callers ⟨job :: rest, own, a⟩ s m' s' := by
  by_cases hlocal : isLocal job
  · exact next_of_isLocal hlocal h hbody hstep
  cases job with
  | call f place => exact next_of_call h hbody hstep
  | giveBack | bodyEnd => cases hends
  | closeScope place => exact next_of_closeScope h hbody hstep
  | execute node =>
    by_cases hnode : isLoopControl node
    · exact next_of_loopControl hnode h hbody hstep
    · obtain ⟨taken, below, rfl, ht, hawaits⟩ := hbody.demand.awaits rfl
      cases ht
      rw [h.step_eq] at hstep
      exact next_of_works rfl h hbody rfl hawaits (i.works_execute _ _ (by simpa using hnode)) hstep
  | _ => exact absurd rfl hlocal

/-- Only the end of a call ends a run. -/
theorem exists_running {p : Pending} {q : Progress} (hends : job.endsCall = false)
    (h : (i.perform job p bases).run s = (.ok q, s')) : ∃ m, q = .running m := by
  cases job with
  | bodyEnd | giveBack => cases hends
  | call f place =>
    obtain ⟨⟨args, p'⟩, _, -, h⟩ := run_bind_eq_ok_iff.1 h
    obtain ⟨_, _, -, h⟩ := run_bind_eq_ok_iff.1 h
    cases h
    exact ⟨_, rfl⟩
  | _ =>
    obtain ⟨_, _, -, h⟩ := run_bind_eq_ok_iff.1 h
    cases h
    exact ⟨_, rfl⟩

/-- What the end of a call leaves: its caller with the result, or the end of the run. -/
inductive Left (jobs : Stack Job) (operands : Stack Value) : List Heights → Progress → Prop
  | returned (base : Heights) (bases : List Heights) (v : Value) :
      Left jobs operands (base :: bases) (.running ⟨⟨jobs, operands.push v⟩, base :: bases⟩)
  | exited (code : Int32) : Left jobs operands [] (.exited code)

/-- The end of a call cuts the stacks back to where it began, whatever it had left to do. -/
theorem step_endsCall {q : Progress} (hends : job.endsCall)
    (h : OnTop ⟨job :: rest, own, a⟩ jobs operands (⟨jobs.height, operands.height⟩ :: bases) callers m s)
    (hbody : Body ⟨job :: rest, own, a⟩) (hstep : (i.step m).run s = (.ok q, s')) :
    Left jobs operands bases q ∧ s'.calls.items = callers ∧ Losses s s' := by
  have leave (value : Option Value) (place : Location) (operands' : List Value)
      (hleave : (giveBack value place ⟨jobs.pushAll rest, operands.pushAll operands'⟩
        (⟨jobs.height, operands.height⟩ :: bases)).run s = (.ok q, s')) :
      Left jobs operands bases q ∧ s'.calls.items = callers ∧ Losses s s' := by
    obtain ⟨v, u, hu, hresume⟩ := run_bind_eq_ok_iff.1 hleave
    obtain ⟨b, hb, -⟩ := run_leaveCall_eq_ok hu
    cases h.calls.symm.trans hb
    cases bases with
    | nil =>
      obtain ⟨code, t, ht, hm⟩ := run_bind_eq_ok_iff.1 hresume
      cases hm
      obtain rfl := run_exitValue_eq_ok ht
      exact ⟨.exited code, rfl, losses_leaveCall hu⟩
    | cons base bases =>
      cases hresume
      refine ⟨?_, rfl, losses_leaveCall hu⟩
      simp only [Pending.cutTo, Stack.cutTo_pushAll]
      exact .returned base bases v
  rw [h.step_eq] at hstep
  cases job with
  | bodyEnd place => exact leave none place own hstep
  | giveBack hasValue place =>
    cases hasValue with
    | false => exact leave none place own hstep
    | true =>
      obtain ⟨taken, below, rfl, ht, rfl, -⟩ := hbody.demand.awaits rfl
      obtain ⟨v, -, rfl⟩ := exists_of_admits_singleton ht
      obtain ⟨⟨w, p⟩, u, hu, hgive⟩ := run_bind_eq_ok_iff.1 hstep
      have hpop := Pending.pop_push place (jobs.pushAll rest) operands v
      have hpush : operands.pushAll [v] = operands.push v := rfl
      rw [List.append_nil, hpush, hpop] at hu
      cases hu
      exact leave (some v) place [] hgive
  | _ => cases hends

end Frame

/-! ## Frames above some ground -/

/-- The frames below the latest one, down to some ground that waits for the result of the first
call above it. -/
inductive Awaiting (ground : Stack Job → Stack Value → List Heights → List Activation → Prop) :
    Stack Job → Stack Value → List Heights → List Activation → Prop
  | ground {jobs : Stack Job} {operands : Stack Value} {bases : List Heights}
      {callers : List Activation} (h : ground jobs operands bases callers) :
      Awaiting ground jobs operands bases callers
  | call {jobs : Stack Job} {operands : Stack Value} {bases : List Heights}
      {callers : List Activation} (f : Frame) (h : Awaiting ground jobs operands bases callers)
      (hf : f.Suspended (fun _ => False) 0) :
      Awaiting ground (jobs.pushAll f.jobs) (operands.pushAll f.operands)
        (⟨jobs.height, operands.height⟩ :: bases) (f.activation :: callers)

/-- A machine with at least one frame above the ground. -/
def Above (ground : Stack Job → Stack Value → List Heights → List Activation → Prop) (m : Machine)
    (s : ProgramState) : Prop :=
  ∃ f : Frame, ∃ jobs operands bases callers, Awaiting ground jobs operands bases callers ∧ f.Body ∧
    f.OnTop jobs operands (⟨jobs.height, operands.height⟩ :: bases) callers m s

namespace Above

variable {ground : Stack Job → Stack Value → List Heights → List Activation → Prop}
  {i : Interpreter} {m m' : Machine} {s s' : ProgramState}

/-- The frames stay sound, and the last one to leave puts its result on the ground. -/
theorem step (h : Above ground m s) (hstep : (i.step m).run s = (.ok (.running m'), s')) :
    Above ground m' s' ∨ ∃ jobs operands bases callers v, ground jobs operands bases callers ∧
      bases ≠ [] ∧ m' = ⟨⟨jobs, operands.push v⟩, bases⟩ ∧ s'.calls.items = callers := by
  obtain ⟨⟨own, operands', a⟩, jobs, operands, bases, callers, hbelow, hbody, htop⟩ := h
  cases own with
  | nil => exact hbody.demand.elim
  | cons job rest =>
    cases hends : job.endsCall with
    | true =>
      obtain ⟨hleft, hcalls, -⟩ := Frame.step_endsCall hends htop hbody hstep
      cases hleft with
      | returned base bases v =>
        cases hbelow with
        | ground hground =>
          exact .inr ⟨_, _, _, _, v, hground, List.cons_ne_nil _ _, rfl, hcalls⟩
        | call f hbelow hf => exact .inl ⟨_, _, _, _, _, hbelow, hf v, rfl, hcalls⟩
    | false =>
      cases Frame.step_body hends htop hbody hstep with
      | stays g top sound => exact .inl ⟨g, jobs, operands, bases, callers, hbelow, sound, top⟩
      | enters g callee suspended _ body top =>
        exact .inl ⟨callee, _, _, _, _, .call g hbelow suspended, body, top⟩

/-- What a step makes of all jobs there are. -/
theorem reworks (h : Above ground m s) (hstep : (i.step m).run s = (.ok (.running m'), s')) :
    Reworks m.pending.jobs.items s m'.pending.jobs.items s' := by
  obtain ⟨⟨own, operands', a⟩, jobs, operands, bases, callers, hbelow, hbody, htop⟩ := h
  cases own with
  | nil => exact hbody.demand.elim
  | cons job rest =>
    rw [htop.machine, Stack.items_pushAll]
    cases hends : job.endsCall with
    | true =>
      obtain ⟨hleft, -, hlosses⟩ := Frame.step_endsCall hends htop hbody hstep
      cases hleft with
      | returned base bases v => exact .drops (List.suffix_append _ _) hlosses
    | false =>
      cases Frame.step_body hends htop hbody hstep with
      | stays g top _ _ reworks =>
        rw [top.machine, Stack.items_pushAll]
        exact reworks.append jobs.items
      | enters g callee _ _ _ top reworks =>
        rw [top.machine, Stack.items_pushAll, Stack.items_pushAll, ← List.append_assoc]
        exact reworks.append jobs.items

/-- The run ends when the first call does. -/
theorem exited {code : Int32} (h : Above ground m s)
    (hstep : (i.step m).run s = (.ok (.exited code), s')) :
    (∃ jobs operands, ground jobs operands [] s'.calls.items) ∧ Losses s s' := by
  obtain ⟨⟨own, operands', a⟩, jobs, operands, bases, callers, hbelow, hbody, htop⟩ := h
  cases own with
  | nil => exact hbody.demand.elim
  | cons job rest =>
    cases hends : job.endsCall with
    | true =>
      obtain ⟨hleft, hcalls, hlosses⟩ := Frame.step_endsCall hends htop hbody hstep
      cases hleft with
      | exited =>
        cases hbelow with
        | ground hground => exact ⟨⟨jobs, operands, hcalls ▸ hground⟩, hlosses⟩
    | false =>
      rw [htop.step_eq] at hstep
      obtain ⟨_, hm⟩ := Frame.exists_running hends hstep
      cases hm

end Above

end BoundedC
