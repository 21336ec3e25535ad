import BoundedC.Proofs.Frames

/-!
# Stack discipline

What a program can rely on at every moment of a run (`Interpreter.Disciplined`): an expression leaves
one operand more than there was, a statement none; a call has a job for each scope that is to be
closed; and whatever a call does, its callers find their jobs, operands and activations as they left
them, with the result of the call on top.

* `disciplined_of_reaches` : the discipline holds throughout every run.
-/

namespace BoundedC

open Effect Interpreter

/-! ## What holds at every moment -/

namespace Interpreter

/-- The run with the given arguments comes to this machine and this state. -/
def Reaches (i : Interpreter) (args : List (List UInt8)) (sink : Sink) (m : Machine)
    (s : ProgramState) : Prop := ∃ fuel, i.advance fuel (i.begin args sink) = .underWay m s

/-- After `n` jobs the machine comes to the given stack of jobs for the first time. -/
structure ComesTo (i : Interpreter) (n : Nat) (m : Machine) (s : ProgramState) (jobs : Stack Job)
    (m' : Machine) (s' : ProgramState) : Prop where
  run : i.advance n (.underWay m s) = .underWay m' s'
  back : m'.pending.jobs = jobs
  first : ∀ k < n, ∀ m'' s'', i.advance k (.underWay m s) = .underWay m'' s'' →
    m''.pending.jobs ≠ jobs

/-- The call in progress is not over for so many jobs. -/
def KeepsCall (i : Interpreter) (n : Nat) (m : Machine) (s : ProgramState) : Prop :=
  ∀ k ≤ n, ∀ m' s', i.advance k (.underWay m s) = .underWay m' s' → m.bases.length ≤ m'.bases.length

end Interpreter

/-- Where the frames begin on the two stacks, the latest frame first. -/
def Frame.bases : List Frame → List Heights
  | [] => []
  | _ :: callers =>
    ⟨(callers.flatMap Frame.jobs).length, (callers.flatMap Frame.operands).length⟩ ::
      Frame.bases callers

/-- The frames of all calls, the latest first, make up the machine and its activations. -/
structure Machine.DividesInto (m : Machine) (calls : List Activation) (frames : List Frame) : Prop where
  jobs : m.pending.jobs.items = frames.flatMap Frame.jobs
  operands : m.pending.operands.items = frames.flatMap Frame.operands
  bases : m.bases = Frame.bases frames
  calls : calls = frames.map Frame.activation

/-- The stack discipline at one moment of a run. -/
structure Interpreter.Disciplined (i : Interpreter) (m : Machine) (s : ProgramState) : Prop where
  /-- An expression leaves one operand on top of those that were there. -/
  evaluate : ∀ node jobs operands, m.pending = ⟨jobs.push (.evaluate node), operands⟩ →
    ∀ n m' s', i.ComesTo n m s jobs m' s' → ∃ v, m' = ⟨⟨jobs, operands.push v⟩, m.bases⟩
  /-- A place is left as a pointer. -/
  locate : ∀ node access jobs operands, m.pending = ⟨jobs.push (.locate node access), operands⟩ →
    ∀ n m' s', i.ComesTo n m s jobs m' s' → ∃ p, m' = ⟨⟨jobs, operands.push (.pointer p)⟩, m.bases⟩
  /-- A statement begins without any operands of its call, and leaves none. -/
  execute : ∀ node (jobs : Stack Job), m.pending.jobs = jobs.push (.execute node) →
    ∃ base bases, m.bases = base :: bases ∧ m.pending.operands.height = base.operands ∧
      ∀ n m' s', i.KeepsCall n m s → i.advance n (.underWay m s) = .underWay m' s' →
        m'.bases = m.bases → m'.pending.jobs = jobs → m'.pending.operands = m.pending.operands
  /-- Each call has its first scope and one for each job that is to close one. -/
  scopes : ∃ frames, m.DividesInto s.calls.items frames ∧
    ∀ f ∈ frames, f.activation.scopes.length = 1 + f.jobs.countP Job.isCloseScope
  /-- As long as a call goes on, its callers keep their jobs, their operands and their activations. -/
  callers : ∀ base bases a callers, m.bases = base :: bases → s.calls.items = a :: callers →
    ∀ n m' s', i.KeepsCall n m s → i.advance n (.underWay m s) = .underWay m' s' →
      m'.pending.jobs.cutTo base.jobs = m.pending.jobs.cutTo base.jobs ∧
      m'.pending.operands.cutTo base.operands = m.pending.operands.cutTo base.operands ∧
      base :: bases <:+ m'.bases ∧ callers <:+ s'.calls.items
  /-- When a call is over, its caller goes on where it was, with one operand more. -/
  result : ∀ base bases a callers, m.bases = base :: bases → s.calls.items = a :: callers →
    ∀ n m' s', i.KeepsCall n m s → i.advance (n + 1) (.underWay m s) = .underWay m' s' →
      m'.bases.length < m.bases.length →
      s'.calls.items = callers ∧ ∃ v, m' = ⟨⟨m.pending.jobs.cutTo base.jobs,
        (m.pending.operands.cutTo base.operands).push v⟩, bases⟩
  /-- Loop control stays within its call. -/
  loopControl : ∀ node (jobs : Stack Job), m.pending.jobs = jobs.push (.execute node) → isLoopControl node →
    ∀ m' s', i.next (.underWay m s) = .underWay m' s' → m'.bases = m.bases ∧
      ∀ base ∈ m.bases.head?, m'.pending.jobs.cutTo base.jobs = m.pending.jobs.cutTo base.jobs

/-! ## Runs -/

namespace Interpreter

variable {i : Interpreter} {m m' : Machine} {s s' : ProgramState}

theorem next_eq_underWay (h : i.next (.underWay m s) = .underWay m' s') :
    (i.step m).run s = (.ok (.running m'), s') := by
  have h' : Run.ofStep ((i.step m).run s) = .ofStep (.ok (.running m'), s') := h
  exact Run.ofStep_inj h'

theorem advance_succ' (i : Interpreter) (n : Nat) (r : Run) :
    i.advance (n + 1) r = i.next (i.advance n r) := by
  rw [advance_add]
  cases i.advance n r <;> simp [advance]

/-- What each job of a run preserves holds at the end of it. -/
theorem invariant_of_advance {P : Machine → ProgramState → Prop} {r : Run} {n : Nat}
    (hr : ∀ m s, r = .underWay m s → P m s)
    (hstep : ∀ k < n, ∀ m₁ s₁ m₂ s₂, i.advance k r = .underWay m₁ s₁ →
      i.advance (k + 1) r = .underWay m₂ s₂ → (i.step m₁).run s₁ = (.ok (.running m₂), s₂) →
      P m₁ s₁ → P m₂ s₂)
    (h : i.advance n r = .underWay m s) : P m s := by
  induction n generalizing m s with
  | zero => exact hr m s h
  | succ n ih =>
    have hnext := h
    rw [advance_succ'] at hnext
    cases hn : i.advance n r with
    | ended result t =>
      rw [hn] at hnext
      cases hnext
    | underWay m₁ s₁ =>
      rw [hn] at hnext
      exact hstep n (Nat.lt_succ_self n) m₁ s₁ m s hn h (next_eq_underWay hnext)
        (ih (fun k hk => hstep k (Nat.lt_succ_of_lt hk)) hn)

end Interpreter

/-! ## From a job to the way back -/

/-- The operands that an expression is to leave, when nothing was there. -/
def Role.Result (role : Role) (operands : List Value) : Prop :=
  ∃ v, role.admits v ∧ operands = [v]

/-- An expression that waits for the result of a call, above jobs and operands that it does not
touch. -/
def Expecting (role : Role) (depth : Nat) (jobs : Stack Job) (operands : Stack Value)
    (bases : List Heights) (callers : List Activation) (jobs' : Stack Job) (operands' : Stack Value)
    (bases' : List Heights) (callers' : List Activation) : Prop :=
  ∃ f : Frame, f.IsExpression ∧ f.Suspended role.Result depth ∧ jobs' = jobs.pushAll f.jobs ∧
    operands' = operands.pushAll f.operands ∧ bases' = bases ∧ callers' = f.activation :: callers

/-- An expression is being evaluated, or a call that it waits for. -/
def Evaluating (role : Role) (depth : Nat) (jobs : Stack Job) (operands : Stack Value)
    (bases : List Heights) (callers : List Activation) (m : Machine) (s : ProgramState) : Prop :=
  Above (Expecting role depth jobs operands bases callers) m s ∨
    ∃ f : Frame, f.IsExpression ∧ f.Sound role.Result depth ∧ f.OnTop jobs operands bases callers m s

variable {role : Role} {depth : Nat} {jobs : Stack Job} {operands : Stack Value}
  {bases : List Heights} {callers : List Activation} {i : Interpreter} {m m' : Machine}
  {s s' : ProgramState}

theorem Evaluating.step (h : Evaluating role depth jobs operands bases callers m s)
    (hjobs : m.pending.jobs ≠ jobs) (hstep : (i.step m).run s = (.ok (.running m'), s')) :
    Evaluating role depth jobs operands bases callers m' s' := by
  rcases h with h | ⟨⟨own, operands', a⟩, hexpr, hsound, htop⟩
  · rcases h.step hstep with h | ⟨_, _, _, _, v, ⟨f, hexpr, hf, rfl, rfl, rfl, rfl⟩, -, rfl, hcalls⟩
    · exact .inl h
    · exact .inr ⟨{ f with operands := v :: f.operands }, hexpr, hf v, ⟨rfl, hcalls⟩⟩
  · cases own with
    | nil =>
      rw [htop.machine] at hjobs
      exact absurd (Stack.pushAll_nil jobs) hjobs
    | cons job rest =>
      cases Frame.step_expression (hexpr job List.mem_cons_self) htop hsound hstep with
      | stays g top sound expr => exact .inr ⟨g, expr hexpr, sound, top⟩
      | enters g callee suspended expr body top =>
        exact .inl ⟨callee, _, _, _, _, .ground ⟨g, expr hexpr, suspended, rfl, rfl, rfl, rfl⟩, body,
          top⟩

/-- The frames above a ground are as high as the ground, at least. -/
theorem Awaiting.le_height
    {ground : Stack Job → Stack Value → List Heights → List Activation → Prop} {height : Nat}
    (hground : ∀ jobs operands bases callers, ground jobs operands bases callers →
      height ≤ jobs.height)
    (h : Awaiting ground jobs operands bases callers) : height ≤ jobs.height := by
  induction h with
  | ground h => exact hground _ _ _ _ h
  | call f _ _ ih => exact Nat.le_trans ih (Nat.le_add_right _ _)

/-- An expression that has come back to the jobs below it has left its value. -/
theorem Evaluating.result (h : Evaluating role depth jobs operands bases callers m s)
    (hjobs : m.pending.jobs = jobs) :
    ∃ v a, role.admits v ∧ m = ⟨⟨jobs, operands.push v⟩, bases⟩ ∧ s.calls.items = a :: callers := by
  rcases h with ⟨⟨own, operands', a⟩, jobs', operands'', bases', callers', hbelow, hbody, htop⟩ |
    ⟨⟨own, operands', a⟩, -, hsound, htop⟩
  · have hle : jobs.height ≤ jobs'.height := by
      refine hbelow.le_height ?_
      rintro _ _ _ _ ⟨f, -, -, rfl, -⟩
      exact Nat.le_add_right _ _
    rw [htop.machine] at hjobs
    cases own with
    | nil => exact hbody.demand.elim
    | cons job rest =>
      have := congrArg Stack.height hjobs
      simp only [Stack.pushAll, List.length_cons] at this
      omega
  · rw [htop.machine] at hjobs
    cases own with
    | nil =>
      obtain ⟨v, hv, rfl⟩ := hsound.demand
      exact ⟨v, a, hv, htop.machine, htop.calls⟩
    | cons job rest =>
      have := congrArg Stack.height hjobs
      simp only [Stack.pushAll, List.length_cons] at this
      omega

/-! ## Callers -/

/-- The callers of a call, which wait for its result. -/
def Waiting (jobs : Stack Job) (operands : Stack Value) (bases : List Heights)
    (callers : List Activation) (jobs' : Stack Job) (operands' : Stack Value)
    (bases' : List Heights) (callers' : List Activation) : Prop :=
  jobs' = jobs ∧ operands' = operands ∧ bases' = bases ∧ callers' = callers

variable {jobs' : Stack Job} {operands' : Stack Value} {bases' : List Heights}
  {callers' : List Activation}

/-- The calls above a ground leave it as it is. -/
theorem Awaiting.exists_pushAll
    (h : Awaiting (Waiting jobs operands bases callers) jobs' operands' bases' callers') :
    ∃ own ownOperands begun calls, jobs' = jobs.pushAll own ∧
      operands' = operands.pushAll ownOperands ∧
      ⟨jobs'.height, operands'.height⟩ :: bases' =
        begun ++ (⟨jobs.height, operands.height⟩ : Heights) :: bases ∧
      callers' = calls ++ callers := by
  induction h with
  | ground h =>
    obtain ⟨rfl, rfl, rfl, rfl⟩ := h
    exact ⟨[], [], [], [], rfl, rfl, rfl, rfl⟩
  | call f _ _ ih =>
    obtain ⟨own, ownOperands, begun, calls, rfl, rfl, hbegun, rfl⟩ := ih
    refine ⟨f.jobs ++ own, f.operands ++ ownOperands,
      ⟨((jobs.pushAll own).pushAll f.jobs).height,
        ((operands.pushAll ownOperands).pushAll f.operands).height⟩ :: begun,
      f.activation :: calls, ?_, ?_, ?_, rfl⟩
    · rw [Stack.pushAll_append]
    · rw [Stack.pushAll_append]
    · rw [hbegun]
      rfl

theorem Awaiting.length_le
    (h : Awaiting (Waiting jobs operands bases callers) jobs' operands' bases' callers') :
    bases.length ≤ bases'.length := by
  obtain ⟨_, _, begun, _, -, -, hbegun, -⟩ := h.exists_pushAll
  have := congrArg List.length hbegun
  simp only [List.length_cons, List.length_append] at this
  omega

/-- Only calls that are still going on lie above a ground. -/
theorem Awaiting.eq_of_length
    (h : Awaiting (Waiting jobs operands bases callers) jobs' operands' bases' callers')
    (hlen : bases'.length = bases.length) :
    Waiting jobs operands bases callers jobs' operands' bases' callers' := by
  cases h with
  | ground h => exact h
  | call f h _ =>
    have := h.length_le
    rw [List.length_cons] at hlen
    omega

theorem Above.length_lt (h : Above (Waiting jobs operands bases callers) m s) :
    bases.length < m.bases.length := by
  obtain ⟨f, _, _, _, _, hbelow, -, htop⟩ := h
  rw [htop.machine]
  exact Nat.lt_succ_of_le hbelow.length_le

/-- The callers of a call, with all that is theirs, are below whatever is there later. -/
theorem Above.unchanged (h : Above (Waiting jobs operands bases callers) m s) :
    m.pending.jobs.cutTo jobs.height = jobs ∧
      m.pending.operands.cutTo operands.height = operands ∧
      ⟨jobs.height, operands.height⟩ :: bases <:+ m.bases ∧ callers <:+ s.calls.items := by
  obtain ⟨f, _, _, _, _, hbelow, -, htop⟩ := h
  obtain ⟨own, ownOperands, begun, calls, rfl, rfl, hbegun, rfl⟩ := hbelow.exists_pushAll
  rw [htop.machine, htop.calls]
  refine ⟨?_, ?_, ⟨begun, hbegun.symm⟩, ⟨f.activation :: calls, rfl⟩⟩
  · rw [← Stack.pushAll_append, Stack.cutTo_pushAll]
  · dsimp only
    rw [← Stack.pushAll_append, Stack.cutTo_pushAll]

theorem Above.of_keepsCall {n : Nat} {base : Heights} (hm : m.bases = base :: bases)
    (h : Above (Waiting jobs operands bases callers) m s) (hkeep : i.KeepsCall n m s)
    (hn : i.advance n (.underWay m s) = .underWay m' s') :
    Above (Waiting jobs operands bases callers) m' s' := by
  refine invariant_of_advance (P := Above (Waiting jobs operands bases callers)) ?_ ?_ hn
  · intro m₀ s₀ h₀
    cases h₀
    exact h
  · intro k hk m₁ s₁ m₂ s₂ h₁ h₂ hstep habove
    rcases habove.step hstep with h | ⟨_, _, _, _, v, ⟨rfl, rfl, rfl, rfl⟩, -, rfl, -⟩
    · exact h
    · have := hkeep (k + 1) hk _ _ h₂
      rw [hm] at this
      exact absurd this (Nat.not_succ_le_self _)

/-! ## Whole runs -/

/-- Below the first call of a run there is nothing. -/
abbrev Bottom : Stack Job → Stack Value → List Heights → List Activation → Prop :=
  Waiting .empty .empty [] []

theorem calls_of_bindArgumentsFrom {place : Location} {table : BufferId} {slot : Nat}
    {args : List (List UInt8)} {s t : ProgramState} {u : Unit}
    (h : (bindArgumentsFrom place table slot args).run s = (.ok u, t)) : t.calls = s.calls := by
  induction args generalizing slot s with
  | nil =>
    cases h
    rfl
  | cons arg args ih =>
    obtain ⟨id, v, hv, h⟩ := run_bind_eq_ok_iff.1 h
    obtain ⟨_, w, hw, h⟩ := run_bind_eq_ok_iff.1 h
    obtain ⟨_, x, hx, hw⟩ := run_bind_eq_ok_iff.1 hw
    cases hw
    obtain ⟨_, hx⟩ := run_discard_eq_ok hx
    rw [ih h, (run_onMemory_eq_ok hx).2, (run_onMemory_eq_ok hv).2]

theorem calls_of_bindArguments {place : Location} {args : List (List UInt8)} {s t : ProgramState}
    {values : List Value} (h : (bindArguments place args).run s = (.ok values, t)) :
    t.calls = s.calls := by
  obtain ⟨table, u, hu, hrun⟩ := run_bindArguments_eq_ok h
  rw [calls_of_bindArgumentsFrom hrun, (run_onMemory_eq_ok hu).2]

theorem above_begin {args : List (List UInt8)} {sink : Sink}
    (h : i.begin args sink = .underWay m s) : Above Bottom m s := by
  unfold begin at h
  split at h
  · rename_i main t hmain
    cases h
    obtain ⟨-, values, u, hu, henter⟩ := run_enterMain_eq_ok hmain
    obtain ⟨g, hbody, htop⟩ := Frame.body_enter henter .empty .empty []
    rw [calls_of_bindArguments hu] at htop
    exact ⟨g, _, _, _, _, .ground ⟨rfl, rfl, rfl, rfl⟩, hbody, htop⟩
  · cases h

/-- The first call of a run leaves nothing to go on with. -/
theorem Above.step_bottom (h : Above Bottom m s) (hstep : (i.step m).run s = (.ok (.running m'), s')) :
    Above Bottom m' s' := by
  rcases h.step hstep with h | ⟨_, _, _, _, _, ⟨-, -, rfl, -⟩, hne, -⟩
  · exact h
  · exact absurd rfl hne

/-- Throughout a run the frames of all calls are sound. -/
theorem above_of_reaches {args : List (List UInt8)} {sink : Sink} (h : i.Reaches args sink m s) :
    Above Bottom m s := by
  obtain ⟨fuel, h⟩ := h
  exact invariant_of_advance (P := Above Bottom) (fun _ _ => above_begin)
    (fun _ _ _ _ _ _ _ _ hstep habove => habove.step_bottom hstep) h

theorem Machine.DividesInto.cons {frames : List Frame}
    (h : DividesInto ⟨⟨jobs, operands⟩, bases⟩ callers frames) (f : Frame) :
    DividesInto ⟨⟨jobs.pushAll f.jobs, operands.pushAll f.operands⟩,
      ⟨jobs.height, operands.height⟩ :: bases⟩ (f.activation :: callers) (f :: frames) := by
  obtain ⟨hjobs, hoperands, hbases, hcalls⟩ := h
  refine ⟨?_, ?_, ?_, ?_⟩
  · simpa using hjobs
  · simpa using hoperands
  · simp only [Frame.bases, ← hjobs, ← hoperands, ← hbases, ← Stack.height_eq]
  · simpa using hcalls

theorem Awaiting.exists_frames (h : Awaiting Bottom jobs operands bases callers) :
    ∃ frames : List Frame, Machine.DividesInto ⟨⟨jobs, operands⟩, bases⟩ callers frames ∧
      ∀ f ∈ frames, f.activation.scopes.length = 1 + f.jobs.countP Job.isCloseScope := by
  induction h with
  | ground h =>
    obtain ⟨rfl, rfl, rfl, rfl⟩ := h
    exact ⟨[], ⟨rfl, rfl, rfl, rfl⟩, by simp⟩
  | call f _ hf ih =>
    obtain ⟨frames, hdiv, hscopes⟩ := ih
    refine ⟨f :: frames, hdiv.cons f, fun g hg => ?_⟩
    rcases List.mem_cons.1 hg with rfl | hg
    · simpa using (hf (.int 0)).scopes
    · exact hscopes g hg

/-- A statement leaves its call where it was. -/
theorem bases_of_execute {node : Node} {p : Pending}
    (h : (i.perform (.execute node) p bases).run s = (.ok (.running m'), s')) : m'.bases = bases := by
  obtain ⟨_, _, -, hm⟩ := run_bind_eq_ok_iff.1 h
  cases hm
  rfl

theorem Evaluating.comesTo (h : Evaluating role depth jobs operands bases callers m s) {n : Nat}
    (hcomes : i.ComesTo n m s jobs m' s') :
    ∃ v a, role.admits v ∧ m' = ⟨⟨jobs, operands.push v⟩, bases⟩ ∧ s'.calls.items = a :: callers := by
  refine Evaluating.result (invariant_of_advance
    (P := Evaluating role depth jobs operands bases callers) ?_ ?_ hcomes.run) hcomes.back
  · intro m₀ s₀ h₀
    cases h₀
    exact h
  · intro k hk m₁ s₁ m₂ s₂ h₁ _ hstep hev
    exact hev.step (hcomes.first k hk m₁ s₁ h₁) hstep

/-- An expression about to be evaluated, or a place about to be found. -/
theorem evaluating_of_onTop {job : Job} {rest : List Job} {own : List Value} {a : Activation}
    (htakes : job.takes = []) (hgives : job.gives = some role)
    (htop : Frame.OnTop ⟨job :: rest, own, a⟩ jobs operands bases callers m s)
    (hbody : Frame.Body ⟨job :: rest, own, a⟩) :
    Evaluating role (rest.countP Job.isCloseScope) (jobs.pushAll rest) (operands.pushAll own) bases
      callers m s := by
  have hends : job.endsScope = false := by
    cases job with
    | closeScope | bodyEnd => cases hgives
    | _ => rfl
  obtain ⟨hcount, hend⟩ := Job.not_endsScope hends
  refine .inr ⟨⟨[job], [], a⟩, ?_, ⟨?_, ?_⟩, ⟨?_, htop.calls⟩⟩
  · intro j hj
    rw [List.mem_singleton.1 hj, hgives]
    rfl
  · refine .of_awaits hend [] (htakes ▸ .nil) ?_
    rw [hgives]
    exact fun v hv => ⟨v, hv, rfl⟩
  · have hscopes := hbody.scopes
    simp only [List.countP_cons_of_neg (by simp [hcount] : ¬ job.isCloseScope = true)] at hscopes ⊢
    simp only [List.countP_nil]
    omega
  · rw [htop.machine, Stack.pushAll_cons]
    rfl

/-- The next job is the first one of the latest frame. -/
theorem Frame.Body.exists_job {own : List Job} {ownOperands : List Value} {a : Activation}
    (h : Frame.Body ⟨own, ownOperands, a⟩) {job : Job} {rest : Stack Job}
    (hjobs : jobs.pushAll own = rest.push job) :
    ∃ own', own = job :: own' ∧ rest = jobs.pushAll own' := by
  cases own with
  | nil => exact h.demand.elim
  | cons job' own' =>
    rw [Stack.pushAll_cons] at hjobs
    obtain ⟨rfl, rfl⟩ := Stack.push_inj hjobs
    exact ⟨own', rfl, rfl⟩

/-- A call that has come back to jobs that need no operands has none. -/
theorem Above.operands_eq {base : Heights} {own : List Job}
    (h : Above (Waiting jobs operands bases callers) m s) (hm : m.bases = base :: bases)
    (hjobs : m.pending.jobs = jobs.pushAll own) (hdemand : Demand (fun _ => False) own []) :
    m.pending.operands = operands := by
  obtain ⟨⟨own', ownOperands, a⟩, jobs', operands', bases', callers', hbelow, hbody, htop⟩ := h
  obtain rfl := htop.machine
  injection hm with hbase hbases
  obtain ⟨rfl, rfl, -, -⟩ := hbelow.eq_of_length (congrArg List.length hbases)
  obtain rfl := Stack.pushAll_inj hjobs
  obtain rfl := List.eq_nil_of_length_eq_zero (hbody.demand.length_unique hdemand)
  rfl

/-- The end of a call. -/
theorem Above.result_of_over {n : Nat} {base : Heights}
    (h : Above (Waiting jobs operands bases callers) m s) (hm : m.bases = base :: bases)
    (hkeep : i.KeepsCall n m s) (hn : i.advance (n + 1) (.underWay m s) = .underWay m' s')
    (hover : m'.bases.length < m.bases.length) :
    s'.calls.items = callers ∧ ∃ v, m' = ⟨⟨jobs, operands.push v⟩, bases⟩ := by
  rw [advance_succ'] at hn
  cases hmid : i.advance n (.underWay m s) with
  | ended result t =>
    rw [hmid] at hn
    cases hn
  | underWay m₁ s₁ =>
    rw [hmid] at hn
    have hlast := h.of_keepsCall hm hkeep hmid
    rcases hlast.step (next_eq_underWay hn) with
      h' | ⟨_, _, _, _, v, ⟨rfl, rfl, rfl, rfl⟩, -, rfl, hcallers⟩
    · have hlt := h'.length_lt
      rw [hm, List.length_cons] at hover
      omega
    · exact ⟨hcallers, v, rfl⟩

/-- One job that leaves the calls as they are. -/
theorem keepsCall_one (hn : i.next (.underWay m s) = .underWay m' s') (hbases : m'.bases = m.bases) :
    i.KeepsCall 1 m s := by
  intro k hk m₁ s₁ h₁
  obtain rfl | rfl : k = 0 ∨ k = 1 := by omega
  · cases h₁
    exact Nat.le_refl _
  · cases hn.symm.trans h₁
    exact Nat.le_of_eq (congrArg List.length hbases.symm)

/-- The discipline at one moment of a run. -/
theorem disciplined_of_above (h : Above Bottom m s) : i.Disciplined m s := by
  obtain ⟨⟨own, ownOperands, a⟩, jobs, operands, bases, callers, hbelow, hbody, htop⟩ := h
  obtain rfl := htop.machine
  have hcalls := htop.calls
  have habove : Above (Waiting jobs operands bases callers)
      ⟨⟨jobs.pushAll own, operands.pushAll ownOperands⟩, ⟨jobs.height, operands.height⟩ :: bases⟩ s :=
    ⟨_, _, _, _, _, .ground ⟨rfl, rfl, rfl, rfl⟩, hbody, htop⟩
  constructor
  · intro node rest below hp n m' s' hcomes
    injection hp with hjobs hoperands
    obtain ⟨own', rfl, rfl⟩ := hbody.exists_job hjobs
    subst hoperands
    obtain ⟨v, -, -, hm, -⟩ := (evaluating_of_onTop rfl rfl htop hbody).comesTo hcomes
    exact ⟨v, hm⟩
  · intro node access rest below hp n m' s' hcomes
    injection hp with hjobs hoperands
    obtain ⟨own', rfl, rfl⟩ := hbody.exists_job hjobs
    subst hoperands
    obtain ⟨_, -, ⟨p, rfl⟩, hm, -⟩ := (evaluating_of_onTop rfl rfl htop hbody).comesTo hcomes
    exact ⟨p, hm⟩
  · intro node rest hjobs
    obtain ⟨own', rfl, rfl⟩ := hbody.exists_job hjobs
    obtain ⟨taken, _, rfl, ht, rfl, hdemand⟩ := hbody.demand.awaits rfl
    cases ht
    refine ⟨_, _, rfl, rfl, ?_⟩
    intro n m' s' hkeep hn hbases hback
    exact (habove.of_keepsCall rfl hkeep hn).operands_eq hbases hback hdemand
  · obtain ⟨frames, hdiv, hscopes⟩ := hbelow.exists_frames
    rw [hcalls]
    refine ⟨_, hdiv.cons ⟨own, ownOperands, a⟩, fun f hf => ?_⟩
    rcases List.mem_cons.1 hf with rfl | hf
    · simpa using hbody.scopes
    · exact hscopes f hf
  · intro base bases' b callers' hbases hb n m' s' hkeep hn
    cases hbases
    cases hcalls.symm.trans hb
    obtain ⟨hjobs, hoperands, hbegun, hcallers⟩ := (habove.of_keepsCall rfl hkeep hn).unchanged
    simp only [Stack.cutTo_pushAll]
    exact ⟨hjobs, hoperands, hbegun, hcallers⟩
  · intro base bases' b callers' hbases hb n m' s' hkeep hn hover
    cases hbases
    cases hcalls.symm.trans hb
    simp only [Stack.cutTo_pushAll]
    exact habove.result_of_over rfl hkeep hn hover
  · intro node rest hjobs hnode m' s' hn
    obtain ⟨own', rfl, rfl⟩ := hbody.exists_job hjobs
    have hstep := next_eq_underWay hn
    rw [htop.step_eq] at hstep
    have hbases := bases_of_execute hstep
    refine ⟨hbases, ?_⟩
    rintro base ⟨⟩
    obtain ⟨hback, -⟩ := (habove.of_keepsCall rfl (keepsCall_one hn hbases) hn).unchanged
    rw [Stack.cutTo_pushAll]
    exact hback

/-- In every run, of every program and with any ceilings, the stack discipline holds at every
moment. -/
theorem disciplined_of_reaches (program : Program) (limits : Limits) (args : List (List UInt8))
    (sink : Sink) (m : Machine) (s : ProgramState)
    (h : (Interpreter.ofProgram program limits).Reaches args sink m s) :
    (Interpreter.ofProgram program limits).Disciplined m s :=
  disciplined_of_above (above_of_reaches h)

/-- A sum, whose second operand is a call that leaves its loop from inside a block. -/
def leavingLoop : Program :=
  let l : Location := ⟨1, 1⟩
  ⟨[.function l "f" .int []
      [.whileLoop l (.intLiteral l 1) (.block l [.breakLoop l]), .returnFrom l (some (.intLiteral l 7))],
    .function l "main" .int []
      [.returnFrom l (some (.binary l .add (.intLiteral l 1) (.call l "f" [])))]]⟩

/-- After nine jobs the loop is about to be left. The operand of the caller waits below, and a second
scope is open. -/
theorem exists_disciplined_leavingLoop :
    let i := Interpreter.ofProgram leavingLoop .default
    ∃ m s, i.Reaches [] .unlimited m s ∧
      m.pending.jobs.top? = some (.execute (.breakLoop ⟨1, 1⟩)) ∧
      m.pending.operands.items = [.int 1] ∧ m.bases.length = 2 ∧
      s.calls.items.map (fun a => (a.function, a.scopes.length)) = [("f", 2), ("main", 1)] ∧
      i.Disciplined m s :=
  ⟨_, _, ⟨9, rfl⟩, rfl, rfl, rfl, rfl, disciplined_of_reaches _ _ [] .unlimited _ _ ⟨9, rfl⟩⟩

end BoundedC
