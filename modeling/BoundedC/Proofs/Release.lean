import BoundedC.Proofs.Ownership
import BoundedC.Proofs.StackDiscipline

/-!
# Buffers in the course of a run

Throughout a run the live buffers are those of the arguments, of the open scopes and of the literals
of the calls in progress (`Interpreter.Tidy`). So a block, a `for` loop or a call, whichever way it is
left, leaves no variable behind.

* `accounted_of_reaches` : each job keeps the account;
* `Within.step` : until something is left, the scopes that were open before it stay below its own;
* `exists_tidy` : buffers throughout a run, and at the end of it.
-/

namespace BoundedC

open Effect Interpreter

variable {i : Interpreter} {m m' : Machine} {s s' t : ProgramState}

/-! ## The account of a run -/

/-- A store that succeeds changes only contents. -/
theorem Effect.run_store_eq_ok {place : Location} {p : Pointer} {v stored : Value}
    (h : (store place p v).run s = (.ok stored, t)) :
    p.pointee ≠ .void ∧ t.memory.shapes = s.memory.shapes := by
  obtain ⟨hm, -⟩ := run_onMemory_eq_ok h
  refine ⟨Arena.ne_void_of_store hm, ?_⟩
  have := s.memory.shapes_store p v
  rwa [hm] at this

theorem Effect.run_readMemory_of_ok {α : Type} (place : Location) {f : Arena → Except MemoryFault α}
    {v : α} (h : f s.memory = .ok v) : (readMemory place f).run s = (.ok v, s) := by
  rw [run_readMemory, h]
  rfl

theorem Effect.run_lookup_of_some (place : Location) {name : String} {x : Binding}
    (h : s.calls.top?.bind (·.lookup? name) = some x) : (lookup place name).run s = (.ok x, s) := by
  rw [lookup, run_bind_of_ok (run_get _), h]
  rfl

namespace Accounted

variable {arguments : List (BufferId × Nat)} {a b : Activation} {calls : List Activation}

/-- The parameters are variables of the call that begins. -/
theorem bindParams {place : Location} {params : List (Param × Value)}
    (h : Accounted arguments s.memory (a :: calls))
    (hrun : (Effect.bindParams place a params).run s = (.ok b, t)) :
    Accounted arguments t.memory (b :: calls) := by
  induction params generalizing a s with
  | nil =>
    cases hrun
    exact h
  | cons head rest ih =>
    obtain ⟨id, u, hu, hrun⟩ := run_bind_eq_ok_iff.1 hrun
    obtain ⟨_, v, hv, hrun⟩ := run_bind_eq_ok_iff.1 hrun
    obtain ⟨stored, hv⟩ := run_discard_eq_ok hv
    have hadds := Arena.adds_of_allocate (run_onMemory_eq_ok hu).1
    obtain ⟨hvoid, hshapes⟩ := run_store_eq_ok hv
    exact ih ((h.declare hvoid hadds).of_shapes hshapes) hrun

theorem gain (hgain : Gain s t) (h : Accounted arguments s.memory s.calls.items) :
    Accounted arguments t.memory t.calls.items := by
  cases hgain with
  | change hc => exact h.change hc
  | openScope hs ht hm =>
    rw [hs] at h
    rw [ht, hm]
    exact h.openScope
  | enterCall hu ht hm =>
    rw [ht, hm]
    exact bindParams ((cons_iff rfl).2 h) hu

theorem loss (hloss : Loss s t) (h : Accounted arguments s.memory s.calls.items) :
    Accounted arguments t.memory t.calls.items := by
  cases hloss with
  | contents hm hc =>
    rw [hc]
    exact h.of_shapes hm
  | closeScope hs ht hm =>
    rw [hs] at h
    rw [ht, hm]
    exact h.closeScope
  | leaveCall hs hm =>
    rw [hs] at h
    rw [hm]
    exact h.leave

theorem gains (hgains : Gains s t) (h : Accounted arguments s.memory s.calls.items) :
    Accounted arguments t.memory t.calls.items := by
  induction hgains with
  | refl => exact h
  | tail _ hgain ih => exact ih.gain hgain

theorem losses (hlosses : Losses s t) (h : Accounted arguments s.memory s.calls.items) :
    Accounted arguments t.memory t.calls.items := by
  induction hlosses with
  | refl => exact h
  | tail _ hloss ih => exact ih.loss hloss

theorem reworks {jobs jobs' : List Job} (hreworks : Reworks jobs s jobs' t)
    (h : Accounted arguments s.memory s.calls.items) : Accounted arguments t.memory t.calls.items := by
  cases hreworks with
  | adds _ _ hgains => exact h.gains hgains
  | drops _ hlosses => exact h.losses hlosses

/-- Before anything was allocated. -/
theorem empty : Accounted [] .empty [] := by
  refine ⟨List.nodup_nil, fun id => ?_, rfl, by simp, by simp⟩
  have hnone : Arena.empty.shape? id = none := by
    unfold Arena.shape?
    cases Arena.slot? id with
    | none => rfl
    | some i => simp [Arena.shapes, Arena.empty]
  rw [hnone]
  simp [ownedBuffers]

theorem bindArgumentsFrom {place : Location} {table : BufferId} {slot : Nat}
    {args : List (List UInt8)} {u : Unit} (h : Accounted arguments s.memory calls)
    (hrun : (Effect.bindArgumentsFrom place table slot args).run s = (.ok u, t)) :
    ∃ more, more.map (·.2) = args.map (·.length + 1) ∧
      Accounted (arguments ++ more) t.memory calls := by
  induction args generalizing slot s arguments with
  | nil =>
    cases hrun
    exact ⟨[], rfl, by rwa [List.append_nil]⟩
  | cons arg args ih =>
    obtain ⟨id, v, hv, hrun⟩ := run_bind_eq_ok_iff.1 hrun
    obtain ⟨_, w, hw, hrun⟩ := run_bind_eq_ok_iff.1 hrun
    obtain ⟨_, x, hx, hw⟩ := run_bind_eq_ok_iff.1 hw
    cases hw
    obtain ⟨_, hx⟩ := run_discard_eq_ok hx
    have hadds := Arena.adds_of_allocateWith (run_onMemory_eq_ok hv).1
    obtain ⟨-, hshapes⟩ := run_store_eq_ok hx
    obtain ⟨more, hmore, hacc⟩ := ih ((h.addsArgument hadds).of_shapes hshapes) hrun
    refine ⟨(id, arg.length + 1) :: more, by simp [hmore], ?_⟩
    rw [List.append_assoc] at hacc
    simpa using hacc

end Accounted

/-- The lengths of the buffers that hold the table of arguments and the arguments. -/
def argumentLengths (args : List (List UInt8)) : List Nat :=
  (args.length + 1) * pointerBytes :: args.map (·.length + 1)

theorem accounted_begin {args : List (List UInt8)} {sink : Sink}
    (h : i.begin args sink = .underWay m s) :
    ∃ arguments, arguments.map (·.2) = argumentLengths args ∧
      Accounted arguments s.memory s.calls.items := by
  unfold begin at h
  split at h
  · rename_i main t hmain
    cases h
    obtain ⟨-, values, u, hu, henter⟩ := run_enterMain_eq_ok hmain
    have hcalls := calls_of_bindArguments hu
    obtain ⟨table, v, hv, hw⟩ := run_bindArguments_eq_ok hu
    have htable := Accounted.empty.addsArgument (Arena.adds_of_allocate (run_onMemory_eq_ok hv).1)
    obtain ⟨more, hmore, hacc⟩ := htable.bindArgumentsFrom hw
    refine ⟨(table, (args.length + 1) * pointerBytes) :: more, by simp [argumentLengths, hmore], ?_⟩
    refine Accounted.gains (gains_enterCall henter) ?_
    rw [hcalls]
    exact hacc
  · cases h

/-- Each job keeps the account. -/
theorem accounted_of_reaches {args : List (List UInt8)} {sink : Sink}
    {arguments : List (BufferId × Nat)}
    (hbegin : ∀ m s, i.begin args sink = .underWay m s → Accounted arguments s.memory s.calls.items)
    (h : i.Reaches args sink m s) : Accounted arguments s.memory s.calls.items := by
  obtain ⟨fuel, h⟩ := h
  refine invariant_of_advance (P := fun _ s => Accounted arguments s.memory s.calls.items) hbegin ?_ h
  intro k _ m₁ s₁ m₂ s₂ h₁ _ hstep hacc
  exact hacc.reworks ((above_of_reaches ⟨k, h₁⟩).reworks hstep)

/-! ## Scopes and the jobs that end them -/

/-- Each open scope is ended by a job. -/
theorem Awaiting.length_scopes {jobs : Stack Job} {operands : Stack Value} {bases : List Heights}
    {callers : List Activation} (h : Awaiting Bottom jobs operands bases callers) :
    (callers.flatMap Activation.scopes).length = jobs.items.countP Job.endsScope := by
  induction h with
  | ground h =>
    obtain ⟨rfl, -, -, rfl⟩ := h
    rfl
  | call f _ hf ih =>
    have hf := hf (.int 0)
    have hend := hf.demand.countP_isBodyEnd
    have hscopes := hf.scopes
    dsimp only at hend hscopes
    rw [List.flatMap_cons, List.length_append, ih, hscopes, Stack.items_pushAll, List.countP_append,
      Job.countP_endsScope f.jobs, hend]
    omega

theorem Above.length_openScopes (h : Above Bottom m s) :
    s.openScopes.length = m.pending.jobs.items.countP Job.endsScope := by
  obtain ⟨f, jobs, operands, bases, callers, hbelow, hbody, htop⟩ := h
  have hend := hbody.demand.countP_isBodyEnd
  rw [openScopes_of_cons htop.calls, List.length_append, hbody.scopes, hbelow.length_scopes,
    htop.machine, Stack.items_pushAll, List.countP_append, Job.countP_endsScope f.jobs, hend]
  omega

/-- A scope is still open on top of the given ones, and the job that is to end it lies on the given
jobs. -/
structure Within (jobs : List Job) (scopes : List Scope) (m : Machine) (s : ProgramState) : Prop where
  jobs : ∃ own guard, guard.endsScope = true ∧ m.pending.jobs.items = own ++ guard :: jobs
  scopes : scopes <:+ s.openScopes

/-- The scope is not open any more, nor is its job still to be done. -/
structure Beyond (jobs : List Job) (scopes : List Scope) (m : Machine) (s : ProgramState) : Prop where
  jobs : m.pending.jobs.items <:+ jobs
  scopes : s.openScopes <:+ scopes

variable {jobs : List Job} {scopes : List Scope}

theorem Within.lt_height (h : Within jobs scopes m s) : jobs.length < m.pending.jobs.height := by
  obtain ⟨own, guard, -, hjobs⟩ := h.jobs
  rw [Stack.height_eq, hjobs, List.length_append, List.length_cons]
  omega

theorem Beyond.height_le (h : Beyond jobs scopes m s) : m.pending.jobs.height ≤ jobs.length := by
  rw [Stack.height_eq]
  exact h.jobs.length_le

/-- As long as the scope is open, those below it are what they were. -/
theorem Within.step (h : Within jobs scopes m s) (habove : Above Bottom m s)
    (hdepth : scopes.length = jobs.countP Job.endsScope)
    (hstep : (i.step m).run s = (.ok (.running m'), s')) :
    Within jobs scopes m' s' ∨ Beyond jobs scopes m' s' := by
  obtain ⟨⟨own, guard, hguard, hjobs⟩, hscopes⟩ := h
  have hreworks := habove.reworks hstep
  have hlength := habove.length_openScopes
  have hlength' := (habove.step_bottom hstep).length_openScopes
  rw [hjobs] at hreworks hlength
  -- more jobs than the given ones end more scopes than the given ones
  have hmore (own : List Job) : scopes.length < (own ++ guard :: jobs).countP Job.endsScope := by
    rw [List.countP_append, List.countP_cons_of_pos hguard]
    omega
  generalize hitems : m'.pending.jobs.items = items at hreworks hlength'
  cases own with
  | nil =>
    cases hreworks with
    | adds _ hends => exact absurd hguard (by simp [hends])
    | drops hrest hlosses =>
      refine .inr ⟨hitems ▸ hrest, ?_⟩
      refine List.suffix_of_suffix_length_le hlosses.openScopes hscopes ?_
      rw [hlength', hdepth]
      exact hrest.sublist.countP_le
  | cons job own =>
    cases hreworks with
    | adds new _ hgains =>
      refine .inl ⟨⟨new ++ own, guard, hguard, hitems.trans (List.append_assoc ..).symm⟩, ?_⟩
      obtain ⟨inner, hinner⟩ := hscopes
      cases inner with
      | nil =>
        have := hmore (job :: own)
        rw [← hlength, ← hinner, List.nil_append] at this
        exact absurd this (Nat.lt_irrefl _)
      | cons scope inner =>
        obtain ⟨more, scope', hopen⟩ := hgains.openScopes hinner.symm
        exact ⟨more ++ scope' :: inner, (List.append_assoc ..).trans hopen.symm⟩
    | drops hrest hlosses =>
      by_cases hle : (guard :: jobs).length ≤ items.length
      · obtain ⟨own', rfl⟩ :=
          List.suffix_of_suffix_length_le (List.suffix_append own (guard :: jobs)) hrest hle
        refine .inl ⟨⟨own', guard, hguard, hitems⟩, ?_⟩
        refine List.suffix_of_suffix_length_le hscopes hlosses.openScopes ?_
        rw [hlength']
        exact Nat.le_of_lt (hmore own')
      · have hitems' : items <:+ jobs := by
          have hjobs' : jobs <:+ own ++ guard :: jobs :=
            (List.suffix_cons guard jobs).trans (List.suffix_append own _)
          refine List.suffix_of_suffix_length_le hrest hjobs' ?_
          rw [List.length_cons] at hle
          omega
        refine .inr ⟨hitems ▸ hitems', ?_⟩
        refine List.suffix_of_suffix_length_le hlosses.openScopes hscopes ?_
        rw [hlength', hdepth]
        exact hitems'.sublist.countP_le

/-- Whether the job begins a block, a `for` loop or a call. -/
def Job.opensScope : Job → Bool
  | execute (.block ..) | execute (.forLoop ..) | call .. => true
  | _ => false

/-- What opens a scope schedules a job that ends it, as the last one. -/
theorem within_of_opensScope {job : Job} {jobs : Stack Job} (hopens : job.opensScope = true)
    (hjobs : m.pending.jobs = jobs.push job) (hstep : (i.step m).run s = (.ok (.running m'), s')) :
    Within jobs.items s.openScopes m' s' := by
  obtain ⟨⟨_, operands⟩, bases⟩ := m
  subst hjobs
  have hperform : (i.perform job ⟨jobs, operands⟩ bases).run s = (.ok (.running m'), s') := hstep
  have scope (place : Location) {p : Pending} (new : List Job)
      (h : (do
        countStep i.limits place
        openScope place
        return Pending.schedule ⟨jobs, operands⟩ (new ++ [.closeScope place]) : Effect Pending).run s =
          (.ok p, s')) : Within jobs.items s.openScopes ⟨p, bases⟩ s' := by
    obtain ⟨_, t, ht, h⟩ := run_bind_eq_ok_iff.1 h
    obtain ⟨_, u, hu, h⟩ := run_bind_eq_ok_iff.1 h
    cases h
    obtain ⟨a, callers, hs, ht', -⟩ := run_openScope_eq_ok hu
    obtain rfl := run_countStep_eq_ok ht
    refine ⟨⟨new, .closeScope place, rfl, ?_⟩, ⟨[[]], ?_⟩⟩
    · exact List.append_assoc ..
    · rw [openScopes_of_cons (s := s) hs, openScopes_of_cons ht']
      rfl
  cases job with
  | call f place =>
    obtain ⟨⟨args, p⟩, t, ht, h⟩ := run_bind_eq_ok_iff.1 hperform
    obtain ⟨_, u, hu, h⟩ := run_bind_eq_ok_iff.1 h
    cases h
    obtain ⟨-, a, v, -, rfl⟩ := run_enterCall_eq_ok hu
    unfold Pending.popMany at ht
    split at ht
    · cases ht
      refine ⟨⟨f.body.map .execute, .bodyEnd f.place, rfl, ?_⟩, ⟨a.scopes, rfl⟩⟩
      exact List.append_assoc ..
    · cases ht
  | execute node =>
    obtain ⟨p, t, ht, h⟩ := run_bind_eq_ok_iff.1 hperform
    cases h
    cases node with
    | block place statements => exact scope place _ ht
    | forLoop place init condition increment body =>
      refine scope place (init.toList.map .execute ++
        [.forCondition ⟨place, condition, increment, body⟩, .loopEnd]) ?_
      rw [List.append_assoc]
      exact ht
    | _ => cases hopens
  | _ => cases hopens

namespace Interpreter

/-- After `n` jobs, and not before, nothing is left to do but some of the given jobs. -/
structure ComesBelow (i : Interpreter) (n : Nat) (m : Machine) (s : ProgramState) (jobs : Stack Job)
    (m' : Machine) (s' : ProgramState) : Prop where
  run : i.advance n (.underWay m s) = .underWay m' s'
  low : m'.pending.jobs.height ≤ jobs.height
  first : ∀ k < n, ∀ m'' s'', i.advance k (.underWay m s) = .underWay m'' s'' →
    jobs.height < m''.pending.jobs.height

end Interpreter

/-- What was opened by a job is closed again when the machine is done with it. -/
theorem beyond_of_comesBelow {job : Job} {jobs : Stack Job} {n : Nat} (habove : Above Bottom m s)
    (hopens : job.opensScope = true) (hjobs : m.pending.jobs = jobs.push job)
    (hcomes : i.ComesBelow n m s jobs m' s') : Beyond jobs.items s.openScopes m' s' := by
  have hdepth : s.openScopes.length = jobs.items.countP Job.endsScope := by
    have hends : job.endsScope = false := by
      cases job with
      | closeScope | bodyEnd => cases hopens
      | _ => rfl
    rw [habove.length_openScopes, hjobs, Stack.items_push, List.countP_cons_of_neg (by simp [hends])]
  have hpast : 0 < n := by
    refine Nat.pos_of_ne_zero ?_
    rintro rfl
    cases hcomes.run
    have := hcomes.low
    rw [hjobs, Stack.height_push] at this
    omega
  have hrun : Above Bottom m' s' ∧
      (Within jobs.items s.openScopes m' s' ∨ Beyond jobs.items s.openScopes m' s') := by
    obtain ⟨n, rfl⟩ := Nat.exists_eq_succ_of_ne_zero (Nat.ne_of_gt hpast)
    have hrun := hcomes.run
    rw [advance_succ] at hrun
    refine invariant_of_advance (P := fun m₁ s₁ => Above Bottom m₁ s₁ ∧
      (Within jobs.items s.openScopes m₁ s₁ ∨ Beyond jobs.items s.openScopes m₁ s₁)) ?_ ?_ hrun
    · intro m₁ s₁ h₁
      have hstep := next_eq_underWay h₁
      exact ⟨habove.step_bottom hstep, .inl (within_of_opensScope hopens hjobs hstep)⟩
    · rintro k hk m₁ s₁ m₂ s₂ h₁ - hstep ⟨habove₁, h⟩
      refine ⟨habove₁.step_bottom hstep, ?_⟩
      rcases h with h | h
      · exact h.step habove₁ hdepth hstep
      · have hfirst := hcomes.first (k + 1) (Nat.succ_lt_succ hk) m₁ s₁ (by rw [advance_succ, h₁])
        rw [jobs.height_eq] at hfirst
        exact absurd hfirst (Nat.not_lt_of_le h.height_le)
  rcases hrun.2 with h | h
  · have hlow := hcomes.low
    rw [jobs.height_eq] at hlow
    exact absurd h.lt_height (Nat.not_lt_of_le hlow)
  · exact h

/-! ## Variables and their buffers -/

namespace Accounted

variable {arguments : List (BufferId × Nat)}

theorem exists_activation {scope : Scope} (hscope : scope ∈ s.openScopes) :
    ∃ a ∈ s.calls.items, scope ∈ a.scopes :=
  List.mem_flatMap.1 hscope

/-- The buffer of a variable in an open scope. -/
theorem shape?_of_mem (h : Accounted arguments s.memory s.calls.items) {scope : Scope}
    (hscope : scope ∈ s.openScopes) {x : String × Binding} (hx : x ∈ scope) :
    s.memory.shape? x.2.buffer = some (.scoped, x.2.type.size) := by
  obtain ⟨a, ha, hscope⟩ := exists_activation hscope
  exact ((h.fits a ha).scopes scope hscope x hx).2

/-- Live buffers of variables belong to open scopes. -/
theorem exists_mem_of_shape? (h : Accounted arguments s.memory s.calls.items) {id : BufferId}
    {length : Nat} (hid : s.memory.shape? id = some (.scoped, length)) :
    ∃ scope ∈ s.openScopes, ∃ x ∈ scope, x.2.buffer = id := by
  have hmem : id ∈ ownedBuffers arguments s.calls.items := by
    rw [← h.live_iff, hid]
    rfl
  rcases List.mem_append.1 hmem with hmem | hmem
  · obtain ⟨x, hx, rfl⟩ := List.mem_map.1 hmem
    cases (h.arguments x hx).symm.trans hid
  · obtain ⟨a, ha, hmem⟩ := List.mem_flatMap.1 hmem
    rcases List.mem_append.1 hmem with hmem | hmem
    · obtain ⟨scope, hscope, hmem⟩ := List.mem_flatMap.1 hmem
      obtain ⟨x, hx, rfl⟩ := List.mem_map.1 hmem
      exact ⟨scope, List.mem_flatMap.2 ⟨a, ha, hscope⟩, x, hx, rfl⟩
    · obtain ⟨x, hx, rfl⟩ := List.mem_map.1 hmem
      obtain ⟨_, hliteral⟩ := (h.fits a ha).literals x hx
      cases hliteral.symm.trans hid

/-- The variables of scopes that were open before had their buffers before. -/
theorem shape?_of_openScopes (h : Accounted arguments s.memory s.calls.items)
    (h' : Accounted arguments s'.memory s'.calls.items) (hscopes : s'.openScopes <:+ s.openScopes)
    {id : BufferId} {length : Nat} (hid : s'.memory.shape? id = some (.scoped, length)) :
    s.memory.shape? id = some (.scoped, length) := by
  obtain ⟨scope, hscope, x, hx, rfl⟩ := h'.exists_mem_of_shape? hid
  rw [h.shape?_of_mem (hscopes.subset hscope) hx, ← h'.shape?_of_mem hscope hx, hid]

/-- The value of a variable in scope is found, and nothing is changed by looking. -/
theorem exists_variableValue (h : Accounted arguments s.memory s.calls.items) {a : Activation}
    {callers : List Activation} (hs : s.calls.items = a :: callers) {name : String} {x : Binding}
    (hx : a.lookup? name = some x) (place : Location) :
    ∃ v, (variableValue place name).run s = (.ok v, s) := by
  rw [hs] at h
  obtain ⟨v, hv⟩ := h.exists_load hx
  refine ⟨v, ?_⟩
  have hlookup : s.calls.top?.bind (·.lookup? name) = some x := by
    rw [Stack.top?, hs, List.head?_cons, Option.bind_some, hx]
  rw [variableValue, run_bind_of_ok (run_lookup_of_some place hlookup)]
  exact run_readMemory_of_ok place hv

end Accounted

/-! ## Throughout a run -/

/-- What can be relied on about buffers at one moment of a run. -/
structure Interpreter.Tidy (i : Interpreter) (arguments : List (BufferId × Nat)) (m : Machine)
    (s : ProgramState) : Prop where
  /-- Each live buffer has its one owner. -/
  account : Accounted arguments s.memory s.calls.items
  /-- The variables in scope can be read. -/
  readable : ∀ a callers name x, s.calls.items = a :: callers → a.lookup? name = some x →
    ∀ place, ∃ v, (variableValue place name).run s = (.ok v, s)
  /-- The variables that are there when a block, a `for` loop or a call has been left were there
  before it. -/
  released : ∀ job jobs, m.pending.jobs = jobs.push job → job.opensScope = true →
    ∀ n m' s', i.ComesBelow n m s jobs m' s' → ∀ id length,
      s'.memory.shape? id = some (.scoped, length) → s.memory.shape? id = some (.scoped, length)

/-- A run that has ended without an error has ended with its first call. -/
theorem exists_exit {fuel : Nat} {r : Run} {code : Int32}
    (h : i.advance fuel r = .ended (.ok code) t) (hr : ∀ code, r ≠ .ended (.ok code) t) :
    ∃ n m s, i.advance n r = .underWay m s ∧ (i.step m).run s = (.ok (.exited code), t) := by
  induction fuel generalizing r with
  | zero => exact absurd h (hr code)
  | succ fuel ih =>
    cases r with
    | ended result s =>
      rw [advance_ended] at h
      exact absurd h (hr code)
    | underWay m s =>
      rw [advance_succ] at h
      by_cases hn : i.next (.underWay m s) = .ended (.ok code) t
      · have hlast : Run.ofStep ((i.step m).run s) = .ofStep (.ok (.exited code), t) := hn
        exact ⟨0, m, s, rfl, Run.ofStep_inj hlast⟩
      · obtain ⟨n, m', s', hn', hstep⟩ := ih h fun code' h' => by
          rw [h', advance_ended] at h
          cases h
          exact hn h'
        exact ⟨n + 1, m', s', by rw [advance_succ, hn'], hstep⟩

/-- A run does not end well before it has begun. -/
theorem ne_ended_begin {args : List (List UInt8)} {sink : Sink} (code : Int32) :
    i.begin args sink ≠ .ended (.ok code) t := by
  intro h
  unfold begin at h
  split at h <;> cases h

/-- The buffers of the arguments, which the first call of a run begins with. -/
theorem Interpreter.exists_arguments (i : Interpreter) (args : List (List UInt8)) (sink : Sink) :
    ∃ arguments : List (BufferId × Nat), arguments.map (·.2) = argumentLengths args ∧
      ∀ m s, i.begin args sink = .underWay m s → Accounted arguments s.memory s.calls.items := by
  cases hbegin : i.begin args sink with
  | ended result s =>
    refine ⟨(argumentLengths args).map (BufferId.null, ·), ?_, fun m s h => nomatch h⟩
    rw [List.map_map]
    exact List.map_id _
  | underWay m s =>
    obtain ⟨arguments, hlengths, hacc⟩ := accounted_begin hbegin
    refine ⟨arguments, hlengths, ?_⟩
    rintro _ _ ⟨⟩
    exact hacc

/-- In every run each live buffer has one owner at any moment, which it does not outlive, and a run
that ends without an error leaves the buffers of its arguments only. -/
theorem exists_tidy (program : Program) (limits : Limits) (args : List (List UInt8)) (sink : Sink) :
    let i := Interpreter.ofProgram program limits
    ∃ arguments : List (BufferId × Nat), arguments.map (·.2) = argumentLengths args ∧
      (∀ m s, i.Reaches args sink m s → i.Tidy arguments m s) ∧
      ∀ fuel code s, i.run fuel args sink = some (.ok code, s) →
        Accounted arguments s.memory [] ∧ s.memory.live = args.length + 1 := by
  intro i
  obtain ⟨arguments, hlengths, hbegin⟩ := i.exists_arguments args sink
  have hreaches {m : Machine} {s : ProgramState} (h : i.Reaches args sink m s) :
      Accounted arguments s.memory s.calls.items := accounted_of_reaches hbegin h
  refine ⟨arguments, hlengths, fun m s h => ⟨hreaches h, ?_, ?_⟩, ?_⟩
  · intro a callers name x hs hx place
    exact (hreaches h).exists_variableValue hs hx place
  · intro job jobs hjobs hopens n m' s' hcomes id length hid
    have hbeyond := beyond_of_comesBelow (above_of_reaches h) hopens hjobs hcomes
    have h' : i.Reaches args sink m' s' := by
      obtain ⟨k, hk⟩ := h
      exact ⟨k + n, by rw [advance_add, hk, hcomes.run]⟩
    exact (hreaches h).shape?_of_openScopes (hreaches h') hbeyond.scopes hid
  · intro fuel code t hrun
    obtain ⟨n, m, s, hn, hstep⟩ := exists_exit (advance_of_run hrun) ne_ended_begin
    obtain ⟨⟨_, _, -, -, -, hcalls⟩, hlosses⟩ := (above_of_reaches ⟨n, hn⟩).exited hstep
    have hacc := (hreaches ⟨n, hn⟩).losses hlosses
    rw [hcalls] at hacc
    refine ⟨hacc, ?_⟩
    rw [hacc.live_eq, ← List.length_map (f := (·.2)), hlengths]
    simp [argumentLengths]

end BoundedC
