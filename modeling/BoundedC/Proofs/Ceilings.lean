import BoundedC.Proofs.Metering
import BoundedC.Proofs.Refinement

/-!
# Ceilings cut runs short and do nothing else

A run under lower ceilings is the same run, unless it stops at one of them; then what it has written
is the beginning of what the run under the higher ceilings writes. The reason is that ceilings are
looked at in two places only: where a statement is counted and where a call begins (`Metered`).

* `Metered.curtails`, `Metered.grows`, `Metered.obeys` : what follows for a single effect;
* `metered_step`, `metered_enterMain` : the steps and the beginning of a run are such effects;
* `advance_of_le` : two runs side by side;
* `keepsCeilings_advance` : the counts of statements and of calls at every moment of a run;
* `run_of_limits_le` : the whole of it, for programs.
-/

namespace BoundedC

/-- The ceilings of `c'` are nowhere below those of `c`; no ceiling on statements is the highest. -/
instance : LE Limits where
  le c c' := c.maxDepth ≤ c'.maxDepth ∧ ∀ limit' ∈ c'.maxSteps, ∃ limit ∈ c.maxSteps, limit ≤ limit'

def Interpreter.withLimits (i : Interpreter) (c : Limits) : Interpreter := ⟨i.functions, c⟩

def exceedsSteps {α : Type} : Except Stop α → Bool
  | .error e => e.isStepLimit
  | .ok _ => false

def hitsCeiling {α : Type} : Except Stop α → Bool
  | .error e => e.isCeiling
  | .ok _ => false

/-- As many calls are in progress and as many statements counted as the ceilings allow, and exactly one
statement more if that was reported. -/
structure Limits.Bounds (c : Limits) (exceeded : Bool) (s : ProgramState) : Prop where
  calls : s.calls.height ≤ c.maxDepth
  steps : ∀ limit ∈ c.maxSteps, if exceeded then s.steps = limit + 1 else s.steps ≤ limit

theorem exceedsSteps_of_not_isCeiling {α : Type} {e : Stop} (h : e.isCeiling = false) :
    exceedsSteps (.error e : Except Stop α) = false :=
  (Bool.or_eq_false_iff.1 h).1

namespace Effect

variable {α β : Type} {c c' : Limits}

/-! ## Where ceilings are looked at -/

/-- An effect that depends on ceilings where it counts statements and begins calls, and nowhere else. -/
inductive Metered : {α : Type} → (Limits → Effect α) → Prop
  | unmetered {α : Type} {x : Effect α} (hx : Unmetered x) : Metered fun _ => x
  | countStep (place : Location) : Metered fun c => Effect.countStep c place
  | enterCall (f : Function) (args : List Value) (callSite : Option Location) :
      Metered fun c => Effect.enterCall c f args callSite
  | bind {α β : Type} {x : Limits → Effect α} {f : α → Limits → Effect β} (hx : Metered x)
      (hf : ∀ a, Metered (f a)) : Metered fun c => x c >>= fun a => f a c

theorem run_countStep (c : Limits) (place : Location) (s : ProgramState) :
    (countStep c place).run s =
      match c.maxSteps with
      | none => (.ok (), { s with steps := s.steps + 1 })
      | some limit =>
        if limit < s.steps + 1 then
          (.error (.fault (.stepLimit limit) place), { s with steps := s.steps + 1 })
        else (.ok (), { s with steps := s.steps + 1 }) := by
  have hmodify : (modify fun s => { s with steps := s.steps + 1 } : Effect Unit).run s =
      (.ok (), { s with steps := s.steps + 1 }) := rfl
  unfold countStep
  rw [run_bind_of_ok hmodify]
  cases c.maxSteps with
  | none => rfl
  | some limit =>
    dsimp only
    rw [run_bind_of_ok (run_get _)]
    split <;> rfl

/-- What a call does before it begins: its parameters become variables. -/
def entered (f : Function) (args : List Value) (callSite : Option Location) : Effect Activation :=
  bindParams (callSite.getD f.place) (.start f.name f.returnType callSite) (f.params.zip args)

theorem run_enterCall (c : Limits) (f : Function) (args : List Value) (callSite : Option Location)
    (s : ProgramState) :
    (enterCall c f args callSite).run s =
      if c.maxDepth ≤ s.calls.height then
        (.error (.fault (.stackOverflow c.maxDepth) (callSite.getD f.place)), s)
      else
        (entered f args callSite >>= fun a => modify fun s => { s with calls := s.calls.push a }).run s := by
  unfold enterCall
  dsimp only
  rw [run_bind_of_ok (run_get _)]
  split <;> rfl

theorem unmetered_entered (f : Function) (args : List Value) (callSite : Option Location) :
    Unmetered (entered f args callSite) := unmetered_bindParams _ _ _

/-! ## The output grows -/

/-- What was written stays written. -/
def Grows (x : Effect α) : Prop := ∀ s, s.output <+: (x.run s).2.output

theorem grows_bind {x : Effect α} {f : α → Effect β} (hx : Grows x) (hf : ∀ a, Grows (f a)) :
    Grows (x >>= f) := by
  intro s
  have hst := hx s
  rw [run_bind]
  rcases hrun : x.run s with ⟨e | a, t⟩
  · rwa [hrun] at hst
  · rw [hrun] at hst
    exact hst.trans (hf a t)

theorem Metered.grows {x : Limits → Effect α} (h : Metered x) (c : Limits) : Grows (x c) := by
  induction h with
  | unmetered hx => exact fun s => (hx s).1.output
  | countStep place =>
    intro s
    rw [run_countStep]
    split
    · exact List.prefix_refl _
    · split <;> exact List.prefix_refl _
  | enterCall f args callSite =>
    intro s
    rw [run_enterCall]
    split
    · exact List.prefix_refl _
    · have hpush (a : Activation) :
          Grows (modify fun s : ProgramState => { s with calls := s.calls.push a }) :=
        fun s => List.prefix_refl _
      exact grows_bind (fun s => (unmetered_entered f args callSite s).1.output) hpush s
  | bind hx hf ihx ihf => exact grows_bind ihx ihf

/-! ## Lower ceilings -/

/-- The effect `x` does what `x'` does, or it stops at a ceiling, having written the beginning of what
`x'` leaves written. -/
def Curtails (x x' : Effect α) : Prop :=
  ∀ s, x.run s = x'.run s ∨
    ∃ e t, x.run s = (.error e, t) ∧ e.isCeiling = true ∧ t.output <+: (x'.run s).2.output

theorem curtails_countStep (hc : c ≤ c') (place : Location) :
    Curtails (countStep c place) (countStep c' place) := by
  intro s
  have hgrows : s.output <+: ((countStep c' place).run s).2.output :=
    (Metered.countStep place).grows c' s
  cases hsteps : c.maxSteps with
  | none =>
    -- without a ceiling on the one side there is none on the other
    have hsteps' : c'.maxSteps = none := by
      cases h : c'.maxSteps with
      | none => rfl
      | some limit' =>
        obtain ⟨limit, hlimit, -⟩ := hc.2 limit' h
        rw [hsteps] at hlimit
        cases hlimit
    left
    rw [run_countStep, run_countStep, hsteps, hsteps']
  | some limit =>
    by_cases hover : limit < s.steps + 1
    · have hrun : (countStep c place).run s =
          (.error (.fault (.stepLimit limit) place), { s with steps := s.steps + 1 }) := by
        rw [run_countStep, hsteps]
        exact if_pos hover
      exact .inr ⟨_, _, hrun, rfl, hgrows⟩
    · left
      rw [run_countStep, run_countStep, hsteps]
      cases hsteps' : c'.maxSteps with
      | none => exact if_neg hover
      | some limit' =>
        obtain ⟨l, hl, hle⟩ := hc.2 limit' hsteps'
        rw [hsteps] at hl
        cases hl
        have hover' : ¬limit' < s.steps + 1 := by omega
        exact (if_neg hover).trans (if_neg hover').symm

theorem curtails_enterCall (hc : c ≤ c') (f : Function) (args : List Value)
    (callSite : Option Location) :
    Curtails (enterCall c f args callSite) (enterCall c' f args callSite) := by
  intro s
  by_cases hdepth : c.maxDepth ≤ s.calls.height
  · right
    refine ⟨_, s, by rw [run_enterCall, if_pos hdepth], rfl, ?_⟩
    exact (Metered.enterCall f args callSite).grows c' s
  · left
    have hdepth' : ¬c'.maxDepth ≤ s.calls.height := by
      have := hc.1
      omega
    rw [run_enterCall, run_enterCall, if_neg hdepth, if_neg hdepth']

theorem curtails_bind {x x' : Effect α} {f f' : α → Effect β} (hx : Curtails x x')
    (hf : ∀ a, Curtails (f a) (f' a)) (hgrows : ∀ a, Grows (f' a)) :
    Curtails (x >>= f) (x' >>= f') := by
  intro s
  rcases hx s with hsame | ⟨e, t, hrun, he, ht⟩
  · rw [run_bind, run_bind, hsame]
    rcases hrun : x'.run s with ⟨e | a, t⟩
    · exact .inl rfl
    · exact hf a t
  · right
    refine ⟨e, t, run_bind_of_error hrun f, he, ht.trans ?_⟩
    rw [run_bind]
    rcases hrun' : x'.run s with ⟨e' | a, u⟩
    · exact List.prefix_refl _
    · exact hgrows a u

/-- Lower ceilings stop an effect, and otherwise leave it as it is. -/
theorem Metered.curtails {x : Limits → Effect α} (h : Metered x) (hc : c ≤ c') :
    Curtails (x c) (x c') := by
  induction h with
  | unmetered => exact fun s => .inl rfl
  | countStep place => exact curtails_countStep hc place
  | enterCall f args callSite => exact curtails_enterCall hc f args callSite
  | bind hx hf ihx ihf => exact curtails_bind ihx ihf fun a => (hf a).grows c'

/-! ## Counts below the ceilings -/

/-- The effect keeps the counts below the ceilings, or reports the first statement beyond. -/
def Obeys (c : Limits) (x : Effect α) : Prop :=
  ∀ s, c.Bounds false s → c.Bounds (exceedsSteps (x.run s).1) (x.run s).2

theorem Unmetered.obeys {x : Effect α} (hx : Unmetered x) (c : Limits) : Obeys c x := by
  intro s hs
  obtain ⟨hst, herror⟩ := hx s
  have hexceeds : exceedsSteps (x.run s).1 = false := by
    cases h : (x.run s).1 with
    | ok a => rfl
    | error e => exact exceedsSteps_of_not_isCeiling (herror e h)
  rw [hexceeds]
  refine ⟨Nat.le_trans hst.calls hs.calls, ?_⟩
  rw [hst.steps]
  exact hs.steps

theorem obeys_bind {x : Effect α} {f : α → Effect β} (hx : Obeys c x) (hf : ∀ a, Obeys c (f a)) :
    Obeys c (x >>= f) := by
  intro s hs
  have hst := hx s hs
  rw [run_bind]
  rcases hrun : x.run s with ⟨e | a, t⟩
  · rwa [hrun] at hst
  · rw [hrun] at hst
    exact hf a t hst

theorem obeys_countStep (c : Limits) (place : Location) : Obeys c (countStep c place) := by
  intro s hs
  rw [run_countStep]
  cases hsteps : c.maxSteps with
  | none => exact ⟨hs.calls, by rw [hsteps]; nofun⟩
  | some limit =>
    have hle : s.steps ≤ limit := hs.steps limit hsteps
    dsimp only
    by_cases hover : limit < s.steps + 1
    · rw [if_pos hover]
      refine ⟨hs.calls, ?_⟩
      intro limit' hlimit'
      cases hsteps.symm.trans hlimit'
      show s.steps + 1 = limit + 1
      omega
    · rw [if_neg hover]
      refine ⟨hs.calls, ?_⟩
      intro limit' hlimit'
      cases hsteps.symm.trans hlimit'
      show s.steps + 1 ≤ limit
      omega

theorem obeys_enterCall (c : Limits) (f : Function) (args : List Value)
    (callSite : Option Location) : Obeys c (enterCall c f args callSite) := by
  intro s hs
  rw [run_enterCall]
  by_cases hdepth : c.maxDepth ≤ s.calls.height
  · rw [if_pos hdepth]
    exact hs
  · rw [if_neg hdepth, run_bind]
    have hparams := (unmetered_entered f args callSite).obeys c s hs
    have hcalls := (unmetered_entered f args callSite s).1.calls
    rcases hrun : (entered f args callSite).run s with ⟨e | a, t⟩
    · rwa [hrun] at hparams
    · rw [hrun] at hparams hcalls
      refine ⟨?_, hparams.steps⟩
      show t.calls.height + 1 ≤ c.maxDepth
      have hle : t.calls.height ≤ s.calls.height := hcalls
      omega

theorem Metered.obeys {x : Limits → Effect α} (h : Metered x) (c : Limits) : Obeys c (x c) := by
  induction h with
  | unmetered hx => exact hx.obeys c
  | countStep place => exact obeys_countStep c place
  | enterCall f args callSite => exact obeys_enterCall c f args callSite
  | bind hx hf ihx ihf => exact obeys_bind ihx ihf

end Effect

open Effect

namespace Interpreter

variable {i : Interpreter} {c c' : Limits}

/-! ## Runs -/

theorem metered_perform (i : Interpreter) (job : Job) (p : Pending) (bases : List Heights) :
    Metered fun c => (i.withLimits c).perform job p bases := by
  cases hjob : job.isMetered with
  | false =>
    have hsame : (fun c => (i.withLimits c).perform job p bases) = fun _ => i.perform job p bases := by
      funext c
      cases job with
      | execute | call => cases hjob
      | giveBack hasValue place => cases hasValue <;> rfl
      | _ => rfl
    rw [hsame]
    exact .unmetered (unmetered_perform i hjob p bases)
  | true =>
    cases job with
    | execute node =>
      have heq : (fun c => (i.withLimits c).perform (.execute node) p bases) = fun c =>
          (countStep c node.place >>= fun _ => executed node p) >>= fun q =>
            pure (.running ⟨q, bases⟩) := by
        funext c
        show (i.withLimits c).execute node p >>= _ = _
        rw [execute_eq]
        rfl
      rw [heq]
      exact .bind (.bind (.countStep _) fun _ => .unmetered (unmetered_executed node p)) fun _ =>
        .unmetered (unmetered_pure _)
    | call f place =>
      exact .bind (.unmetered (Pending.unmetered_popMany place p _)) fun r =>
        .bind (.enterCall f r.1 (some place)) fun _ => .unmetered (unmetered_pure _)
    | _ => cases hjob

theorem metered_step (i : Interpreter) (m : Machine) : Metered fun c => (i.withLimits c).step m := by
  unfold step
  split
  · exact metered_perform i _ _ _
  · exact .unmetered (unmetered_pure _)

theorem metered_enterMain (i : Interpreter) (args : List (List UInt8)) :
    Metered fun c => (i.withLimits c).enterMain args := by
  unfold enterMain
  have hfunction (c : Limits) : (i.withLimits c).function? entryPoint = i.function? entryPoint := rfl
  simp only [hfunction]
  cases i.function? entryPoint with
  | none =>
    refine .unmetered fun s => ⟨.refl s, ?_⟩
    rintro _ ⟨⟩
    rfl
  | some main =>
    have hrest : Metered fun c => bindArguments main.place args >>= fun values =>
        enterCall c main (values.take main.params.length) none >>= fun _ => pure main :=
      .bind (.unmetered (unmetered_bindArguments _ args)) fun _ =>
        .bind (.enterCall _ _ _) fun _ => .unmetered (unmetered_pure main)
    dsimp only
    split
    · exact .bind (.unmetered (unmetered_fail _ rfl)) fun _ => hrest
    · exact hrest

theorem state_ofStep (outcome : Except Stop Progress × ProgramState) :
    (Run.ofStep outcome).state = outcome.2 := by
  rcases outcome with ⟨_ | _ | _, _⟩ <;> rfl

/-- Throughout a run the output grows. -/
theorem output_advance (i : Interpreter) (n : Nat) (r : Run) :
    r.state.output <+: (i.advance n r).state.output := by
  induction n generalizing r with
  | zero => exact List.prefix_refl _
  | succ n ih =>
    cases r with
    | ended result s =>
      exact List.prefix_refl _
    | underWay m s =>
      have hstep : s.output <+: ((i.step m).run s).2.output := (metered_step i m).grows i.limits s
      have hnext : s.output <+: (i.next (.underWay m s)).state.output := by
        show s.output <+: (Run.ofStep ((i.step m).run s)).state.output
        rwa [state_ofStep]
      rw [advance_succ]
      exact hnext.trans (ih _)

/-- A run that has ended under lower ceilings ends in the same way under higher ones, unless it has
stopped at a ceiling, with the beginning of the output. -/
theorem advance_of_le (hc : c ≤ c') {n : Nat} {r : Run} {result : Except Stop Int32}
    {t : ProgramState} (h : (i.withLimits c).advance n r = .ended result t) :
    (i.withLimits c').advance n r = .ended result t ∨
      hitsCeiling result = true ∧ ∀ n' result' t',
        (i.withLimits c').advance n' r = .ended result' t' → t.output <+: t'.output := by
  induction n generalizing r with
  | zero => exact .inl h
  | succ n ih =>
    cases r with
    | ended result' s =>
      left
      rw [advance_ended] at h ⊢
      exact h
    | underWay m s =>
      rw [advance_succ] at h
      rcases (metered_step i m).curtails hc s with hsame | ⟨e, u, hstep, he, hu⟩
      · have hnext : (i.withLimits c).next (.underWay m s) = (i.withLimits c').next (.underWay m s) :=
          congrArg Run.ofStep hsame
        rw [hnext] at h
        rcases ih h with hended | ⟨hceiling, hprefix⟩
        · exact .inl ((advance_succ _ _ _).trans hended)
        · refine .inr ⟨hceiling, fun n' result' t' h' => ?_⟩
          cases n' with
          | zero => cases h'
          | succ n' =>
            rw [advance_succ] at h'
            exact hprefix n' result' t' h'
      · -- here the lower ceiling is reached
        have hnext : (i.withLimits c).next (.underWay m s) = .ended (.error e) u :=
          congrArg Run.ofStep hstep
        rw [hnext, advance_ended] at h
        cases h
        refine .inr ⟨he, fun n' result' t' h' => ?_⟩
        cases n' with
        | zero => cases h'
        | succ n' =>
          have hgrows := output_advance (i.withLimits c') n' ((i.withLimits c').next (.underWay m s))
          rw [advance_succ] at h'
          rw [h'] at hgrows
          have hnext' : t.output <+: ((i.withLimits c').next (.underWay m s)).state.output := by
            show t.output <+: (Run.ofStep (((i.withLimits c').step m).run s)).state.output
            rwa [state_ofStep]
          exact hnext'.trans hgrows

/-- The same for runs from their beginning. -/
theorem run_of_le (hc : c ≤ c') {args : List (List UInt8)} {sink : Sink} {n : Nat}
    {result : Except Stop Int32} {t : ProgramState}
    (h : (i.withLimits c).run n args sink = some (result, t)) :
    (i.withLimits c').run n args sink = some (result, t) ∨
      hitsCeiling result = true ∧ ∀ n' result' t',
        (i.withLimits c').run n' args sink = some (result', t') → t.output <+: t'.output := by
  have hended := advance_of_run h
  rcases (metered_enterMain i args).curtails hc (.fresh sink) with hsame | ⟨e, u, hmain, he, hu⟩
  · have hbegin : (i.withLimits c).begin args sink = (i.withLimits c').begin args sink := by
      unfold begin
      rw [hsame]
    rw [hbegin] at hended
    rcases advance_of_le hc hended with hended' | ⟨hceiling, hprefix⟩
    · left
      rw [run, hended']
    · exact .inr ⟨hceiling, fun n' result' t' h' => hprefix n' result' t' (advance_of_run h')⟩
  · -- there is no room for the first call
    have hbegin : (i.withLimits c).begin args sink = .ended (.error e) u := by
      rw [begin, hmain]
    rw [hbegin, advance_ended] at hended
    cases hended
    refine .inr ⟨he, fun n' result' t' h' => ?_⟩
    have hgrows := output_advance (i.withLimits c') n' ((i.withLimits c').begin args sink)
    rw [advance_of_run h'] at hgrows
    have hbegin' : t.output <+: ((i.withLimits c').begin args sink).state.output := by
      unfold begin
      rcases hmain' : ((i.withLimits c').enterMain args).run (.fresh sink) with ⟨_ | _, v⟩ <;>
        rwa [hmain'] at hu
    exact hbegin'.trans hgrows

/-! ## Counts in the course of a run -/

/-- The counts at one moment of a run are below the ceilings, but for the statement that is reported. -/
def KeepsCeilings (c : Limits) : Run → Prop
  | .underWay _ s => c.Bounds false s
  | .ended result s => c.Bounds (exceedsSteps result) s

theorem keepsCeilings_ofStep {outcome : Except Stop Progress × ProgramState}
    (h : c.Bounds (exceedsSteps outcome.1) outcome.2) : KeepsCeilings c (.ofStep outcome) := by
  rcases outcome with ⟨_ | _ | _, _⟩ <;> exact h

/-- The ceilings are kept throughout a run. -/
theorem keepsCeilings_advance (i : Interpreter) (args : List (List UInt8)) (sink : Sink) (n : Nat) :
    KeepsCeilings i.limits (i.advance n (i.begin args sink)) := by
  have hfresh : i.limits.Bounds false (.fresh sink) :=
    ⟨Nat.zero_le _, fun limit _ => Nat.zero_le limit⟩
  have hbegin : KeepsCeilings i.limits (i.begin args sink) := by
    have hmain : i.limits.Bounds (exceedsSteps ((i.enterMain args).run (.fresh sink)).1)
        ((i.enterMain args).run (.fresh sink)).2 := (metered_enterMain i args).obeys i.limits _ hfresh
    unfold begin
    rcases hrun : (i.enterMain args).run (.fresh sink) with ⟨_ | _, s⟩ <;>
      rw [hrun] at hmain <;> exact hmain
  have hadvance (r : Run) (hr : KeepsCeilings i.limits r) :
      KeepsCeilings i.limits (i.advance n r) := by
    induction n generalizing r with
    | zero => exact hr
    | succ n ih =>
      cases r with
      | ended result s =>
        rw [advance_ended]
        exact hr
      | underWay m s =>
        rw [advance_succ]
        exact ih _ (keepsCeilings_ofStep ((metered_step i m).obeys i.limits s hr))
  exact hadvance _ hbegin

end Interpreter

open Interpreter in
/-- Ceilings only cut runs short. A run that ends without reaching one of its ceilings ends alike under
all higher ceilings, and one that reaches a ceiling has written the beginning of what it writes under
higher ones. Under a ceiling on statements it is reported by the first statement beyond, and there are
never more calls in progress than the ceiling on calls allows. -/
theorem run_of_limits_le (program : Program) (args : List (List UInt8)) (sink : Sink) (c : Limits) :
    let i := Interpreter.ofProgram program c
    (∀ c', c ≤ c' → ∀ fuel result s, i.run fuel args sink = some (result, s) →
      if hitsCeiling result then
        ∀ fuel' result' s', (Interpreter.ofProgram program c').run fuel' args sink =
          some (result', s') → s.output <+: s'.output
      else (Interpreter.ofProgram program c').run fuel args sink = some (result, s)) ∧
    (∀ limit, c.maxSteps = some limit → ∀ fuel result s, i.run fuel args sink = some (result, s) →
      if exceedsSteps result then s.steps = limit + 1 else s.steps ≤ limit) ∧
    ∀ n, (i.advance n (i.begin args sink)).state.calls.height ≤ c.maxDepth := by
  intro i
  refine ⟨?_, ?_, ?_⟩
  · intro c' hc fuel result s hrun
    have hrun' := run_of_le (i := i) hc hrun
    split
    · rcases hrun' with hsame | ⟨-, hprefix⟩
      · intro fuel' result' s' h'
        have hunique : (result, s) = (result', s') := run_unique hsame h'
        cases hunique
        exact List.prefix_refl _
      · exact hprefix
    · rename_i hceiling
      rcases hrun' with hsame | ⟨hceiling', -⟩
      · exact hsame
      · exact absurd hceiling' hceiling
  · intro limit hlimit fuel result s hrun
    have hkeeps := keepsCeilings_advance i args sink fuel
    rw [advance_of_run hrun] at hkeeps
    exact hkeeps.steps limit hlimit
  · intro n
    have hkeeps := keepsCeilings_advance i args sink n
    cases hr : i.advance n (i.begin args sink) with
    | underWay m s =>
      rw [hr] at hkeeps
      exact hkeeps.calls
    | ended result s =>
      rw [hr] at hkeeps
      exact hkeeps.calls

end BoundedC
