import BoundedC.Proofs.LiteralBuffers

/-!
# How many buffers literals take in a run

The jobs of a call come from the source of its function, so the literals that the call comes to are the
ones that stand there, and each of them has one buffer unless its length changes.

* `Interpreter.Sourced`, `Interpreter.Stems` : the jobs of one call and of all calls in progress;
* `Interpreter.Stems.step` : one job, whether it succeeds or fails;
* `length_literalBuffers_le` : the bound, at all times of all runs.
-/

namespace BoundedC

open Effect

namespace Interpreter

variable {i : Interpreter} {s t : ProgramState} {a : Activation} {callers : List Activation}

/-! ## The jobs of a call -/

/-- The jobs come from the source of the function that the activation is a call of, and among them is
the one that ends its body. -/
structure Sourced (i : Interpreter) (f : Function) (a : Activation) (own : List Job) : Prop where
  function : i.function? a.function = some f
  within : ∀ job ∈ own, job.Within i f.body
  ends : ∃ job ∈ own, job.isBodyEnd = true

/-- The jobs of each call in progress come from the source of its function. -/
inductive Stems (i : Interpreter) : Stack Job → List Heights → List Activation → Prop
  | bottom : Stems i .empty [] []
  | call {jobs : Stack Job} {bases : List Heights} {callers : List Activation} {own : List Job}
      {base : Heights} {a : Activation} {f : Function} (below : Stems i jobs bases callers)
      (hbase : base.jobs = jobs.height) (hown : Sourced i f a own) :
      Stems i (jobs.pushAll own) (base :: bases) (a :: callers)

/-- What holds after a job, whether it succeeds or fails. -/
structure Continues (i : Interpreter) (r : Except Stop Progress × ProgramState) : Prop where
  frugal : i.Frugal r.2
  stems : ∀ m, r.1 = .ok (.running m) → Stems i m.pending.jobs m.bases r.2.calls.items

section Steps

variable {arguments : List (BufferId × Nat)} {jobs : Stack Job} {own : List Job} {operands : Stack Value}
  {bases : List Heights} {base : Heights} {f : Function} {b : Activation}

theorem continues_of_error {e : Stop} (h : i.Frugal s) : Continues i (.error e, s) := by
  refine ⟨h, ?_⟩
  rintro m ⟨⟩

theorem Sourced.of_name (h : Sourced i f a own) (hname : b.function = a.function) :
    Sourced i f b own := ⟨hname ▸ h.function, h.within, h.ends⟩

theorem Sourced.append {new : List Job} (h : Sourced i f a own)
    (hnew : ∀ job ∈ new, job.Within i f.body) : Sourced i f a (new ++ own) := by
  refine ⟨h.function, fun job hjob => ?_, ?_⟩
  · rcases List.mem_append.1 hjob with hjob | hjob
    · exact hnew job hjob
    · exact h.within job hjob
  · obtain ⟨job, hjob, hend⟩ := h.ends
    exact ⟨job, List.mem_append_right _ hjob, hend⟩

/-- Jobs that do not end the body may be dropped. -/
theorem Sourced.drop {skipped : List Job} (h : Sourced i f a (skipped ++ own))
    (hskipped : ∀ job ∈ skipped, job.isBodyEnd = false) : Sourced i f a own := by
  refine ⟨h.function, fun job hjob => h.within job (List.mem_append_right _ hjob), ?_⟩
  obtain ⟨job, hjob, hend⟩ := h.ends
  rcases List.mem_append.1 hjob with hjob | hjob
  · cases (hskipped job hjob).symm.trans hend
  · exact ⟨job, hjob, hend⟩

theorem Sourced.tail {job : Job} (h : Sourced i f a (job :: own)) (hjob : job.isBodyEnd = false) :
    Sourced i f a own :=
  drop (List.singleton_append ▸ h) (by simpa using hjob)

/-- A function that is about to execute its body. -/
theorem sourced_body (hf : i.function? a.function = some f) :
    Sourced i f a (f.body.map .execute ++ [.bodyEnd f.place]) := by
  refine ⟨hf, fun job hjob => ?_, .bodyEnd f.place, by simp, rfl⟩
  rcases List.mem_append.1 hjob with hjob | hjob
  · obtain ⟨node, hnode, rfl⟩ := List.mem_map.1 hjob
    exact f.within_of_mem_body hnode
  · cases List.mem_singleton.1 hjob
    trivial

/-- The next job comes from the source of the function that is running. -/
theorem Stems.exists_within {jobs : Stack Job} {bases : List Heights} {calls : List Activation}
    (h : Stems i jobs bases calls) {job : Job} (hjob : jobs.top? = some job) :
    ∃ a callers f, calls = a :: callers ∧ i.function? a.function = some f ∧ job.Within i f.body := by
  cases h with
  | bottom => cases hjob
  | @call jobs _ callers own _ a f _ _ hown =>
    refine ⟨a, callers, f, rfl, hown.function, hown.within job ?_⟩
    obtain ⟨last, hlast, -⟩ := hown.ends
    cases own with
    | nil => cases hlast
    | cons first rest =>
      cases hjob
      exact List.mem_cons_self

/-! ## One job -/

/-- A job that leaves its call with other jobs. -/
theorem continues_of_go {x : Effect Pending} (hfrugal : i.Frugal (x.run s).2)
    (hx : ∀ p t, x.run s = (.ok p, t) → Stems i p.jobs bases t.calls.items) :
    Continues i ((do return Progress.running ⟨← x, bases⟩ : Effect Progress).run s) := by
  refine ⟨after_bind_pure hfrugal _, fun m hm => ?_⟩
  rcases hrun : (do return Progress.running ⟨← x, bases⟩ : Effect Progress).run s with ⟨r, t⟩
  rw [hrun] at hm
  cases hm
  obtain ⟨p, u, hp, hpure⟩ := run_bind_eq_ok_iff.1 hrun
  cases hpure
  exact hx p t hp

/-- A job that puts others in its place. -/
theorem continues_of_schedules {x : Effect Pending} (below : Stems i jobs bases callers)
    (hbase : base.jobs = jobs.height) (hown : Sourced i f a own) (hs : s.calls.items = a :: callers)
    (hfrugal : i.Frugal s) (hx : Schedules (Job.Within i f.body) (jobs.pushAll own) x)
    (hkeeps : KeepsFrugal f.body s (x.run s).2) :
    Continues i ((do return Progress.running ⟨← x, base :: bases⟩ : Effect Progress).run s) := by
  refine continues_of_go (hfrugal.of_keeps hs hown.function hkeeps) fun p t hp => ?_
  obtain ⟨b, ht, hname, -⟩ := hkeeps.calls a callers hs
  rw [hp] at ht
  obtain ⟨new, hjobs, hnew⟩ := hx hp
  rw [ht, hjobs, ← Stack.pushAll_append]
  exact .call below hbase ((hown.append hnew).of_name hname)

theorem continues_within {job : Job} (hlocal : isLocal job) (below : Stems i jobs bases callers)
    (hbase : base.jobs = jobs.height) (hown : Sourced i f a (job :: own))
    (hs : s.calls.items = a :: callers) (hfrugal : i.Frugal s) :
    Continues i ((i.perform job ⟨jobs.pushAll own, operands⟩ (base :: bases)).run s) := by
  have hnot : job.isBodyEnd = false := by
    cases job with
    | bodyEnd => cases hlocal
    | _ => rfl
  have hjob := hown.within job List.mem_cons_self
  obtain ⟨x, hperform, hx⟩ := exists_schedules hlocal hjob (jobs.pushAll own) operands (base :: bases)
  have hkeeps := thrifty_perform hlocal hjob ⟨jobs.pushAll own, operands⟩ (base :: bases) s
  rw [hperform, snd_run_bind_pure] at hkeeps
  rw [hperform]
  exact continues_of_schedules below hbase (hown.tail hnot) hs hfrugal hx hkeeps

theorem continues_execute {node : Node} (hcontrol : isLoopControl node = false)
    (below : Stems i jobs bases callers) (hbase : base.jobs = jobs.height)
    (hown : Sourced i f a (.execute node :: own)) (hs : s.calls.items = a :: callers)
    (hfrugal : i.Frugal s) :
    Continues i ((i.perform (.execute node) ⟨jobs.pushAll own, operands⟩ (base :: bases)).run s) := by
  refine continues_of_schedules below hbase (hown.tail rfl) hs hfrugal ?_ (thrifty_execute hcontrol _ s)
  rw [execute_eq]
  exact schedules_bind fun _ => schedules_executed hcontrol (hown.within _ List.mem_cons_self)

/-- Loop control goes on with some of the jobs that the call had. -/
theorem continues_unwindTo {place : Location} {isTarget : Job → Bool}
    (htarget : ∀ job, isTarget job = true → job.isBodyEnd = false) (below : Stems i jobs bases callers)
    (hbase : base.jobs = jobs.height) (hown : Sourced i f a own) (hs : s.calls.items = a :: callers)
    (hfrugal : i.Frugal s) (hacc : Accounted arguments s.memory s.calls.items) :
    Continues i ((do return Progress.running ⟨← (do
      countStep i.limits place
      Pending.unwindTo place isTarget ⟨jobs.pushAll own, operands⟩), base :: bases⟩ :
        Effect Progress).run s) := by
  have hcount := hfrugal.of_composed (composed_countStep i.limits place)
  refine continues_of_go (after_bind hcount fun _ t ht => after_bind_pure ?_ _) fun p t hp => ?_
  · rw [ht] at hcount
    have hstate := run_countStep_eq_ok ht
    exact frugal_unwind place isTarget _ _ hcount (by rwa [hstate])
  · obtain ⟨_, u, hu, hp⟩ := run_bind_eq_ok_iff.1 hp
    obtain ⟨stack, v, hunwind, hp⟩ := run_bind_eq_ok_iff.1 hp
    cases hp
    have hcalls : u.calls = s.calls := by rw [run_countStep_eq_ok hu]
    obtain ⟨b, hb, hname⟩ := exists_calls_of_unwind hunwind (hcalls ▸ hs)
    obtain ⟨-, skipped, target, rest, rfl, htgt, hskipped, rfl, -⟩ := run_unwind_eq_ok hown.ends hunwind
    rw [List.append_cons] at hown
    rw [hb]
    refine .call below hbase ((hown.drop fun job hjob => ?_).of_name hname)
    rcases List.mem_append.1 hjob with hjob | hjob
    · exact hskipped job hjob
    · cases List.mem_singleton.1 hjob
      exact htarget target htgt

theorem continues_loopControl {node : Node} (hcontrol : isLoopControl node = true)
    (below : Stems i jobs bases callers) (hbase : base.jobs = jobs.height)
    (hown : Sourced i f a (.execute node :: own)) (hs : s.calls.items = a :: callers)
    (hfrugal : i.Frugal s) (hacc : Accounted arguments s.memory s.calls.items) :
    Continues i ((i.perform (.execute node) ⟨jobs.pushAll own, operands⟩ (base :: bases)).run s) := by
  have hown' := hown.tail rfl
  cases node with
  | breakLoop place =>
    refine continues_unwindTo (fun job hjob => ?_) below hbase hown' hs hfrugal hacc
    cases job with
    | loopEnd => rfl
    | _ => cases hjob
  | continueLoop place =>
    refine continues_unwindTo (fun job hjob => ?_) below hbase hown' hs hfrugal hacc
    cases job with
    | continueTarget => rfl
    | _ => cases hjob
  | _ => cases hcontrol

theorem continues_closeScope {place : Location} (below : Stems i jobs bases callers)
    (hbase : base.jobs = jobs.height) (hown : Sourced i f a (.closeScope place :: own))
    (hs : s.calls.items = a :: callers) (hfrugal : i.Frugal s)
    (hacc : Accounted arguments s.memory s.calls.items) :
    Continues i ((i.perform (.closeScope place) ⟨jobs.pushAll own, operands⟩ (base :: bases)).run s) := by
  refine continues_of_go (after_bind_pure (frugal_closeScope hfrugal hacc place) _) fun p t hp => ?_
  obtain ⟨_, u, hu, hp⟩ := run_bind_eq_ok_iff.1 hp
  cases hp
  obtain ⟨b, callers', hb, ht, -⟩ := run_closeScope_eq_ok hu
  cases hs.symm.trans hb
  rw [ht]
  exact .call below hbase ((hown.tail rfl).of_name rfl)

theorem exists_calls_of_enterCall {limits : Limits} {args : List Value} {callSite : Option Location}
    {u : Unit} (h : (enterCall limits f args callSite).run s = (.ok u, t)) :
    ∃ a, t.calls.items = a :: s.calls.items ∧ a.function = f.name := by
  obtain ⟨-, a, v, hv, rfl⟩ := run_enterCall_eq_ok h
  exact ⟨a, rfl, (frugal_bindParams (frugal_start s.memory [] ..) hv).1⟩

/-- A call begins with the body of its function, above what its caller has left to do. -/
theorem continues_call (place : Location) (below : Stems i jobs bases callers)
    (hf : i.function? f.name = some f) (hs : s.calls.items = callers) (hfrugal : i.Frugal s) :
    Continues i ((i.call f place ⟨jobs, operands⟩ bases).run s) := by
  unfold call Pending.popMany
  dsimp only
  split
  · rw [pure_bind]
    refine ⟨after_bind_pure (frugal_enterCall hf hfrugal i.limits _ (some place)) _, fun m hm => ?_⟩
    generalize (operands.items.take f.params.length).reverse = args at hm ⊢
    rcases hrun : (do
      enterCall i.limits f args (some place)
      return Progress.running (.enter f ⟨jobs, operands.drop f.params.length⟩ bases) :
        Effect Progress).run s with ⟨r, t⟩
    rw [hrun] at hm
    cases hm
    obtain ⟨_, u, hu, hpure⟩ := run_bind_eq_ok_iff.1 hrun
    cases hpure
    obtain ⟨b, ht, hname⟩ := exists_calls_of_enterCall hu
    rw [ht, hs]
    exact .call below rfl (sourced_body (hname ▸ hf))
  · exact continues_of_error hfrugal

/-- The end of a call leaves what its caller had to do. -/
theorem continues_giveBack (value : Option Value) (place : Location)
    (below : Stems i jobs bases callers) (hbase : base.jobs = jobs.height)
    (hs : s.calls.items = a :: callers) (hfrugal : i.Frugal s)
    (hacc : Accounted arguments s.memory s.calls.items) :
    Continues i ((giveBack value place ⟨jobs.pushAll own, operands⟩ (base :: bases)).run s) := by
  refine ⟨frugal_giveBack hfrugal hacc value place _ _, fun m hm => ?_⟩
  rcases hrun : (giveBack value place ⟨jobs.pushAll own, operands⟩ (base :: bases)).run s with ⟨r, t⟩
  rw [hrun] at hm
  cases hm
  obtain ⟨v, u, hu, hresume⟩ := run_bind_eq_ok_iff.1 hrun
  obtain ⟨b, hb, -⟩ := run_leaveCall_eq_ok hu
  cases hs.symm.trans hb
  cases bases with
  | nil =>
    obtain ⟨code, w, -, hm⟩ := run_bind_eq_ok_iff.1 hresume
    cases hm
  | cons base' bases =>
    cases hresume
    simp only [Pending.cutTo, Pending.push, hbase, Stack.cutTo_pushAll]
    exact below

/-- One job, whatever its outcome. -/
theorem Stems.step {m : Machine} (h : Stems i m.pending.jobs m.bases s.calls.items)
    (hfrugal : i.Frugal s) (hacc : Accounted arguments s.memory s.calls.items) :
    Continues i ((i.step m).run s) := by
  obtain ⟨⟨jobs, operands⟩, bases⟩ := m
  generalize hs : s.calls.items = calls at h
  cases h with
  | bottom =>
    refine ⟨hfrugal, ?_⟩
    rintro m ⟨⟩
  | @call jobs bases callers own base a f below hbase hown =>
    cases own with
    | nil => simpa using hown.ends
    | cons job own =>
      have hstep : i.step ⟨⟨jobs.pushAll (job :: own), operands⟩, base :: bases⟩ =
          i.perform job ⟨jobs.pushAll own, operands⟩ (base :: bases) := by
        rw [Stack.pushAll_cons]
        rfl
      change Continues i ((i.step ⟨⟨jobs.pushAll (job :: own), operands⟩, base :: bases⟩).run s)
      rw [hstep]
      by_cases hlocal : isLocal job
      · exact continues_within hlocal below hbase hown hs hfrugal
      · cases job with
        | execute node =>
          cases hcontrol : isLoopControl node with
          | false => exact continues_execute hcontrol below hbase hown hs hfrugal
          | true => exact continues_loopControl hcontrol below hbase hown hs hfrugal hacc
        | closeScope place => exact continues_closeScope below hbase hown hs hfrugal hacc
        | call g place =>
          exact continues_call place (.call below hbase (hown.tail rfl))
            (hown.within _ List.mem_cons_self) hs hfrugal
        | giveBack hasValue place =>
          cases hasValue with
          | false => exact continues_giveBack none place below hbase hs hfrugal hacc
          | true =>
            change Continues i ((Pending.pop place ⟨jobs.pushAll own, operands⟩ >>= fun r =>
              giveBack (some r.1) place r.2 (base :: bases)).run s)
            unfold Pending.pop
            split
            · exact continues_giveBack _ place below hbase hs hfrugal hacc
            · exact continues_of_error hfrugal
        | bodyEnd place => exact continues_giveBack none place below hbase hs hfrugal hacc
        | _ => exact absurd rfl hlocal

end Steps

/-! ## Whole runs -/

/-- What holds at each moment of a run. -/
structure Goes (i : Interpreter) (r : Run) : Prop where
  frugal : i.Frugal r.state
  stems : ∀ m s, r = .underWay m s → Stems i m.pending.jobs m.bases s.calls.items

theorem goes_ofStep {r : Except Stop Progress × ProgramState} (h : Continues i r) :
    Goes i (.ofStep r) := by
  obtain ⟨_ | ⟨_ | _⟩, t⟩ := r
  · exact ⟨h.frugal, nofun⟩
  · refine ⟨h.frugal, ?_⟩
    rintro _ _ ⟨⟩
    exact h.stems _ rfl
  · exact ⟨h.frugal, nofun⟩

theorem frugal_enterMain (i : Interpreter) (args : List (List UInt8)) (sink : Sink) :
    i.Frugal ((i.enterMain args).run (.fresh sink)).2 := by
  have hfresh : i.Frugal (.fresh sink) := fun a ha => (List.not_mem_nil ha).elim
  unfold enterMain
  split
  · exact hfresh
  · rename_i main hmain
    have hbegin : i.Frugal ((do
        let values ← bindArguments main.place args
        enterCall i.limits main (values.take main.params.length) none
        return main : Effect Function).run (.fresh sink)).2 := by
      have hbind := hfresh.of_composed (composed_bindArguments main.place args)
      refine after_bind hbind fun values t ht => after_bind_pure ?_ _
      rw [ht] at hbind
      exact frugal_enterCall (function?_name hmain) hbind i.limits _ none
    split
    · exact hfresh
    · exact hbegin

theorem goes_begin (i : Interpreter) (args : List (List UInt8)) (sink : Sink) :
    Goes i (i.begin args sink) := by
  have hfrugal := frugal_enterMain i args sink
  unfold begin
  rcases hmain : (i.enterMain args).run (.fresh sink) with ⟨e | main, t⟩
  · rw [hmain] at hfrugal
    exact ⟨hfrugal, nofun⟩
  · rw [hmain] at hfrugal
    refine ⟨hfrugal, ?_⟩
    rintro _ _ ⟨⟩
    obtain ⟨hf, values, u, hu, henter⟩ := run_enterMain_eq_ok hmain
    obtain ⟨a, ht, hname⟩ := exists_calls_of_enterCall henter
    rw [calls_of_bindArguments hu] at ht
    rw [ht]
    exact .call .bottom rfl (sourced_body (hname ▸ function?_name hf))

theorem goes_advance (i : Interpreter) (args : List (List UInt8)) (sink : Sink) (fuel : Nat) :
    Goes i (i.advance fuel (i.begin args sink)) := by
  obtain ⟨arguments, -, hbegin⟩ := i.exists_arguments args sink
  induction fuel with
  | zero => exact goes_begin i args sink
  | succ fuel ih =>
    rw [advance_succ']
    cases hrun : i.advance fuel (i.begin args sink) with
    | ended result s =>
      rw [hrun] at ih
      exact ih
    | underWay m s =>
      rw [hrun] at ih
      exact goes_ofStep ((ih.stems m s rfl).step ih.frugal (accounted_of_reaches hbegin ⟨fuel, hrun⟩))

end Interpreter

/-- At any moment of a run, also when it has failed, a call owns at most one live buffer for each
string or array literal in the source of its function, and one more for each time that a literal came
to another length than at its evaluation before. -/
theorem length_literalBuffers_le (program : Program) (limits : Limits) (args : List (List UInt8))
    (sink : Sink) (fuel : Nat) :
    let i := Interpreter.ofProgram program limits
    let s := (i.advance fuel (i.begin args sink)).state
    ∀ a ∈ s.calls.items, ∃ f, i.function? a.function = some f ∧
      (a.literalBuffers s.memory).length ≤
        f.literalSites.length + s.memory.lengthChanges a.literals := by
  intro i s a ha
  obtain ⟨f, hf, hfrugal⟩ := (Interpreter.goes_advance i args sink fuel).frugal a ha
  exact ⟨f, hf, hfrugal.length_le⟩

/-- A program with one array literal. Its element is an integer in some turns of the loop and a character
in others, since a function that reaches its end gives back the integer 0, whatever its type. -/
def alternatingLiteral : List Char :=
  "char f(int x) \x7b if (x) \x7b return 'a'; \x7d \x7d ".toList ++
    "int main() \x7b int i = 0; while (i < 3) \x7b print(\x7bf(i % 2)\x7d, 0); i += 1; \x7d ".toList ++
    "return 1 / 0; \x7d".toList

theorem exists_call_alternatingLiteral : ∃ program,
    compile (String.ofList alternatingLiteral) = .ok program ∧
      let i := Interpreter.ofProgram program .default
      let s := (i.advance 200 (i.begin [] .unlimited)).state
      ∃ a ∈ s.calls.items, ∃ f, i.function? a.function = some f ∧ f.literalSites.length = 1 ∧
        (a.literalBuffers s.memory).length = 3 := by
  have h : ∃ program, compile (String.ofList alternatingLiteral) = .ok program ∧
      (let i := Interpreter.ofProgram program .default
        let s := (i.advance 200 (i.begin [] .unlimited)).state
        s.calls.items.any fun a => (i.function? a.function).any fun f =>
          f.literalSites.length = 1 ∧ (a.literalBuffers s.memory).length = 3) = true :=
    exists_compile_of_any (by decide +kernel)
  obtain ⟨program, hcompile, h⟩ := h
  obtain ⟨a, ha, h⟩ := List.any_eq_true.1 h
  obtain ⟨f, hf, h⟩ := (Option.any_eq_true _ _).1 h
  exact ⟨program, hcompile, a, ha, f, hf, by simpa using h⟩

/-- A call can own more buffers than its function has literals. -/
theorem exists_more_literalBuffers : ∃ program a f,
    compile (String.ofList alternatingLiteral) = .ok program ∧
      let i := Interpreter.ofProgram program .default
      let s := (i.advance 200 (i.begin [] .unlimited)).state
      a ∈ s.calls.items ∧ i.function? a.function = some f ∧
        f.literalSites.length < (a.literalBuffers s.memory).length := by
  obtain ⟨program, hcompile, a, ha, f, hf, hsites, hbuffers⟩ := exists_call_alternatingLiteral
  exact ⟨program, a, f, hcompile, ha, hf, by rw [hsites, hbuffers]; decide⟩

/-- The buffers that call owns beyond those of its literals are due to changes of length. -/
theorem exists_literalBuffers_of_changes : ∃ program a,
    compile (String.ofList alternatingLiteral) = .ok program ∧
      let i := Interpreter.ofProgram program .default
      let s := (i.advance 200 (i.begin [] .unlimited)).state
      a ∈ s.calls.items ∧ ∃ f, i.function? a.function = some f ∧
        (a.literalBuffers s.memory).length ≤
          f.literalSites.length + s.memory.lengthChanges a.literals := by
  obtain ⟨program, hcompile, a, ha, -⟩ := exists_call_alternatingLiteral
  exact ⟨program, a, hcompile, ha, length_literalBuffers_le program .default [] .unlimited 200 a ha⟩

end BoundedC
