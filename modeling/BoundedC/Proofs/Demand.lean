import BoundedC.Proofs.Turn
import BoundedC.Run
import Mathlib.Data.List.Forall2

/-!
# What jobs take and leave

Each job takes some operands and leaves at most one (`Job.takes`, `Job.gives`). A job that leaves
none belongs to a statement, and finds no operands of its call but its own. `Demand` says that a list
of jobs fits the operands there are, whatever the values to come will be.

* `Works` : an effect replaces its job by others that fit as well;
* `works_evaluate`, `works_locate`, `exists_works` : the jobs of expressions;
* `works_execute` : statements without loop control;
* `run_unwind_eq_ok` : loop control stays within its call and closes the scopes that it passes.
-/

namespace BoundedC

/-- What an operand is there for. -/
inductive Role where
  | value
  /-- a pointer to the place that an expression names -/
  | place

def Role.admits : Role → Value → Prop
  | value, _ => True
  | place, v => ∃ p, v = .pointer p

theorem Role.exists_admits (role : Role) : ∃ v, role.admits v := by
  cases role with
  | value => exact ⟨.int 0, trivial⟩
  | place => exact ⟨.pointer ⟨⟨0⟩, 0, .int⟩, _, rfl⟩

namespace Job

/-- The operands that a job takes, the latest first. -/
def takes : Job → List Role
  | discard _ | logical .. | truth _ | unary .. | requirePointer _ | branch .. | whileTest ..
  | forTest _ | giveBack true _ => [.value]
  | step .. | load _ => [.place]
  | binary .. | index _ | print _ => [.value, .value]
  | assign _ | compoundAssign .. => [.value, .place]
  | arrayLiteral count _ => .replicate count .value
  | declare d _ => .replicate d.operands.length .value
  | call f _ => .replicate f.params.length .value
  | _ => []

/-- The operand that a job leaves, itself or by the jobs that it schedules. -/
def gives : Job → Option Role
  | evaluate _ | binary .. | logical .. | truth _ | unary .. | step .. | load _ | assign _
  | compoundAssign .. | arrayLiteral .. | declare _ true | call .. | print _ => some .value
  | locate .. | requirePointer _ | index _ => some .place
  | _ => none

def isCloseScope : Job → Bool
  | closeScope _ => true
  | _ => false

def isBodyEnd : Job → Bool
  | bodyEnd _ => true
  | _ => false

/-- Whether the job ends a scope, be it the outermost one of a call. -/
def endsScope (job : Job) : Bool := job.isCloseScope || job.isBodyEnd

theorem not_endsScope {job : Job} (h : job.endsScope = false) :
    job.isCloseScope = false ∧ job.isBodyEnd = false := by
  rwa [endsScope, Bool.or_eq_false_iff] at h

theorem countP_endsScope (jobs : List Job) :
    jobs.countP endsScope = jobs.countP isCloseScope + jobs.countP isBodyEnd := by
  induction jobs with
  | nil => rfl
  | cons job jobs ih =>
    simp only [List.countP_cons, ih]
    cases job with
    | closeScope | bodyEnd => simp [endsScope, isCloseScope, isBodyEnd]; omega
    | _ => rfl

def endsCall : Job → Bool
  | giveBack .. | bodyEnd _ => true
  | _ => false

end Job

/-- The jobs find the operands they take, above operands for which the same holds when a job has left
what it gives; `goal` is for the operands that are left without any job. The end of a body is the last
job. -/
def Demand (goal : List Value → Prop) : List Job → List Value → Prop
  | [], operands => goal operands
  | job :: jobs, operands =>
    ∃ taken rest, operands = taken ++ rest ∧ List.Forall₂ Role.admits job.takes taken ∧
      match job.gives with
      | none => rest = [] ∧
        ((job.isBodyEnd = true ∧ jobs = []) ∨ (job.isBodyEnd = false ∧ Demand goal jobs []))
      | some role => ∀ v, role.admits v → Demand goal jobs (v :: rest)

/-- A demand of the jobs behind one that gives an operand, or none. -/
def Awaits (goal : List Value → Prop) (jobs : List Job) (rest : List Value) : Option Role → Prop
  | none => rest = [] ∧ Demand goal jobs []
  | some role => ∀ v, role.admits v → Demand goal jobs (v :: rest)

namespace Demand

variable {goal : List Value → Prop} {job : Job} {jobs : List Job} {operands rest : List Value}

theorem of_awaits (hb : job.isBodyEnd = false) (taken : List Value)
    (ht : List.Forall₂ Role.admits job.takes taken) (h : Awaits goal jobs rest job.gives) :
    Demand goal (job :: jobs) (taken ++ rest) := by
  refine ⟨taken, rest, rfl, ht, ?_⟩
  revert h
  cases job.gives with
  | none => exact fun h => ⟨h.1, .inr ⟨hb, h.2⟩⟩
  | some role => exact fun h => h

/-- A job that takes a value. -/
theorem value (hb : job.isBodyEnd = false) (ht : job.takes = [.value]) (v : Value)
    (h : Awaits goal jobs rest job.gives) : Demand goal (job :: jobs) (v :: rest) := by
  have hv : List.Forall₂ Role.admits job.takes [v] := by
    rw [ht]
    exact .cons trivial .nil
  exact of_awaits hb [v] hv h

/-- A job that takes two values. -/
theorem values (hb : job.isBodyEnd = false) (ht : job.takes = [.value, .value]) (v w : Value)
    (h : Awaits goal jobs rest job.gives) : Demand goal (job :: jobs) (v :: w :: rest) := by
  have hvw : List.Forall₂ Role.admits job.takes [v, w] := by
    rw [ht]
    exact .cons trivial (.cons trivial .nil)
  exact of_awaits hb [v, w] hvw h

/-- A job of a statement that takes nothing. -/
theorem alone (hb : job.isBodyEnd = false) (ht : job.takes = []) (hg : job.gives = none)
    (h : Demand goal jobs []) : Demand goal (job :: jobs) [] := by
  have hawaits : Awaits goal jobs [] job.gives := by
    rw [hg]
    exact ⟨rfl, h⟩
  exact of_awaits hb [] (by rw [ht]; exact .nil) hawaits

theorem evaluate {node : Node} (h : ∀ v, Demand goal jobs (v :: operands)) :
    Demand goal (.evaluate node :: jobs) operands :=
  of_awaits rfl [] .nil fun v _ => h v

/-- An expression and a job of a statement that takes its value. -/
theorem evaluateFor {node : Node} (hb : job.isBodyEnd = false) (ht : job.takes = [.value])
    (hg : job.gives = none) (h : Demand goal jobs []) :
    Demand goal (.evaluate node :: job :: jobs) [] := by
  refine evaluate fun v => value hb ht v ?_
  rw [hg]
  exact ⟨rfl, h⟩

theorem locate {node : Node} {access : Access}
    (h : ∀ p, Demand goal jobs (.pointer p :: operands)) :
    Demand goal (.locate node access :: jobs) operands := by
  refine of_awaits rfl [] .nil fun v hv => ?_
  obtain ⟨p, rfl⟩ := hv
  exact h p

theorem evaluateAll {nodes : List Node}
    (h : ∀ vs : List Value, vs.length = nodes.length → Demand goal jobs (vs ++ operands)) :
    Demand goal (nodes.map .evaluate ++ jobs) operands := by
  induction nodes generalizing operands with
  | nil => exact h [] rfl
  | cons node nodes ih =>
    refine evaluate fun v => ih fun vs hvs => ?_
    have := h (vs ++ [v]) (by simp [hvs])
    rwa [List.append_assoc] at this

theorem execute {node : Node} (h : Demand goal jobs []) : Demand goal (.execute node :: jobs) [] :=
  of_awaits rfl [] .nil ⟨rfl, h⟩

theorem executeAll {nodes : List Node} (h : Demand goal jobs []) :
    Demand goal (nodes.map .execute ++ jobs) [] := by
  induction nodes with
  | nil => exact h
  | cons node nodes ih => exact execute ih

/-- What a demand says of the jobs behind the first one. -/
theorem awaits (hb : job.isBodyEnd = false) (h : Demand goal (job :: jobs) operands) :
    ∃ taken rest, operands = taken ++ rest ∧ List.Forall₂ Role.admits job.takes taken ∧
      Awaits goal jobs rest job.gives := by
  obtain ⟨taken, rest, rfl, ht, h⟩ := h
  refine ⟨taken, rest, rfl, ht, ?_⟩
  revert h
  cases job.gives with
  | none =>
    rintro ⟨hrest, ⟨hend, -⟩ | ⟨-, h⟩⟩
    · cases hb.symm.trans hend
    · exact ⟨hrest, h⟩
  | some role => exact fun h => h

/-- The operands that are there when a job has been done, whatever it leaves. -/
theorem tail (hb : job.isBodyEnd = false) (h : Demand goal (job :: jobs) operands) :
    ∃ operands', Demand goal jobs operands' := by
  obtain ⟨taken, rest, -, -, h⟩ := h.awaits hb
  revert h
  cases job.gives with
  | none => exact fun h => ⟨[], h.2⟩
  | some role =>
    obtain ⟨v, hv⟩ := role.exists_admits
    exact fun h => ⟨v :: rest, h v hv⟩

/-- The same behind several jobs. -/
theorem drop {skipped : List Job} (hb : ∀ job ∈ skipped, job.isBodyEnd = false)
    (h : Demand goal (skipped ++ jobs) operands) : ∃ operands', Demand goal jobs operands' := by
  induction skipped generalizing operands with
  | nil => exact ⟨operands, h⟩
  | cons job skipped ih =>
    obtain ⟨operands', h'⟩ := Demand.tail (hb job List.mem_cons_self) h
    exact ih (fun j hj => hb j (List.mem_cons_of_mem _ hj)) h'

/-- The jobs of a call without a goal come to the end of one body. -/
theorem countP_isBodyEnd (h : Demand (fun _ => False) jobs operands) :
    jobs.countP Job.isBodyEnd = 1 := by
  induction jobs generalizing operands with
  | nil => exact h.elim
  | cons job jobs ih =>
    cases hb : job.isBodyEnd with
    | false =>
      obtain ⟨operands', h'⟩ := h.tail hb
      rw [List.countP_cons_of_neg (by simp [hb]), ih h']
    | true =>
      obtain ⟨_, _, -, -, h⟩ := h
      cases job with
      | bodyEnd place =>
        rcases h with ⟨-, ⟨-, rfl⟩ | ⟨hb, -⟩⟩
        · rfl
        · cases hb
      | _ => cases hb

theorem exists_isBodyEnd (h : Demand (fun _ => False) jobs operands) :
    ∃ job ∈ jobs, job.isBodyEnd = true := by
  rw [← List.countP_pos_iff, h.countP_isBodyEnd]
  exact Nat.one_pos

/-- Jobs fit operands of one number only. -/
theorem length_unique {operands' : List Value} (h : Demand (fun _ => False) jobs operands)
    (h' : Demand (fun _ => False) jobs operands') : operands.length = operands'.length := by
  induction jobs generalizing operands operands' with
  | nil => exact h.elim
  | cons job jobs ih =>
    obtain ⟨taken, rest, rfl, ht, h⟩ := h
    obtain ⟨taken', rest', rfl, ht', h'⟩ := h'
    have hlen : rest.length = rest'.length := by
      revert h h'
      cases job.gives with
      | none =>
        rintro ⟨rfl, -⟩ ⟨rfl, -⟩
        rfl
      | some role =>
        obtain ⟨v, hv⟩ := role.exists_admits
        exact fun h h' => Nat.succ.inj (ih (h v hv) (h' v hv))
    simp only [List.length_append, hlen, ← ht.length_eq, ← ht'.length_eq]

end Demand

/-! ## Jobs that schedule and finish -/

/-- Jobs and operands that take the place of a job that gives an operand, or none. -/
def Carries (gives : Option Role) (new : List Job) (out : List Value) : Prop :=
  (gives.isSome → ∀ job ∈ new, job.gives.isSome) ∧
    ∀ goal jobs rest, Awaits goal jobs rest gives → Demand goal (new ++ jobs) (out ++ rest)

theorem Carries.of_statement {new : List Job}
    (h : ∀ goal jobs, Demand goal jobs [] → Demand goal (new ++ jobs) []) : Carries none new [] := by
  refine ⟨by simp, ?_⟩
  rintro goal jobs rest ⟨rfl, hjobs⟩
  exact h goal jobs hjobs

/-- The call in progress has so many more open scopes, and its callers are what they were. -/
def Grows (count : Nat) (s t : ProgramState) : Prop :=
  ∀ a callers, s.calls.items = a :: callers → a.scopes ≠ [] →
    ∃ b, t.calls.items = b :: callers ∧ b.scopes.length = a.scopes.length + count

theorem Grows.trans {m n : Nat} {s t u : ProgramState} (h : Grows m s t) (h' : Grows n t u) :
    Grows (m + n) s u := by
  intro a callers hs ha
  obtain ⟨b, ht, hb⟩ := h a callers hs ha
  have hne : b.scopes ≠ [] := by
    rw [← List.length_pos_iff] at ha ⊢
    omega
  obtain ⟨c, hu, hc⟩ := h' b callers ht hne
  exact ⟨c, hu, by omega⟩

theorem Change.grows {s t : ProgramState} (h : Change s t) : Grows 0 s t := by
  intro a callers hs ha
  cases h with
  | contents _ hc => exact ⟨a, hc ▸ hs, rfl⟩
  | adopt hs' _ ht =>
    cases hs'.symm.trans hs
    exact ⟨_, ht, rfl⟩
  | declare hs' _ _ ht =>
    cases hs'.symm.trans hs
    refine ⟨_, ht, ?_⟩
    obtain ⟨scope, scopes, hscopes⟩ := List.exists_cons_of_ne_nil ha
    simp [Activation.declare, hscopes]

theorem Changes.grows {s t : ProgramState} (h : Changes s t) : Grows 0 s t := by
  induction h with
  | refl => exact fun a _ hs _ => ⟨a, hs, rfl⟩
  | tail _ hc ih => exact ih.trans hc.grows

/-- Where the effect succeeds, it puts jobs and operands in the place of a job. -/
def Works (gives : Option Role) (jobs : Stack Job) (operands : Stack Value) (x : Effect Pending) :
    Prop :=
  ∀ ⦃s p t⦄, x.run s = (.ok p, t) → ∃ new out,
    p = ⟨jobs.pushAll new, operands.pushAll out⟩ ∧ Carries gives new out ∧
      Grows (new.countP Job.isCloseScope) s t ∧ Gains s t

namespace Works

open Effect

variable {α : Type} {gives : Option Role} {jobs : Stack Job} {operands : Stack Value}

theorem of_changing {x : Effect α} (hx : x.Changing) {f : α → Pending} (new : List Job)
    (out : α → List Value) (hf : ∀ a, f a = ⟨jobs.pushAll new, operands.pushAll (out a)⟩)
    (hnew : new.countP Job.isCloseScope = 0) (h : ∀ a, Carries gives new (out a)) :
    Works gives jobs operands (x >>= fun a => pure (f a)) := by
  intro s p t hp
  obtain ⟨a, u, hu, hp⟩ := run_bind_eq_ok_iff.1 hp
  cases hp
  exact ⟨new, out a, hf a, h a, hnew ▸ (hx hu).grows, (hx hu).gains⟩

/-- The job leaves a value. -/
theorem value {x : Effect Value} (hx : x.Changing) :
    Works (some .value) jobs operands (do return Pending.push ⟨jobs, operands⟩ (← x)) :=
  of_changing hx [] (fun v => [v]) (fun _ => rfl) rfl fun v =>
    ⟨fun _ _ h => (List.not_mem_nil h).elim, fun _ _ _ h => h v trivial⟩

/-- The job leaves a pointer to a place. -/
theorem place {x : Effect Pointer} (hx : x.Changing) :
    Works (some .place) jobs operands
      (do return Pending.push ⟨jobs, operands⟩ (.pointer (← x))) :=
  of_changing hx [] (fun p => [.pointer p]) (fun _ => rfl) rfl fun p =>
    ⟨fun _ _ h => (List.not_mem_nil h).elim, fun _ _ _ h => h _ ⟨p, rfl⟩⟩

/-- The job schedules others. -/
theorem schedule {new : List Job} (hnew : new.countP Job.isCloseScope = 0)
    (h : Carries gives new []) :
    Works gives jobs operands (pure (Pending.schedule ⟨jobs, operands⟩ new)) := by
  intro s p t hp
  cases hp
  exact ⟨new, [], rfl, h, hnew ▸ (Changes.grows .refl), .refl⟩

/-- The job leaves nothing. -/
theorem nothing {x : Effect α} (hx : x.Changing) :
    Works none jobs operands (do let _ ← x; return ⟨jobs, operands⟩) := by
  refine of_changing hx [] (fun _ => []) (fun _ => by simp) rfl fun _ => ⟨by simp, ?_⟩
  rintro goal js rest ⟨rfl, h⟩
  exact h

theorem fail (place : Location) (fault : RuntimeFault) :
    Works gives jobs operands (Effect.fail place fault) := by
  intro s p t hp
  cases hp

/-- Something happens before. -/
theorem bind {x : Effect α} {f : α → Effect Pending} (hx : x.Changing)
    (hf : ∀ a, Works gives jobs operands (f a)) : Works gives jobs operands (x >>= f) := by
  intro s p t hp
  obtain ⟨a, u, hu, hp⟩ := run_bind_eq_ok_iff.1 hp
  obtain ⟨new, out, rfl, hc, hg, hgains⟩ := hf a hp
  have := (hx hu).grows.trans hg
  rw [Nat.zero_add] at this
  exact ⟨new, out, rfl, hc, this, (hx hu).gains.trans hgains⟩

end Works

namespace Interpreter

open Effect

variable (i : Interpreter) (jobs : Stack Job) (operands : Stack Value)

/-- Expressions, and a job that takes their values. -/
theorem carries_evaluateAll (job : Job) (hb : job.isBodyEnd = false) (nodes : List Node)
    (ht : job.takes = .replicate nodes.length .value) :
    Carries job.gives (nodes.map .evaluate ++ [job]) [] := by
  refine ⟨fun h j hj => ?_, fun goal jobs rest h => ?_⟩
  · rcases List.mem_append.1 hj with hj | hj
    · obtain ⟨node, -, rfl⟩ := List.mem_map.1 hj
      rfl
    · rwa [List.mem_singleton.1 hj]
  · rw [List.append_assoc]
    refine .evaluateAll fun vs hvs => .of_awaits hb vs ?_ h
    rw [ht, ← hvs]
    clear hvs
    induction vs with
    | nil => exact .nil
    | cons v vs ih => exact .cons trivial ih

theorem countP_evaluateAll {job : Job} (nodes : List Node) (h : job.isCloseScope = false) :
    (nodes.map Job.evaluate ++ [job]).countP Job.isCloseScope = 0 := by
  simp [List.countP_eq_zero, h, Job.isCloseScope.eq_2]

theorem works_evaluate (node : Node) :
    Works (some .value) jobs operands (i.evaluate node ⟨jobs, operands⟩) := by
  unfold evaluate
  cases node with
  | intLiteral place n => exact .value (x := pure (.int n)) (changing_pure _)
  | charLiteral place c => exact .value (x := pure (.char c)) (changing_pure _)
  | stringLiteral => exact .value (changing_stringLiteral ..)
  | identifier => exact .value (changing_variableValue ..)
  | arrayLiteral place elements =>
    exact .schedule (countP_evaluateAll elements rfl)
      (carries_evaluateAll (.arrayLiteral elements.length place) rfl elements rfl)
  | binary place op left right =>
    dsimp only
    split
    · exact .schedule rfl ⟨by simp [Job.gives], fun _ _ _ h =>
        .evaluate fun l => .value rfl rfl l h⟩
    · exact .schedule rfl ⟨by simp [Job.gives], fun _ _ _ h =>
        .evaluate fun l => .evaluate fun r => .values rfl rfl r l h⟩
  | unary =>
    exact .schedule rfl ⟨by simp [Job.gives], fun _ _ _ h =>
      .evaluate fun v => .value rfl rfl v h⟩
  | step | deref | index =>
    exact .schedule rfl ⟨by simp [Job.gives], fun _ _ _ h =>
      .locate fun p => .of_awaits rfl [.pointer p] (.cons ⟨p, rfl⟩ .nil) h⟩
  | addressOf =>
    exact .schedule rfl ⟨by simp [Job.gives], fun _ _ _ h => .locate fun p => h _ trivial⟩
  | assign | compoundAssign =>
    exact .schedule rfl ⟨by simp [Job.gives], fun _ _ _ h => .locate fun p =>
      .evaluate fun v => .of_awaits rfl [v, .pointer p] (.cons trivial (.cons ⟨p, rfl⟩ .nil)) h⟩
  | call place name args =>
    intro s p t hp
    obtain ⟨callee, u, hu, hp⟩ := run_bind_eq_ok_iff.1 hp
    have hjob : (callJob place callee).gives = some .value ∧
        (callJob place callee).isCloseScope = false ∧ (callJob place callee).isBodyEnd = false ∧
        (callJob place callee).takes = .replicate args.length .value := by
      have hcallee := run_ofExcept_eq_ok hu
      cases callee with
      | defined f =>
        rw [length_of_callee_eq_defined hcallee]
        exact ⟨rfl, rfl, rfl, rfl⟩
      | print =>
        rw [length_of_callee_eq_print hcallee]
        exact ⟨rfl, rfl, rfl, rfl⟩
    cases hp
    refine ⟨args.map .evaluate ++ [callJob place callee], [], rfl, ?_, ?_,
      (changing_ofExcept _ _ hu).gains⟩
    · have := carries_evaluateAll (callJob place callee) hjob.2.2.1 args hjob.2.2.2
      rwa [hjob.1] at this
    · rw [countP_evaluateAll args hjob.2.1]
      exact (changing_ofExcept _ _ hu).grows
  | declaration place name type isConst init =>
    exact .schedule (countP_evaluateAll _ rfl)
      (carries_evaluateAll (.declare ⟨place, name, type, isConst, init⟩ true) rfl _ rfl)
  | _ => exact .fail _ _

theorem works_locate (node : Node) (access : Access) :
    Works (some .place) jobs operands (locate node access ⟨jobs, operands⟩) := by
  unfold locate
  cases node with
  | identifier => exact .place (changing_variablePlace ..)
  | deref =>
    exact .schedule rfl ⟨by simp [Job.gives], fun _ _ _ h =>
      .evaluate fun v => .value rfl rfl v h⟩
  | index =>
    exact .schedule rfl ⟨by simp [Job.gives], fun _ _ _ h =>
      .evaluate fun a => .evaluate fun v => .values rfl rfl v a h⟩
  | _ => exact .fail _ _

end Interpreter

/-! ## Jobs that find their operands -/

theorem exists_of_admits_singleton {role : Role} {taken : List Value}
    (h : List.Forall₂ Role.admits [role] taken) : ∃ v, role.admits v ∧ taken = [v] := by
  obtain ⟨v, rest, hv, hrest, rfl⟩ := List.forall₂_cons_left_iff.1 h
  cases hrest
  exact ⟨v, hv, rfl⟩

theorem exists_of_admits_pair {role role' : Role} {taken : List Value}
    (h : List.Forall₂ Role.admits [role, role'] taken) :
    ∃ v w, role.admits v ∧ role'.admits w ∧ taken = [v, w] := by
  obtain ⟨v, rest, hv, hrest, rfl⟩ := List.forall₂_cons_left_iff.1 h
  obtain ⟨w, hw, rfl⟩ := exists_of_admits_singleton hrest
  exact ⟨v, w, hv, hw, rfl⟩

namespace Interpreter

open Effect

/-- Whether a job is done within the call and without a look at the other jobs. -/
def isLocal : Job → Bool
  | .execute _ | .closeScope _ | .call .. | .giveBack .. | .bodyEnd _ => false
  | _ => true

section

variable (jobs : Stack Job) (operands : Stack Value)

theorem works_logical (op : BinaryOp) (right : Node) (place : Location) (left : Value) :
    Works (some .value) jobs operands
      (Pending.logical op right place ⟨jobs, operands.push left⟩) := by
  simp only [Pending.logical, Pending.pop_push, pure_bind]
  split
  · exact .value (x := pure _) (changing_pure _)
  · exact .schedule rfl ⟨by simp [Job.gives], fun _ _ _ h =>
      .evaluate fun r => .value rfl rfl r h⟩

/-- As many values as a job takes. -/
theorem length_of_admits {count : Nat} {role : Role} {taken : List Value}
    (ht : List.Forall₂ Role.admits (.replicate count role) taken) :
    count = taken.reverse.length := by
  rw [List.length_reverse, ← ht.length_eq, List.length_replicate]

theorem popMany_of_admits (place : Location) {count : Nat} {role : Role} {taken : List Value}
    (ht : List.Forall₂ Role.admits (.replicate count role) taken) :
    Pending.popMany place ⟨jobs, operands.pushAll taken⟩ count =
      pure (taken.reverse, ⟨jobs, operands⟩) := by
  have hpop := Pending.popMany_pushAll place jobs operands taken.reverse
  rwa [List.reverse_reverse, ← length_of_admits ht] at hpop

theorem works_declare (d : Declaration) (asValue : Bool) {taken : List Value}
    (ht : List.Forall₂ Role.admits (.replicate d.operands.length .value) taken) :
    Works (Job.declare d asValue).gives jobs operands
      (Pending.declare d asValue ⟨jobs, operands.pushAll taken⟩) := by
  simp only [Pending.declare, popMany_of_admits jobs operands d.place ht, pure_bind]
  cases asValue with
  | true => exact .bind (changing_define ..) fun b => .value (changing_load ..)
  | false => exact .nothing (changing_define ..)

theorem works_branch (thenBranch : Node) (elseBranch : Option Node) (place : Location) (v : Value) :
    Works none jobs operands
      (Pending.branch thenBranch elseBranch place ⟨jobs, operands.push v⟩) := by
  simp only [Pending.branch, Pending.pop_push, pure_bind]
  split
  · exact .schedule rfl (.of_statement fun _ _ h => .execute h)
  · exact .schedule (by cases elseBranch <;> rfl) (.of_statement fun _ _ h => .executeAll h)

theorem works_whileTest (condition body : Node) (place : Location) (v : Value) :
    Works none jobs operands
      (Pending.whileTest condition body place ⟨jobs, operands.push v⟩) := by
  simp only [Pending.whileTest, Pending.pop_push, pure_bind]
  split
  · exact .schedule rfl (.of_statement fun _ _ h =>
      .execute (.alone rfl rfl rfl (.evaluateFor rfl rfl rfl h)))
  · exact .nothing (x := pure ()) (changing_pure _)

theorem works_forBody (loop : ForLoop) :
    Works none jobs operands (pure (Pending.forBody loop ⟨jobs, operands⟩)) :=
  .schedule rfl (.of_statement fun _ _ h => .execute (.alone rfl rfl rfl (.alone rfl rfl rfl h)))

theorem works_forCondition (loop : ForLoop) :
    Works none jobs operands (pure (Pending.forCondition loop ⟨jobs, operands⟩)) := by
  unfold Pending.forCondition
  split
  · exact .schedule rfl (.of_statement fun _ _ h => .evaluateFor rfl rfl rfl h)
  · exact works_forBody jobs operands loop

theorem works_forTest (loop : ForLoop) (v : Value) :
    Works none jobs operands (Pending.forTest loop ⟨jobs, operands.push v⟩) := by
  simp only [Pending.forTest, Pending.pop_push, pure_bind]
  split
  · exact works_forBody jobs operands loop
  · exact .nothing (x := pure ()) (changing_pure _)

theorem works_forNext (loop : ForLoop) :
    Works none jobs operands (pure (Pending.forNext loop ⟨jobs, operands⟩)) := by
  unfold Pending.forNext
  split
  · exact .schedule rfl (.of_statement fun _ _ h =>
      .evaluateFor rfl rfl rfl (.alone rfl rfl rfl h))
  · exact .schedule rfl (.of_statement fun _ _ h => .alone rfl rfl rfl h)

end

/-- A job that stays within its call puts jobs and operands in its place. -/
theorem exists_works (i : Interpreter) {job : Job} (hlocal : isLocal job) {taken : List Value}
    (ht : List.Forall₂ Role.admits job.takes taken) (jobs : Stack Job) (operands : Stack Value)
    (bases : List Heights) :
    ∃ x, i.perform job ⟨jobs, operands.pushAll taken⟩ bases =
        (do return .running ⟨← x, bases⟩) ∧ Works job.gives jobs operands x := by
  have one {v : Value} : operands.pushAll [v] = operands.push v := rfl
  have two {v w : Value} : operands.pushAll [v, w] = (operands.push w).push v := rfl
  cases job with
  | execute | closeScope | call | giveBack | bodyEnd => nomatch hlocal
  | evaluate node =>
    cases ht
    exact ⟨_, rfl, i.works_evaluate jobs operands node⟩
  | locate node access =>
    cases ht
    exact ⟨_, rfl, works_locate jobs operands node access⟩
  | discard place =>
    obtain ⟨v, -, rfl⟩ := exists_of_admits_singleton ht
    refine ⟨_, rfl, ?_⟩
    simp only [Pending.discard, one, Pending.pop_push, pure_bind]
    exact .nothing (x := pure ()) (changing_pure _)
  | binary op place =>
    obtain ⟨r, l, -, -, rfl⟩ := exists_of_admits_pair ht
    refine ⟨_, rfl, ?_⟩
    simp only [Pending.binary, two, Pending.pop_push, pure_bind]
    exact .value (changing_ofExcept ..)
  | logical op right place =>
    obtain ⟨l, -, rfl⟩ := exists_of_admits_singleton ht
    exact ⟨_, rfl, works_logical jobs operands op right place l⟩
  | truth place =>
    obtain ⟨v, -, rfl⟩ := exists_of_admits_singleton ht
    refine ⟨_, rfl, ?_⟩
    simp only [Pending.truth, one, Pending.pop_push, pure_bind]
    exact .value (x := pure _) (changing_pure _)
  | unary op place =>
    obtain ⟨v, -, rfl⟩ := exists_of_admits_singleton ht
    refine ⟨_, rfl, ?_⟩
    simp only [Pending.unary, one, Pending.pop_push, pure_bind]
    exact .value (changing_ofExcept ..)
  | step op place =>
    obtain ⟨_, ⟨target, rfl⟩, rfl⟩ := exists_of_admits_singleton ht
    refine ⟨_, rfl, ?_⟩
    simp only [Pending.step, one, Pending.popPlace_push, pure_bind]
    exact .value (changing_step ..)
  | load place =>
    obtain ⟨_, ⟨target, rfl⟩, rfl⟩ := exists_of_admits_singleton ht
    refine ⟨_, rfl, ?_⟩
    simp only [Pending.load, one, Pending.popPlace_push, pure_bind]
    exact .value (changing_load ..)
  | requirePointer place =>
    obtain ⟨v, -, rfl⟩ := exists_of_admits_singleton ht
    refine ⟨_, rfl, ?_⟩
    simp only [Pending.requirePointer, one, Pending.pop_push, pure_bind]
    exact .place (changing_pointerPlace ..)
  | index place =>
    obtain ⟨v, a, -, -, rfl⟩ := exists_of_admits_pair ht
    refine ⟨_, rfl, ?_⟩
    simp only [Pending.index, two, Pending.pop_push, pure_bind]
    exact .place (changing_ofExcept ..)
  | assign place =>
    obtain ⟨v, _, -, ⟨target, rfl⟩, rfl⟩ := exists_of_admits_pair ht
    refine ⟨_, rfl, ?_⟩
    simp only [Pending.assign, two, Pending.pop_push, Pending.popPlace_push, pure_bind]
    exact .value (changing_assign ..)
  | compoundAssign op place =>
    obtain ⟨v, _, -, ⟨target, rfl⟩, rfl⟩ := exists_of_admits_pair ht
    refine ⟨_, rfl, ?_⟩
    simp only [Pending.compoundAssign, two, Pending.pop_push, Pending.popPlace_push, pure_bind]
    exact .value (changing_compoundAssign ..)
  | arrayLiteral count place =>
    refine ⟨_, rfl, ?_⟩
    simp only [Pending.arrayLiteral, popMany_of_admits jobs operands place ht, pure_bind]
    exact .value (changing_arrayLiteral ..)
  | declare d asValue => exact ⟨_, rfl, works_declare jobs operands d asValue ht⟩
  | print place =>
    obtain ⟨length, start, -, -, rfl⟩ := exists_of_admits_pair ht
    refine ⟨_, rfl, ?_⟩
    simp only [Pending.print, two, Pending.pop_push, pure_bind]
    exact .value (changing_print ..)
  | branch thenBranch elseBranch place =>
    obtain ⟨v, -, rfl⟩ := exists_of_admits_singleton ht
    exact ⟨_, rfl, works_branch jobs operands thenBranch elseBranch place v⟩
  | whileTest condition body place =>
    obtain ⟨v, -, rfl⟩ := exists_of_admits_singleton ht
    exact ⟨_, rfl, works_whileTest jobs operands condition body place v⟩
  | forCondition loop =>
    cases ht
    exact ⟨_, rfl, works_forCondition jobs operands loop⟩
  | forTest loop =>
    obtain ⟨v, -, rfl⟩ := exists_of_admits_singleton ht
    exact ⟨_, rfl, works_forTest jobs operands loop v⟩
  | forNext loop =>
    cases ht
    exact ⟨_, rfl, works_forNext jobs operands loop⟩
  | continueTarget | loopEnd =>
    cases ht
    refine ⟨_, rfl, ?_⟩
    exact .nothing (x := pure ()) (changing_pure _)

/-! ## Statements -/

/-- Jobs below a scope that has been opened. -/
theorem works_openScope (jobs : Stack Job) (operands : Stack Value) (place : Location)
    {new : List Job} (hnew : new.countP Job.isCloseScope = 1) (h : Carries none new []) :
    Works none jobs operands
      (do openScope place; return Pending.schedule ⟨jobs, operands⟩ new) := by
  intro s p t hp
  obtain ⟨_, u, hu, hp⟩ := run_bind_eq_ok_iff.1 hp
  cases hp
  refine ⟨new, [], rfl, h, ?_, gains_openScope hu⟩
  obtain ⟨a, callers, hs, ht, -⟩ := run_openScope_eq_ok hu
  intro a' callers' hs' ha
  cases hs.symm.trans hs'
  exact ⟨_, ht, by simp [Activation.openScope, hnew]⟩

def isLoopControl : Node → Bool
  | .breakLoop _ | .continueLoop _ => true
  | _ => false

/-- A statement other than loop control puts jobs in its place. -/
theorem works_execute (i : Interpreter) (jobs : Stack Job) (operands : Stack Value) {node : Node}
    (hnode : isLoopControl node = false) :
    Works none jobs operands (i.execute node ⟨jobs, operands⟩) := by
  unfold execute
  refine .bind (changing_countStep ..) fun _ => ?_
  cases node with
  | breakLoop | continueLoop => nomatch hnode
  | declaration place name type isConst init =>
    exact .schedule (countP_evaluateAll _ rfl)
      (carries_evaluateAll (.declare ⟨place, name, type, isConst, init⟩ false) rfl _ rfl)
  | block place statements =>
    refine works_openScope jobs operands place ?_ (.of_statement fun _ _ h => ?_)
    · simp [List.countP_eq_zero, Job.isCloseScope]
    · rw [List.append_assoc]
      exact .executeAll (.alone rfl rfl rfl h)
  | ifElse =>
    exact .schedule rfl (.of_statement fun _ _ h => .evaluateFor rfl rfl rfl h)
  | whileLoop =>
    exact .schedule rfl (.of_statement fun _ _ h =>
      .evaluateFor rfl rfl rfl (.alone rfl rfl rfl h))
  | forLoop place init condition increment body =>
    refine works_openScope jobs operands place ?_ (.of_statement fun _ _ h => ?_)
    · cases init <;> rfl
    · rw [List.append_assoc]
      exact .executeAll (.alone rfl rfl rfl (.alone rfl rfl rfl (.alone rfl rfl rfl h)))
  | returnFrom place value =>
    cases value with
    | none => exact .schedule rfl (.of_statement fun _ _ h => .alone rfl rfl rfl h)
    | some value => exact .schedule rfl (.of_statement fun _ _ h => .evaluateFor rfl rfl rfl h)
  | function => exact .fail _ _
  | _ =>
    exact .schedule rfl (.of_statement fun _ _ h => .evaluateFor rfl rfl rfl h)

/-! ## Loop control -/

/-- Loop control that succeeds stops at its target among the jobs of the call, and has closed the
scopes that the jobs above it were to close. -/
theorem run_unwind_eq_ok {place : Location} {isTarget : Job → Bool} {own : List Job}
    {jobs below : Stack Job} {s t : ProgramState} (hown : ∃ job ∈ own, job.isBodyEnd = true)
    (h : (Pending.unwind place isTarget (own ++ below.items) (below.pushAll own)).run s =
      (.ok jobs, t)) :
    Losses s t ∧ ∃ skipped target rest, own = skipped ++ target :: rest ∧ isTarget target = true ∧
      (∀ job ∈ skipped, job.isBodyEnd = false) ∧ jobs = below.pushAll rest ∧
      ∀ a callers, s.calls.items = a :: callers → skipped.countP Job.isCloseScope < a.scopes.length →
        ∃ b, t.calls.items = b :: callers ∧
          a.scopes.length = b.scopes.length + skipped.countP Job.isCloseScope := by
  induction own generalizing s with
  | nil =>
    obtain ⟨_, hmem, -⟩ := hown
    exact (List.not_mem_nil hmem).elim
  | cons job own ih =>
    have hpop : (below.pushAll (job :: own)).pop = below.pushAll own := by
      rw [Stack.pushAll_cons, Stack.pop_push]
    cases hend : job.isBodyEnd with
    | true =>
      cases job with
      | bodyEnd p => cases h
      | _ => cases hend
    | false =>
      have hrest : ∃ job ∈ own, job.isBodyEnd = true := by
        obtain ⟨j, hj, hjend⟩ := hown
        rcases List.mem_cons.1 hj with rfl | hj
        · cases hend.symm.trans hjend
        · exact ⟨j, hj, hjend⟩
      have hskip {skipped : List Job} (hskipped : ∀ j ∈ skipped, j.isBodyEnd = false) :
          ∀ j ∈ job :: skipped, j.isBodyEnd = false := List.forall_mem_cons.2 ⟨hend, hskipped⟩
      rw [List.cons_append] at h
      cases hscope : job.isCloseScope with
      | true =>
        cases job with
        | closeScope p =>
          obtain ⟨_, u, hu, h⟩ := run_bind_eq_ok_iff.1 h
          rw [hpop] at h
          obtain ⟨hlosses, skipped, target, rest, rfl, htarget, hskipped, rfl, hcalls⟩ := ih hrest h
          refine ⟨(losses_closeScope hu).trans hlosses, .closeScope p :: skipped, target, rest, rfl,
            htarget, hskip hskipped, rfl, ?_⟩
          intro a callers hs hlt
          obtain ⟨a', callers', hs', hu', -⟩ := run_closeScope_eq_ok hu
          cases hs.symm.trans hs'
          rw [List.countP_cons_of_pos rfl] at hlt
          have hlen : a.closeScope.scopes.length = a.scopes.length - 1 := by
            simp [Activation.closeScope]
          obtain ⟨b, ht, hb⟩ := hcalls _ _ hu' (by omega)
          refine ⟨b, ht, ?_⟩
          rw [List.countP_cons_of_pos rfl]
          omega
        | _ => cases hscope
      | false =>
        have hscope' (p : Location) : job ≠ .closeScope p := by
          rintro rfl
          cases hscope
        have hend' (p : Location) : job ≠ .bodyEnd p := by
          rintro rfl
          cases hend
        rw [Pending.unwind_cons hscope' hend', hpop] at h
        split at h
        · rename_i htarget
          cases h
          exact ⟨.refl, [], job, own, rfl, htarget, by simp, rfl, fun a callers hs _ => ⟨a, hs, rfl⟩⟩
        · obtain ⟨hlosses, skipped, target, rest, rfl, htarget, hskipped, rfl, hcalls⟩ := ih hrest h
          refine ⟨hlosses, job :: skipped, target, rest, rfl, htarget, hskip hskipped, rfl, ?_⟩
          rwa [List.countP_cons_of_neg (by simp [hscope])]

end Interpreter

end BoundedC
