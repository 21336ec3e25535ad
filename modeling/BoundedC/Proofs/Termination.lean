import BoundedC.Proofs.Ceilings
import BoundedC.Proofs.LiteralRuns
import BoundedC.Proofs.StackDiscipline

/-!
# Runs under a ceiling on statements end

Loops and calls can only go on by executing statements, each of which is counted. Between two
statements the machine works off jobs, and there each job is replaced by jobs that are less work
together, or by a statement that is to be executed next (`Lightens`). So from job to job the number of
statements left, then whether a statement is next, then the weight of all pending jobs go down in
lexicographic order.

* `lightens_perform` : what a job that is no statement makes of the jobs behind it;
* `steps_perform` : it counts no statement;
* `measure_lt_of_step` : the measure of a machine;
* `exists_ended_of_limit` : the machine comes to an end from wherever it is;
* `Interpreter.exists_breaksOff_of_advance` : what breaks off a run stands in the program;
* `run_ends_of_limit` : every run ends, and what the end can be.
-/

namespace BoundedC

open Effect Interpreter

/-! ## The weight of jobs -/

mutual

/-- The number of nodes of an expression, and of the places in the lists that it contains. -/
def Node.size : Node → Nat
  | .arrayLiteral _ elements => sizeOfAll elements + 1
  | .binary _ _ left right => left.size + right.size + 1
  | .unary _ _ operand | .step _ _ operand | .deref _ operand | .addressOf _ operand =>
    operand.size + 1
  | .assign _ target value | .compoundAssign _ _ target value => target.size + value.size + 1
  | .index _ array position => array.size + position.size + 1
  | .call _ _ args => sizeOfAll args + 1
  | .declaration _ _ _ _ (some init) => init.size + 2
  | _ => 1

def Node.sizeOfAll : List Node → Nat
  | [] => 0
  | node :: nodes => node.size + sizeOfAll nodes + 1

end

/-- A bound on the number of jobs that a job leads to before the next statement. Statements weigh
nothing, since they are counted otherwise. -/
def Job.weight : Job → Nat
  | execute _ => 0
  | evaluate node => 6 * node.size + 2
  | locate node _ => 6 * node.size
  | logical _ right _ => 6 * right.size + 4
  | forCondition loop => 6 * Node.sizeOfAll loop.condition.toList + 2
  | forNext loop =>
    6 * Node.sizeOfAll loop.increment.toList + 6 * Node.sizeOfAll loop.condition.toList + 4
  | call .. => 2
  | _ => 1

def weightOf (jobs : List Job) : Nat := jobs.foldr (·.weight + ·) 0

@[simp] theorem weightOf_nil : weightOf [] = 0 := rfl

@[simp] theorem weightOf_cons (job : Job) (jobs : List Job) :
    weightOf (job :: jobs) = job.weight + weightOf jobs := rfl

@[simp] theorem weightOf_append (jobs jobs' : List Job) :
    weightOf (jobs ++ jobs') = weightOf jobs + weightOf jobs' := by
  induction jobs with
  | nil => simp
  | cons job jobs ih => simp [ih, Nat.add_assoc]

theorem weightOf_le_of_suffix {jobs jobs' : List Job} (h : jobs <:+ jobs') :
    weightOf jobs ≤ weightOf jobs' := by
  obtain ⟨dropped, rfl⟩ := h
  rw [weightOf_append]
  exact Nat.le_add_left _ _

theorem Node.size_pos (node : Node) : 0 < node.size := by
  cases node with
  | declaration _ _ _ _ init => cases init <;> simp [size]
  | _ => simp [size]

/-- All jobs but statements weigh something. -/
theorem Job.weight_pos {job : Job} (hjob : ∀ node, job ≠ .execute node) : 0 < job.weight := by
  cases job with
  | execute node => exact absurd rfl (hjob node)
  | locate node access =>
    have := node.size_pos
    simp only [weight]
    omega
  | _ => simp [weight]

theorem weightOf_evaluateAll (nodes : List Node) :
    weightOf (nodes.map .evaluate) ≤ 6 * Node.sizeOfAll nodes := by
  induction nodes with
  | nil => exact Nat.zero_le _
  | cons node nodes ih =>
    simp only [List.map_cons, weightOf_cons, Job.weight, Node.sizeOfAll]
    omega

mutual

theorem weightOf_leaves (node : Node) :
    weightOf (node.leaves.map .evaluate) ≤ 6 * node.size + 2 := by
  cases node with
  | arrayLiteral place elements =>
    have helements := weightOf_leavesOf elements
    simp only [Node.leaves, Node.size]
    omega
  | _ => exact Nat.le_refl _

/-- The scalars of an array literal are no more work than the literal is large. -/
theorem weightOf_leavesOf (nodes : List Node) :
    weightOf ((Node.leavesOf nodes).map .evaluate) ≤ 6 * Node.sizeOfAll nodes := by
  cases nodes with
  | nil => exact Nat.zero_le _
  | cons node nodes =>
    have hnode := weightOf_leaves node
    have hnodes := weightOf_leavesOf nodes
    simp only [Node.leavesOf, List.map_append, weightOf_append, Node.sizeOfAll]
    omega

end

theorem weightOf_operands (d : Declaration) :
    weightOf (d.operands.map .evaluate) ≤
      6 * (Node.declaration d.place d.name d.type d.isConst d.init).size := by
  obtain ⟨place, name, type, isConst, init⟩ := d
  cases init with
  | none => cases type <;> exact Nat.zero_le _
  | some init =>
    have hself : weightOf ([init].map .evaluate) ≤ 6 * (init.size + 2) := by
      simp only [List.map_cons, List.map_nil, weightOf_cons, weightOf_nil, Job.weight]
      omega
    have hleaves (site : Location) (elements : List Node) :
        weightOf ((Node.leavesOf elements).map .evaluate) ≤
          6 * ((Node.arrayLiteral site elements).size + 2) := by
      have := weightOf_leavesOf elements
      simp only [Node.size]
      omega
    unfold Declaration.operands
    simp only [Node.size]
    split
    · exact Nat.zero_le _
    · exact Nat.zero_le _
    · rename_i hinit
      cases hinit
      exact hleaves _ _
    · rename_i hinit
      cases hinit
      exact hleaves _ _
    · rename_i hinit
      cases hinit
      exact hself

/-! ## What a job makes of the jobs behind it -/

/-- What is left of a job and the jobs behind it: a statement comes next, or other jobs are in its place
that weigh less, or jobs were dropped. -/
inductive Lightens (job : Job) (rest : List Job) : List Job → Prop
  | executes (node : Node) (new : List Job) : Lightens job rest (.execute node :: new ++ rest)
  | lighter {new : List Job} (h : weightOf new < job.weight) : Lightens job rest (new ++ rest)
  | drops {jobs : List Job} (h : jobs <:+ rest) : Lightens job rest jobs

namespace Effect

variable {α β : Type} {P : α → Prop} {Q : β → Prop}

/-- Where the effect succeeds, its value has the property. -/
def Yields (P : α → Prop) (x : Effect α) : Prop := ∀ ⦃s a t⦄, x.run s = (.ok a, t) → P a

theorem yields_pure {a : α} (h : P a) : Yields P (pure a) := by
  rintro s _ t ⟨⟩
  exact h

theorem yields_fail (place : Location) (fault : RuntimeFault) :
    Yields P (fail place fault : Effect α) := by
  rintro s a t ⟨⟩

theorem yields_bind {x : Effect α} {f : α → Effect β} (hx : Yields P x)
    (hf : ∀ a, P a → Yields Q (f a)) : Yields Q (x >>= f) := by
  intro s b t h
  obtain ⟨a, u, hu, ht⟩ := run_bind_eq_ok_iff.1 h
  exact hf a (hx hu) ht

/-- An effect whose value does not matter. -/
theorem yields_after {x : Effect α} {f : α → Effect β} (hf : ∀ a, Yields Q (f a)) :
    Yields Q (x >>= f) := by
  intro s b t h
  obtain ⟨a, u, -, ht⟩ := run_bind_eq_ok_iff.1 h
  exact hf a ht

end Effect

namespace Pending

theorem yields_pop (place : Location) (p : Pending) :
    Yields (fun r : Value × Pending => r.2.jobs = p.jobs) (p.pop place) := by
  unfold pop
  split
  · exact yields_pure rfl
  · exact yields_fail _ _

theorem yields_popPlace (place : Location) (p : Pending) :
    Yields (fun r : Pointer × Pending => r.2.jobs = p.jobs) (p.popPlace place) := by
  refine yields_bind (yields_pop place p) fun r hr => ?_
  obtain ⟨v, q⟩ := r
  cases v with
  | pointer target => exact yields_pure hr
  | _ => exact yields_fail _ _

theorem yields_popMany (place : Location) (p : Pending) (count : Nat) :
    Yields (fun r : List Value × Pending => r.2.jobs = p.jobs) (p.popMany place count) := by
  unfold popMany
  split
  · exact yields_pure rfl
  · exact yields_fail _ _

end Pending

variable {job : Job} {p q : Pending}

/-- Nothing is left of the job. -/
theorem Lightens.done (h : q.jobs = p.jobs) : Lightens job p.jobs.items q.jobs.items := by
  rw [h]
  exact .drops List.suffix_rfl

/-- Lighter jobs are scheduled. -/
theorem Lightens.schedule {new : List Job} (hnew : weightOf new < job.weight) (h : q.jobs = p.jobs) :
    Lightens job p.jobs.items (q.schedule new).jobs.items := by
  show Lightens job p.jobs.items (new ++ q.jobs.items)
  rw [h]
  exact .lighter hnew

/-- A statement is scheduled. -/
theorem Lightens.execute (node : Node) (new : List Job) (h : q.jobs = p.jobs) :
    Lightens job p.jobs.items (q.schedule (.execute node :: new)).jobs.items := by
  show Lightens job p.jobs.items (.execute node :: new ++ q.jobs.items)
  rw [h]
  exact .executes node new

theorem lightens_evaluate (i : Interpreter) (node : Node) (p : Pending) :
    Yields (fun q => Lightens (.evaluate node) p.jobs.items q.jobs.items) (i.evaluate node p) := by
  cases node with
  | intLiteral | charLiteral => exact yields_pure (.done rfl)
  | stringLiteral | identifier => exact yields_after fun _ => yields_pure (.done rfl)
  | arrayLiteral place elements =>
    refine yields_pure (.schedule ?_ rfl)
    have := weightOf_evaluateAll elements
    simp only [weightOf_append, weightOf_cons, weightOf_nil, Job.weight, Node.size]
    omega
  | binary place op left right =>
    unfold evaluate
    dsimp only
    split <;> refine yields_pure (.schedule ?_ rfl) <;>
      simp only [weightOf_cons, weightOf_nil, Job.weight, Node.size] <;> omega
  | unary | step | deref | index | addressOf | assign | compoundAssign =>
    refine yields_pure (.schedule ?_ rfl)
    simp only [weightOf_cons, weightOf_nil, Job.weight, Node.size]
    omega
  | call place name args =>
    refine yields_after fun callee => yields_pure (.schedule ?_ rfl)
    have hargs := weightOf_evaluateAll args
    have hcall : (callJob place callee).weight ≤ 2 := by
      cases callee <;> simp [callJob, Job.weight]
    have hevaluate : (Job.evaluate (.call place name args)).weight =
      6 * (Node.sizeOfAll args + 1) + 2 := rfl
    rw [hevaluate, weightOf_append, weightOf_cons, weightOf_nil]
    omega
  | declaration place name type isConst init =>
    let d : Declaration := ⟨place, name, type, isConst, init⟩
    have hoperands : weightOf (d.operands.map .evaluate) ≤
      6 * (Node.declaration place name type isConst init).size := weightOf_operands d
    have hweight : weightOf (d.operands.map .evaluate ++ [.declare d true]) <
        (Job.evaluate (.declaration place name type isConst init)).weight := by
      simp only [weightOf_append, weightOf_cons, weightOf_nil, Job.weight]
      omega
    exact yields_pure (.schedule hweight rfl)
  | _ => exact yields_fail _ _

theorem lightens_locate (node : Node) (access : Access) (p : Pending) :
    Yields (fun q => Lightens (.locate node access) p.jobs.items q.jobs.items)
      (locate node access p) := by
  cases node with
  | identifier => exact yields_after fun _ => yields_pure (.done rfl)
  | deref | index =>
    refine yields_pure (.schedule ?_ rfl)
    simp only [weightOf_cons, weightOf_nil, Job.weight, Node.size]
    omega
  | _ => exact yields_fail _ _

/-- The jobs that are left after the effect are fewer or lighter than the job and those below it. -/
abbrev Relieves (job : Job) (p : Pending) (x : Effect Pending) : Prop :=
  Yields (fun q => Lightens job p.jobs.items q.jobs.items) x

theorem relieves_pop_bind {r : Pending} {place : Location} {f : Value × Pending → Effect Pending}
    (hr : r.jobs = p.jobs) (hf : ∀ v q, q.jobs = p.jobs → Relieves job p (f (v, q))) :
    Relieves job p (r.pop place >>= f) :=
  yields_bind (Pending.yields_pop place r) fun o ho => hf o.1 o.2 (ho.trans hr)

theorem relieves_popPlace_bind {r : Pending} {place : Location}
    {f : Pointer × Pending → Effect Pending} (hr : r.jobs = p.jobs)
    (hf : ∀ target q, q.jobs = p.jobs → Relieves job p (f (target, q))) :
    Relieves job p (r.popPlace place >>= f) :=
  yields_bind (Pending.yields_popPlace place r) fun o ho => hf o.1 o.2 (ho.trans hr)

theorem relieves_popMany_bind {place : Location} {count : Nat}
    {f : List Value × Pending → Effect Pending}
    (hf : ∀ values q, q.jobs = p.jobs → Relieves job p (f (values, q))) :
    Relieves job p (p.popMany place count >>= f) :=
  yields_bind (Pending.yields_popMany place p count) fun o ho => hf o.1 o.2 ho

theorem relieves_logical (op : BinaryOp) (right : Node) (place : Location) (p : Pending) :
    Relieves (.logical op right place) p (p.logical op right place) := by
  refine relieves_pop_bind rfl fun left q hq => ?_
  dsimp only
  split
  · exact yields_pure (.done hq)
  · refine yields_pure (.schedule ?_ hq)
    simp only [weightOf_cons, weightOf_nil, Job.weight]
    omega

theorem relieves_declare (d : Declaration) (asValue : Bool) (p : Pending) :
    Relieves (.declare d asValue) p (p.declare d asValue) := by
  refine relieves_popMany_bind fun values q hq => yields_after fun b => ?_
  split
  · exact yields_after fun v => yields_pure (.done hq)
  · exact yields_pure (.done hq)

theorem relieves_branch (thenBranch : Node) (elseBranch : Option Node) (place : Location)
    (p : Pending) : Relieves (.branch thenBranch elseBranch place) p
      (p.branch thenBranch elseBranch place) := by
  refine relieves_pop_bind rfl fun condition q hq => ?_
  dsimp only
  split
  · exact yields_pure (.execute thenBranch [] hq)
  · cases elseBranch with
    | none => exact yields_pure (.schedule Nat.one_pos hq)
    | some node => exact yields_pure (.execute node [] hq)

theorem relieves_whileTest (condition body : Node) (place : Location) (p : Pending) :
    Relieves (.whileTest condition body place) p (p.whileTest condition body place) := by
  refine relieves_pop_bind rfl fun v q hq => ?_
  dsimp only
  split
  · exact yields_pure (.execute body _ hq)
  · exact yields_pure (.done hq)

theorem relieves_forCondition (loop : ForLoop) (p : Pending) :
    Relieves (.forCondition loop) p (pure (p.forCondition loop)) := by
  refine yields_pure ?_
  unfold Pending.forCondition
  split
  · rename_i condition hcondition
    refine .schedule ?_ rfl
    simp only [weightOf_cons, weightOf_nil, Job.weight, hcondition, Option.toList_some,
      Node.sizeOfAll]
    omega
  · exact .execute loop.body _ rfl

theorem relieves_forTest (loop : ForLoop) (p : Pending) :
    Relieves (.forTest loop) p (p.forTest loop) := by
  refine relieves_pop_bind rfl fun v q hq => ?_
  dsimp only
  split
  · exact yields_pure (.execute loop.body _ hq)
  · exact yields_pure (.done hq)

theorem relieves_forNext (loop : ForLoop) (p : Pending) :
    Relieves (.forNext loop) p (pure (p.forNext loop)) := by
  refine yields_pure ?_
  unfold Pending.forNext
  split
  · rename_i increment hincrement
    refine .schedule ?_ rfl
    simp only [weightOf_cons, weightOf_nil, Job.weight, hincrement, Option.toList_some,
      Node.sizeOfAll]
    omega
  · refine .schedule ?_ rfl
    simp only [weightOf_cons, weightOf_nil, Job.weight]
    omega

/-- The same for the machine that an outcome goes on with. -/
def Progress.Lightens (job : Job) (rest : List Job) : Progress → Prop
  | running m => BoundedC.Lightens job rest m.pending.jobs.items
  | exited _ => True

/-- The end of a call drops jobs. -/
theorem lightens_giveBack (value : Option Value) (place : Location)
    (hq : q.jobs = p.jobs) (bases : List Heights) :
    Yields (Progress.Lightens job p.jobs.items) (giveBack value place q bases) := by
  refine yields_after fun result => ?_
  unfold resume
  split
  · refine yields_pure ?_
    show BoundedC.Lightens job p.jobs.items (q.jobs.cutTo _).items
    rw [hq]
    exact .drops (List.drop_suffix _ _)
  · exact yields_after fun _ => yields_pure trivial

/-- A call goes on with the first statement of the body; an empty body is over at once. -/
theorem lightens_call (i : Interpreter) (f : Function) (place : Location) (p : Pending)
    (bases : List Heights) :
    Yields (Progress.Lightens (.call f place) p.jobs.items) (i.call f place p bases) := by
  refine yields_bind (Pending.yields_popMany place p _) fun r hr => yields_after fun _ => ?_
  refine yields_pure ?_
  show BoundedC.Lightens _ p.jobs.items (f.body.map .execute ++ [.bodyEnd f.place] ++ r.2.jobs.items)
  rw [hr]
  cases f.body with
  | nil =>
    have hend : weightOf [.bodyEnd f.place] < (Job.call f place).weight := Nat.lt_succ_self 1
    exact .lighter hend
  | cons node nodes => exact .executes node (nodes.map .execute ++ [.bodyEnd f.place])

/-- A job that is no statement has work put in its place that weighs less, unless a statement is
next. -/
theorem lightens_perform (i : Interpreter) (hjob : ∀ node, job ≠ .execute node) (p : Pending)
    (bases : List Heights) : Yields (Progress.Lightens job p.jobs.items) (i.perform job p bases) := by
  have hgo {next : Effect Pending} (hnext : Relieves job p next) :
      Yields (Progress.Lightens job p.jobs.items) (do return Progress.running ⟨← next, bases⟩) :=
    yields_bind hnext fun q hq => by
      show Yields _ (pure (Progress.running ⟨q, bases⟩))
      exact yields_pure hq
  cases job with
  | execute node => exact absurd rfl (hjob node)
  | evaluate node => exact hgo (lightens_evaluate i node p)
  | locate node access => exact hgo (lightens_locate node access p)
  | discard place =>
    exact hgo (relieves_pop_bind rfl fun _ _ hq => yields_pure (.done hq))
  | closeScope place =>
    exact hgo (yields_after fun _ => yields_pure (.done rfl))
  | binary op place =>
    exact hgo (relieves_pop_bind rfl fun _ _ hr => relieves_pop_bind hr fun _ _ hq =>
      yields_after fun v => yields_pure (.done hq))
  | logical op right place => exact hgo (relieves_logical op right place p)
  | truth place => exact hgo (relieves_pop_bind rfl fun _ _ hq => yields_pure (.done hq))
  | unary op place =>
    exact hgo (relieves_pop_bind rfl fun _ _ hq => yields_after fun v => yields_pure (.done hq))
  | step op place =>
    exact hgo (relieves_popPlace_bind rfl fun _ _ hq => yields_after fun v => yields_pure (.done hq))
  | load place =>
    exact hgo (relieves_popPlace_bind rfl fun _ _ hq => yields_after fun v => yields_pure (.done hq))
  | requirePointer place =>
    exact hgo (relieves_pop_bind rfl fun _ _ hq => yields_after fun _ => yields_pure (.done hq))
  | index place =>
    exact hgo (relieves_pop_bind rfl fun _ _ hr => relieves_pop_bind hr fun _ _ hq =>
      yields_after fun _ => yields_pure (.done hq))
  | assign place =>
    exact hgo (relieves_pop_bind rfl fun _ _ hr => relieves_popPlace_bind hr fun _ _ hq =>
      yields_after fun v => yields_pure (.done hq))
  | compoundAssign op place =>
    exact hgo (relieves_pop_bind rfl fun _ _ hr => relieves_popPlace_bind hr fun _ _ hq =>
      yields_after fun v => yields_pure (.done hq))
  | arrayLiteral count place =>
    exact hgo (relieves_popMany_bind fun _ _ hq => yields_after fun v => yields_pure (.done hq))
  | declare d asValue => exact hgo (relieves_declare d asValue p)
  | call f place => exact lightens_call i f place p bases
  | print place =>
    exact hgo (relieves_pop_bind rfl fun _ _ hr => relieves_pop_bind hr fun _ _ hq =>
      yields_after fun v => yields_pure (.done hq))
  | branch thenBranch elseBranch place => exact hgo (relieves_branch thenBranch elseBranch place p)
  | whileTest condition body place => exact hgo (relieves_whileTest condition body place p)
  | forCondition loop => exact hgo (relieves_forCondition loop p)
  | forTest loop => exact hgo (relieves_forTest loop p)
  | forNext loop => exact hgo (relieves_forNext loop p)
  | continueTarget | loopEnd => exact hgo (yields_pure (.done rfl))
  | giveBack hasValue place =>
    cases hasValue with
    | false => exact lightens_giveBack none place rfl bases
    | true =>
      exact yields_bind (Pending.yields_pop place p) fun r hr =>
        lightens_giveBack (some r.1) place hr bases
  | bodyEnd place => exact lightens_giveBack none place rfl bases

/-! ## The measure -/

def Job.isExecute : Job → Bool
  | execute _ => true
  | _ => false

/-- What goes down from job to job: the number of statements left, whether other jobs come before the
next statement, and the weight of the pending jobs. -/
def Machine.measure (limit : Nat) (m : Machine) (s : ProgramState) : Nat × Nat × Nat :=
  (limit - s.steps, if m.pending.jobs.items.head?.any Job.isExecute then 0 else 1,
    weightOf m.pending.jobs.items)

variable {i : Interpreter} {m m' : Machine} {s s' : ProgramState} {limit : Nat}

/-- A job that is no statement counts none. -/
theorem steps_perform {next : Progress} {bases : List Heights} (hjob : ∀ node, job ≠ .execute node)
    (h : (i.perform job p bases).run s = (.ok next, s')) : s'.steps = s.steps := by
  cases hmetered : job.isMetered with
  | false =>
    have hst := (unmetered_perform i hmetered p bases s).1.steps
    rwa [h] at hst
  | true =>
    cases job with
    | execute node => exact absurd rfl (hjob node)
    | call f place =>
      obtain ⟨r, t, ht, h⟩ := run_bind_eq_ok_iff.1 h
      obtain ⟨_, u, hu, h⟩ := run_bind_eq_ok_iff.1 h
      cases h
      have hargs := (Pending.unmetered_popMany place p f.params.length s).1.steps
      rw [ht] at hargs
      rw [run_enterCall] at hu
      split at hu
      · cases hu
      · obtain ⟨a, w, hw, hpush⟩ := run_bind_eq_ok_iff.1 hu
        cases hpush
        have hparams := (unmetered_entered f r.1 (some place) t).1.steps
        rw [hw] at hparams
        exact hparams.trans hargs
    | _ => cases hmetered

/-- A statement counts as one. -/
theorem steps_execute {node : Node} {next : Progress} {bases : List Heights}
    (h : (i.perform (.execute node) p bases).run s = (.ok next, s')) :
    s'.steps = s.steps + 1 := by
  have h' : (i.execute node p >>= fun q => pure (.running ⟨q, bases⟩)).run s = (.ok next, s') := h
  obtain ⟨q, t, ht, hnext⟩ := run_bind_eq_ok_iff.1 h'
  cases hnext
  rw [execute_eq] at ht
  obtain ⟨_, u, hu, ht⟩ := run_bind_eq_ok_iff.1 ht
  have hrest := (unmetered_executed node p u).1.steps
  rw [ht] at hrest
  have hcount : u.steps = s.steps + 1 := by rw [run_countStep_eq_ok hu]
  exact hrest.trans hcount

theorem measure_lt_of_step (hlimit : i.limits.maxSteps = some limit) (hs : i.limits.Bounds false s)
    (hstep : (i.step m).run s = (.ok (.running m'), s')) :
    Prod.Lex (· < ·) (Prod.Lex (· < ·) (· < ·)) (m'.measure limit s') (m.measure limit s) := by
  have hs' := (metered_step i m).obeys i.limits s hs
  have hrun : ((i.withLimits i.limits).step m).run s = (.ok (.running m'), s') := hstep
  rw [hrun] at hs'
  have hle : s'.steps ≤ limit := hs'.steps limit hlimit
  unfold Interpreter.step at hstep
  cases hjobs : m.pending.jobs.items with
  | nil =>
    rw [Stack.top?, hjobs] at hstep
    cases hstep
  | cons job rest =>
    rw [Stack.top?, hjobs] at hstep
    by_cases hjob : ∃ node, job = .execute node
    · obtain ⟨node, rfl⟩ := hjob
      have hsteps := steps_execute hstep
      refine .left _ _ ?_
      omega
    · have hjob' : ∀ node, job ≠ .execute node := fun node h => hjob ⟨node, h⟩
      have hsteps := steps_perform hjob' hstep
      have hrest : (⟨m.pending.jobs.pop, m.pending.operands⟩ : Pending).jobs.items = rest := by
        show m.pending.jobs.items.tail = rest
        rw [hjobs]
        rfl
      have hlightens : Lightens job rest m'.pending.jobs.items := by
        have h := lightens_perform i hjob' _ _ hstep
        rwa [hrest] at h
      have hexecute : job.isExecute = false := by
        cases job with
        | execute node => exact absurd rfl (hjob' node)
        | _ => rfl
      -- either a statement comes next, or there is less to do
      have hnext : m'.pending.jobs.items.head?.any Job.isExecute = true ∨
          weightOf m'.pending.jobs.items < weightOf (job :: rest) := by
        have hpos := Job.weight_pos hjob'
        rw [weightOf_cons]
        generalize m'.pending.jobs.items = jobs at hlightens ⊢
        cases hlightens with
        | executes node new => exact .inl rfl
        | lighter h =>
          rw [weightOf_append]
          right
          omega
        | drops h =>
          have := weightOf_le_of_suffix h
          right
          omega
      unfold Machine.measure
      rw [hsteps, hjobs]
      refine .right _ ?_
      by_cases htop : m'.pending.jobs.items.head?.any Job.isExecute = true
      · refine .left _ _ ?_
        rw [if_pos htop]
        simp [hexecute]
      · have hweight := hnext.resolve_left htop
        rw [if_neg htop]
        simp only [List.head?_cons, Option.any_some, hexecute]
        exact .right _ hweight

/-- From any machine and state within the ceilings, the run comes to an end. -/
theorem exists_ended_of_limit (hlimit : i.limits.maxSteps = some limit) (m : Machine)
    (s : ProgramState) (hs : i.limits.Bounds false s) :
    ∃ n result t, i.advance n (.underWay m s) = .ended result t := by
  cases hnext : i.next (.underWay m s) with
  | ended result t => exact ⟨1, result, t, hnext⟩
  | underWay m' s' =>
    have hstep := next_eq_underWay hnext
    have hs' : i.limits.Bounds false s' := by
      have hobeys := (metered_step i m).obeys i.limits s hs
      have hrun : ((i.withLimits i.limits).step m).run s = (.ok (.running m'), s') := hstep
      rwa [hrun] at hobeys
    obtain ⟨n, result, t, hn⟩ := exists_ended_of_limit hlimit m' s' hs'
    exact ⟨n + 1, result, t, by rw [advance_succ, hnext, hn]⟩
termination_by m.measure limit s
decreasing_by exact measure_lt_of_step hlimit hs hstep

/-! ## Runs that are broken off -/

namespace Interpreter

/-- A run is broken off by a declaration that stands in one of the functions. -/
theorem exists_breaksOff_of_advance {args : List (List UInt8)} {sink : Sink} {n : Nat}
    (h : i.advance n (i.begin args sink) = .ended (.error .abort) s) :
    ∃ f ∈ i.functions, ∃ d : Declaration, d.node.Within f.body ∧ d.BreaksOff := by
  induction n with
  | zero =>
    have hmain : Composed False true (i.enterMain args) := composed_enterMain i args
    have hbegin : i.begin args sink = .ended (.error .abort) s := h
    unfold begin at hbegin
    split at hbegin
    · cases hbegin
    · rename_i e t he
      cases hbegin
      exact (hmain.of_abort (congrArg Prod.fst he)).elim
  | succ n ih =>
    rw [advance_succ'] at h
    cases hrun : i.advance n (i.begin args sink) with
    | ended result t =>
      rw [hrun, next_ended] at h
      exact ih (hrun.trans h)
    | underWay m t =>
      rw [hrun] at h
      have hnext : Run.ofStep ((i.step m).run t) = .ofStep (.error .abort, s) := h
      have hstep : (i.step m).run t = (.error .abort, s) := Run.ofStep_inj hnext
      obtain ⟨job, hjob, hbreaks⟩ := (composed_step i m).of_abort (congrArg Prod.fst hstep)
      have hstems := (goes_advance i args sink n).stems m t hrun
      obtain ⟨_, _, f, -, hf, hwithin⟩ := hstems.exists_within hjob
      cases job with
      | declare d asValue => exact ⟨f, List.mem_of_find?_eq_some hf, d, hwithin, hbreaks⟩
      | _ => cases hbreaks

end Interpreter

/-- An array of no scalars at all, since their number starts over at 0, which is initialized by a list
of lists. -/
def brokenOff : List Char :=
  "int main() \x7b void a[1][65536][65536][65536][65536] = \x7b\x7b1\x7d\x7d; return 0; \x7d".toList

end BoundedC
