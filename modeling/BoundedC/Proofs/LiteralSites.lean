import BoundedC.Proofs.Aborts
import BoundedC.Proofs.DeclaredTypes
import BoundedC.Proofs.Demand
import BoundedC.Proofs.Metering

/-!
# Where the literals of a function stand

The jobs of a call come from the source of its function: whatever a job schedules is part of the trees
that it holds itself. So the literals that it may come to stand in that source.

* `Function.literalSites` : the places of the string and array literals in a function's body;
* `Node.Stores` : the literal at a place, and how long its buffer may be;
* `Node.Within`, `Job.Within` : what a job holds is in the given trees;
* `Effect.Schedules` : what is put on the stack of jobs;
* `Interpreter.exists_schedules`, `schedules_executed` : the jobs that a job or a statement schedules.
-/

namespace BoundedC

/-! ## Literals of a tree -/

namespace Node

mutual

/-- The places of the string and array literals of a tree, one for each literal. -/
def literalSites : Node → List Location
  | function _ _ _ _ body => literalSitesOf body
  | declaration _ _ _ _ init => literalSitesIn init
  | block _ statements => literalSitesOf statements
  | ifElse _ condition thenBranch elseBranch =>
    condition.literalSites ++ thenBranch.literalSites ++ literalSitesIn elseBranch
  | whileLoop _ condition body => condition.literalSites ++ body.literalSites
  | forLoop _ init condition increment body =>
    literalSitesIn init ++ literalSitesIn condition ++ literalSitesIn increment ++ body.literalSites
  | returnFrom _ value => literalSitesIn value
  | expression _ value => value.literalSites
  | stringLiteral place _ => [place]
  | arrayLiteral place elements => place :: literalSitesOf elements
  | binary _ _ left right => left.literalSites ++ right.literalSites
  | unary _ _ operand | step _ _ operand | deref _ operand | addressOf _ operand => operand.literalSites
  | assign _ target value | compoundAssign _ _ target value =>
    target.literalSites ++ value.literalSites
  | call _ _ args => literalSitesOf args
  | .index _ array position => array.literalSites ++ position.literalSites
  | breakLoop _ | continueLoop _ | intLiteral .. | charLiteral .. | identifier .. => []

def literalSitesOf : List Node → List Location
  | [] => []
  | node :: nodes => node.literalSites ++ literalSitesOf nodes

def literalSitesIn : Option Node → List Location
  | none => []
  | some node => node.literalSites

end

/-- The node is in one of the trees. -/
def Within (trees : List Node) (node : Node) : Prop := ∃ root ∈ trees, node.IsIn root

/-- The node is a literal at the place, and its buffer may have the length. -/
def Stores : Node → Location → Nat → Prop
  | stringLiteral place bytes, site, length => place = site ∧ length = bytes.length + 1
  | arrayLiteral place _, site, _ => place = site
  | _, _, _ => False

variable {trees : List Node}

theorem literalSitesOf_eq (nodes : List Node) : literalSitesOf nodes = nodes.flatMap literalSites := by
  induction nodes with
  | nil => rfl
  | cons node nodes ih => rw [literalSitesOf, ih, List.flatMap_cons]

theorem literalSitesIn_eq (node : Option Node) :
    literalSitesIn node = node.toList.flatMap literalSites := by
  cases node <;> simp [literalSitesIn]

/-- The literals below a node are literals of the node. -/
theorem literalSites_subset_of_mem {node child : Node} (h : child ∈ node.children) :
    child.literalSites ⊆ node.literalSites := by
  intro l hl
  cases node with
  | breakLoop | continueLoop | intLiteral | charLiteral | stringLiteral | identifier => cases h
  | arrayLiteral =>
    rw [literalSites, literalSitesOf_eq]
    exact List.mem_cons_of_mem _ (List.mem_flatMap.2 ⟨child, h, hl⟩)
  | _ =>
    simp only [children, List.mem_append, List.mem_cons, List.not_mem_nil, or_false] at h
    simp only [literalSites, literalSitesOf_eq, literalSitesIn_eq, List.mem_append, List.mem_flatMap]
    grind

theorem IsIn.child {node child root : Node} (h : node.IsIn root) (hchild : child ∈ node.children) :
    child.IsIn root := by
  induction h with
  | root => exact .inside hchild (.root child)
  | inside hbelow _ ih => exact .inside hbelow ih

theorem Within.child {node child : Node} (h : node.Within trees) (hchild : child ∈ node.children) :
    child.Within trees := by
  obtain ⟨root, hroot, hnode⟩ := h
  exact ⟨root, hroot, hnode.child hchild⟩

theorem IsIn.literalSites_subset {node root : Node} (h : node.IsIn root) :
    node.literalSites ⊆ root.literalSites := by
  induction h with
  | root => exact List.Subset.refl _
  | inside hchild _ ih => exact List.Subset.trans ih (literalSites_subset_of_mem hchild)

/-- The literals in some trees are at the places of their literals. -/
theorem Within.mem_literalSitesOf {node : Node} {site : Location} {length : Nat}
    (h : node.Within trees) (hstores : node.Stores site length) : site ∈ literalSitesOf trees := by
  obtain ⟨root, hroot, hnode⟩ := h
  rw [literalSitesOf_eq]
  refine List.mem_flatMap.2 ⟨root, hroot, hnode.literalSites_subset ?_⟩
  cases node with
  | stringLiteral place bytes =>
    obtain ⟨rfl, -⟩ := hstores
    exact List.mem_cons_self
  | arrayLiteral place elements =>
    obtain rfl : place = site := hstores
    exact List.mem_cons_self
  | _ => cases hstores

mutual

/-- The elements of an array literal, however they are nested, are parts of it. -/
theorem within_of_mem_leaves {node leaf : Node} (h : node.Within trees) (hleaf : leaf ∈ node.leaves) :
    leaf.Within trees := by
  cases node with
  | arrayLiteral place elements =>
    exact within_of_mem_leavesOf (fun element helement => h.child helement) hleaf
  | _ =>
    cases List.mem_singleton.1 hleaf
    exact h

theorem within_of_mem_leavesOf {elements : List Node} {leaf : Node}
    (h : ∀ element ∈ elements, element.Within trees) (hleaf : leaf ∈ leavesOf elements) :
    leaf.Within trees := by
  cases elements with
  | nil => cases hleaf
  | cons element elements =>
    rcases List.mem_append.1 hleaf with hleaf | hleaf
    · exact within_of_mem_leaves (h element List.mem_cons_self) hleaf
    · exact within_of_mem_leavesOf (fun e he => h e (List.mem_cons_of_mem _ he)) hleaf

end

end Node

/-- The places of the string and array literals in a function's body, one for each literal. -/
def Function.literalSites (f : Function) : List Location := Node.literalSitesOf f.body

theorem Function.within_of_mem_body (f : Function) {node : Node} (h : node ∈ f.body) :
    node.Within f.body := ⟨node, h, .root node⟩

/-! ## The trees of a job -/

/-- What is left of a loop is in some of these trees. -/
structure ForLoop.Within (trees : List Node) (loop : ForLoop) : Prop where
  condition : ∀ node ∈ loop.condition, node.Within trees
  increment : ∀ node ∈ loop.increment, node.Within trees
  body : loop.body.Within trees

/-- All that the job holds, and the array literal that it fills, is in some of these trees, and a
function that it calls is one of the program. -/
def Job.Within (i : Interpreter) (trees : List Node) : Job → Prop
  | .execute node | .evaluate node | .locate node _ => node.Within trees
  | .logical _ right _ => right.Within trees
  | .arrayLiteral _ place => ∃ elements, (Node.arrayLiteral place elements).Within trees
  | .declare d _ => d.node.Within trees
  | .call f _ => i.function? f.name = some f
  | .branch thenBranch elseBranch _ =>
    thenBranch.Within trees ∧ ∀ node ∈ elseBranch, node.Within trees
  | .whileTest condition body _ => condition.Within trees ∧ body.Within trees
  | .forCondition loop | .forTest loop | .forNext loop => loop.Within trees
  | _ => True

theorem Declaration.within_of_mem_init {trees : List Node} {d : Declaration} {node : Node}
    (h : d.node.Within trees) (hnode : node ∈ d.init) : node.Within trees :=
  h.child (by simpa [Node.children, Declaration.node] using hnode)

/-- What a declaration needs the values of are parts of its initializer. -/
theorem Declaration.within_of_mem_operands {trees : List Node} {d : Declaration} {node : Node}
    (h : d.node.Within trees) (hnode : node ∈ d.operands) : node.Within trees := by
  have hd {init : Node} (hinit : init ∈ d.init) : init.Within trees := within_of_mem_init h hinit
  unfold operands at hnode
  split at hnode
  · cases hnode
  · cases hnode
  · rename_i hinit
    exact Node.within_of_mem_leaves (hd hinit) hnode
  · rename_i hinit
    exact Node.within_of_mem_leaves (hd hinit) hnode
  · rename_i hinit _ _ _
    cases List.mem_singleton.1 hnode
    exact hd hinit

/-! ## Effects that schedule jobs -/

namespace Effect

variable {α : Type} {P : Job → Prop} {rest : Stack Job} {operands : Stack Value}

/-- Where the effect succeeds, it has put jobs with a property on top of some others. -/
def Schedules (P : Job → Prop) (rest : Stack Job) (x : Effect Pending) : Prop :=
  ∀ ⦃s p t⦄, x.run s = (.ok p, t) → ∃ new, p.jobs = rest.pushAll new ∧ ∀ job ∈ new, P job

theorem schedules_jobs {new : List Job} (h : ∀ job ∈ new, P job) :
    Schedules P rest (pure (Pending.schedule ⟨rest, operands⟩ new)) := by
  intro s p t hp
  cases hp
  exact ⟨new, rfl, h⟩

theorem schedules_none {p : Pending} (h : p.jobs = rest) : Schedules P rest (pure p) := by
  intro s p t hp
  cases hp
  exact ⟨[], by rw [h, Stack.pushAll_nil], by simp⟩

theorem schedules_fail (place : Location) (fault : RuntimeFault) : Schedules P rest (fail place fault) := by
  intro s p t hp
  cases hp

theorem schedules_bind {x : Effect α} {f : α → Effect Pending} (hf : ∀ a, Schedules P rest (f a)) :
    Schedules P rest (x >>= f) := by
  intro s p t hp
  obtain ⟨a, u, -, hp⟩ := run_bind_eq_ok_iff.1 hp
  exact hf a hp

theorem schedules_push (x : Effect Value) :
    Schedules P rest (do return Pending.push ⟨rest, operands⟩ (← x)) :=
  schedules_bind fun _ => schedules_none rfl

theorem schedules_pop {place : Location} {f : Value × Pending → Effect Pending}
    (hf : ∀ v operands, Schedules P rest (f (v, ⟨rest, operands⟩))) :
    Schedules P rest (Pending.pop place ⟨rest, operands⟩ >>= f) := by
  unfold Pending.pop
  split
  · rw [pure_bind]
    exact hf _ _
  · intro s p t hp
    cases hp

theorem schedules_popPlace {place : Location} {f : Pointer × Pending → Effect Pending}
    (hf : ∀ target operands, Schedules P rest (f (target, ⟨rest, operands⟩))) :
    Schedules P rest (Pending.popPlace place ⟨rest, operands⟩ >>= f) := by
  rw [Pending.popPlace, bind_assoc]
  refine schedules_pop fun v operands => ?_
  cases v with
  | pointer target => exact hf target operands
  | _ =>
    intro s p t hp
    cases hp

theorem schedules_popMany {place : Location} {count : Nat} {f : List Value × Pending → Effect Pending}
    (hf : ∀ values operands, Schedules P rest (f (values, ⟨rest, operands⟩))) :
    Schedules P rest (Pending.popMany place ⟨rest, operands⟩ count >>= f) := by
  unfold Pending.popMany
  split
  · rw [pure_bind]
    exact hf _ _
  · intro s p t hp
    cases hp

end Effect

/-! ## What jobs schedule -/

namespace Interpreter

open Effect

variable {i : Interpreter} {trees : List Node} {rest : Stack Job} {operands : Stack Value}

theorem within_evaluateAll {nodes : List Node} {job : Job} (h : ∀ node ∈ nodes, node.Within trees)
    (hjob : job.Within i trees) :
    ∀ j ∈ nodes.map .evaluate ++ [job], j.Within i trees := by
  intro j hj
  rcases List.mem_append.1 hj with hj | hj
  · obtain ⟨node, hnode, rfl⟩ := List.mem_map.1 hj
    exact h node hnode
  · cases List.mem_singleton.1 hj
    exact hjob

/-- A function that is found by name has that name. -/
theorem function?_name {name : String} {f : Function} (h : i.function? name = some f) :
    i.function? f.name = some f := by
  have hname : f.name = name := by simpa using List.find?_some h
  rwa [hname]

theorem within_callJob {name : String} {count : Nat} {callee : Callee} {place : Location}
    (h : i.callee name count = .ok callee) : (callJob place callee).Within i trees := by
  cases callee with
  | print => trivial
  | defined f =>
    unfold Interpreter.callee at h
    split at h
    · rename_i g hg
      split at h
      · cases h
        exact function?_name hg
      · cases h
    · split at h
      · split at h <;> cases h
      · cases h

theorem schedules_declare {d : Declaration} (h : d.node.Within trees) (asValue : Bool) :
    Schedules (Job.Within i trees) rest (pure (declare d asValue ⟨rest, operands⟩)) :=
  schedules_jobs (within_evaluateAll (fun _ hnode => d.within_of_mem_operands h hnode) h)

theorem schedules_evaluate {node : Node} (h : node.Within trees) :
    Schedules (Job.Within i trees) rest (i.evaluate node ⟨rest, operands⟩) := by
  cases node with
  | intLiteral | charLiteral => exact schedules_none rfl
  | stringLiteral | identifier => exact schedules_push _
  | arrayLiteral place elements =>
    refine schedules_jobs (within_evaluateAll (fun _ helement => h.child helement) ?_)
    exact ⟨elements, h⟩
  | binary place op left right =>
    have hleft : left.Within trees := h.child (by simp [Node.children])
    have hright : right.Within trees := h.child (by simp [Node.children])
    unfold evaluate
    dsimp only
    split
    · exact schedules_jobs (by simp [Job.Within, hleft, hright])
    · exact schedules_jobs (by simp [Job.Within, hleft, hright])
  | unary place op operand | step place op operand | addressOf place operand =>
    have hoperand : operand.Within trees := h.child (by simp [Node.children])
    exact schedules_jobs (by simp [Job.Within, hoperand])
  | deref | index =>
    exact schedules_jobs (by simp [Job.Within, h])
  | assign place target value | compoundAssign place op target value =>
    have htarget : target.Within trees := h.child (by simp [Node.children])
    have hvalue : value.Within trees := h.child (by simp [Node.children])
    exact schedules_jobs (by simp [Job.Within, htarget, hvalue])
  | call place name args =>
    intro s p t hp
    obtain ⟨callee, u, hu, hp⟩ := run_bind_eq_ok_iff.1 hp
    have hcallee : (callJob place callee).Within i trees := within_callJob (run_ofExcept_eq_ok hu)
    exact schedules_jobs (within_evaluateAll (fun _ harg => h.child harg) hcallee) hp
  | declaration place name type isConst init =>
    exact schedules_declare (d := ⟨place, name, type, isConst, init⟩) h true
  | _ => exact schedules_fail _ _

theorem schedules_locate {node : Node} (access : Access) (h : node.Within trees) :
    Schedules (Job.Within i trees) rest (locate node access ⟨rest, operands⟩) := by
  cases node with
  | identifier => exact schedules_bind fun _ => schedules_none rfl
  | deref place operand =>
    have hoperand : operand.Within trees := h.child (by simp [Node.children])
    exact schedules_jobs (by simp [Job.Within, hoperand])
  | index place array position =>
    have harray : array.Within trees := h.child (by simp [Node.children])
    have hposition : position.Within trees := h.child (by simp [Node.children])
    exact schedules_jobs (by simp [Job.Within, harray, hposition])
  | _ => exact schedules_fail _ _

/-- A statement that is not loop control schedules parts of itself. -/
theorem schedules_executed {node : Node} (hcontrol : isLoopControl node = false)
    (h : node.Within trees) :
    Schedules (Job.Within i trees) rest (executed node ⟨rest, operands⟩) := by
  have hchild {child : Node} (hmem : child ∈ node.children) : child.Within trees := h.child hmem
  have hvalue (place : Location) : Schedules (Job.Within i trees) rest
      (pure (Pending.schedule ⟨rest, operands⟩ [.evaluate node, .discard place])) :=
    schedules_jobs (by simp [Job.Within, h])
  cases node with
  | declaration place name type isConst init =>
    exact schedules_declare (d := ⟨place, name, type, isConst, init⟩) h false
  | block place statements =>
    refine schedules_bind fun _ => schedules_jobs fun job hjob => ?_
    rcases List.mem_append.1 hjob with hjob | hjob
    · obtain ⟨statement, hstatement, rfl⟩ := List.mem_map.1 hjob
      exact hchild hstatement
    · cases List.mem_singleton.1 hjob
      trivial
  | ifElse place condition thenBranch elseBranch =>
    have hcondition : condition.Within trees := hchild (by simp [Node.children])
    have hthen : thenBranch.Within trees := hchild (by simp [Node.children])
    have helse : ∀ node ∈ elseBranch, node.Within trees := fun _ hnode =>
      hchild (by simp [Node.children, Option.mem_def.1 hnode])
    exact schedules_jobs (by simpa [Job.Within, hcondition, hthen] using helse)
  | whileLoop place condition body =>
    have hcondition : condition.Within trees := hchild (by simp [Node.children])
    have hbody : body.Within trees := hchild (by simp [Node.children])
    exact schedules_jobs (by simp [Job.Within, hcondition, hbody])
  | forLoop place init condition increment body =>
    have hcondition : ∀ node ∈ condition, node.Within trees := fun _ hnode =>
      hchild (by simp [Node.children, Option.mem_def.1 hnode])
    have hincrement : ∀ node ∈ increment, node.Within trees := fun _ hnode =>
      hchild (by simp [Node.children, Option.mem_def.1 hnode])
    have hloop : ForLoop.Within trees ⟨place, condition, increment, body⟩ :=
      ⟨hcondition, hincrement, hchild (by simp [Node.children])⟩
    refine schedules_bind fun _ => schedules_jobs fun job hjob => ?_
    rcases List.mem_append.1 hjob with hjob | hjob
    · obtain ⟨statement, hstatement, rfl⟩ := List.mem_map.1 hjob
      exact hchild (by simp [Node.children, Option.mem_toList.1 hstatement])
    · simp only [List.mem_cons, List.not_mem_nil, or_false] at hjob
      rcases hjob with rfl | rfl | rfl
      · exact hloop
      · trivial
      · trivial
  | returnFrom place value =>
    refine schedules_jobs (within_evaluateAll (fun node hnode => hchild ?_) trivial)
    simpa [Node.children] using hnode
  | breakLoop | continueLoop => cases hcontrol
  | expression place value =>
    have hinner : value.Within trees := hchild (by simp [Node.children])
    exact schedules_jobs (by simp [Job.Within, hinner])
  | function => exact schedules_fail _ _
  | _ => exact hvalue _

theorem schedules_forBody {loop : ForLoop} (h : loop.Within trees) :
    Schedules (Job.Within i trees) rest (pure (Pending.forBody loop ⟨rest, operands⟩)) :=
  schedules_jobs (by simp [Job.Within, h, h.body])

/-- A job that is done within its call schedules parts of what it holds. -/
theorem exists_schedules {job : Job} (hlocal : isLocal job) (h : job.Within i trees)
    (rest : Stack Job) (operands : Stack Value) (bases : List Heights) :
    ∃ x, i.perform job ⟨rest, operands⟩ bases = (do return .running ⟨← x, bases⟩) ∧
      Schedules (Job.Within i trees) rest x := by
  cases job with
  | execute | closeScope | call | giveBack | bodyEnd => cases hlocal
  | evaluate node => exact ⟨_, rfl, schedules_evaluate h⟩
  | locate node access => exact ⟨_, rfl, schedules_locate access h⟩
  | discard => exact ⟨_, rfl, schedules_pop fun _ _ => schedules_none rfl⟩
  | binary =>
    exact ⟨_, rfl, schedules_pop fun _ _ => schedules_pop fun _ _ => schedules_push _⟩
  | logical op right place =>
    refine ⟨_, rfl, schedules_pop fun left operands => ?_⟩
    dsimp only
    split
    · exact schedules_none rfl
    · exact schedules_jobs (by simpa [Job.Within] using h)
  | truth => exact ⟨_, rfl, schedules_pop fun _ _ => schedules_none rfl⟩
  | unary => exact ⟨_, rfl, schedules_pop fun _ _ => schedules_push _⟩
  | step | load => exact ⟨_, rfl, schedules_popPlace fun _ _ => schedules_push _⟩
  | requirePointer =>
    exact ⟨_, rfl, schedules_pop fun _ _ => schedules_bind fun _ => schedules_none rfl⟩
  | index =>
    exact ⟨_, rfl, schedules_pop fun _ _ => schedules_pop fun _ _ =>
      schedules_bind fun _ => schedules_none rfl⟩
  | assign | compoundAssign =>
    exact ⟨_, rfl, schedules_pop fun _ _ => schedules_popPlace fun _ _ => schedules_push _⟩
  | arrayLiteral => exact ⟨_, rfl, schedules_popMany fun _ _ => schedules_push _⟩
  | declare d asValue =>
    refine ⟨_, rfl, schedules_popMany fun _ _ => schedules_bind fun _ => ?_⟩
    split
    · exact schedules_push _
    · exact schedules_none rfl
  | print =>
    exact ⟨_, rfl, schedules_pop fun _ _ => schedules_pop fun _ _ => schedules_push _⟩
  | branch thenBranch elseBranch place =>
    refine ⟨_, rfl, schedules_pop fun condition operands => ?_⟩
    dsimp only
    split
    · exact schedules_jobs (by simpa [Job.Within] using h.1)
    · exact schedules_jobs (by simpa [Job.Within] using h.2)
  | whileTest condition body place =>
    refine ⟨_, rfl, schedules_pop fun v operands => ?_⟩
    dsimp only
    split
    · exact schedules_jobs (by simp [Job.Within, h.1, h.2])
    · exact schedules_none rfl
  | forCondition loop =>
    refine ⟨_, rfl, ?_⟩
    unfold Pending.forCondition
    split
    · rename_i condition hcondition
      exact schedules_jobs (by simpa [Job.Within] using ⟨h.condition _ hcondition, h⟩)
    · exact schedules_forBody h
  | forTest loop =>
    refine ⟨_, rfl, schedules_pop fun v operands => ?_⟩
    dsimp only
    split
    · exact schedules_forBody h
    · exact schedules_none rfl
  | forNext loop =>
    refine ⟨_, rfl, ?_⟩
    unfold Pending.forNext
    split
    · rename_i increment hincrement
      exact schedules_jobs (by simpa [Job.Within] using ⟨h.increment _ hincrement, h⟩)
    · exact schedules_jobs (by simpa [Job.Within] using h)
  | continueTarget | loopEnd => exact ⟨_, rfl, schedules_none rfl⟩

end Interpreter

end BoundedC
