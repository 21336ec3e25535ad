import Mathlib.Data.List.Forall2
import BoundedC.Proofs.Refinement
import BoundedC.Proofs.Reliable

/-!
# Two programs side by side

What is the same for any two programs of which the one comes from the other by replacing some operations
by others, wherever they stand. A relation between trees that is a `Node.Congruence` relates nodes with the
same head and related parts, and besides them only pairs of operations; and a `Judgement` says when two
evaluations belong together. The parts of two trees are declared, executed and called alike, so that only
the pairs of operations are left to be looked at.

* `Use`, `Node.Level` : one level of two trees, with what becomes of the values of the parts;
* `Node.Congruence` : what is asked of a relation between trees;
* `Judgement` : what is asked of a relation between evaluations;
* `Evaluator.Abreast` : the evaluations of related trees belong together, with so much fuel each;
* `Evaluator.Abreast.evaluate_level`, `locate_level`, `execute_succ`, `whileFrom_succ`, `forFrom_succ`,
  `call_succ` : the same with more fuel, but for the pairs of operations;
* `Evaluator.exitCode_abreast` : whole runs.
-/

namespace BoundedC

/-- What becomes of the value of a node: it is wanted, or the node stands where a statement does. -/
inductive Use where
  | wanted
  | lost

/-- The values are the same if they are wanted. -/
def Use.Same {α : Type} : Use → α → α → Prop
  | wanted => Eq
  | lost => fun _ _ => True

theorem Use.same_of_eq {α : Type} (use : Use) {a b : α} (h : a = b) : use.Same a b := by
  cases use with
  | wanted => exact h
  | lost => trivial

namespace Node

/-- The nodes have the same head, and their parts are related. -/
inductive Level (R : Use → Node → Node → Prop) : Node → Node → Prop
  | function (place : Location) (name : String) (returnType : CType) (params : List Param)
      {body body' : List Node} (h : List.Forall₂ (R .lost) body body') :
      Level R (.function place name returnType params body) (.function place name returnType params body')
  | declaration (place : Location) (name : String) (type : CType) (isConst : Bool)
      {init init' : Option Node} (h : Option.Rel (R .wanted) init init') :
      Level R (.declaration place name type isConst init) (.declaration place name type isConst init')
  | block (place : Location) {statements statements' : List Node}
      (h : List.Forall₂ (R .lost) statements statements') :
      Level R (.block place statements) (.block place statements')
  | ifElse (place : Location) {condition condition' thenBranch thenBranch' : Node}
      {elseBranch elseBranch' : Option Node} (hc : R .wanted condition condition')
      (ht : R .lost thenBranch thenBranch') (he : Option.Rel (R .lost) elseBranch elseBranch') :
      Level R (.ifElse place condition thenBranch elseBranch)
        (.ifElse place condition' thenBranch' elseBranch')
  | whileLoop (place : Location) {condition condition' body body' : Node}
      (hc : R .wanted condition condition') (hb : R .lost body body') :
      Level R (.whileLoop place condition body) (.whileLoop place condition' body')
  | forLoop (place : Location) {init init' condition condition' increment increment' : Option Node}
      {body body' : Node} (hi : Option.Rel (R .lost) init init')
      (hc : Option.Rel (R .wanted) condition condition')
      (hs : Option.Rel (R .lost) increment increment') (hb : R .lost body body') :
      Level R (.forLoop place init condition increment body)
        (.forLoop place init' condition' increment' body')
  | returnFrom (place : Location) {value value' : Option Node} (h : Option.Rel (R .wanted) value value') :
      Level R (.returnFrom place value) (.returnFrom place value')
  | breakLoop (place : Location) : Level R (.breakLoop place) (.breakLoop place)
  | continueLoop (place : Location) : Level R (.continueLoop place) (.continueLoop place)
  | expression (place : Location) {value value' : Node} (h : R .lost value value') :
      Level R (.expression place value) (.expression place value')
  | intLiteral (place : Location) (value : Int32) : Level R (.intLiteral place value) (.intLiteral place value)
  | charLiteral (place : Location) (value : Int8) :
      Level R (.charLiteral place value) (.charLiteral place value)
  | stringLiteral (place : Location) (bytes : List UInt8) :
      Level R (.stringLiteral place bytes) (.stringLiteral place bytes)
  | arrayLiteral (place : Location) {elements elements' : List Node}
      (h : List.Forall₂ (R .wanted) elements elements') :
      Level R (.arrayLiteral place elements) (.arrayLiteral place elements')
  | identifier (place : Location) (name : String) : Level R (.identifier place name) (.identifier place name)
  | binary (place : Location) (op : BinaryOp) {left left' right right' : Node}
      (hl : R .wanted left left') (hr : R .wanted right right') :
      Level R (.binary place op left right) (.binary place op left' right')
  | unary (place : Location) (op : UnaryOp) {operand operand' : Node} (h : R .wanted operand operand') :
      Level R (.unary place op operand) (.unary place op operand')
  | step (place : Location) (op : StepOp) {operand operand' : Node} (h : R .wanted operand operand') :
      Level R (.step place op operand) (.step place op operand')
  | deref (place : Location) {operand operand' : Node} (h : R .wanted operand operand') :
      Level R (.deref place operand) (.deref place operand')
  | addressOf (place : Location) {operand operand' : Node} (h : R .wanted operand operand') :
      Level R (.addressOf place operand) (.addressOf place operand')
  | assign (place : Location) {target target' value value' : Node} (ht : R .wanted target target')
      (hv : R .wanted value value') : Level R (.assign place target value) (.assign place target' value')
  | compoundAssign (place : Location) (op : BinaryOp) {target target' value value' : Node}
      (ht : R .wanted target target') (hv : R .wanted value value') :
      Level R (.compoundAssign place op target value) (.compoundAssign place op target' value')
  | call (place : Location) (name : String) {args args' : List Node}
      (h : List.Forall₂ (R .wanted) args args') : Level R (.call place name args) (.call place name args')
  | index (place : Location) {array array' position position' : Node} (ha : R .wanted array array')
      (hi : R .wanted position position') :
      Level R (.index place array position) (.index place array' position')

/-- Whether the node computes a value from those of its parts. -/
def isOperation : Node → Bool
  | binary .. | unary .. | step .. | deref .. | addressOf .. | assign .. | compoundAssign .. | call ..
  | .index .. => true
  | _ => false

theorem isArrayLiteral_of_isOperation {node : Node} (h : node.isOperation = true) :
    node.isArrayLiteral = false := by
  cases node with
  | arrayLiteral => cases h
  | _ => rfl

theorem function?_of_isOperation {node : Node} (h : node.isOperation = true) : node.function? = none := by
  cases node with
  | function => cases h
  | _ => rfl

/-- Nodes with the same head and related parts are related, and other related nodes are operations. -/
structure Congruence (R : Use → Node → Node → Prop) : Prop where
  of_level {use : Use} {node node' : Node} (h : Level R node node') : R use node node'
  split {use : Use} {node node' : Node} (h : R use node node') :
    Level R node node' ∨ node.isOperation = true ∧ node'.isOperation = true ∧ node'.place = node.place

variable {R : Use → Node → Node → Prop}

theorem Level.place_eq {node node' : Node} (h : Level R node node') : node'.place = node.place := by
  cases h <;> rfl

namespace Congruence

variable {use : Use} {node node' : Node} {nodes nodes' : List Node}

/-! ## Array literals -/

theorem isArrayLiteral_eq (hR : Congruence R) (h : R use node node') :
    node'.isArrayLiteral = node.isArrayLiteral := by
  rcases hR.split h with hlevel | ⟨hop, hop', -⟩
  · cases hlevel <;> rfl
  · rw [isArrayLiteral_of_isOperation hop, isArrayLiteral_of_isOperation hop']

theorem exists_eq_arrayLiteral (hR : Congruence R) {place : Location} {elements : List Node}
    (h : R use (.arrayLiteral place elements) node') :
    ∃ elements', node' = .arrayLiteral place elements' ∧ List.Forall₂ (R .wanted) elements elements' := by
  rcases hR.split h with hlevel | ⟨hop, -, -⟩
  · cases hlevel with
    | arrayLiteral _ helements => exact ⟨_, rfl, helements⟩
  · cases hop

mutual

theorem leaves (hR : Congruence R) {node node' : Node} (h : R .wanted node node') :
    List.Forall₂ (R .wanted) node.leaves node'.leaves := by
  cases node with
  | arrayLiteral place elements =>
    obtain ⟨elements', rfl, helements⟩ := hR.exists_eq_arrayLiteral h
    exact hR.leavesOf helements
  | _ =>
    have harray := hR.isArrayLiteral_eq h
    cases node' with
    | arrayLiteral => cases harray
    | _ => exact .cons h .nil

/-- The scalars of an array literal stay in their order. -/
theorem leavesOf (hR : Congruence R) {nodes nodes' : List Node} (h : List.Forall₂ (R .wanted) nodes nodes') :
    List.Forall₂ (R .wanted) (Node.leavesOf nodes) (Node.leavesOf nodes') := by
  cases nodes with
  | nil =>
    cases h
    exact .nil
  | cons node nodes =>
    cases h with
    | cons hnode hnodes => exact List.rel_append (hR.leaves hnode) (hR.leavesOf hnodes)

end

mutual

/-- An element is put where it was put. -/
theorem slots_eq (hR : Congruence R) {node node' : Node} (h : R .wanted node node') (base : Nat)
    (type : CType) : node'.slots base type = node.slots base type := by
  cases node with
  | arrayLiteral place elements =>
    obtain ⟨elements', rfl, helements⟩ := hR.exists_eq_arrayLiteral h
    cases type with
    | array element length => exact hR.slotsFrom_eq helements base _ element 0
    | _ => rfl
  | _ =>
    have harray := hR.isArrayLiteral_eq h
    cases node' with
    | arrayLiteral => cases harray
    | _ => rfl

theorem slotsFrom_eq (hR : Congruence R) {nodes nodes' : List Node}
    (h : List.Forall₂ (R .wanted) nodes nodes') (base : Nat) (type element : CType) (filled : Nat) :
    Node.slotsFrom base type element filled nodes' = Node.slotsFrom base type element filled nodes := by
  cases nodes with
  | nil =>
    cases h
    rfl
  | cons node nodes =>
    cases h with
    | cons hnode hnodes =>
      rw [Node.slotsFrom, Node.slotsFrom, hR.isArrayLiteral_eq hnode]
      dsimp only
      split
      · refine bind_congr fun start => ?_
        split
        · rfl
        · rw [hR.slots_eq hnode, hR.slotsFrom_eq hnodes]
      · split
        · rfl
        · rw [hR.slotsFrom_eq hnodes]

end

/-! ## Declarations -/

section Declarations

variable {place : Location} {name : String} {type : CType} {isConst : Bool} {init init' : Option Node}

theorem operands (hR : Congruence R) (h : Option.Rel (R .wanted) init init') :
    List.Forall₂ (R .wanted) (Declaration.mk place name type isConst init).operands
      (Declaration.mk place name type isConst init').operands := by
  cases h with
  | none => cases type <;> exact .nil
  | @some init init' h =>
    rcases hR.split h with hlevel | ⟨hop, hop', -⟩
    · cases hlevel with
      | arrayLiteral site helements =>
        cases type with
        | array | pointer => exact hR.leavesOf helements
        | _ => exact .cons h .nil
      | stringLiteral =>
        cases type with
        | array => exact .nil
        | _ => exact .cons h .nil
      | _ => cases type <;> exact .cons h .nil
    · have hsingle {init : Node} (hop : init.isOperation = true) :
          (Declaration.mk place name type isConst (some init)).operands = [init] := by
        cases init with
        | arrayLiteral | stringLiteral => cases hop
        | _ => cases type <;> rfl
      rw [hsingle hop, hsingle hop']
      exact .cons h .nil

/-- What a variable holds at first depends on the values of its initializer only. -/
theorem fill_eq (hR : Congruence R) (h : Option.Rel (R .wanted) init init') (b : Binding)
    (values : List Value) :
    (Declaration.mk place name type isConst init').fill b values =
      (Declaration.mk place name type isConst init).fill b values := by
  cases h with
  | none => rfl
  | @some init init' h =>
    rcases hR.split h with hlevel | ⟨hop, hop', -⟩
    · cases hlevel with
      | arrayLiteral site helements =>
        cases type with
        | array element length =>
          unfold Declaration.fill
          dsimp only
          rw [hR.slots_eq h]
        | _ => rfl
      | _ => cases type <;> rfl
    · have hother {init : Node} (hop : init.isOperation = true) :
          (Declaration.mk place name type isConst (some init)).fill b values =
            (Declaration.mk place name type isConst (some (.identifier place name))).fill b values := by
        cases init with
        | arrayLiteral | stringLiteral | intLiteral | charLiteral => cases hop
        | _ => cases type <;> rfl
      rw [hother hop, hother hop']

theorem define_eq (hR : Congruence R) (h : Option.Rel (R .wanted) init init') (values : List Value) :
    (Declaration.mk place name type isConst init').define values =
      (Declaration.mk place name type isConst init).define values := by
  unfold Declaration.define
  simp only [hR.fill_eq h]

end Declarations

end Congruence

end Node

open Node

/-! ## Functions -/

/-- The functions are the same but for their bodies, which are related. -/
structure Function.Abreast (R : Use → Node → Node → Prop) (f f' : Function) : Prop where
  name : f'.name = f.name
  params : f'.params = f.params
  body : List.Forall₂ (R .lost) f.body f'.body
  returnType : f'.returnType = f.returnType
  place : f'.place = f.place

/-- The interpreters have the same ceilings and related functions. -/
structure Interpreter.Abreast (R : Use → Node → Node → Prop) (i i' : Interpreter) : Prop where
  functions : List.Forall₂ (Function.Abreast R) i.functions i'.functions
  limits : i'.limits = i.limits

variable {R : Use → Node → Node → Prop}

theorem Node.Congruence.function? (hR : Congruence R) {node node' : Node} (h : R .lost node node') :
    Option.Rel (Function.Abreast R) node.function? node'.function? := by
  rcases hR.split h with hlevel | ⟨hop, hop', -⟩
  · cases hlevel with
    | function place name returnType params hbody => exact .some ⟨rfl, rfl, hbody, rfl, rfl⟩
    | _ => exact .none
  · rw [function?_of_isOperation hop, function?_of_isOperation hop']
    exact .none

theorem Node.Congruence.ofProgram (hR : Congruence R) {p p' : Program}
    (h : List.Forall₂ (R .lost) p.nodes p'.nodes) (limits : Limits) :
    (Interpreter.ofProgram p limits).Abreast R (.ofProgram p' limits) := by
  have hfunctions : List.Forall₂ (Function.Abreast R) p.functions p'.functions :=
    List.rel_filterMap (fun _ _ hnode => hR.function? hnode) h
  exact ⟨List.rel_reverse hfunctions, rfl⟩

namespace Function.Abreast

variable {f f' : Function}

theorem enterCall_eq (h : f.Abreast R f') (limits : Limits) (args : List Value)
    (callSite : Option Location) :
    Effect.enterCall limits f' args callSite = Effect.enterCall limits f args callSite := by
  unfold Effect.enterCall
  rw [h.name, h.params, h.returnType, h.place]

theorem finishCall_eq (h : f.Abreast R f') (c : Completion) :
    Evaluator.finishCall f' c = Evaluator.finishCall f c := by
  have hresult : c.result f' = c.result f := by
    cases c with
    | normal => exact congrArg (fun place => pure (Value.int 0, place)) h.place
    | _ => rfl
  rw [Evaluator.finishCall, Evaluator.finishCall, hresult]

end Function.Abreast

/-- Both names call `print`, or they call functions that stand side by side. -/
inductive Callee.Abreast (R : Use → Node → Node → Prop) : Callee → Callee → Prop
  | print : Abreast R .print .print
  | defined {f f' : Function} (h : f.Abreast R f') : Abreast R (.defined f) (.defined f')

namespace Interpreter.Abreast

variable {i i' : Interpreter}

theorem function? (h : i.Abreast R i') (name : String) :
    Option.Rel (Function.Abreast R) (i.function? name) (i'.function? name) := by
  have hfind {fs fs' : List Function} (hfs : List.Forall₂ (Function.Abreast R) fs fs') :
      Option.Rel (Function.Abreast R) (fs.find? (·.name = name)) (fs'.find? (·.name = name)) := by
    induction hfs with
    | nil => exact .none
    | @cons f f' fs fs' hf _ ih =>
      rw [List.find?_cons, List.find?_cons, hf.name]
      split
      · exact .some hf
      · exact ih
  exact hfind h.functions

/-- Names that are not called with the right number of arguments are refused for the same fault. -/
theorem callee (h : i.Abreast R i') (name : String) (count : Nat) :
    (∃ fault, i.callee name count = .error fault ∧ i'.callee name count = .error fault) ∨
      ∃ c c', i.callee name count = .ok c ∧ i'.callee name count = .ok c' ∧ c.Abreast R c' := by
  have hfunction := h.function? name
  unfold Interpreter.callee
  generalize i.function? name = found, i'.function? name = found' at hfunction
  cases hfunction with
  | none =>
    by_cases hname : name = printName
    · by_cases hcount : count = printArity
      · exact .inr ⟨.print, .print, by simp [hname, hcount], by simp [hname, hcount], .print⟩
      · simp [hname, hcount]
    · simp [hname]
  | @some f f' hf =>
    by_cases hcount : count = f.params.length
    · refine .inr ⟨.defined f, .defined f', ?_, ?_, .defined hf⟩
      · simp [hcount]
      · simp [hcount, hf.params]
    · refine .inl ⟨.arity name f.params.length count, ?_, ?_⟩
      · simp [hcount]
      · simp [hcount, hf.params]

end Interpreter.Abreast

/-! ## Evaluations that belong together -/

/-- A relation between evaluations, for each relation between their values, that can be shown step by
step. -/
structure Judgement where
  Holds {α β : Type} (R : α → β → Prop) (x : Evaluation α) (y : Evaluation β) : Prop
  pure {α β : Type} {R : α → β → Prop} {a : α} {b : β} (h : R a b) : Holds R (pure a) (pure b)
  refl {α : Type} (x : Evaluation α) : Holds Eq x x
  bind {α β γ δ : Type} {R : α → β → Prop} {S : γ → δ → Prop} {x : Evaluation α} {y : Evaluation β}
    {f : α → Evaluation γ} {g : β → Evaluation δ} (hx : Holds R x y)
    (hf : ∀ a b, R a b → Holds S (f a) (g b)) : Holds S (x >>= f) (y >>= g)

namespace Judgement

variable {α β γ δ : Type} {J : Judgement} {S : γ → δ → Prop}

theorem imp {R' S' : α → β → Prop} {x : Evaluation α} {y : Evaluation β} (h : J.Holds R' x y)
    (himp : ∀ a b, R' a b → S' a b) : J.Holds S' x y := by
  have hpure := J.bind h fun a b hab => J.pure (himp a b hab)
  rwa [bind_pure, bind_pure] at hpure

/-- What comes first has the same value. -/
theorem after {x y : Evaluation α} {f : α → Evaluation γ} {g : α → Evaluation δ} (hx : J.Holds Eq x y)
    (hf : ∀ a, J.Holds S (f a) (g a)) : J.Holds S (x >>= f) (y >>= g) := by
  refine J.bind hx ?_
  rintro a _ rfl
  exact hf a

/-- What comes first is the same. -/
theorem behind (x : Evaluation α) {f : α → Evaluation γ} {g : α → Evaluation δ}
    (hf : ∀ a, J.Holds S (f a) (g a)) : J.Holds S (x >>= f) (x >>= g) := J.after (J.refl x) hf

/-- Nothing comes of the values of evaluations that fail alike. -/
theorem error {R' : α → β → Prop} (e : Stop) :
    J.Holds R' (Evaluation.ofEffect (throw e)) (Evaluation.ofEffect (throw e)) := by
  have hbind : J.Holds R' (Evaluation.ofEffect (throw e : Effect Empty) >>= fun e => nomatch e)
      (Evaluation.ofEffect (throw e : Effect Empty) >>= fun e => nomatch e) := J.behind _ nofun
  exact hbind

theorem discard {x y : Evaluation α} (hx : J.Holds (fun _ _ => True) x y) :
    J.Holds Eq (Functor.discard x) (Functor.discard y) := J.bind hx fun _ _ _ => J.pure rfl

theorem evaluateAll {use : Use} {value value' : Node → Evaluation Value}
    (h : ∀ node node', R use node node' → J.Holds use.Same (value node) (value' node'))
    {nodes nodes' : List Node} (hnodes : List.Forall₂ (R use) nodes nodes') :
    J.Holds (List.Forall₂ use.Same) (Evaluator.evaluateAll value nodes)
      (Evaluator.evaluateAll value' nodes') := by
  induction hnodes with
  | nil => exact J.pure .nil
  | cons hnode _ ih =>
    exact J.bind (h _ _ hnode) fun v v' hv => J.bind ih fun vs vs' hvs => J.pure (.cons hv hvs)

theorem executeAll {complete complete' : Node → Evaluation Completion}
    (h : ∀ node node', R .lost node node' → J.Holds Eq (complete node) (complete' node'))
    {nodes nodes' : List Node} (hnodes : List.Forall₂ (R .lost) nodes nodes') :
    J.Holds Eq (Evaluator.executeAll complete nodes) (Evaluator.executeAll complete' nodes') := by
  induction hnodes with
  | nil => exact J.pure rfl
  | cons hnode _ ih =>
    refine J.after (h _ _ hnode) fun c => ?_
    cases c with
    | normal => exact ih
    | _ => exact J.pure rfl

end Judgement

theorem forall₂_toList_of_rel {α β : Type} {S : α → β → Prop} {a : Option α} {b : Option β}
    (h : Option.Rel S a b) : List.Forall₂ S a.toList b.toList := by
  cases h with
  | none => exact .nil
  | some h => exact .cons h .nil

/-! ## Direct evaluation -/

namespace Evaluator

open Evaluation Effect

/-- Evaluations of related trees belong together, with so much fuel for either of them. -/
structure Abreast (J : Judgement) (R : Use → Node → Node → Prop) (i i' : Interpreter)
    (fuel fuel' : Nat) : Prop where
  evaluate {use : Use} {node node' : Node} (h : R use node node') :
    J.Holds use.Same (evaluate i fuel node) (evaluate i' fuel' node')
  locate {node node' : Node} (h : R .wanted node node') (access : Access) :
    J.Holds Eq (locate i fuel node access) (locate i' fuel' node' access)
  execute {node node' : Node} (h : R .lost node node') :
    J.Holds Eq (execute i fuel node) (execute i' fuel' node')
  whileFrom {condition condition' body body' : Node} (hc : R .wanted condition condition')
    (hb : R .lost body body') :
    J.Holds Eq (whileFrom i fuel condition body) (whileFrom i' fuel' condition' body')
  forFrom {condition condition' increment increment' : Option Node} {body body' : Node}
    (hc : Option.Rel (R .wanted) condition condition') (hs : Option.Rel (R .lost) increment increment')
    (hb : R .lost body body') :
    J.Holds Eq (forFrom i fuel condition increment body)
      (forFrom i' fuel' condition' increment' body')
  call {f f' : Function} (h : f.Abreast R f') (args : List Value) (place : Location) :
    J.Holds Eq (call i fuel f args place) (call i' fuel' f' args place)

namespace Abreast

variable {J : Judgement} {i i' : Interpreter} {fuel fuel' : Nat} {node node' : Node}

/-- The value of a node is the same if it is wanted. -/
theorem value (ih : Abreast J R i i' fuel fuel') (h : R .wanted node node') :
    J.Holds Eq (Evaluator.evaluate i fuel node) (Evaluator.evaluate i' fuel' node') := ih.evaluate h

/-- The value of a node may be another one if it is lost. -/
theorem effect (ih : Abreast J R i i' fuel fuel') (h : R .lost node node') :
    J.Holds (fun _ _ => True) (Evaluator.evaluate i fuel node) (Evaluator.evaluate i' fuel' node') :=
  ih.evaluate h

theorem values (ih : Abreast J R i i' fuel fuel') {nodes nodes' : List Node}
    (h : List.Forall₂ (R .wanted) nodes nodes') :
    J.Holds Eq (evaluateAll (Evaluator.evaluate i fuel) nodes)
      (evaluateAll (Evaluator.evaluate i' fuel') nodes') := by
  have hvalues := J.evaluateAll (fun _ _ hnode => ih.value hnode) h
  rwa [show (Use.wanted.Same : Value → Value → Prop) = Eq from rfl, List.forall₂_eq_eq_eq] at hvalues

theorem executeAll (ih : Abreast J R i i' fuel fuel') {nodes nodes' : List Node}
    (h : List.Forall₂ (R .lost) nodes nodes') :
    J.Holds Eq (executeAll (Evaluator.execute i fuel) nodes)
      (executeAll (Evaluator.execute i' fuel') nodes') :=
  J.executeAll (fun _ _ hnode => ih.execute hnode) h

theorem evaluate_level (hR : Congruence R) (hi : i.Abreast R i') (ih : Abreast J R i i' fuel fuel')
    (h : Level R node node') :
    J.Holds Eq (Evaluator.evaluate i (fuel + 1) node) (Evaluator.evaluate i' (fuel' + 1) node') := by
  have hself : R .wanted node node' := hR.of_level h
  unfold Evaluator.evaluate
  cases h with
  | index | deref => exact J.after (ih.locate hself .read) fun target => J.refl _
  | intLiteral | charLiteral | stringLiteral | identifier => exact J.refl _
  | arrayLiteral _ h => exact J.after (ih.values h) fun values => J.refl _
  | @binary place op left left' right right' hl hr =>
    show J.Holds Eq (Evaluator.evaluate i (fuel + 1) (.binary place op left right))
      (Evaluator.evaluate i' (fuel' + 1) (.binary place op left' right'))
    rw [Evaluator.evaluate_binary, Evaluator.evaluate_binary]
    refine J.after (ih.value hl) fun l => ?_
    split
    · split
      · exact J.refl _
      · exact J.after (ih.value hr) fun r => J.refl _
    · exact J.after (ih.value hr) fun r => J.refl _
  | unary _ _ h => exact J.after (ih.value h) fun v => J.refl _
  | step _ _ h => exact J.after (ih.locate h .write) fun target => J.refl _
  | addressOf _ h => exact J.after (ih.locate h .read) fun target => J.refl _
  | assign _ ht hv | compoundAssign _ _ ht hv =>
    exact J.after (ih.locate ht .write) fun target => J.after (ih.value hv) fun v => J.refl _
  | @call place name args args' h =>
    have hcallee : J.Holds (Callee.Abreast R) (ofEffect (Effect.ofExcept place (i.callee name args.length)))
        (ofEffect (Effect.ofExcept place (i'.callee name args'.length))) := by
      rw [← h.length_eq]
      obtain ⟨fault, hc, hc'⟩ | ⟨c, c', hc, hc', hcallee⟩ := hi.callee name args.length
      · rw [hc, hc']
        exact J.error (.fault fault place)
      · rw [hc, hc']
        exact J.pure hcallee
    refine J.bind hcallee fun c c' hcallee => J.after (ih.values h) fun values => ?_
    cases hcallee with
    | print => exact J.refl _
    | defined hf => exact ih.call hf values place
  | declaration _ _ _ _ h =>
    refine J.after (ih.values (hR.operands h)) fun values => ?_
    rw [hR.define_eq h]
    exact J.refl _
  | _ => exact J.refl _

theorem locate_level (ih : Abreast J R i i' fuel fuel') (h : Level R node node') (access : Access) :
    J.Holds Eq (Evaluator.locate i (fuel + 1) node access)
      (Evaluator.locate i' (fuel' + 1) node' access) := by
  unfold Evaluator.locate
  cases h with
  | identifier => exact J.refl _
  | deref _ h => exact J.after (ih.value h) fun v => J.refl _
  | index _ ha hi => exact J.after (ih.value ha) fun a => J.after (ih.value hi) fun v => J.refl _
  | _ => exact J.refl _

theorem whileFrom_succ (ih : Abreast J R i i' fuel fuel') {condition condition' body body' : Node}
    (hc : R .wanted condition condition') (hb : R .lost body body') :
    J.Holds Eq (Evaluator.whileFrom i (fuel + 1) condition body)
      (Evaluator.whileFrom i' (fuel' + 1) condition' body') := by
  unfold Evaluator.whileFrom
  refine J.after (ih.value hc) fun v => ?_
  split
  · refine J.after (ih.execute hb) fun c => ?_
    cases c with
    | normal | continued => exact ih.whileFrom hc hb
    | broke | returned => exact J.refl _
  · exact J.refl _

theorem forFrom_succ (ih : Abreast J R i i' fuel fuel')
    {condition condition' increment increment' : Option Node} {body body' : Node}
    (hc : Option.Rel (R .wanted) condition condition') (hs : Option.Rel (R .lost) increment increment')
    (hb : R .lost body body') :
    J.Holds Eq (Evaluator.forFrom i (fuel + 1) condition increment body)
      (Evaluator.forFrom i' (fuel' + 1) condition' increment' body') := by
  have hsteps := J.evaluateAll (fun _ _ hnode => ih.effect hnode) (forall₂_toList_of_rel hs)
  unfold Evaluator.forFrom
  refine J.after (ih.values (forall₂_toList_of_rel hc)) fun tests => ?_
  split
  · refine J.after (ih.execute hb) fun c => ?_
    cases c with
    | normal | continued =>
      exact J.after (J.discard (J.imp hsteps fun _ _ _ => trivial)) fun _ => ih.forFrom hc hs hb
    | broke | returned => exact J.refl _
  · exact J.refl _

/-- Where an operation stands as a statement, its value is lost. -/
theorem execute_of_isOperation (i : Interpreter) (fuel : Nat) (h : node.isOperation = true) :
    Evaluator.execute i (fuel + 1) node = (do
      ofEffect (countStep i.limits node.place)
      discard <| Evaluator.evaluate i fuel node
      return .normal) := by
  cases node with
  | function | declaration | block | ifElse | whileLoop | forLoop | returnFrom | breakLoop | continueLoop
  | expression | intLiteral | charLiteral | stringLiteral | arrayLiteral | identifier => cases h
  | _ => rfl

theorem execute_succ (hR : Congruence R) (hi : i.Abreast R i') (ih : Abreast J R i i' fuel fuel')
    (hnode : R .lost node node') :
    J.Holds Eq (Evaluator.execute i (fuel + 1) node) (Evaluator.execute i' (fuel' + 1) node') := by
  have lost {value value' : Node} (h : R .lost value value') :
      J.Holds Eq (discard (Evaluator.evaluate i fuel value) >>= fun _ => pure Completion.normal)
        (discard (Evaluator.evaluate i' fuel' value') >>= fun _ => pure Completion.normal) :=
    J.after (J.discard (ih.effect h)) fun _ => J.refl _
  rcases hR.split hnode with hlevel | ⟨hop, hop', hplace⟩
  · unfold Evaluator.execute
    rw [hlevel.place_eq, hi.limits]
    refine J.behind _ fun _ => ?_
    cases hlevel with
    | declaration _ _ _ _ h =>
      refine J.after (ih.values (hR.operands h)) fun values => ?_
      rw [hR.define_eq h]
      exact J.refl _
    | block _ h => exact J.behind _ fun _ => J.after (ih.executeAll h) fun c => J.refl _
    | ifElse _ hc ht he =>
      refine J.after (ih.value hc) fun v => ?_
      split
      · exact ih.execute ht
      · cases he with
        | none => exact J.refl _
        | some he => exact ih.execute he
    | whileLoop _ hc hb => exact ih.whileFrom hc hb
    | forLoop _ hinit hc hs hb =>
      refine J.behind _ fun _ => J.after (ih.executeAll (forall₂_toList_of_rel hinit)) fun c => ?_
      cases c with
      | normal => exact J.after (ih.forFrom hc hs hb) fun c => J.refl _
      | _ => exact J.refl _
    | returnFrom _ h =>
      cases h with
      | none => exact J.refl _
      | some h => exact J.after (ih.value h) fun v => J.refl _
    | breakLoop | continueLoop | function => exact J.refl _
    | expression _ h => exact lost h
    | _ => exact lost hnode
  · rw [execute_of_isOperation i fuel hop, execute_of_isOperation i' fuel' hop', hplace, hi.limits]
    exact J.behind _ fun _ => lost hnode

theorem call_succ (hi : i.Abreast R i') (ih : Abreast J R i i' fuel fuel') {f f' : Function}
    (h : f.Abreast R f') (args : List Value) (place : Location) :
    J.Holds Eq (Evaluator.call i (fuel + 1) f args place)
      (Evaluator.call i' (fuel' + 1) f' args place) := by
  unfold Evaluator.call
  rw [hi.limits, h.enterCall_eq]
  refine J.behind _ fun _ => J.after (ih.executeAll h.body) fun c => ?_
  rw [h.finishCall_eq]
  exact J.refl _

end Abreast

variable {J : Judgement} {i i' : Interpreter} {fuel fuel' : Nat}

/-- Both runs begin with the same arguments, in functions that stand side by side. -/
theorem enterMain_abreast (hi : i.Abreast R i') (args : List (List UInt8)) :
    J.Holds (Function.Abreast R) (ofEffect (i.enterMain args)) (ofEffect (i'.enterMain args)) := by
  have hmain := hi.function? Interpreter.entryPoint
  unfold Interpreter.enterMain
  generalize i.function? Interpreter.entryPoint = main, i'.function? Interpreter.entryPoint = main'
    at hmain
  cases hmain with
  | none => exact J.error .missingMain
  | @some f f' hf =>
    have hrest : J.Holds (Function.Abreast R)
        (ofEffect do
          let values ← bindArguments f.place args
          enterCall i.limits f (values.take f.params.length) none
          return f)
        (ofEffect do
          let values ← bindArguments f.place args
          enterCall i.limits f (values.take f.params.length) none
          return f') := by
      simp only [Evaluation.ofEffect_bind]
      exact J.behind _ fun values => J.behind _ fun _ => J.pure hf
    dsimp only
    rw [hf.place, hf.params, hi.limits]
    simp only [hf.enterCall_eq]
    split
    · exact J.error (.fault (.arity Interpreter.entryPoint Interpreter.entryArity f.params.length) f.place)
    · exact hrest

theorem exitCode_abreast (hi : i.Abreast R i') (h : Abreast J R i i' fuel fuel')
    (args : List (List UInt8)) : J.Holds Eq (exitCode i fuel args) (exitCode i' fuel' args) := by
  refine J.bind (enterMain_abreast hi args) fun main main' hmain => ?_
  refine J.after (h.executeAll hmain.body) fun c => ?_
  rw [hmain.finishCall_eq]
  exact J.refl _

end Evaluator

end BoundedC
