import BoundedC.Proofs.SideBySide

/-!
# Indexing is addition to a pointer

`a[i]` names the same place as `*(a + i)`. `Node.Respells` relates trees that differ in nothing but
how they spell such places, anywhere in them and in either direction. Programs that are related in
this way run alike, whatever `a` and `i` evaluate to: the one has a job less to do for each element,
and the errors of the two are worded differently, but have the same kind and place.

* `alike_elementPlace` : the one effect that the two spellings do not share;
* `Evaluation.Within` : one evaluation ends as the other one does, wherever it ends;
* `Evaluator.agrees` : trees with the two spellings, by induction on the fuel, of which the longer
  spelling needs up to twice as much;
* `run_respelled` : whole runs of programs.
-/

namespace BoundedC

/-! ## The two spellings -/

/-- The trees are the same but for the spelling of elements: where one has `a[i]`, the other one may
have `*(a + i)`, with the place of `a[i]` for both of its nodes. -/
inductive Node.Respells : Node → Node → Prop
  | indexAsSum (place : Location) {array array' index index' : Node} (ha : array.Respells array')
      (hi : index.Respells index') :
      Respells (.index place array index) (.deref place (.binary place .add array' index'))
  | sumAsIndex (place : Location) {array array' index index' : Node} (ha : array.Respells array')
      (hi : index.Respells index') :
      Respells (.deref place (.binary place .add array index)) (.index place array' index')
  | function (place : Location) (name : String) (returnType : CType) (params : List Param)
      {body body' : List Node} (h : List.Forall₂ Respells body body') :
      Respells (.function place name returnType params body)
        (.function place name returnType params body')
  | declaration (place : Location) (name : String) (type : CType) (isConst : Bool)
      {init init' : Option Node} (h : Option.Rel Respells init init') :
      Respells (.declaration place name type isConst init)
        (.declaration place name type isConst init')
  | block (place : Location) {statements statements' : List Node}
      (h : List.Forall₂ Respells statements statements') :
      Respells (.block place statements) (.block place statements')
  | ifElse (place : Location) {condition condition' thenBranch thenBranch' : Node}
      {elseBranch elseBranch' : Option Node} (hc : condition.Respells condition')
      (ht : thenBranch.Respells thenBranch') (he : Option.Rel Respells elseBranch elseBranch') :
      Respells (.ifElse place condition thenBranch elseBranch)
        (.ifElse place condition' thenBranch' elseBranch')
  | whileLoop (place : Location) {condition condition' body body' : Node}
      (hc : condition.Respells condition') (hb : body.Respells body') :
      Respells (.whileLoop place condition body) (.whileLoop place condition' body')
  | forLoop (place : Location) {init init' condition condition' increment increment' : Option Node}
      {body body' : Node} (hi : Option.Rel Respells init init')
      (hc : Option.Rel Respells condition condition')
      (hs : Option.Rel Respells increment increment') (hb : body.Respells body') :
      Respells (.forLoop place init condition increment body)
        (.forLoop place init' condition' increment' body')
  | returnFrom (place : Location) {value value' : Option Node}
      (h : Option.Rel Respells value value') :
      Respells (.returnFrom place value) (.returnFrom place value')
  | breakLoop (place : Location) : Respells (.breakLoop place) (.breakLoop place)
  | continueLoop (place : Location) : Respells (.continueLoop place) (.continueLoop place)
  | expression (place : Location) {value value' : Node} (h : value.Respells value') :
      Respells (.expression place value) (.expression place value')
  | intLiteral (place : Location) (value : Int32) :
      Respells (.intLiteral place value) (.intLiteral place value)
  | charLiteral (place : Location) (value : Int8) :
      Respells (.charLiteral place value) (.charLiteral place value)
  | stringLiteral (place : Location) (bytes : List UInt8) :
      Respells (.stringLiteral place bytes) (.stringLiteral place bytes)
  | arrayLiteral (place : Location) {elements elements' : List Node}
      (h : List.Forall₂ Respells elements elements') :
      Respells (.arrayLiteral place elements) (.arrayLiteral place elements')
  | identifier (place : Location) (name : String) :
      Respells (.identifier place name) (.identifier place name)
  | binary (place : Location) (op : BinaryOp) {left left' right right' : Node}
      (hl : left.Respells left') (hr : right.Respells right') :
      Respells (.binary place op left right) (.binary place op left' right')
  | unary (place : Location) (op : UnaryOp) {operand operand' : Node}
      (h : operand.Respells operand') : Respells (.unary place op operand) (.unary place op operand')
  | step (place : Location) (op : StepOp) {operand operand' : Node}
      (h : operand.Respells operand') : Respells (.step place op operand) (.step place op operand')
  | deref (place : Location) {operand operand' : Node} (h : operand.Respells operand') :
      Respells (.deref place operand) (.deref place operand')
  | addressOf (place : Location) {operand operand' : Node} (h : operand.Respells operand') :
      Respells (.addressOf place operand) (.addressOf place operand')
  | assign (place : Location) {target target' value value' : Node}
      (ht : target.Respells target') (hv : value.Respells value') :
      Respells (.assign place target value) (.assign place target' value')
  | compoundAssign (place : Location) (op : BinaryOp) {target target' value value' : Node}
      (ht : target.Respells target') (hv : value.Respells value') :
      Respells (.compoundAssign place op target value) (.compoundAssign place op target' value')
  | call (place : Location) (name : String) {args args' : List Node}
      (h : List.Forall₂ Respells args args') : Respells (.call place name args) (.call place name args')
  | index (place : Location) {array array' index index' : Node} (ha : array.Respells array')
      (hi : index.Respells index') :
      Respells (.index place array index) (.index place array' index')

def Program.Respells (p p' : Program) : Prop := List.Forall₂ Node.Respells p.nodes p'.nodes

/-! ## The relation between the spellings -/

namespace Node.Respells

mutual

/-- Either spelling may be taken for the other one. -/
theorem symm {node node' : Node} (h : node.Respells node') : node'.Respells node := by
  cases h with
  | indexAsSum _ ha hi => exact .sumAsIndex _ ha.symm hi.symm
  | sumAsIndex _ ha hi => exact .indexAsSum _ ha.symm hi.symm
  | function _ _ _ _ h => exact .function _ _ _ _ (symmList h)
  | declaration _ _ _ _ h => exact .declaration _ _ _ _ (symmOption h)
  | block _ h => exact .block _ (symmList h)
  | ifElse _ hc ht he => exact .ifElse _ hc.symm ht.symm (symmOption he)
  | whileLoop _ hc hb => exact .whileLoop _ hc.symm hb.symm
  | forLoop _ hi hc hs hb =>
    exact .forLoop _ (symmOption hi) (symmOption hc) (symmOption hs) hb.symm
  | returnFrom _ h => exact .returnFrom _ (symmOption h)
  | breakLoop => exact .breakLoop _
  | continueLoop => exact .continueLoop _
  | expression _ h => exact .expression _ h.symm
  | intLiteral => exact .intLiteral _ _
  | charLiteral => exact .charLiteral _ _
  | stringLiteral => exact .stringLiteral _ _
  | arrayLiteral _ h => exact .arrayLiteral _ (symmList h)
  | identifier => exact .identifier _ _
  | binary _ _ hl hr => exact .binary _ _ hl.symm hr.symm
  | unary _ _ h => exact .unary _ _ h.symm
  | step _ _ h => exact .step _ _ h.symm
  | deref _ h => exact .deref _ h.symm
  | addressOf _ h => exact .addressOf _ h.symm
  | assign _ ht hv => exact .assign _ ht.symm hv.symm
  | compoundAssign _ _ ht hv => exact .compoundAssign _ _ ht.symm hv.symm
  | call _ _ h => exact .call _ _ (symmList h)
  | index _ ha hi => exact .index _ ha.symm hi.symm

theorem symmList {nodes nodes' : List Node} (h : List.Forall₂ Node.Respells nodes nodes') :
    List.Forall₂ Node.Respells nodes' nodes := by
  cases h with
  | nil => exact .nil
  | cons hnode hnodes => exact .cons hnode.symm (symmList hnodes)

theorem symmOption {node node' : Option Node} (h : Option.Rel Node.Respells node node') :
    Option.Rel Node.Respells node' node := by
  cases h with
  | none => exact .none
  | some h => exact .some h.symm

end

end Node.Respells

theorem Program.Respells.symm {p p' : Program} (h : p.Respells p') : p'.Respells p :=
  Node.Respells.symmList h

/-- Related nodes have the same head, or else they are the two spellings of an element. What becomes of
their values does not matter. -/
theorem Node.congruence_respells : Node.Congruence fun _ => Node.Respells where
  of_level h := by
    cases h <;> constructor <;> assumption
  split h := by
    cases h with
    | indexAsSum | sumAsIndex => exact .inr ⟨rfl, rfl, rfl⟩
    | _ =>
      refine .inl ?_
      constructor <;> assumption

/-! ## Outcomes and evaluations -/

/-- What an error says apart from its wording: its kind and its place. -/
def Stop.report? (stop : Stop) : Option (String × Option Location) :=
  stop.error?.map fun e => (e.kind, e.place?)

variable {α β γ δ : Type} {R : α → β → Prop} {S : γ → δ → Prop}

/-- The states are the same, and so are the reports of errors; values are related. -/
inductive Alike (R : α → β → Prop) :
    Except Stop α × ProgramState → Except Stop β × ProgramState → Prop
  | ok {a : α} {b : β} (s : ProgramState) (h : R a b) : Alike R (.ok a, s) (.ok b, s)
  | error {e e' : Stop} (s : ProgramState) (h : e'.report? = e.report?) :
      Alike R (.error e, s) (.error e', s)

namespace Alike

theorem refl (r : Except Stop α × ProgramState) : Alike Eq r r := by
  obtain ⟨_ | a, s⟩ := r
  · exact .error s rfl
  · exact .ok s rfl

theorem symm {r r' : Except Stop α × ProgramState} (h : Alike Eq r r') : Alike Eq r' r := by
  cases h with
  | ok s h => exact .ok s h.symm
  | error s h => exact .error s h.symm

theorem trans {r r' r'' : Except Stop α × ProgramState} (h : Alike Eq r r')
    (h' : Alike Eq r' r'') : Alike Eq r r'' := by
  cases h with
  | ok s hab =>
    cases h' with
    | ok _ hbc => exact .ok s (hab.trans hbc)
  | error s he =>
    cases h' with
    | error _ he' => exact .error s (he'.trans he)

end Alike

/-- Wherever the first evaluation ends, the second one ends alike. -/
def Evaluation.Within (R : α → β → Prop) (x : Evaluation α) (y : Evaluation β) : Prop :=
  ∀ s r, x.run s = some r → ∃ r', y.run s = some r' ∧ Alike R r r'

namespace Evaluation.Within

theorem pure {a : α} {b : β} (h : R a b) : Within R (Pure.pure a) (Pure.pure b) := by
  rintro s _ ⟨⟩
  exact ⟨_, rfl, .ok s h⟩

theorem exhausted {y : Evaluation β} : Within R Evaluation.exhausted y := by
  rintro s _ ⟨⟩

theorem refl (x : Evaluation α) : Within Eq x x := fun _ r h => ⟨r, h, .refl r⟩

theorem trans {x y z : Evaluation α} (h : Within Eq x y) (h' : Within Eq y z) : Within Eq x z := by
  intro s r hr
  obtain ⟨r', hr', hsame⟩ := h s r hr
  obtain ⟨r'', hr'', hsame'⟩ := h' s r' hr'
  exact ⟨r'', hr'', hsame.trans hsame'⟩

theorem bind {x : Evaluation α} {y : Evaluation β} {f : α → Evaluation γ} {g : β → Evaluation δ}
    (hx : Within R x y) (hf : ∀ a b, R a b → Within S (f a) (g b)) :
    Within S (x >>= f) (y >>= g) := by
  intro s r hr
  rw [run_bind] at hr
  rcases hrun : x.run s with _ | outcome
  · rw [hrun] at hr
    cases hr
  · rw [hrun] at hr
    obtain ⟨_, hrun', hsame⟩ := hx s outcome hrun
    cases hsame with
    | ok t hab =>
      obtain ⟨r', hr', hsame'⟩ := hf _ _ hab t r hr
      exact ⟨r', by rw [run_bind, hrun']; exact hr', hsame'⟩
    | error t he =>
      cases hr
      exact ⟨_, by rw [run_bind, hrun'], .error t he⟩

/-- Effects do not depend on fuel. -/
theorem of_alike {x : Effect α} {y : Effect β} (h : ∀ s, Alike R (x.run s) (y.run s)) :
    Within R (ofEffect x) (ofEffect y) := by
  rintro s _ ⟨⟩
  exact ⟨_, rfl, h s⟩

end Evaluation.Within

def Judgement.within : Judgement where
  Holds := Evaluation.Within
  pure := .pure
  refl := .refl
  bind := .bind

/-! ## The place of an element -/

/-- The place of an element, found by addition. -/
def Effect.sumPlace (place : Location) (array index : Value) : Effect Pointer := do
  pointerPlace place (← ofExcept place (BinaryOp.add.apply array index))

/-- The two ways to the place of an element agree, on values that have no such place as well. -/
theorem alike_elementPlace (place : Location) (array index : Value) (s : ProgramState) :
    Alike Eq ((Effect.elementPlace place array index).run s)
      ((Effect.sumPlace place array index).run s) := by
  have moved (p : Pointer) (n : Int32) :
      Alike Eq ((Effect.ofExcept place ((p.add n).mapError .memory)).run s)
        ((do Effect.pointerPlace place (← Effect.ofExcept place
          (BinaryOp.ofMemory .pointer (p.add n))) : Effect Pointer).run s) := by
    cases p.add n with
    | ok q => exact .ok s rfl
    | error fault => exact .error s rfl
  cases array with
  | pointer p =>
    cases index with
    | pointer q => exact .error s rfl
    | int n => exact moved p n
    | char c => exact moved p c.toInt32
  | int n =>
    cases index with
    | pointer q => exact moved q n
    | _ => exact .error s rfl
  | char c =>
    cases index with
    | pointer q => exact moved q c.toInt32
    | _ => exact .error s rfl

/-! ## Direct evaluation -/

namespace Evaluator

open Evaluation Effect

variable {i i' : Interpreter} {fuel fuel' : Nat}

/-- The longer spelling adds up before it looks at the place. -/
theorem evaluate_sum (i : Interpreter) (fuel : Nat) (place : Location) (array index : Node) :
    (evaluate i (fuel + 1) (.binary place .add array index) >>= fun v =>
        ofEffect (pointerPlace place v)) =
      (do
        let a ← evaluate i fuel array
        let v ← evaluate i fuel index
        ofEffect (sumPlace place a v) : Evaluation Pointer) := by
  simp only [evaluate, bind_assoc, sumPlace, ofEffect_bind]

/-- Evaluations with the one fuel end as those of the other spelling do with the other fuel. -/
abbrev Agrees (i i' : Interpreter) (fuel fuel' : Nat) : Prop :=
  Abreast .within (fun _ => Node.Respells) i i' fuel fuel'

theorem agrees_zero (i i' : Interpreter) (fuel' : Nat) : Agrees i i' 0 fuel' where
  evaluate _ := .exhausted
  locate _ _ := .exhausted
  execute _ := .exhausted
  whileFrom _ _ := .exhausted
  forFrom _ _ _ := .exhausted
  call _ _ _ := .exhausted

/-- The value of an element is loaded from its place in both spellings. -/
theorem evaluate_respells (hi : i.Abreast (fun _ => Node.Respells) i') (ih : Agrees i i' fuel fuel')
    {node node' : Node} (h : node.Respells node') :
    Judgement.within.Holds Eq (evaluate i (fuel + 1) node) (evaluate i' (fuel' + 1) node') := by
  have hself := h
  cases h with
  | indexAsSum | sumAsIndex =>
    exact Judgement.after (ih.locate hself .read) fun target => Judgement.within.refl _
  | _ =>
    refine ih.evaluate_level Node.congruence_respells hi ?_
    constructor <;> assumption

theorem locate_respells (ih : ∀ fuel', 2 * fuel ≤ fuel' → Agrees i i' fuel fuel')
    (hfuel : 2 * fuel ≤ fuel') {node node' : Node} (h : node.Respells node') (access : Access) :
    Judgement.within.Holds Eq (locate i (fuel + 1) node access) (locate i' (fuel' + 2) node' access) := by
  have ih₀ := ih fuel' hfuel
  cases h with
  | indexAsSum place ha hi =>
    unfold locate
    dsimp only
    rw [evaluate_sum]
    refine Judgement.after (ih₀.value ha) fun a => Judgement.after (ih₀.value hi) fun v => ?_
    exact Within.of_alike (alike_elementPlace place a v)
  | @sumAsIndex place array array' index index' ha hi =>
    -- the sum needs its fuel, which the element at the other side does not
    have hsum := (ih (fuel' + 2) (by omega)).value (.binary place .add ha hi)
    have hplace := Judgement.after hsum fun v => Judgement.within.refl (ofEffect (pointerPlace place v))
    refine Within.trans hplace ?_
    rw [evaluate_sum]
    refine Judgement.behind (J := .within) _ fun a => Judgement.behind _ fun v => ?_
    exact Within.of_alike fun s => (alike_elementPlace place a v s).symm
  | _ =>
    refine (ih (fuel' + 1) (by omega)).locate_level ?_ access
    constructor <;> assumption

/-- Direct evaluation follows every spelling of the tree. -/
theorem agrees (hi : i.Abreast (fun _ => Node.Respells) i') (fuel : Nat) :
    ∀ fuel', 2 * fuel ≤ fuel' → Agrees i i' fuel fuel' := by
  induction fuel with
  | zero => exact fun fuel' _ => agrees_zero i i' fuel'
  | succ fuel ih =>
    intro fuel' hfuel
    obtain ⟨k, rfl⟩ : ∃ k, fuel' = k + 2 := ⟨fuel' - 2, by omega⟩
    have ih₁ := ih (k + 1) (by omega)
    refine ⟨fun h => ?_, locate_respells ih (by omega), ih₁.execute_succ Node.congruence_respells hi,
      ih₁.whileFrom_succ, ih₁.forFrom_succ, ih₁.call_succ hi⟩
    exact Judgement.imp (evaluate_respells hi ih₁ h) fun _ _ => Use.same_of_eq _

end Evaluator

/-! ## Whole runs -/

/-- A run of the one program ends as some run of the other one does. -/
theorem Program.Respells.exists_run {p p' : Program} (h : p.Respells p') {limits : Limits}
    {args : List (List UInt8)} {sink : Sink} {fuel : Nat} {r : Except Stop Int32}
    {s : ProgramState} (hrun : (Interpreter.ofProgram p limits).run fuel args sink = some (r, s)) :
    ∃ fuel' r' s', (Interpreter.ofProgram p' limits).run fuel' args sink = some (r', s') ∧
      r'.mapError Stop.report? = r.mapError Stop.report? ∧
      s'.observed = s.observed := by
  have hi := Node.congruence_respells.ofProgram h limits
  obtain ⟨n, t, ht, hst⟩ := Interpreter.exists_evaluation_of_run hrun
  obtain ⟨⟨r', t'⟩, ht', hsame⟩ :=
    Evaluator.exitCode_abreast hi (Evaluator.agrees hi n _ (Nat.le_refl _)) args (.fresh sink) _ ht
  obtain ⟨m, s', hs', hst'⟩ := Interpreter.exists_run_of_evaluation ht'
  refine ⟨m, r', s', hs', ?_, ?_⟩
  · cases hsame with
    | ok t hcode => rw [hcode]
    | error t he => exact congrArg Except.error he
  · cases hsame <;> exact hst'.trans hst.symm

/-- `a[i]` is `*(a + i)`: programs that differ in the spelling of elements only, in whatever places
and for whatever operands, end alike if one of them ends. The exit values are the same or else the
kinds and the places of the errors, and so are the memory, the output and the number of statements. -/
theorem run_respelled {p p' : Program} (h : p.Respells p') (limits : Limits)
    (args : List (List UInt8)) (sink : Sink)
    (result : Except (Option (String × Option Location)) Int32) (memory : Arena) (output : Sink)
    (steps : Nat) :
    (∃ fuel r s, (Interpreter.ofProgram p limits).run fuel args sink = some (r, s) ∧
        r.mapError Stop.report? = result ∧
        s.memory = memory ∧ s.sink = output ∧ s.steps = steps) ↔
      ∃ fuel r s, (Interpreter.ofProgram p' limits).run fuel args sink = some (r, s) ∧
        r.mapError Stop.report? = result ∧
        s.memory = memory ∧ s.sink = output ∧ s.steps = steps := by
  have follow {q q' : Program} (hq : q.Respells q')
      (hrun : ∃ fuel r s, (Interpreter.ofProgram q limits).run fuel args sink = some (r, s) ∧
        r.mapError Stop.report? = result ∧
        s.memory = memory ∧ s.sink = output ∧ s.steps = steps) :
      ∃ fuel r s, (Interpreter.ofProgram q' limits).run fuel args sink = some (r, s) ∧
        r.mapError Stop.report? = result ∧
        s.memory = memory ∧ s.sink = output ∧ s.steps = steps := by
    obtain ⟨fuel, r, s, hs, rfl, rfl, rfl, rfl⟩ := hrun
    obtain ⟨fuel', r', s', hs', hr, hobs⟩ := hq.exists_run hs
    injection hobs with hmemory hrest
    injection hrest with hsink hsteps
    exact ⟨fuel', r', s', hs', hr, hmemory, hsink, hsteps⟩
  exact ⟨follow h, follow h.symm⟩

/-- The second element of an array, assigned in the one spelling and read in the other one. -/
theorem exists_run_respelled :
    ∃ p p' : Program, p.Respells p' ∧ ∃ fuel r s,
      (Interpreter.ofProgram p' .default).run fuel [] .unlimited = some (r, s) ∧
        r.mapError Stop.report? = .ok 4 := by
  let at1 : Location := ⟨1, 1⟩
  let element : Node := .index at1 (.identifier at1 "a") (.intLiteral at1 1)
  let sum : Node := .deref at1 (.binary at1 .add (.identifier at1 "a") (.intLiteral at1 1))
  let main (target value : Node) : Program := ⟨[.function at1 "main" .int []
    [.declaration at1 "a" (.array .int 2) false none,
      .expression at1 (.assign at1 target (.intLiteral at1 4)), .returnFrom at1 (some value)]]⟩
  have hrespells : (main element sum).Respells (main sum element) := by
    refine .cons (.function _ _ _ _ (.cons (.declaration _ _ _ _ .none) (.cons (.expression _
      (.assign _ (.indexAsSum _ (.identifier _ _) (.intLiteral _ _)) (.intLiteral _ _))) (.cons
      (.returnFrom _ (.some (.sumAsIndex _ (.identifier _ _) (.intLiteral _ _)))) .nil)))) .nil
  have hrun : ((Interpreter.ofProgram (main element sum) .default).run 60 [] .unlimited).map
      (·.1.toOption) = some (some 4) := by
    decide +kernel
  obtain ⟨⟨_ | _, s⟩, hrun, hcode⟩ := Option.map_eq_some_iff.1 hrun
  · cases hcode
  · cases hcode
    obtain ⟨fuel, r, s', hs', hr, -⟩ :=
      (run_respelled hrespells .default [] .unlimited (.ok 4) s.memory s.sink s.steps).1
        ⟨60, _, s, hrun, rfl, rfl, rfl, rfl⟩
    exact ⟨_, _, hrespells, fuel, r, s', hs', hr⟩

end BoundedC
