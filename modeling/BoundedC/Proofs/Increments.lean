import Mathlib.Data.Set.Defs
import BoundedC.Proofs.SideBySide

/-!
# Steps are sums

`++e` is `e += 1` and `--e` is `e -= 1`, and where nothing becomes of their value they are `e++` and `e--`.
`Node.Resteps` relates trees of which the second one has steps replaced in this way, anywhere and however
they stand inside one another; the steps that become sums are at given places. Programs that are related
so run alike, whatever the operands do on the way to their places. A step reads, moves and stores the value
at a place by itself, and a sum leaves the moving to the binary operator and the storing to the assignment.
The two differ for arrays only, which neither of them can store: a sum moves the pointer first, which may
fail, and its refusal is worded otherwise. So the errors of the two programs may differ where a step that
has become a sum meets an array, and nowhere else.

* `StepOp.apply_eq_sum`, `Effect.step_eq_compoundAssign` : what a step does to a value and at a place;
* `Effect.step_behind_eq` : the postfix form, which yields what was there before the prefix form;
* `Judgement.resembling` : evaluations that end alike, but for the refusal of an array;
* `Evaluator.abreast_of_resteps` : trees with replaced steps, by induction on the fuel;
* `run_resteps` : whole runs of programs.
-/

namespace BoundedC

namespace StepOp

/-- The binary operator that does what the step does. -/
def sum : StepOp → BinaryOp
  | preInc | postInc => .add
  | preDec | postDec => .sub

/-- The step that yields the value before it. -/
def behind : StepOp → StepOp
  | preInc | postInc => postInc
  | preDec | postDec => postDec

theorem yieldsOld_behind (op : StepOp) : op.behind.yieldsOld = true := by cases op <;> rfl

theorem apply_behind (op : StepOp) (type : CType) (old : Value) :
    op.behind.apply type old = op.apply type old := by cases op <;> rfl

end StepOp

/-- The second tree comes from the first one by replacing steps: `++e` and `--e` at some of the places by
sums with the number 1, at the same place, and where their value is lost by `e++` and `e--`. -/
inductive Node.Resteps (places : Set Location) : Use → Node → Node → Prop
  | level {use : Use} {node node' : Node} (h : Node.Level (Resteps places) node node') :
      Resteps places use node node'
  | sum {use : Use} {place : Location} (hplace : place ∈ places) (site : Location) (op : StepOp)
      {target target' : Node} (hop : op.yieldsOld = false) (h : Resteps places .wanted target target') :
      Resteps places use (.step place op target)
        (.compoundAssign place op.sum target' (.intLiteral site 1))
  | behind (place : Location) (op : StepOp) {target target' : Node} (hop : op.yieldsOld = false)
      (h : Resteps places .wanted target target') :
      Resteps places .lost (.step place op target) (.step place op.behind target')

/-- The second program comes from the first one by replacing steps, by sums at some of the places only. -/
def Program.Resteps (places : Set Location) (p p' : Program) : Prop :=
  List.Forall₂ (Node.Resteps places .lost) p.nodes p'.nodes

variable {places : Set Location}

theorem Node.congruence_resteps : Node.Congruence (Node.Resteps places) where
  of_level h := .level h
  split h := by
    cases h with
    | level h => exact .inl h
    | sum | behind => exact .inr ⟨rfl, rfl, rfl⟩

/-! ## Steps of values and places -/

/-- A step moves a value as the sum with 1 does, where no array is. -/
theorem StepOp.apply_eq_sum (op : StepOp) {type : CType} (old : Value) (harray : type.isArray = false) :
    op.apply type old = op.sum.apply old (.int 1) := by
  have hback (n : Int32) : n + -1 = n - 1 := (Int32.sub_eq_add_neg n 1).symm
  cases old with
  | pointer p =>
    have hstep : op.apply type (.pointer p) = BinaryOp.ofMemory .pointer (p.add op.delta) := by
      unfold StepOp.apply
      simp only [harray, Bool.false_eq_true, if_false]
    rw [hstep]
    cases op <;> rfl
  | int n =>
    cases op with
    | preInc | postInc => rfl
    | preDec | postDec => exact congrArg (fun n => Except.ok (Value.int n)) (hback n)
  | char c =>
    cases op with
    | preInc | postInc => rfl
    | preDec | postDec => exact congrArg (fun n => Except.ok (Value.int n)) (hback c.toInt32)

namespace Effect

variable {place : Location} {target : Pointer} {op : StepOp}

/-- What is loaded twice is the same both times. -/
theorem load_bind_load {α : Type} (place : Location) (target : Pointer) (f : Value → Value → Effect α) :
    (load place target >>= fun old => load place target >>= f old) =
      load place target >>= fun old => f old old := by
  funext s
  change (load place target >>= fun old => load place target >>= f old).run s =
    (load place target >>= fun old => f old old).run s
  rw [run_bind, run_bind, load, run_readMemory]
  cases hload : s.memory.load target with
  | error fault => rfl
  | ok old =>
    change (load place target >>= f old).run s = (f old old).run s
    rw [run_bind, load, run_readMemory, hload]
    rfl

/-- In front of its operand, and where no array is, a step is a sum. -/
theorem step_eq_compoundAssign (hop : op.yieldsOld = false) (harray : target.pointee.isArray = false) :
    step op place target = compoundAssign op.sum place target (.int 1) := by
  unfold step compoundAssign assign
  simp only [op.apply_eq_sum _ harray, harray, hop, Bool.false_eq_true, if_false, bind_pure]

/-- Behind its operand, a step does what it does in front of it, and yields what was loaded before. -/
theorem step_behind_eq (op : StepOp) (place : Location) (target : Pointer) :
    step op.behind place target = (do
      let old ← load place target
      let _ ← step op place target
      return old) := by
  have hyields : op.behind.yieldsOld = true := op.yieldsOld_behind
  unfold step
  simp only [hyields, op.apply_behind, if_true, bind_assoc, pure_bind]
  exact (load_bind_load place target fun old old' => do
    let new ← ofExcept place (op.apply target.pointee old')
    let stored ← store place target new
    return old).symm

end Effect

/-! ## Arrays -/

/-- An array is refused at one of the places: by the first computation as the operand of a step, by the
second one as the target of a sum, unless no pointer can be moved so far. -/
def RefusesArray {α β : Type} (places : Set Location) (r : Except Stop α) (r' : Except Stop β) : Prop :=
  ∃ t, ∃ place ∈ places, t.isArray = true ∧ r = .error (.fault (.mismatch (.stepOperand t)) place) ∧
    (r' = .error (.fault (.mismatch (.assignToArray t)) place) ∨
      ∃ offset, r' = .error (.fault (.memory (.offsetOverflow offset)) place))

/-- What two evaluations come to: related values or the same error, but for the refusal of an array at one
of the places, and in any case the same state. -/
inductive Resembles {α β : Type} (places : Set Location) (R : α → β → Prop) :
    Except Stop α × ProgramState → Except Stop β × ProgramState → Prop
  | ok {a : α} {b : β} (s : ProgramState) (h : R a b) : Resembles places R (.ok a, s) (.ok b, s)
  | error (e : Stop) (s : ProgramState) : Resembles places R (.error e, s) (.error e, s)
  | array {r : Except Stop α} {r' : Except Stop β} (s : ProgramState)
    (h : RefusesArray places r r') : Resembles places R (r, s) (r', s)

theorem resembles_refl {α : Type} (r : Except Stop α × ProgramState) : Resembles places Eq r r := by
  obtain ⟨_ | a, s⟩ := r
  · exact .error _ s
  · exact .ok s rfl

/-- The value of an array is a pointer to its first element. -/
theorem Arena.exists_pointer_of_load {a : Arena} {p : Pointer} {v : Value} (h : a.load p = .ok v)
    (harray : p.pointee.isArray = true) : ∃ q, v = .pointer q := by
  obtain ⟨buffer, offset, pointee⟩ := p
  cases pointee with
  | array element length =>
    unfold Arena.load at h
    cases hstart : a.start buffer offset (CType.array element length).size with
    | error fault =>
      simp only [hstart] at h
      cases h
    | ok start =>
      simp only [hstart] at h
      cases h
      exact ⟨_, rfl⟩
  | _ => cases harray

/-- The only way in which a pointer cannot be moved. -/
theorem Pointer.add_cases (p : Pointer) (delta : Int32) :
    (∃ q, p.add delta = .ok q) ∨ ∃ offset, p.add delta = .error (.offsetOverflow offset) := by
  unfold Pointer.add
  dsimp only
  split
  · exact .inl ⟨_, rfl⟩
  · exact .inr ⟨_, rfl⟩

/-- In front of its operand, a step ends as the sum does, whatever is at the place. -/
theorem resembles_step {place : Location} (hplace : place ∈ places) (target : Pointer) {op : StepOp}
    (hop : op.yieldsOld = false) (s : ProgramState) :
    Resembles places Eq ((Effect.step op place target).run s)
      ((Effect.compoundAssign op.sum place target (.int 1)).run s) := by
  cases harray : target.pointee.isArray with
  | false =>
    rw [Effect.step_eq_compoundAssign hop harray]
    exact resembles_refl _
  | true =>
    unfold Effect.step Effect.compoundAssign
    rw [Effect.run_bind, Effect.run_bind, Effect.load, Effect.run_readMemory]
    cases hload : s.memory.load target with
    | error fault => exact .error _ s
    | ok old =>
      obtain ⟨q, rfl⟩ := Arena.exists_pointer_of_load hload harray
      have hsum : ∃ n, op.sum.apply (.pointer q) (.int 1) = BinaryOp.ofMemory .pointer (q.add n) := by
        cases op
        all_goals exact ⟨_, rfl⟩
      obtain ⟨n, hsum⟩ := hsum
      have hstep : op.apply target.pointee (.pointer q) = .error (.mismatch (.stepOperand target.pointee)) := by
        unfold StepOp.apply
        simp only [harray, if_true]
      dsimp only [Except.mapError]
      rw [hstep, hsum]
      rcases q.add_cases n with ⟨q', hmoved⟩ | ⟨offset, hmoved⟩
      · have hassign : Effect.assign place target (.pointer q') =
            Effect.fail place (.mismatch (.assignToArray target.pointee)) := if_pos harray
        rw [hmoved, BinaryOp.ofMemory, Effect.ofExcept, Effect.ofExcept, pure_bind, hassign]
        exact .array s ⟨target.pointee, place, hplace, harray, rfl, .inl rfl⟩
      · rw [hmoved]
        exact .array s ⟨target.pointee, place, hplace, harray, rfl, .inr ⟨offset, rfl⟩⟩

/-! ## Whole runs -/

namespace Judgement

/-- Both evaluations end, with results that resemble each other, or none of them does. -/
def resembling (places : Set Location) : Judgement where
  Holds R x y := ∀ s, Option.Rel (Resembles places R) (x.run s) (y.run s)
  pure h s := .some (.ok s h)
  refl x s := by
    cases x.run s with
    | none => exact .none
    | some r => exact .some (resembles_refl r)
  bind {_ _ _ _ _ _ x y f g} hx hf s := by
    have hrun := hx s
    rw [Evaluation.run_bind, Evaluation.run_bind]
    generalize x.run s = r, y.run s = r' at hrun
    cases hrun with
    | none => exact .none
    | some h =>
      cases h with
      | ok t hab => exact hf _ _ hab t
      | error e t => exact .some (.error e t)
      | array t h =>
        obtain ⟨type, place, hplace, harray, rfl, rfl | ⟨offset, rfl⟩⟩ := h
        · exact .some (.array t ⟨type, place, hplace, harray, rfl, .inl rfl⟩)
        · exact .some (.array t ⟨type, place, hplace, harray, rfl, .inr ⟨offset, rfl⟩⟩)

end Judgement

namespace Evaluator

open Evaluation Effect Node

variable {i i' : Interpreter} {fuel : Nat}

theorem abreast_zero (i i' : Interpreter) :
    Abreast (.resembling places) (Node.Resteps places) i i' 0 0 where
  evaluate _ _ := .none
  locate _ _ _ := .none
  execute _ _ := .none
  whileFrom _ _ _ := .none
  forFrom _ _ _ _ := .none
  call _ _ _ _ := .none

/-- Effects need no fuel. -/
theorem resembling_ofEffect {α β : Type} {S : α → β → Prop} {x : Effect α} {y : Effect β}
    (h : ∀ s, Resembles places S (x.run s) (y.run s)) :
    (Judgement.resembling places).Holds S (ofEffect x) (ofEffect y) :=
  fun s => .some (h s)

/-- The operand of the sum is evaluated behind its place, and takes no fuel that the place did not take. -/
theorem evaluate_sum_literal (i : Interpreter) (fuel : Nat) (op : BinaryOp) (place site : Location)
    (target : Node) (n : Int32) :
    evaluate i (fuel + 1) (.compoundAssign place op target (.intLiteral site n)) = (do
      let target ← locate i fuel target .write
      ofEffect (Effect.compoundAssign op place target (.int n))) := by
  cases fuel with
  | zero => rfl
  | succ fuel => rfl

/-- The two forms of a step differ in nothing but their values. -/
theorem resembling_behind (place : Location) (op : StepOp) (target : Pointer) :
    (Judgement.resembling places).Holds (fun _ _ => True) (ofEffect (Effect.step op place target))
      (ofEffect (Effect.step op.behind place target)) := by
  unfold Effect.step
  simp only [op.apply_behind, ofEffect_bind]
  refine Judgement.behind _ fun old => Judgement.behind _ fun new => Judgement.behind _ fun stored => ?_
  exact (Judgement.resembling places).pure trivial

theorem evaluate_resteps (hi : i.Abreast (Node.Resteps places) i')
    (ih : Abreast (.resembling places) (Node.Resteps places) i i' fuel fuel) {use : Use} {node node' : Node}
    (h : node.Resteps places use node') :
    (Judgement.resembling places).Holds use.Same (evaluate i (fuel + 1) node)
      (evaluate i' (fuel + 1) node') := by
  cases h with
  | level h =>
    exact Judgement.imp (ih.evaluate_level congruence_resteps hi h) fun _ _ => use.same_of_eq
  | sum hplace site op hop h =>
    rw [evaluate_sum_literal]
    refine Judgement.imp ?_ fun _ _ => use.same_of_eq
    refine Judgement.after (ih.locate h .write) fun target => ?_
    exact resembling_ofEffect (resembles_step hplace target hop)
  | behind place op hop h =>
    exact Judgement.after (ih.locate h .write) fun target => resembling_behind place op target

theorem locate_resteps (ih : Abreast (.resembling places) (Node.Resteps places) i i' fuel fuel)
    {node node' : Node} (h : node.Resteps places .wanted node') (access : Access) :
    (Judgement.resembling places).Holds Eq (locate i (fuel + 1) node access)
      (locate i' (fuel + 1) node' access) := by
  cases h with
  | level h => exact ih.locate_level h access
  | sum => exact (Judgement.resembling places).refl _

/-- Direct evaluation does not tell the trees apart. -/
theorem abreast_of_resteps (hi : i.Abreast (Node.Resteps places) i') (fuel : Nat) :
    Abreast (.resembling places) (Node.Resteps places) i i' fuel fuel := by
  induction fuel with
  | zero => exact abreast_zero i i'
  | succ fuel ih =>
    exact ⟨evaluate_resteps hi ih, locate_resteps ih, ih.execute_succ congruence_resteps hi,
      ih.whileFrom_succ, ih.forFrom_succ, ih.call_succ hi⟩

end Evaluator

theorem exists_of_rel_some {α β : Type} {S : α → β → Prop} {a : α} {b? : Option β}
    (h : Option.Rel S (some a) b?) : ∃ b, b? = some b ∧ S a b := by
  cases h with
  | some h => exact ⟨_, rfl, h⟩

theorem exists_of_some_rel {α β : Type} {S : α → β → Prop} {a? : Option α} {b : β}
    (h : Option.Rel S a? (some b)) : ∃ a, a? = some a ∧ S a b := by
  cases h with
  | some h => exact ⟨_, rfl, h⟩

theorem Resembles.end_eq {α : Type} {r r' : Except Stop α} {s s' : ProgramState}
    (h : Resembles places Eq (r, s) (r', s')) : s' = s ∧ (r' = r ∨ RefusesArray places r r') := by
  cases h with
  | ok s h => exact ⟨rfl, .inl (congrArg Except.ok h.symm)⟩
  | error e s => exact ⟨rfl, .inl rfl⟩
  | array s h => exact ⟨rfl, .inr h⟩

namespace Program.Resteps

variable {p p' : Program}

/-- Both programs end by direct evaluation with the same fuel, or none of them does. -/
theorem evaluation (h : p.Resteps places p') (limits : Limits) (args : List (List UInt8)) (sink : Sink)
    (fuel : Nat) :
    Option.Rel (Resembles places Eq) (Evaluator.run (.ofProgram p limits) fuel args sink)
      (Evaluator.run (.ofProgram p' limits) fuel args sink) := by
  have hi := Node.congruence_resteps.ofProgram h limits
  exact Evaluator.exitCode_abreast hi (Evaluator.abreast_of_resteps hi fuel) args (.fresh sink)

/-- A run of the first program ends as some run of the second one does. -/
theorem exists_run (h : p.Resteps places p') {limits : Limits} {args : List (List UInt8)} {sink : Sink}
    {fuel : Nat} {r : Except Stop Int32} {s : ProgramState}
    (hrun : (Interpreter.ofProgram p limits).run fuel args sink = some (r, s)) :
    ∃ fuel' r' s', (Interpreter.ofProgram p' limits).run fuel' args sink = some (r', s') ∧
      s'.observed = s.observed ∧ (r' = r ∨ RefusesArray places r r') := by
  obtain ⟨n, t, ht, hst⟩ := Interpreter.exists_evaluation_of_run hrun
  have hrel := h.evaluation limits args sink n
  rw [ht] at hrel
  obtain ⟨⟨r', _⟩, ht', hsame⟩ := exists_of_rel_some hrel
  obtain ⟨rfl, hresult⟩ := hsame.end_eq
  obtain ⟨m, s', hs', hst'⟩ := Interpreter.exists_run_of_evaluation ht'
  exact ⟨m, r', s', hs', hst'.trans hst.symm, hresult⟩

/-- A run of the second program ends as some run of the first one does. -/
theorem exists_run_before (h : p.Resteps places p') {limits : Limits} {args : List (List UInt8)}
    {sink : Sink} {fuel' : Nat} {r' : Except Stop Int32} {s' : ProgramState}
    (hrun : (Interpreter.ofProgram p' limits).run fuel' args sink = some (r', s')) :
    ∃ fuel r s, (Interpreter.ofProgram p limits).run fuel args sink = some (r, s) ∧
      s'.observed = s.observed ∧ (r' = r ∨ RefusesArray places r r') := by
  obtain ⟨n, t', ht', hst'⟩ := Interpreter.exists_evaluation_of_run hrun
  have hrel := h.evaluation limits args sink n
  rw [ht'] at hrel
  obtain ⟨⟨r, _⟩, ht, hsame⟩ := exists_of_some_rel hrel
  obtain ⟨rfl, hresult⟩ := hsame.end_eq
  obtain ⟨m, s, hs, hst⟩ := Interpreter.exists_run_of_evaluation ht
  exact ⟨m, r, s, hs, hst'.trans hst.symm, hresult⟩

end Program.Resteps

/-- Steps in front of their operands are sums, and where their value is lost they may stand behind. If one
of two programs that differ in this only ends, then so does the other one, with the same memory, output and
number of statements, and with the same exit value or error, unless an array is refused at the place of a
step that has become a sum. A step behind its operand yields what was loaded before it did what it does in
front. -/
theorem run_resteps {p p' : Program} {places : Set Location} (h : p.Resteps places p') (limits : Limits)
    (args : List (List UInt8)) (sink : Sink) :
    (∀ fuel r s, (Interpreter.ofProgram p limits).run fuel args sink = some (r, s) →
      ∃ fuel' r' s', (Interpreter.ofProgram p' limits).run fuel' args sink = some (r', s') ∧
        (s'.memory = s.memory ∧ s'.sink = s.sink ∧ s'.steps = s.steps) ∧
          (r' = r ∨ RefusesArray places r r')) ∧
    (∀ fuel' r' s', (Interpreter.ofProgram p' limits).run fuel' args sink = some (r', s') →
      ∃ fuel r s, (Interpreter.ofProgram p limits).run fuel args sink = some (r, s) ∧
        (s'.memory = s.memory ∧ s'.sink = s.sink ∧ s'.steps = s.steps) ∧
          (r' = r ∨ RefusesArray places r r')) ∧
    ∀ (i : Interpreter) (fuel : Nat) (place : Location) (op : StepOp) (operand : Node),
      Evaluator.evaluate i (fuel + 1) (.step place op.behind operand) = (do
        let target ← Evaluator.locate i fuel operand .write
        let old ← Evaluation.ofEffect (Effect.load place target)
        let _ ← Evaluation.ofEffect (Effect.step op place target)
        return old) := by
  have hobserved {s s' : ProgramState} (hobs : s'.observed = s.observed) :
      s'.memory = s.memory ∧ s'.sink = s.sink ∧ s'.steps = s.steps := by
    injection hobs with hmemory hrest
    injection hrest with hsink hsteps
    exact ⟨hmemory, hsink, hsteps⟩
  refine ⟨?_, ?_, ?_⟩
  · intro fuel r s hrun
    obtain ⟨fuel', r', s', hrun', hobs, hresult⟩ := h.exists_run hrun
    exact ⟨fuel', r', s', hrun', hobserved hobs, hresult⟩
  · intro fuel' r' s' hrun'
    obtain ⟨fuel, r, s, hrun, hobs, hresult⟩ := h.exists_run_before hrun'
    exact ⟨fuel, r, s, hrun, hobserved hobs, hresult⟩
  · intro i fuel place op operand
    change (Evaluator.locate i fuel operand .write >>= fun target =>
      Evaluation.ofEffect (Effect.step op.behind place target)) = _
    simp only [Effect.step_behind_eq, Evaluation.ofEffect_bind]
    rfl

/-- A step that stands alone is put behind its operand, and the one whose value is given back becomes a
sum. -/
theorem exists_run_resteps :
    ∃ p p' : Program, p.Resteps {⟨3, 8⟩} p' ∧ ∃ fuel r s,
      (Interpreter.ofProgram p' .default).run fuel [] .unlimited = some (r, s) ∧ r.toOption = some 6 := by
  let places : Set Location := {⟨3, 8⟩}
  let x : Node := .identifier ⟨1, 5⟩ "x"
  let main (alone value : Node) : Program := ⟨[.function ⟨1, 1⟩ "main" .int []
    [.declaration ⟨1, 5⟩ "x" .int false (some (.intLiteral ⟨1, 9⟩ 4)), .expression ⟨2, 1⟩ alone,
      .returnFrom ⟨3, 1⟩ (some value)]]⟩
  have hplace : (⟨3, 8⟩ : Location) ∈ places := rfl
  have hx : x.Resteps places .wanted x := .level (.identifier _ _)
  have hlone : (Node.step ⟨2, 1⟩ .preInc x).Resteps places .lost (.step ⟨2, 1⟩ .postInc x) :=
    .behind _ .preInc rfl hx
  have hvalue : (Node.step ⟨3, 8⟩ .preInc x).Resteps places .wanted
      (.compoundAssign ⟨3, 8⟩ .add x (.intLiteral ⟨3, 8⟩ 1)) := .sum hplace _ .preInc rfl hx
  have hresteps : (main (.step ⟨2, 1⟩ .preInc x) (.step ⟨3, 8⟩ .preInc x)).Resteps places
      (main (.step ⟨2, 1⟩ .postInc x) (.compoundAssign ⟨3, 8⟩ .add x (.intLiteral ⟨3, 8⟩ 1))) := by
    refine .cons (.level (.function _ _ _ _ (.cons (.level (.declaration _ _ _ _ (.some ?_)))
      (.cons (.level (.expression _ hlone)) (.cons (.level (.returnFrom _ (.some hvalue))) .nil))))) .nil
    exact .level (.intLiteral _ _)
  have hrun : ((Interpreter.ofProgram (main (.step ⟨2, 1⟩ .preInc x) (.step ⟨3, 8⟩ .preInc x))
      .default).run 60 [] .unlimited).map (·.1.toOption) = some (some 6) := by
    decide +kernel
  obtain ⟨⟨_ | _, s⟩, hrun, hcode⟩ := Option.map_eq_some_iff.1 hrun
  · cases hcode
  · cases hcode
    obtain ⟨fuel, r, s', hs', -, rfl | ⟨_, _, -, _, hrefused, _⟩⟩ :=
      (run_resteps hresteps .default [] .unlimited).1 60 _ s hrun
    · exact ⟨_, _, hresteps, fuel, _, s', hs', rfl⟩
    · cases hrefused

end BoundedC
