import BoundedC.Interpreter
import BoundedC.Operation

/-!
# Direct evaluation

The meaning of programs by recursion on their trees: an expression has a value, a statement a
`Completion`, and a statement inside another one is evaluated inside its evaluation. Loops and calls
need not end, so every evaluation has fuel; `Evaluation.exhausted` stands for one that runs out of it,
which is not an error of the program.

* `Evaluator.evaluate`, `evaluateAll`, `locate` : values and places of expressions;
* `Evaluator.execute`, `executeAll` : completions of statements. A scope is closed on every way out
  of its statement, with the buffers of its variables;
* `Evaluator.call` : the value that a call gives back;
* `Evaluator.run` : the exit value of a program.
-/

namespace BoundedC

/-- How a statement ends: normally, on the way out of a loop, on the way to the next turn of a loop,
or on the way out of a call with its result. -/
inductive Completion where
  | normal
  | broke (place : Location)
  | continued (place : Location)
  | returned (result : Value) (place : Location)

/-- An effect on the state of a program that may end the run and may run out of fuel. -/
abbrev Evaluation := ExceptT Stop (StateT ProgramState Option)

namespace Evaluation

def exhausted {α : Type} : Evaluation α := ExceptT.mk fun _ => none

/-- An effect by itself needs no fuel. -/
def ofEffect {α : Type} (x : Effect α) : Evaluation α := ExceptT.mk fun s => some (x.run s)

variable {α β : Type}

@[simp] theorem run_pure (a : α) (s : ProgramState) :
    (pure a : Evaluation α).run s = some (.ok a, s) := rfl

@[simp] theorem run_exhausted (s : ProgramState) : (exhausted : Evaluation α).run s = none := rfl

@[simp] theorem run_ofEffect (x : Effect α) (s : ProgramState) :
    (ofEffect x).run s = some (x.run s) := rfl

theorem run_bind (x : Evaluation α) (f : α → Evaluation β) (s : ProgramState) :
    (x >>= f).run s =
      match x.run s with
      | none => none
      | some (.ok a, s) => (f a).run s
      | some (.error e, s) => some (.error e, s) := by
  simp only [bind, ExceptT.bind, ExceptT.mk, ExceptT.run, StateT.bind]
  rcases x s with _ | ⟨_ | _, _⟩ <;> rfl

theorem run_bind_eq_ok_iff {x : Evaluation α} {f : α → Evaluation β} {b : β}
    {s s' : ProgramState} :
    (x >>= f).run s = some (.ok b, s') ↔
      ∃ a t, x.run s = some (.ok a, t) ∧ (f a).run t = some (.ok b, s') := by
  rw [run_bind]
  constructor
  · intro h
    rcases hx : x.run s with _ | ⟨_ | a, t⟩
    · rw [hx] at h
      cases h
    · rw [hx] at h
      cases h
    · rw [hx] at h
      exact ⟨a, t, rfl, h⟩
  · rintro ⟨a, t, hx, hf⟩
    rw [hx]
    exact hf

end Evaluation

namespace Completion

/-- The result of a call of the function whose body has this completion. -/
def result (f : Function) : Completion → Effect (Value × Location)
  | normal => return (.int 0, f.place)
  | returned v place => return (v, place)
  | broke place | continued place => Effect.failInternal place .strayLoopControl

end Completion

namespace Evaluator

open Evaluation

/-- The value that a `return` of `v` gives back: `v`, converted to the type that the function
returns. -/
def returnValue (place : Location) (v : Value) : Effect Value := do
  Effect.callResult place (← Effect.current place).returnType (some v)

/-- End the call in progress whose body has the given completion. -/
def finishCall (f : Function) (c : Completion) : Effect (Value × Location) := do
  let (result, place) ← c.result f
  Effect.releaseAll (← Effect.popCall place).owned
  return (result, place)

/-- Print what the two values of a call of `print` say. -/
def print (place : Location) : List Value → Effect Value
  | [start, length] => Effect.print place start length
  | _ => Effect.failInternal place .operandUnderflow

/-- The values of several expressions, from left to right. -/
def evaluateAll (value : Node → Evaluation Value) : List Node → Evaluation (List Value)
  | [] => return []
  | node :: nodes => do
    let v ← value node
    let values ← evaluateAll value nodes
    return v :: values

/-- The completion of several statements: that of the first one that does not end normally. -/
def executeAll (complete : Node → Evaluation Completion) : List Node → Evaluation Completion
  | [] => return .normal
  | node :: nodes => do
    match ← complete node with
    | .normal => executeAll complete nodes
    | c => return c

mutual

def evaluate (i : Interpreter) : Nat → Node → Evaluation Value
  | 0, _ => exhausted
  | fuel + 1, node =>
    match node with
    | .intLiteral _ n => return .int n
    | .charLiteral _ c => return .char c
    | .stringLiteral place bytes => ofEffect (Effect.stringLiteral place bytes)
    | .arrayLiteral place elements => do
      let values ← evaluateAll (evaluate i fuel) elements
      ofEffect (Effect.arrayLiteral place values)
    | .identifier place name => ofEffect (Effect.variableValue place name)
    | .binary place op left right => do
      let l ← evaluate i fuel left
      match op with
      | .and =>
        if l.isTruthy then return .ofBool (← evaluate i fuel right).isTruthy else return .int 0
      | .or =>
        if l.isTruthy then return .int 1 else return .ofBool (← evaluate i fuel right).isTruthy
      | op =>
        let r ← evaluate i fuel right
        ofEffect (Effect.ofExcept place (op.apply l r))
    | .unary place op operand => do
      let v ← evaluate i fuel operand
      ofEffect (Effect.ofExcept place (op.apply v))
    | .step place op operand => do
      let target ← locate i fuel operand .write
      ofEffect (Effect.step op place target)
    | .deref place operand => do
      let target ← locate i fuel (.deref place operand) .read
      ofEffect (Effect.load place target)
    | .index place array index => do
      let target ← locate i fuel (.index place array index) .read
      ofEffect (Effect.load place target)
    | .addressOf _ operand => return .pointer (← locate i fuel operand .read)
    | .assign place target value => do
      let target ← locate i fuel target .write
      let v ← evaluate i fuel value
      ofEffect (Effect.assign place target v)
    | .compoundAssign place op target value => do
      let target ← locate i fuel target .write
      let v ← evaluate i fuel value
      ofEffect (Effect.compoundAssign op place target v)
    | .call place name args => do
      let callee ← ofEffect (Effect.ofExcept place (i.callee name args.length))
      let values ← evaluateAll (evaluate i fuel) args
      match callee with
      | .defined f => call i fuel f values place
      | .print => ofEffect (print place values)
    | .declaration place name type isConst init => do
      let d : Declaration := ⟨place, name, type, isConst, init⟩
      let values ← evaluateAll (evaluate i fuel) d.operands
      let b ← ofEffect (d.define values)
      ofEffect (Effect.load place b.pointer)
    | statement => ofEffect (Effect.failInternal statement.place .statementAsExpression)

def locate (i : Interpreter) : Nat → Node → Access → Evaluation Pointer
  | 0, _, _ => exhausted
  | fuel + 1, node, access =>
    match node with
    | .identifier place name => ofEffect (Effect.variablePlace place name access)
    | .deref place operand => do
      let v ← evaluate i fuel operand
      ofEffect (Effect.pointerPlace place v)
    | .index place array index => do
      let a ← evaluate i fuel array
      let v ← evaluate i fuel index
      ofEffect (Effect.elementPlace place a v)
    | other => ofEffect (Effect.fail other.place (.mismatch .notAssignable))

def execute (i : Interpreter) : Nat → Node → Evaluation Completion
  | 0, _ => exhausted
  | fuel + 1, node => do
    ofEffect (Effect.countStep i.limits node.place)
    match node with
    | .declaration place name type isConst init =>
      let d : Declaration := ⟨place, name, type, isConst, init⟩
      let values ← evaluateAll (evaluate i fuel) d.operands
      discard <| ofEffect (d.define values)
      return .normal
    | .block place statements =>
      ofEffect (Effect.openScope place)
      let c ← executeAll (execute i fuel) statements
      ofEffect (Effect.closeScope place)
      return c
    | .ifElse _ condition thenBranch elseBranch =>
      if (← evaluate i fuel condition).isTruthy then execute i fuel thenBranch
      else
        match elseBranch with
        | some elseBranch => execute i fuel elseBranch
        | none => return .normal
    | .whileLoop _ condition body => whileFrom i fuel condition body
    | .forLoop place init condition increment body =>
      ofEffect (Effect.openScope place)
      let c ← executeAll (execute i fuel) init.toList
      let c ← match c with
        | .normal => forFrom i fuel condition increment body
        | .broke _ => pure .normal
        | c => pure c
      ofEffect (Effect.closeScope place)
      return c
    | .returnFrom place none => return .returned (.int 0) place
    | .returnFrom place (some value) =>
      let v ← evaluate i fuel value
      return .returned (← ofEffect (returnValue place v)) place
    | .breakLoop place => return .broke place
    | .continueLoop place => return .continued place
    | .expression _ value =>
      discard <| evaluate i fuel value
      return .normal
    | .function place name .. => ofEffect (Effect.failInternal place (.nestedDefinition name))
    | value =>
      discard <| evaluate i fuel value
      return .normal

/-- The completion of a `while` loop, from the test of its condition on. -/
def whileFrom (i : Interpreter) : Nat → Node → Node → Evaluation Completion
  | 0, _, _ => exhausted
  | fuel + 1, condition, body => do
    if (← evaluate i fuel condition).isTruthy then
      match ← execute i fuel body with
      | .normal | .continued _ => whileFrom i fuel condition body
      | .broke _ => return .normal
      | .returned v place => return .returned v place
    else return .normal

/-- The completion of a `for` loop, from the test of its condition on. -/
def forFrom (i : Interpreter) : Nat → Option Node → Option Node → Node → Evaluation Completion
  | 0, _, _, _ => exhausted
  | fuel + 1, condition, increment, body => do
    let tests ← evaluateAll (evaluate i fuel) condition.toList
    if tests.all Value.isTruthy then
      match ← execute i fuel body with
      | .normal | .continued _ =>
        discard <| evaluateAll (evaluate i fuel) increment.toList
        forFrom i fuel condition increment body
      | .broke _ => return .normal
      | .returned v place => return .returned v place
    else return .normal

def call (i : Interpreter) : Nat → Function → List Value → Location → Evaluation Value
  | 0, _, _, _ => exhausted
  | fuel + 1, f, args, place => do
    ofEffect (Effect.enterCall i.limits f args (some place))
    let c ← executeAll (execute i fuel) f.body
    return (← ofEffect (finishCall f c)).1

end

/-- The second operand of a logical operator is evaluated unless the first one settles it. -/
theorem evaluate_binary (i : Interpreter) (fuel : Nat) (place : Location) (op : BinaryOp)
    (left right : Node) :
    evaluate i (fuel + 1) (.binary place op left right) = (do
      let l ← evaluate i fuel left
      if op.isLogical then
        match op.settled? l.isTruthy with
        | some answer => return .ofBool answer
        | none => return .ofBool (← evaluate i fuel right).isTruthy
      else
        let r ← evaluate i fuel right
        ofEffect (Effect.ofExcept place (op.apply l r))) := by
  cases op with
  | and | or =>
    refine bind_congr (x := evaluate i fuel left) fun l => ?_
    cases l.isTruthy <;> rfl
  | _ => rfl

def exitCode (i : Interpreter) (fuel : Nat) (args : List (List UInt8)) : Evaluation Int32 := do
  let main ← ofEffect (i.enterMain args)
  let c ← executeAll (execute i fuel) main.body
  let (result, place) ← ofEffect (finishCall main c)
  ofEffect (Effect.exitValue place result)

/-- The end of the run with the given arguments, if the fuel suffices. -/
def run (i : Interpreter) (fuel : Nat) (args : List (List UInt8)) (sink : Sink) :
    Option (Except Stop Int32 × ProgramState) :=
  (exitCode i fuel args).run (.fresh sink)

end Evaluator

end BoundedC
