import BoundedC.Machine.Expand

/-!
# The machine

A `Machine` is the pending work of all calls in progress, and for each of them the heights of the
two stacks at which it began. A call that ends cuts both stacks back to these heights, which also
drops whatever it had left to do, and leaves its result as the latest operand of its caller.

* `Interpreter.perform` : one job;
* `Interpreter.step` : the next job of a machine.
-/

namespace BoundedC

/-- The work of the calls in progress, and where each of them began, the latest first. -/
structure Machine where
  pending : Pending
  bases : List Heights

inductive Progress where
  | running (m : Machine)
  | exited (code : Int32)

/-- A machine that goes on with the body of a function and then with the work it had. A function that
reaches its end gives back no value. -/
def Machine.enter (f : Function) (p : Pending) (bases : List Heights) : Machine :=
  ⟨p.schedule (f.body.map .execute ++ [.bodyEnd f.place]), p.heights :: bases⟩

namespace Interpreter

open Effect

/-- Begin a call with the latest operands as its arguments. -/
def call (i : Interpreter) (f : Function) (place : Location) (p : Pending)
    (bases : List Heights) : Effect Progress := do
  let (args, p) ← p.popMany place f.params.length
  enterCall i.limits f args (some place)
  return .running (.enter f p bases)

/-- Go on behind a call that has ended: its caller gets the result, and without a caller the run
ends. -/
def resume (result : Value) (place : Location) (p : Pending) : List Heights → Effect Progress
  | base :: caller :: bases => return .running ⟨(p.cutTo base).push result, caller :: bases⟩
  | _ => return .exited (← exitValue place result)

def giveBack (value : Option Value) (place : Location) (p : Pending) (bases : List Heights) :
    Effect Progress := do
  resume (← leaveCall place value) place p bases

def perform (i : Interpreter) (job : Job) (p : Pending) (bases : List Heights) :
    Effect Progress :=
  let go (next : Effect Pending) : Effect Progress := return .running ⟨← next, bases⟩
  match job with
  | .execute node => go (i.execute node p)
  | .evaluate node => go (i.evaluate node p)
  | .locate node access => go (locate node access p)
  | .discard place => go (p.discard place)
  | .closeScope place => go do closeScope place; return p
  | .binary op place => go (p.binary op place)
  | .logical op right place => go (p.logical op right place)
  | .truth place => go (p.truth place)
  | .unary op place => go (p.unary op place)
  | .step op place => go (p.step op place)
  | .load place => go (p.load place)
  | .requirePointer place => go (p.requirePointer place)
  | .index place => go (p.index place)
  | .assign place => go (p.assign place)
  | .compoundAssign op place => go (p.compoundAssign op place)
  | .arrayLiteral count place => go (p.arrayLiteral count place)
  | .declare d asValue => go (p.declare d asValue)
  | .call f place => i.call f place p bases
  | .print place => go (p.print place)
  | .branch thenBranch elseBranch place => go (p.branch thenBranch elseBranch place)
  | .whileTest condition body place => go (p.whileTest condition body place)
  | .forCondition loop => go (pure (p.forCondition loop))
  | .forTest loop => go (p.forTest loop)
  | .forNext loop => go (pure (p.forNext loop))
  | .continueTarget | .loopEnd => go (pure p)
  | .giveBack false place => giveBack none place p bases
  | .giveBack true place => do
    let (v, p) ← p.pop place
    giveBack (some v) place p bases
  | .bodyEnd place => giveBack none place p bases

/-- Do the next job. A machine without jobs has come to its end. -/
def step (i : Interpreter) (m : Machine) : Effect Progress :=
  match m.pending.jobs.top? with
  | some job => i.perform job ⟨m.pending.jobs.pop, m.pending.operands⟩ m.bases
  | none => return .exited 0

end Interpreter

end BoundedC
