import BoundedC.Machine.Job

/-!
# Jobs that finish an expression or a loop

The jobs that find all they need on the operand stack. Each one takes its operands off, acts, and
leaves its result, or it schedules what comes next.
-/

namespace BoundedC

namespace Pending

open Effect

/-! ## Values -/

def discard (place : Location) (p : Pending) : Effect Pending := do
  return (← p.pop place).2

def binary (op : BinaryOp) (place : Location) (p : Pending) : Effect Pending := do
  let (right, p) ← p.pop place
  let (left, p) ← p.pop place
  return p.push (← ofExcept place (op.apply left right))

/-- Go on with the right operand of a logical operator unless the left one settles it. -/
def logical (op : BinaryOp) (right : Node) (place : Location) (p : Pending) : Effect Pending := do
  let (left, p) ← p.pop place
  match op.settled? left.isTruthy with
  | some answer => return p.push (.ofBool answer)
  | none => return p.schedule [.evaluate right, .truth place]

def truth (place : Location) (p : Pending) : Effect Pending := do
  let (v, p) ← p.pop place
  return p.push (.ofBool v.isTruthy)

def unary (op : UnaryOp) (place : Location) (p : Pending) : Effect Pending := do
  let (v, p) ← p.pop place
  return p.push (← ofExcept place (op.apply v))

def arrayLiteral (count : Nat) (place : Location) (p : Pending) : Effect Pending := do
  let (values, p) ← p.popMany place count
  return p.push (← Effect.arrayLiteral place values)

def print (place : Location) (p : Pending) : Effect Pending := do
  let (length, p) ← p.pop place
  let (start, p) ← p.pop place
  return p.push (← Effect.print place start length)

/-! ## Places -/

def load (place : Location) (p : Pending) : Effect Pending := do
  let (target, p) ← p.popPlace place
  return p.push (← Effect.load place target)

def requirePointer (place : Location) (p : Pending) : Effect Pending := do
  let (v, p) ← p.pop place
  return p.push (.pointer (← pointerPlace place v))

def index (place : Location) (p : Pending) : Effect Pending := do
  let (index, p) ← p.pop place
  let (array, p) ← p.pop place
  return p.push (.pointer (← elementPlace place array index))

/-! ## Assignments -/

def assign (place : Location) (p : Pending) : Effect Pending := do
  let (v, p) ← p.pop place
  let (target, p) ← p.popPlace place
  return p.push (← Effect.assign place target v)

def compoundAssign (op : BinaryOp) (place : Location) (p : Pending) : Effect Pending := do
  let (v, p) ← p.pop place
  let (target, p) ← p.popPlace place
  return p.push (← Effect.compoundAssign op place target v)

def step (op : StepOp) (place : Location) (p : Pending) : Effect Pending := do
  let (target, p) ← p.popPlace place
  return p.push (← Effect.step op place target)

def declare (d : Declaration) (asValue : Bool) (p : Pending) : Effect Pending := do
  let (values, p) ← p.popMany d.place d.operands.length
  let b ← d.define values
  if asValue then return p.push (← Effect.load d.place b.pointer) else return p

/-! ## Conditions -/

def branch (thenBranch : Node) (elseBranch : Option Node) (place : Location) (p : Pending) :
    Effect Pending := do
  let (condition, p) ← p.pop place
  if condition.isTruthy then return p.schedule [.execute thenBranch]
  else return p.schedule (elseBranch.toList.map .execute)

def whileTest (condition body : Node) (place : Location) (p : Pending) : Effect Pending := do
  let (v, p) ← p.pop place
  if v.isTruthy then
    return p.schedule
      [.execute body, .continueTarget, .evaluate condition, .whileTest condition body place]
  else return p

def forBody (loop : ForLoop) (p : Pending) : Pending :=
  p.schedule [.execute loop.body, .continueTarget, .forNext loop]

/-- Without a condition the loop goes on. -/
def forCondition (loop : ForLoop) (p : Pending) : Pending :=
  match loop.condition with
  | some condition => p.schedule [.evaluate condition, .forTest loop]
  | none => p.forBody loop

def forTest (loop : ForLoop) (p : Pending) : Effect Pending := do
  let (v, p) ← p.pop loop.place
  if v.isTruthy then return p.forBody loop else return p

def forNext (loop : ForLoop) (p : Pending) : Pending :=
  match loop.increment with
  | some increment => p.schedule [.evaluate increment, .discard loop.place, .forCondition loop]
  | none => p.schedule [.forCondition loop]

/-- Drop jobs up to one that a loop control goes to, and close the scopes on the way. The jobs are
given twice, as a list to go through and as the stack that they lie on. The function's body is not
left. -/
def unwind (place : Location) (isTarget : Job → Bool) : List Job → Stack Job → Effect (Stack Job)
  | [], _ | .bodyEnd _ :: _, _ => failInternal place .strayLoopControl
  | .closeScope _ :: rest, jobs => do
    closeScope place
    unwind place isTarget rest jobs.pop
  | job :: rest, jobs => if isTarget job then pure jobs.pop else unwind place isTarget rest jobs.pop

theorem unwind_cons {job : Job} (hscope : ∀ p, job ≠ .closeScope p) (hend : ∀ p, job ≠ .bodyEnd p)
    (place : Location) (isTarget : Job → Bool) (rest : List Job) (jobs : Stack Job) :
    unwind place isTarget (job :: rest) jobs =
      if isTarget job then pure jobs.pop else unwind place isTarget rest jobs.pop := by
  cases job with
  | closeScope p => exact absurd rfl (hscope p)
  | bodyEnd p => exact absurd rfl (hend p)
  | _ => rfl

/-- Go on behind the nearest job that a loop control goes to. -/
def unwindTo (place : Location) (isTarget : Job → Bool) (p : Pending) : Effect Pending := do
  return ⟨← unwind place isTarget p.jobs.items p.jobs, p.operands⟩

def leaveLoop (place : Location) (p : Pending) : Effect Pending :=
  p.unwindTo place Job.isLoopEnd

def continueLoop (place : Location) (p : Pending) : Effect Pending :=
  p.unwindTo place Job.isContinueTarget

end Pending

end BoundedC
