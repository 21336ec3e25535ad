import BoundedC.Operation

/-!
# Jobs

A `Job` is one piece of the work that a call has before it. A statement or an expression is worked
off by putting its parts in front of a job that finishes it, so that the parts run first and leave
their values on the operand stack. `Pending` is all that is left to do, and the operands to do it
with: the calls in progress share one stack of jobs and one of operands, and what belongs to a call
lies above what belongs to its caller.

* `Pending.schedule` : jobs to be done next, in the given order;
* `Pending.push`, `pop`, `popPlace`, `popMany` : operands, the latest first;
* `Pending.heights`, `Pending.cutTo` : where a call begins on the two stacks, and the way back there.
-/

namespace BoundedC

/-- What is left of a `for` loop once it runs. -/
structure ForLoop where
  place : Location
  condition : Option Node
  increment : Option Node
  body : Node

/-- A piece of pending work. Jobs that take operands find them on the operand stack. -/
inductive Job where
  /-- execute a statement -/
  | execute (node : Node)
  /-- leave the value of an expression on the operand stack -/
  | evaluate (node : Node)
  /-- leave a pointer to the place that an expression names on the operand stack -/
  | locate (node : Node) (access : Access)
  | discard (place : Location)
  | closeScope (place : Location)
  | binary (op : BinaryOp) (place : Location)
  /-- the left operand is there, the right one may not be needed -/
  | logical (op : BinaryOp) (right : Node) (place : Location)
  /-- make the operand 0 or 1 -/
  | truth (place : Location)
  | unary (op : UnaryOp) (place : Location)
  | step (op : StepOp) (place : Location)
  | load (place : Location)
  /-- refuse an operand that is no pointer -/
  | requirePointer (place : Location)
  | index (place : Location)
  | assign (place : Location)
  | compoundAssign (op : BinaryOp) (place : Location)
  | arrayLiteral (count : Nat) (place : Location)
  /-- create a variable; where a value is wanted, its first value is left as an operand -/
  | declare (d : Declaration) (asValue : Bool)
  | call (f : Function) (place : Location)
  | print (place : Location)
  | branch (thenBranch : Node) (elseBranch : Option Node) (place : Location)
  | whileTest (condition body : Node) (place : Location)
  | forCondition (loop : ForLoop)
  | forTest (loop : ForLoop)
  | forNext (loop : ForLoop)
  /-- where `continue` goes on -/
  | continueTarget
  /-- where `break` goes on -/
  | loopEnd
  | giveBack (hasValue : Bool) (place : Location)
  /-- the end of a function's body, reached without giving back a value -/
  | bodyEnd (place : Location)

/-- Whether the job is where `break` goes on. -/
def Job.isLoopEnd : Job → Bool
  | loopEnd => true
  | _ => false

/-- Whether the job is where `continue` goes on. -/
def Job.isContinueTarget : Job → Bool
  | continueTarget => true
  | _ => false

/-- What is left to do, and the operands, the latest on top. -/
structure Pending where
  jobs : Stack Job
  operands : Stack Value

/-- The heights of the stack of jobs and of the stack of operands. -/
structure Heights where
  jobs : Nat
  operands : Nat
  deriving DecidableEq, Repr

namespace Pending

def empty : Pending := ⟨.empty, .empty⟩

def schedule (p : Pending) (jobs : List Job) : Pending := ⟨p.jobs.pushAll jobs, p.operands⟩

def push (p : Pending) (v : Value) : Pending := ⟨p.jobs, p.operands.push v⟩

def heights (p : Pending) : Heights := ⟨p.jobs.height, p.operands.height⟩

/-- Drop all that lies above the given heights. -/
def cutTo (p : Pending) (h : Heights) : Pending :=
  ⟨p.jobs.cutTo h.jobs, p.operands.cutTo h.operands⟩

open Effect

def pop (place : Location) (p : Pending) : Effect (Value × Pending) :=
  match p.operands.top? with
  | some v => pure (v, ⟨p.jobs, p.operands.pop⟩)
  | none => failInternal place .operandUnderflow

/-- The latest operand, which must be a pointer that an earlier job left as a place. -/
def popPlace (place : Location) (p : Pending) : Effect (Pointer × Pending) := do
  match ← p.pop place with
  | (.pointer target, p) => return (target, p)
  | (v, _) => failInternal place (.notAPlace v.type)

/-- The `count` latest operands, in the order in which they came. -/
def popMany (place : Location) (p : Pending) (count : Nat) : Effect (List Value × Pending) :=
  if count ≤ p.operands.height then
    pure ((p.operands.items.take count).reverse, ⟨p.jobs, p.operands.drop count⟩)
  else failInternal place .operandUnderflow

@[simp] theorem pop_push (place : Location) (jobs : Stack Job) (operands : Stack Value) (v : Value) :
    pop place ⟨jobs, operands.push v⟩ = pure (v, ⟨jobs, operands⟩) := by
  simp [pop, Stack.top?_push, Stack.pop_push]

@[simp] theorem popPlace_push (place : Location) (jobs : Stack Job) (operands : Stack Value)
    (target : Pointer) :
    popPlace place ⟨jobs, operands.push (.pointer target)⟩ = pure (target, ⟨jobs, operands⟩) := by
  simp [popPlace]

theorem popMany_pushAll (place : Location) (jobs : Stack Job) (operands : Stack Value)
    (taken : List Value) :
    popMany place ⟨jobs, operands.pushAll taken.reverse⟩ taken.length =
      pure (taken, ⟨jobs, operands⟩) := by
  have h : taken.length = taken.reverse.length := by simp
  have hle : taken.reverse.length ≤ (operands.pushAll taken.reverse).height := by
    simp [Stack.pushAll]
  rw [popMany, h, if_pos hle, Stack.drop_pushAll]
  simp

end Pending

end BoundedC
