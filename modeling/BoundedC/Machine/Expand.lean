import BoundedC.Interpreter
import BoundedC.Machine.Finish

/-!
# Jobs that take a node apart

A statement, an expression or a place is worked off by scheduling its parts and the job that
finishes it.

* `Interpreter.execute` : statements, each of which counts as a step;
* `Interpreter.evaluate` : expressions;
* `Interpreter.locate` : expressions that name a place.
-/

namespace BoundedC.Interpreter

open Effect

def declare (d : Declaration) (asValue : Bool) (p : Pending) : Pending :=
  p.schedule (d.operands.map .evaluate ++ [.declare d asValue])

/-- Execute a statement. An expression that stands as a statement loses its value. -/
def execute (i : Interpreter) (node : Node) (p : Pending) : Effect Pending := do
  countStep i.limits node.place
  match node with
  | .declaration place name type isConst init =>
    return declare ⟨place, name, type, isConst, init⟩ false p
  | .block place statements =>
    openScope place
    return p.schedule (statements.map .execute ++ [.closeScope place])
  | .ifElse place condition thenBranch elseBranch =>
    return p.schedule [.evaluate condition, .branch thenBranch elseBranch place]
  | .whileLoop place condition body =>
    return p.schedule [.evaluate condition, .whileTest condition body place, .loopEnd]
  | .forLoop place init condition increment body =>
    openScope place
    return p.schedule (init.toList.map .execute ++
      [.forCondition ⟨place, condition, increment, body⟩, .loopEnd, .closeScope place])
  | .returnFrom place value =>
    return p.schedule (value.toList.map .evaluate ++ [.giveBack value.isSome place])
  | .breakLoop place => p.leaveLoop place
  | .continueLoop place => p.continueLoop place
  | .expression place value => return p.schedule [.evaluate value, .discard place]
  | .function place name .. => failInternal place (.nestedDefinition name)
  | value => return p.schedule [.evaluate value, .discard value.place]

/-- The job that calls what a callee names. -/
def callJob (place : Location) : Callee → Job
  | .defined f => .call f place
  | .print => .print place

/-- Evaluate an expression. Operands are evaluated from left to right. -/
def evaluate (i : Interpreter) (node : Node) (p : Pending) : Effect Pending := do
  match node with
  | .intLiteral _ n => return p.push (.int n)
  | .charLiteral _ c => return p.push (.char c)
  | .stringLiteral place bytes => return p.push (← stringLiteral place bytes)
  | .arrayLiteral place elements =>
    return p.schedule (elements.map .evaluate ++ [.arrayLiteral elements.length place])
  | .identifier place name => return p.push (← variableValue place name)
  | .binary place op left right =>
    if op.isLogical then return p.schedule [.evaluate left, .logical op right place]
    else return p.schedule [.evaluate left, .evaluate right, .binary op place]
  | .unary place op operand => return p.schedule [.evaluate operand, .unary op place]
  | .step place op operand => return p.schedule [.locate operand .write, .step op place]
  | .deref place operand =>
    return p.schedule [.locate (.deref place operand) .read, .load place]
  | .index place array index =>
    return p.schedule [.locate (.index place array index) .read, .load place]
  | .addressOf _ operand => return p.schedule [.locate operand .read]
  | .assign place target value =>
    return p.schedule [.locate target .write, .evaluate value, .assign place]
  | .compoundAssign place op target value =>
    return p.schedule [.locate target .write, .evaluate value, .compoundAssign op place]
  | .call place name args =>
    let callee ← ofExcept place (i.callee name args.length)
    return p.schedule (args.map .evaluate ++ [callJob place callee])
  | .declaration place name type isConst init =>
    return declare ⟨place, name, type, isConst, init⟩ true p
  | statement => failInternal statement.place .statementAsExpression

def locate (node : Node) (access : Access) (p : Pending) : Effect Pending := do
  match node with
  | .identifier place name => return p.push (.pointer (← variablePlace place name access))
  | .deref place operand => return p.schedule [.evaluate operand, .requirePointer place]
  | .index place array index =>
    return p.schedule [.evaluate array, .evaluate index, .index place]
  | other => fail other.place (.mismatch .notAssignable)

end BoundedC.Interpreter
