import BoundedC.Location
import BoundedC.Sink
import BoundedC.Storage.Fault

/-!
# Errors of a running program

A `RuntimeError` is a `RuntimeFault` at a place, or the lack of a function to start with. Every such
error ends the run. `InternalFault` holds the causes that cannot arise from a program that was read
from a text, but only from a tree that was built otherwise, and too many arguments.

A run may also be broken off without an error. `Stop` has both ways to end without an exit value.
-/

namespace BoundedC

/-- Faults of trees that no text spells, and of arguments that cannot be counted. -/
inductive InternalFault where
  | operandUnderflow
  | notAPlace (found : CType)
  | noActiveCall
  | strayLoopControl
  | statementAsExpression
  | nestedDefinition (name : String)
  | notArithmetic (op : BinaryOp)
  | tooManyArguments
  deriving DecidableEq, Repr

def InternalFault.message : InternalFault → String
  | operandUnderflow => "operand stack underflow"
  | notAPlace t => s!"expected a place, found {t.describe}"
  | noActiveCall => "no active call"
  | strayLoopControl => "loop control outside of a loop"
  | statementAsExpression => "statement used as an expression"
  | nestedDefinition name => s!"nested definition of '{name}'"
  | notArithmetic op => s!"'{op.spelling}' is not an arithmetic operator"
  | tooManyArguments => "too many program arguments"

/-- Why a run cannot go on. -/
inductive RuntimeFault where
  | memory (fault : MemoryFault)
  | mismatch (m : Mismatch)
  | negativeLength (length : Int32)
  | divisionByZero
  | moduloByZero
  | undefinedVariable (name : String)
  | undefinedFunction (name : String)
  | arity (function : String) (expected got : Nat)
  | constModification (name : String)
  | stackOverflow (limit : Nat)
  | stepLimit (limit : Nat)
  | output (fault : SinkFault)
  | internal (fault : InternalFault)
  deriving DecidableEq, Repr

namespace RuntimeFault

def kind : RuntimeFault → String
  | memory (.outOfBounds ..) | memory (.offsetOverflow _) | negativeLength _ => "BoundsError"
  | memory (.dangling _) => "DanglingPointer"
  | memory (.mismatch _) | memory .unrelatedPointers | mismatch _ => "TypeMismatch"
  | memory (.allocationFailed _) | memory .exhausted | internal _ => "InternalError"
  | divisionByZero | moduloByZero => "DivideByZero"
  | undefinedVariable _ | undefinedFunction _ => "UndefinedSymbol"
  | arity .. => "ArityMismatch"
  | constModification _ => "ConstModification"
  | stackOverflow _ => "StackOverflow"
  | stepLimit _ => "StepLimitExceeded"
  | output _ => "OutputError"

def memoryMessage (fault : MemoryFault) (place : String) : String :=
  match fault with
  | .outOfBounds .. | .offsetOverflow _ => s!"Bounds error at {place}: {fault.message}"
  | .dangling _ => s!"Dangling pointer at {place}: {fault.message}"
  | .mismatch m => s!"Type error at {place}: expected {m.wanted}, got {m.found}"
  | .unrelatedPointers =>
    let m := Mismatch.unrelatedPointers
    s!"Type error at {place}: expected {m.wanted}, got {m.found}"
  | .allocationFailed _ | .exhausted => s!"Internal error at {place}: {fault.message}"

def message (fault : RuntimeFault) (place : Location) : String :=
  let l := place.describe
  match fault with
  | memory f => memoryMessage f l
  | mismatch m => memoryMessage (.mismatch m) l
  | negativeLength n => s!"Bounds error at {l}: print length {n.toInt} is negative"
  | divisionByZero => s!"Division by zero at {l}"
  | moduloByZero => s!"Modulo by zero at {l}"
  | undefinedVariable name => s!"Undefined variable '{name}' at {l}"
  | undefinedFunction name => s!"Undefined function '{name}' at {l}"
  | arity name expected got =>
    let noun := if expected = 1 then "argument" else "arguments"
    s!"Function '{name}' expects {expected} {noun}, got {got} at {l}"
  | constModification name => s!"Attempted to modify const variable '{name}' at {l}"
  | stackOverflow n => s!"Stack overflow: call depth limit of {n} reached at {l}"
  | stepLimit n => s!"Step limit of {n} statements exceeded at {l}"
  | output f => s!"Output error at {l}: {f.message}"
  | internal f => s!"Internal error at {l}: {f.message}"

end RuntimeFault

inductive RuntimeError where
  /-- the program has no function `main` -/
  | missingMain
  | fault (fault : RuntimeFault) (place : Location)
  deriving DecidableEq, Repr

namespace RuntimeError

def kind : RuntimeError → String
  | missingMain => "MissingMain"
  | fault f _ => f.kind

def message : RuntimeError → String
  | missingMain => "No main() function found"
  | fault f place => f.message place

def place? : RuntimeError → Option Location
  | missingMain => none
  | fault _ place => some place

end RuntimeError

/-- How a run ends that does not come to an exit value. -/
inductive Stop where
  | failure (e : RuntimeError)
  /-- What carries out the program divides by zero itself, and breaks off: nothing is reported. -/
  | abort
  deriving DecidableEq, Repr

namespace Stop

@[match_pattern] abbrev fault (fault : RuntimeFault) (place : Location) : Stop :=
  failure (.fault fault place)

@[match_pattern] abbrev missingMain : Stop := failure .missingMain

def error? : Stop → Option RuntimeError
  | failure e => some e
  | abort => none

def kind? (stop : Stop) : Option String := stop.error?.map RuntimeError.kind

end Stop

end BoundedC
