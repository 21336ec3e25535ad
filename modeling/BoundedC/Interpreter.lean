import BoundedC.Call

/-!
# Interpreters

An `Interpreter` is a program ready to run: its functions and the ceilings on a run. Where a name is
defined more than once the last definition counts, and a definition of `print` takes the place of
the one that every program has.
-/

namespace BoundedC

/-- The functions of a program, the latest definition first, and the ceilings on its runs. -/
structure Interpreter where
  functions : List Function
  limits : Limits

inductive Callee where
  | defined (f : Function)
  | print

namespace Interpreter

def ofProgram (program : Program) (limits : Limits) : Interpreter :=
  ⟨program.functions.reverse, limits⟩

/-- The function where a run starts. -/
def entryPoint : String := "main"

/-- The largest number of parameters that `main` may have. -/
def entryArity : Nat := 2

def printName : String := "print"

def printArity : Nat := 2

def function? (i : Interpreter) (name : String) : Option Function :=
  i.functions.find? (·.name = name)

def callee (i : Interpreter) (name : String) (count : Nat) : Except RuntimeFault Callee :=
  match i.function? name with
  | some f =>
    if count = f.params.length then .ok (.defined f)
    else .error (.arity name f.params.length count)
  | none =>
    if name = printName then
      if count = printArity then .ok .print else .error (.arity name printArity count)
    else .error (.undefinedFunction name)

/-- A call of a function that the program defines has as many arguments as the function has
parameters. -/
theorem length_of_callee_eq_defined {i : Interpreter} {name : String} {count : Nat} {f : Function}
    (h : i.callee name count = .ok (.defined f)) : count = f.params.length := by
  unfold callee at h
  split at h
  · split at h
    · cases h
      assumption
    · cases h
  · split at h
    · split at h <;> cases h
    · cases h

theorem length_of_callee_eq_print {i : Interpreter} {name : String} {count : Nat}
    (h : i.callee name count = .ok .print) : count = printArity := by
  unfold callee at h
  split at h
  · split at h <;> cases h
  · split at h
    · split at h
      · assumption
      · cases h
    · cases h

open Effect

/-- Bind the arguments and enter `main`, which may take the first of the two values that describe
them, both or none. -/
def enterMain (i : Interpreter) (args : List (List UInt8)) : Effect Function := do
  match i.function? entryPoint with
  | none => throw .missingMain
  | some main =>
    if entryArity < main.params.length then
      fail main.place (.arity entryPoint entryArity main.params.length)
    let values ← bindArguments main.place args
    enterCall i.limits main (values.take main.params.length) none
    return main

end Interpreter

end BoundedC
