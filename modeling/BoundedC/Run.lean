import BoundedC.Machine.Step

/-!
# Runs

A `Run` is an execution of a program: under way, with a machine that has jobs to do, or ended, with
an exit value or an error. Either way it shows the state of the program.

* `Interpreter.begin` : the run that is about to execute `main`;
* `Interpreter.next` : one job further; an ended run stays as it is;
* `Interpreter.advance` : as many jobs further as the fuel allows;
* `Interpreter.run` : an ended run, if the fuel suffices.
-/

namespace BoundedC

inductive Run where
  | underWay (m : Machine) (s : ProgramState)
  | ended (result : Except Stop Int32) (s : ProgramState)

namespace Run

def state : Run → ProgramState
  | underWay _ s | ended _ s => s

def ofStep : Except Stop Progress × ProgramState → Run
  | (.ok (.running m), s) => underWay m s
  | (.ok (.exited code), s) => ended (.ok code) s
  | (.error e, s) => ended (.error e) s

def result? : Run → Option (Except Stop Int32)
  | underWay .. => none
  | ended r _ => some r

/-- A run tells what the step that led to it came to. -/
theorem ofStep_inj {r r' : Except Stop Progress × ProgramState} (h : ofStep r = ofStep r') : r = r' := by
  obtain ⟨e | m | code, s⟩ := r
  all_goals
    obtain ⟨e' | m' | code', s'⟩ := r'
    all_goals cases h
    rfl

end Run

namespace Interpreter

open Effect

/-- The run that starts with the given arguments. Of the runs before, only the output is kept. -/
def begin (i : Interpreter) (args : List (List UInt8)) (sink : Sink) : Run :=
  match (i.enterMain args).run (.fresh sink) with
  | (.ok main, s) => .underWay (.enter main .empty []) s
  | (.error e, s) => .ended (.error e) s

def next (i : Interpreter) : Run → Run
  | .underWay m s => .ofStep ((i.step m).run s)
  | .ended result s => .ended result s

/-- The run after as many jobs as the fuel says, or fewer if it ends before. -/
def advance (i : Interpreter) : Nat → Run → Run
  | 0, r => r
  | _ + 1, .ended result s => .ended result s
  | fuel + 1, .underWay m s => i.advance fuel (i.next (.underWay m s))

/-- The end of the run with the given arguments, if it comes within the fuel. -/
def run (i : Interpreter) (fuel : Nat) (args : List (List UInt8)) (sink : Sink) :
    Option (Except Stop Int32 × ProgramState) :=
  match i.advance fuel (i.begin args sink) with
  | .ended result s => some (result, s)
  | .underWay .. => none

/-! ## Runs that have ended -/

@[simp] theorem next_ended (i : Interpreter) (result : Except Stop Int32)
    (s : ProgramState) : i.next (.ended result s) = .ended result s := rfl

@[simp] theorem advance_ended (i : Interpreter) (fuel : Nat) (result : Except Stop Int32)
    (s : ProgramState) : i.advance fuel (.ended result s) = .ended result s := by
  cases fuel <;> rfl

theorem advance_succ (i : Interpreter) (fuel : Nat) (r : Run) :
    i.advance (fuel + 1) r = i.advance fuel (i.next r) := by
  cases r <;> simp [advance]

theorem advance_add (i : Interpreter) (m n : Nat) (r : Run) :
    i.advance (m + n) r = i.advance n (i.advance m r) := by
  induction m generalizing r with
  | zero => simp [advance]
  | succ m ih => rw [Nat.succ_add, advance_succ, advance_succ, ih]

theorem advance_of_run {i : Interpreter} {fuel : Nat} {args : List (List UInt8)} {sink : Sink}
    {result : Except Stop Int32} {s : ProgramState}
    (h : i.run fuel args sink = some (result, s)) :
    i.advance fuel (i.begin args sink) = .ended result s := by
  unfold run at h
  split at h
  · rename_i hended
    cases h
    exact hended
  · cases h

end Interpreter

end BoundedC
