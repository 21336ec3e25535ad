import BoundedC.Run

/-!
# Sessions

A `Session` is what an interpreter holds while it runs a program, and keeps when the run is over. The
next run begins by giving up what the last one has left behind, which is a lot if it has failed: jobs
and operands, calls and their buffers, the count of statements. Two things stay. Output goes on behind
what was written before; and the place of the statement that was executed last is not forgotten, at
which faults of the two stacks are reported, until a statement of the next run takes its place.

* `Session.reset` : what a run gives up before it begins;
* `Session.step` : one job, whose faults may be reported at the last statement;
* `Session.run` : a run, if the fuel suffices, and the session behind it;
* `Session.after` : one run after the other.
-/

namespace BoundedC

def Job.statement? : Job → Option Location
  | execute node => some node.place
  | _ => none

/-- Where a fault of the job is reported: at its own place, but at the last statement if an operand or
a call is missing, or a loop. A missing call to give back from is reported at its own place. -/
def Job.faultPlace (job : Job) (last own : Location) : RuntimeFault → Location
  | .internal .operandUnderflow | .internal .strayLoopControl => last
  | .internal .noActiveCall =>
    match job with
    | giveBack .. => own
    | _ => last
  | _ => own

def Job.report (job : Job) (last : Location) : Stop → Stop
  | .fault fault own => .fault fault (job.faultPlace last own fault)
  | e => e

/-- What an interpreter holds: the work of a run that is under way, or what is left of one that was
ended by an error, its state, the place of the statement executed last, and the exit value once the
first call has ended. -/
structure Session where
  machine : Machine
  state : ProgramState
  last : Location
  exitCode : Option Int32

namespace Session

def idle : Machine := ⟨.empty, []⟩

def create (sink : Sink) : Session := ⟨idle, .fresh sink, ⟨1, 1⟩, none⟩

/-- Give up what a run has left behind. The last statement is still known. -/
def reset (s : Session) : Session := { s with machine := idle, state := .fresh s.state.sink, exitCode := none }

/-- Do the given job, which is the next one. What it fails at leaves the jobs behind it undone. -/
def step (i : Interpreter) (job : Job) (s : Session) : Except Stop Unit × Session :=
  let last := job.statement?.getD s.last
  match (i.step s.machine).run s.state with
  | (.ok (.running machine), state) => (.ok (), ⟨machine, state, last, s.exitCode⟩)
  | (.ok (.exited code), state) => (.ok (), ⟨idle, state, last, some code⟩)
  | (.error e, state) =>
    let pending := s.machine.pending
    (.error (job.report last e), ⟨⟨⟨pending.jobs.pop, pending.operands⟩, s.machine.bases⟩, state, last,
      s.exitCode⟩)

/-- Do all jobs there are, if the fuel suffices. -/
def finish (i : Interpreter) : Nat → Session → Option (Except Stop Int32 × Session)
  | fuel, s =>
    match s.machine.pending.jobs.top?, fuel with
    | none, _ => some (.ok (s.exitCode.getD 0), { s with exitCode := none })
    | some _, 0 => none
    | some job, fuel + 1 =>
      match s.step i job with
      | (.ok (), s) => finish i fuel s
      | (.error e, s) => some (.error e, s)

def run (i : Interpreter) (fuel : Nat) (args : List (List UInt8)) (s : Session) :
    Option (Except Stop Int32 × Session) :=
  let s := s.reset
  match (i.enterMain args).run s.state with
  | (.ok main, state) => finish i fuel { s with machine := .enter main .empty [], state }
  | (.error e, state) => some (.error e, { s with state })

/-- The session after several runs, if the fuel suffices that is given for each of them. -/
def after (i : Interpreter) : List (Nat × List (List UInt8)) → Session → Option Session
  | [], s => some s
  | (fuel, args) :: rest, s => (s.run i fuel args).bind fun ended => after i rest ended.2

def written (s : Session) : List UInt8 := s.state.sink.written.toList

/-! ## Jobs one after the other -/

variable {i : Interpreter} {s : Session} {job : Job}

theorem finish_of_none (h : s.machine.pending.jobs.top? = none) (fuel : Nat) :
    finish i fuel s = some (.ok (s.exitCode.getD 0), { s with exitCode := none }) := by
  unfold finish
  rw [h]

theorem finish_zero (h : s.machine.pending.jobs.top? = some job) : finish i 0 s = none := by
  unfold finish
  rw [h]

theorem finish_succ (h : s.machine.pending.jobs.top? = some job) (fuel : Nat) :
    finish i (fuel + 1) s =
      match s.step i job with
      | (.ok (), s) => finish i fuel s
      | (.error e, s) => some (.error e, s) := by
  conv => lhs; unfold finish
  rw [h]

end Session

end BoundedC
