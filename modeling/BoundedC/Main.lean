import BoundedC.CommandLine

/-!
# The program

Reads the file that the command line names and runs it. What the program writes appears while it
runs.
-/

namespace BoundedC.Main

def readText (name : String) : IO (Except ReadFault String) := do
  try
    let bytes ← IO.FS.readBinFile name
    match String.fromUTF8? bytes with
    | some text => return .ok text
    | none => return .error .notText
  catch
    | .noFileOrDirectory .. => return .error .notFound
    | .permissionDenied .. => return .error .forbidden
    | .inappropriateType .. => return .error .directory
    | e => return .error (.other e.toString)

def write (bytes : List UInt8) : IO Unit := do
  let out ← IO.getStdout
  out.write ⟨bytes.toArray⟩
  out.flush

/-- Write what is new in the output, report, and hand on the exit status. -/
def finish (report : Report) : IO UInt32 := do
  write report.output
  IO.eprint report.diagnostics
  return report.status.toUInt32

/-- The number of jobs between two looks at the output. -/
def slice : Nat := 100000

/-- Run to the end. The first `shown` bytes of the output have been written already. -/
partial def runToEnd (i : Interpreter) (r : Run) (shown : Nat) : IO UInt32 := do
  let r := i.advance slice r
  let size := r.state.sink.written.size
  let fresh := (r.state.sink.written.extract shown size).toList
  match r with
  | .ended result _ => finish (.ofResult result fresh)
  | .underWay m s =>
    write fresh
    runToEnd i (.underWay m s) size

end BoundedC.Main

def main (args : List String) : IO UInt32 := do
  match BoundedC.Invocation.ofArgs args with
  | .error e => BoundedC.Main.finish (.ofUsageError e)
  | .ok inv =>
    match ← BoundedC.Main.readText inv.file with
    | .error fault => BoundedC.Main.finish (.ofReadFault inv.file fault)
    | .ok text =>
      match inv.begin text with
      | .error e => BoundedC.Main.finish (.ofCompileError e)
      | .ok (i, r) => BoundedC.Main.runToEnd i r 0
