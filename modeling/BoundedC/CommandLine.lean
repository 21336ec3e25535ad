import BoundedC.Compile
import BoundedC.Run

/-!
# The command line

`[--max-steps N] [--max-depth N] FILE [ARGS...]`: the options may also be written `--max-steps=N`, and
may follow FILE as well. The first of ARGS ends the options, and so does `--`, which is itself
dropped; all that follows is handed to the program as it is.

* `Invocation.ofArgs` : what a command line asks for;
* `Report` : exit status, output and diagnostics of an invocation.
-/

namespace BoundedC

/-- What a command line asks for. -/
structure Invocation where
  file : String
  args : List String
  maxSteps : Option Nat
  maxDepth : Option Nat
  deriving DecidableEq, Repr

/-- The options that set a ceiling. -/
inductive LimitOption where
  | maxSteps
  | maxDepth
  deriving DecidableEq, Repr

inductive UsageError where
  | noFile
  | unknownOption (text : String)
  | repeated (option : LimitOption)
  | noValue (option : LimitOption)
  | badValue (option : LimitOption) (text : String)
  deriving DecidableEq, Repr

namespace LimitOption

def spelling : LimitOption → String
  | maxSteps => "--max-steps"
  | maxDepth => "--max-depth"

end LimitOption

namespace UsageError

def message : UsageError → String
  | noFile => "no file to run"
  | unknownOption text => s!"unknown option '{text}'"
  | repeated o => s!"option '{o.spelling}' is given twice"
  | noValue o => s!"option '{o.spelling}' needs a number"
  | badValue o text => s!"'{text}' is not a number for option '{o.spelling}'"

end UsageError

namespace Invocation

/-! ## Reading the options -/

/-- A number of 64 bits in decimal digits, which may have a plus sign. -/
def ceiling? (text : String) : Option Nat :=
  let digits := match text.toList with
    | '+' :: cs => cs
    | cs => cs
  if digits ≠ [] ∧ digits.all Char.isDigit then
    let n := digits.foldl (fun n c => 10 * n + (c.toNat - '0'.toNat)) 0
    if n ≤ maxSize then some n else none
  else none

/-- How a piece of the command line is taken while options are still allowed. -/
inductive Piece where
  /-- the name of an option, whose value comes next -/
  | option (o : LimitOption)
  | optionWith (o : LimitOption) (value : String)
  /-- `--` -/
  | endOfOptions
  | unknownOption
  | positional
  deriving DecidableEq, Repr

/-- The value in a piece such as `--max-steps=5`. -/
def valueIn? (o : LimitOption) (text : String) : Option String :=
  let start := (o.spelling ++ "=").toList
  if start.isPrefixOf text.toList then some (String.ofList (text.toList.drop start.length))
  else none

def classify (text : String) : Piece :=
  if text = "--" then .endOfOptions
  else if text = LimitOption.maxSteps.spelling then .option .maxSteps
  else if text = LimitOption.maxDepth.spelling then .option .maxDepth
  else
    match valueIn? .maxSteps text, valueIn? .maxDepth text with
    | some value, _ => .optionWith .maxSteps value
    | none, some value => .optionWith .maxDepth value
    | none, none =>
      match text.toList with
      | '-' :: _ :: _ => .unknownOption
      | _ => .positional

structure Ceilings where
  maxSteps : Option Nat
  maxDepth : Option Nat
  deriving DecidableEq, Repr

namespace Ceilings

def get (c : Ceilings) : LimitOption → Option Nat
  | .maxSteps => c.maxSteps
  | .maxDepth => c.maxDepth

/-- Take the value of an option, which must not have one yet. -/
def set (c : Ceilings) (o : LimitOption) (text : String) : Except UsageError Ceilings :=
  match ceiling? text, c.get o, o with
  | none, _, _ => .error (.badValue o text)
  | some _, some _, _ => .error (.repeated o)
  | some n, none, .maxSteps => .ok { c with maxSteps := some n }
  | some n, none, .maxDepth => .ok { c with maxDepth := some n }

end Ceilings

def ofParts (c : Ceilings) (file : String) (args : List String) : Invocation :=
  ⟨file, args, c.maxSteps, c.maxDepth⟩

/-- The pieces behind FILE. -/
def afterFile (c : Ceilings) (file : String) : List String → Except UsageError Invocation
  | [] => .ok (ofParts c file [])
  | text :: rest =>
    match classify text, rest with
    | .endOfOptions, rest => .ok (ofParts c file rest)
    | .option o, [] => .error (.noValue o)
    | .option o, value :: rest => do afterFile (← c.set o value) file rest
    | .optionWith o value, rest => do afterFile (← c.set o value) file rest
    | .unknownOption, rest | .positional, rest => .ok (ofParts c file (text :: rest))

/-- The pieces from FILE on, where no more options are allowed. -/
def fromFile (c : Ceilings) : List String → Except UsageError Invocation
  | [] => .error .noFile
  | file :: args => if file = "" then .error .noFile else .ok (ofParts c file args)

/-- The pieces up to FILE. -/
def beforeFile (c : Ceilings) : List String → Except UsageError Invocation
  | [] => .error .noFile
  | text :: rest =>
    match classify text, rest with
    | .endOfOptions, rest => fromFile c rest
    | .option o, [] => .error (.noValue o)
    | .option o, value :: rest => do beforeFile (← c.set o value) rest
    | .optionWith o value, rest => do beforeFile (← c.set o value) rest
    | .unknownOption, _ => .error (.unknownOption text)
    | .positional, rest => if text = "" then .error .noFile else afterFile c text rest

def ofArgs (args : List String) : Except UsageError Invocation := beforeFile ⟨none, none⟩ args

/-! ## Running the program -/

def limits (inv : Invocation) : Limits :=
  ⟨inv.maxDepth.getD Limits.default.maxDepth, inv.maxSteps⟩

/-- The arguments of the program: the file as it was given, then ARGS. -/
def programArgs (inv : Invocation) : List (List UInt8) :=
  (inv.file :: inv.args).map fun arg => arg.toUTF8.toList

def begin (inv : Invocation) (text : String) : Except CompileError (Interpreter × Run) := do
  let i := Interpreter.ofProgram (← compile text) inv.limits
  return (i, i.begin inv.programArgs .unlimited)

end Invocation

/-! ## Reports -/

/-- Why the file of an invocation cannot be read. -/
inductive ReadFault where
  | notFound
  | forbidden
  | directory
  | notText
  | other (reason : String)
  deriving DecidableEq, Repr

def ReadFault.message : ReadFault → String
  | notFound => "No such file or directory (os error 2)"
  | forbidden => "Permission denied (os error 13)"
  | directory => "Is a directory (os error 21)"
  | notText => "stream did not contain valid UTF-8"
  | other reason => reason

/-- What an invocation leaves behind: its exit status, what the program wrote, and diagnostics. -/
structure Report where
  status : UInt8
  output : List UInt8
  diagnostics : String
  deriving DecidableEq, Repr

namespace Report

def usageStatus : UInt8 := 2
def unreadableStatus : UInt8 := 1
def compileErrorStatus : UInt8 := 65
def runtimeErrorStatus : UInt8 := 70
def abortStatus : UInt8 := 101

def ofUsageError (e : UsageError) : Report := ⟨usageStatus, [], s!"error: {e.message}\n"⟩

def ofReadFault (file : String) (fault : ReadFault) : Report :=
  ⟨unreadableStatus, [], s!"error: cannot read '{file}': {fault.message}\n"⟩

def diagnostic (kind message : String) : String := s!"error[{kind}]: {message}\n"

def ofCompileError (e : CompileError) : Report :=
  ⟨compileErrorStatus, [], diagnostic e.kind e.message⟩

/-- The report of a run that has ended. Of an exit value the system keeps the low byte. When the program
breaks off, only the system has something to say, and what it says is not the program's. -/
def ofResult (result : Except Stop Int32) (output : List UInt8) : Report :=
  match result with
  | .ok code => ⟨code.toUInt32.toUInt8, output, ""⟩
  | .error (.failure e) => ⟨runtimeErrorStatus, output, diagnostic e.kind e.message⟩
  | .error .abort => ⟨abortStatus, output, ""⟩

/-- The report of an invocation whose file has the given text, if its run ends within the fuel. -/
def ofText (inv : Invocation) (fuel : Nat) (text : String) : Option Report :=
  match inv.begin text with
  | .error e => some (ofCompileError e)
  | .ok (i, r) =>
    match i.advance fuel r with
    | .ended result s => some (ofResult result s.sink.written.toList)
    | .underWay .. => none

end Report

end BoundedC
