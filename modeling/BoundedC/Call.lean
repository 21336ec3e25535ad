import BoundedC.ProgramState

/-!
# Calls

* `Effect.enterCall` : the parameters become variables of a new activation;
* `Effect.leaveCall` : the activation ends, with its buffers, and the result is converted to the type
  that the function returns;
* `Effect.bindArguments` : the argument count and the table of arguments that `main` receives;
* `Effect.countStep` : the count of executed statements.
-/

namespace BoundedC

/-- The ceilings on a run. -/
structure Limits where
  /-- the number of calls that may be in progress at once -/
  maxDepth : Nat
  /-- the number of statements that may be executed -/
  maxSteps : Option Nat
  deriving DecidableEq, Repr

def Limits.default : Limits := ⟨10000, none⟩

namespace Effect

def countStep (limits : Limits) (place : Location) : Effect Unit := do
  modify fun s => { s with steps := s.steps + 1 }
  match limits.maxSteps with
  | some limit => if limit < (← get).steps then fail place (.stepLimit limit)
  | none => pure ()

/-- Create variables for parameters. Pointers are copied, so the function sees its caller's
buffers. -/
def bindParams (place : Location) (a : Activation) : List (Param × Value) → Effect Activation
  | [] => pure a
  | (param, v) :: rest => do
    let buffer ← allocate place param.type.size .scoped
    let b : Binding := ⟨buffer, param.type, param.isConst⟩
    discard <| store place b.pointer v
    bindParams place (a.declare param.name b) rest

/-- Begin a call. Without a call site it is the first one, reported at the function's definition. -/
def enterCall (limits : Limits) (f : Function) (args : List Value) (callSite : Option Location) :
    Effect Unit := do
  let place := callSite.getD f.place
  if limits.maxDepth ≤ (← get).calls.height then fail place (.stackOverflow limits.maxDepth)
  let a ← bindParams place (.start f.name f.returnType callSite) (f.params.zip args)
  modify fun s => { s with calls := s.calls.push a }

/-- Take the call in progress off the stack of calls. -/
def popCall (place : Location) : Effect Activation := do
  let a ← current place
  modify fun s => { s with calls := s.calls.pop }
  return a

/-- The result of a call that ends with the given value. -/
def callResult (place : Location) (returnType : CType) : Option Value → Effect Value
  | none => pure (.int 0)
  | some v =>
    if returnType = .void then pure (.int 0) else readMemory place fun _ => v.convert returnType

def leaveCall (place : Location) (value : Option Value) : Effect Value := do
  let a ← popCall place
  let result ← callResult place a.returnType value
  releaseAll a.owned
  return result

/-- The exit value of a run whose first call ends with the given result. -/
def exitValue (place : Location) (result : Value) : Effect Int32 :=
  match result.int? with
  | some n => pure n
  | none => fail place (.mismatch (.exitValue result.type))

/-- Put arguments into buffers of their own, each closed by a NUL, and pointers to them into the
table, from a slot on. -/
def bindArgumentsFrom (place : Location) (table : BufferId) (slot : Nat) :
    List (List UInt8) → Effect Unit
  | [] => pure ()
  | arg :: rest => do
    let id ← allocateWith place (arg ++ [0]) .argument
    storeSlots place table (.pointer .char) [(.pointer ⟨id, 0, .char⟩, slot)]
    bindArgumentsFrom place table (slot + 1) rest

/-- The values of the two parameters of `main`: the number of arguments, and a table of pointers to
them that is closed by a null pointer. -/
def bindArguments (place : Location) (args : List (List UInt8)) : Effect (List Value) := do
  let table ← allocate place ((args.length + 1) * pointerBytes) .argument
  bindArgumentsFrom place table 0 args
  if 0x80000000 ≤ args.length then failInternal place .tooManyArguments
  return [.int (Int32.ofNat args.length), .pointer ⟨table, 0, .pointer .char⟩]

end Effect

end BoundedC
