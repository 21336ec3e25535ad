import BoundedC.Activation
import BoundedC.RuntimeError
import BoundedC.Stack

/-!
# The state of a running program

`ProgramState` is what a program can observe and change: memory, the calls in progress, the output,
and the number of statements executed. An `Effect` changes it and yields a value or ends the run;
what was changed before a failure stays changed.

* `Effect.onMemory`, `Effect.readMemory` : an operation of the arena, at a place of the source;
* `Effect.load`, `Effect.store`, `Effect.allocate`, `Effect.releaseAll` : the usual ones;
* `Effect.current`, `Effect.modifyCurrent` : the call in progress;
* `Effect.openScope`, `Effect.closeScope`, `Effect.lookup` : its scopes and variables.
-/

namespace BoundedC

/-- The state of a running program. The call in progress is on top of `calls`. -/
structure ProgramState where
  memory : Arena
  calls : Stack Activation
  sink : Sink
  /-- the number of statements executed -/
  steps : Nat

/-- The state before anything was executed. -/
def ProgramState.fresh (sink : Sink) : ProgramState := ⟨.empty, .empty, sink, 0⟩

/-- An effect on the state of a program, which may end the run. -/
abbrev Effect := ExceptT Stop (StateM ProgramState)

namespace Effect

variable {α β : Type}

def fail (place : Location) (fault : RuntimeFault) : Effect α := throw (.fault fault place)

/-- End the run without an error. -/
def breakOff : Effect α := throw .abort

def failInternal (place : Location) (fault : InternalFault) : Effect α := fail place (.internal fault)

def ofExcept (place : Location) : Except RuntimeFault α → Effect α
  | .ok a => pure a
  | .error fault => fail place fault

/-! ## Memory -/

def onMemory (place : Location) (f : Arena → Except MemoryFault α × Arena) : Effect α :=
  ExceptT.mk fun ⟨memory, calls, sink, steps⟩ =>
    match f memory with
    | (.ok a, memory) => (.ok a, ⟨memory, calls, sink, steps⟩)
    | (.error fault, memory) =>
      (.error (.fault (.memory fault) place), ⟨memory, calls, sink, steps⟩)

def readMemory (place : Location) (f : Arena → Except MemoryFault α) : Effect α := do
  match f (← get).memory with
  | .ok a => return a
  | .error fault => fail place (.memory fault)

def allocate (place : Location) (length : Nat) (owner : Owner) : Effect BufferId :=
  onMemory place (·.allocate length owner)

def allocateWith (place : Location) (bytes : List UInt8) (owner : Owner) : Effect BufferId :=
  onMemory place (·.allocateWith bytes.toArray owner)

def releaseAll (ids : List BufferId) : Effect Unit :=
  modify fun ⟨memory, calls, sink, steps⟩ => ⟨memory.releaseAll ids, calls, sink, steps⟩

def load (place : Location) (p : Pointer) : Effect Value := readMemory place (·.load p)

/-- Store a value through a pointer. The result is the value as stored. -/
def store (place : Location) (p : Pointer) (v : Value) : Effect Value :=
  onMemory place (·.store p v)

/-- Store values in a buffer that is divided into slots of a type. -/
def storeSlots (place : Location) (id : BufferId) (type : CType) : List (Value × Nat) → Effect Unit
  | [] => pure ()
  | (v, slot) :: rest => do
    discard <| store place ⟨id, slot * type.size, type⟩ v
    storeSlots place id type rest

/-! ## The call in progress -/

def current (place : Location) : Effect Activation := do
  match (← get).calls.top? with
  | some a => return a
  | none => failInternal place .noActiveCall

def modifyCurrent (place : Location) (f : Activation → Activation) : Effect Unit := do
  discard <| current place
  modify fun s => { s with calls := s.calls.modifyTop f }

def openScope (place : Location) : Effect Unit := modifyCurrent place (·.openScope)

/-- End the innermost scope, and with it the variables declared there. -/
def closeScope (place : Location) : Effect Unit := do
  releaseAll (← current place).innermost.buffers
  modifyCurrent place (·.closeScope)

def lookup (place : Location) (name : String) : Effect Binding := do
  match (← get).calls.top?.bind (·.lookup? name) with
  | some b => return b
  | none => fail place (.undefinedVariable name)

def write (place : Location) (bytes : List UInt8) : Effect Unit :=
  ExceptT.mk fun ⟨memory, calls, sink, steps⟩ =>
    match sink.write bytes with
    | (.ok (), sink) => (.ok (), ⟨memory, calls, sink, steps⟩)
    | (.error fault, sink) => (.error (.fault (.output fault) place), ⟨memory, calls, sink, steps⟩)

/-! ## What effects do to a state -/

@[simp] theorem run_pure (a : α) (s : ProgramState) : (pure a : Effect α).run s = (.ok a, s) := rfl

@[simp] theorem run_get (s : ProgramState) : (get : Effect ProgramState).run s = (.ok s, s) := rfl

@[simp] theorem run_fail (place : Location) (fault : RuntimeFault) (s : ProgramState) :
    (fail place fault : Effect α).run s = (.error (.fault fault place), s) := rfl

@[simp] theorem run_releaseAll (ids : List BufferId) (s : ProgramState) :
    (releaseAll ids).run s = (.ok (), { s with memory := s.memory.releaseAll ids }) := rfl

theorem run_onMemory_of_ok {place : Location} {f : Arena → Except MemoryFault α × Arena}
    {s : ProgramState} {a : α} {m : Arena} (h : f s.memory = (.ok a, m)) :
    (onMemory place f).run s = (.ok a, { s with memory := m }) := by
  simp only [onMemory, ExceptT.mk, ExceptT.run, h]

theorem run_onMemory_of_error {place : Location} {f : Arena → Except MemoryFault α × Arena}
    {s : ProgramState} {fault : MemoryFault} {m : Arena} (h : f s.memory = (.error fault, m)) :
    (onMemory place f).run s = (.error (.fault (.memory fault) place), { s with memory := m }) := by
  simp only [onMemory, ExceptT.mk, ExceptT.run, h]

theorem run_write_of_ok {place : Location} {bytes : List UInt8} {s : ProgramState} {sink : Sink}
    (h : s.sink.write bytes = (.ok (), sink)) : (write place bytes).run s = (.ok (), { s with sink }) := by
  simp only [write, ExceptT.mk, ExceptT.run, h]

theorem run_write_of_error {place : Location} {bytes : List UInt8} {s : ProgramState} {sink : Sink}
    {fault : SinkFault} (h : s.sink.write bytes = (.error fault, sink)) :
    (write place bytes).run s = (.error (.fault (.output fault) place), { s with sink }) := by
  simp only [write, ExceptT.mk, ExceptT.run, h]

theorem run_bind (x : Effect α) (f : α → Effect β) (s : ProgramState) :
    (x >>= f).run s =
      match x.run s with
      | (.ok a, s) => (f a).run s
      | (.error e, s) => (.error e, s) := by
  simp only [bind, ExceptT.bind, ExceptT.mk, ExceptT.run, StateT.bind]
  rcases x s with ⟨_ | _, _⟩ <;> rfl

theorem run_bind_of_ok {x : Effect α} {a : α} {s s' : ProgramState} (h : x.run s = (.ok a, s'))
    (f : α → Effect β) : (x >>= f).run s = (f a).run s' := by
  rw [run_bind, h]

theorem run_bind_of_error {x : Effect α} {e : Stop} {s s' : ProgramState}
    (h : x.run s = (.error e, s')) (f : α → Effect β) : (x >>= f).run s = (.error e, s') := by
  rw [run_bind, h]

/-- A question to the arena is answered by the memory, and leaves it as it is. -/
theorem run_readMemory (place : Location) (f : Arena → Except MemoryFault α) (s : ProgramState) :
    (readMemory place f).run s =
      ((f s.memory).mapError fun fault => .fault (.memory fault) place, s) := by
  rw [readMemory, run_bind_of_ok (run_get s)]
  cases f s.memory <;> rfl

theorem run_bind_eq_ok_iff {x : Effect α} {f : α → Effect β} {b : β} {s s' : ProgramState} :
    (x >>= f).run s = (.ok b, s') ↔
      ∃ a t, x.run s = (.ok a, t) ∧ (f a).run t = (.ok b, s') := by
  constructor
  · intro h
    rw [run_bind] at h
    rcases hx : x.run s with ⟨_ | a, t⟩
    · rw [hx] at h
      cases h
    · rw [hx] at h
      exact ⟨a, t, rfl, h⟩
  · rintro ⟨a, t, hx, hf⟩
    rw [run_bind_of_ok hx, hf]

end Effect

end BoundedC
