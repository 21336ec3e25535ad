import BoundedC.Location
import BoundedC.Storage.Arena

/-!
# Activations

An `Activation` is what a running call knows: its open scopes with their variables, and the buffers
of the literals it has evaluated.

* `Activation.openScope`, `closeScope` : the blocks of the function body;
* `Activation.declare`, `lookup?` : variables; the innermost and latest declaration of a name counts;
* `Activation.adopt`, `literal?` : one buffer per literal, found by the literal's place;
* `Activation.owned` : the buffers that end with the call.
-/

namespace BoundedC

/-- A variable: the buffer that holds it, and how it was declared. -/
structure Binding where
  buffer : BufferId
  type : CType
  isConst : Bool
  deriving DecidableEq, Repr

def Binding.pointer (b : Binding) : Pointer := ⟨b.buffer, 0, b.type⟩

/-- The variables of a block, the latest declaration first. -/
abbrev Scope := List (String × Binding)

def Scope.buffers (s : Scope) : List BufferId := s.map (·.2.buffer)

/-- A call that has not ended yet. -/
structure Activation where
  function : String
  returnType : CType
  /-- the place of the call; the first call of a run has none -/
  callSite : Option Location
  /-- the open scopes, the innermost first -/
  scopes : List Scope
  /-- the buffers of literals, the latest first -/
  literals : List (Location × BufferId)
  deriving DecidableEq, Repr

namespace Activation

/-- A call that begins, with a scope for its parameters. -/
def start (function : String) (returnType : CType) (callSite : Option Location) : Activation :=
  { function, returnType, callSite, scopes := [[]], literals := [] }

def openScope (a : Activation) : Activation := { a with scopes := [] :: a.scopes }

def innermost (a : Activation) : Scope := a.scopes.headD []

def closeScope (a : Activation) : Activation := { a with scopes := a.scopes.tail }

/-- Declare a variable in the innermost scope; where none is open, one is opened for it. -/
def declare (a : Activation) (name : String) (b : Binding) : Activation :=
  { a with scopes := ((name, b) :: a.innermost) :: a.scopes.tail }

def lookup? (a : Activation) (name : String) : Option Binding :=
  a.scopes.findSome? fun scope => scope.lookup name

def literal? (a : Activation) (site : Location) : Option BufferId := a.literals.lookup site

/-- Keep a buffer for the literal at a place. One that it replaces is kept as well, since pointers
to it may be about. -/
def adopt (a : Activation) (site : Location) (id : BufferId) : Activation :=
  { a with literals := (site, id) :: a.literals }

/-- The buffers of the variables in open scopes. -/
def scopeBuffers (a : Activation) : List BufferId := a.scopes.flatMap Scope.buffers

/-- All buffers that end with the call. -/
def owned (a : Activation) : List BufferId := a.scopeBuffers ++ a.literals.map (·.2)

/-! ## Effects of the operations on the views -/

@[simp] theorem scopeBuffers_openScope (a : Activation) : a.openScope.scopeBuffers = a.scopeBuffers := by
  simp [openScope, scopeBuffers, Scope.buffers]

theorem scopeBuffers_closeScope (a : Activation) :
    a.scopeBuffers = a.innermost.buffers ++ a.closeScope.scopeBuffers := by
  cases h : a.scopes <;> simp [scopeBuffers, innermost, closeScope, Scope.buffers, h]

theorem owned_closeScope (a : Activation) :
    a.owned = a.innermost.buffers ++ a.closeScope.owned := by
  rw [owned, scopeBuffers_closeScope, List.append_assoc]
  rfl

theorem scopeBuffers_declare (a : Activation) (name : String) (b : Binding) :
    (a.declare name b).scopeBuffers = b.buffer :: a.scopeBuffers := by
  cases h : a.scopes <;> simp [scopeBuffers, declare, innermost, Scope.buffers, h]

@[simp] theorem scopeBuffers_adopt (a : Activation) (site : Location) (id : BufferId) :
    (a.adopt site id).scopeBuffers = a.scopeBuffers := rfl

theorem closeScope_openScope (a : Activation) : a.openScope.closeScope = a := rfl

@[simp] theorem lookup?_openScope (a : Activation) (name : String) :
    a.openScope.lookup? name = a.lookup? name := by
  simp [openScope, lookup?, List.findSome?_cons]

theorem lookup?_declare_self (a : Activation) (name : String) (b : Binding) :
    (a.declare name b).lookup? name = some b := by
  simp [declare, lookup?]

theorem lookup?_declare_of_ne (a : Activation) {name other : String} (b : Binding)
    (h : other ≠ name) : (a.declare name b).lookup? other = a.lookup? other := by
  have : (other == name) = false := by simpa using h
  cases hs : a.scopes <;> simp [declare, lookup?, innermost, List.findSome?_cons, List.lookup_cons, this, hs]

theorem literal?_adopt_self (a : Activation) (site : Location) (id : BufferId) :
    (a.adopt site id).literal? site = some id := by
  simp [adopt, literal?]

end Activation

end BoundedC
