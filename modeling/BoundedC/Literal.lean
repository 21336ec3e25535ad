import BoundedC.ProgramState

/-!
# Literals that need storage

A string or array literal evaluates to a pointer to a buffer of the call in progress. A call keeps
one buffer per literal and fills it again at each evaluation, so that a literal in a loop needs
memory once and always starts with the same contents.
-/

namespace BoundedC

namespace Effect

/-- A buffer for the literal at a place: the one that the call has for it, if the length fits, or
a new one. -/
def literalStorage (site : Location) (length : Nat) : Effect BufferId := do
  let a ← current site
  let fits (id : BufferId) (memory : Arena) : Bool := (memory.get? id).any (·.size = length)
  match a.literal? site with
  | some id => if fits id (← get).memory then return id else fresh
  | none => fresh
where
  fresh : Effect BufferId := do
    let id ← allocate site length .literal
    modifyCurrent site (·.adopt site id)
    return id

/-- The value of a string literal: a pointer to its bytes and a closing NUL. -/
def stringLiteral (site : Location) (bytes : List UInt8) : Effect Value := do
  let contents := bytes ++ [0]
  let id ← literalStorage site contents.length
  onMemory site (·.write id 0 contents)
  return .pointer ⟨id, 0, .char⟩

/-- The buffer of an array literal, filled with the values of its elements. -/
def filledLiteral (site : Location) (element : CType) (values : List Value) : Effect BufferId := do
  let id ← literalStorage site (values.length * element.size)
  storeSlots site id element values.zipIdx
  return id

/-- The value of an array literal that stands alone: a pointer to its first element, the type of
which is taken from the first value. -/
def arrayLiteral (site : Location) (values : List Value) : Effect Value := do
  let element := (values.head?.map Value.type).getD .int
  let id ← filledLiteral site element values
  return .pointer ⟨id, 0, element⟩

end Effect

end BoundedC
