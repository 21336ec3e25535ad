import BoundedC.Program

/-!
# Mismatches of types

A `Mismatch` says that one thing was wanted and another one found. `Mismatch.wanted` and
`Mismatch.found` are the wordings of the two.
-/

namespace BoundedC

/-- What kind of initializer stands where a list is wanted. -/
inductive InitializerKind where
  | string
  | scalar
  | other
  deriving DecidableEq, Repr

/-- Two things that do not go together. -/
inductive Mismatch where
  /-- a value that has no conversion to the type -/
  | conversion (target source : CType)
  /-- bytes that are too few or too many for the type -/
  | width (type : CType) (bytes : Nat)
  /-- bytes of a type that has no values -/
  | notScalar (type : CType)
  /-- an access through a pointer to `void` -/
  | untypedAccess
  | unrelatedPointers
  | operands (op : BinaryOp) (left right : CType)
  | negation (operand : CType)
  | stepOperand (operand : CType)
  | derefOperand (operand : CType)
  | indexOperands (array index : CType)
  | notAssignable
  | assignToArray (target : CType)
  | voidVariable (name : String)
  | stringInitializer (type : CType) (length : Nat)
  | listExpected (type : CType) (found : InitializerKind)
  | untypedList (type : CType)
  | tooManyInitializers (limit : Nat) (type : CType)
  | listForScalar (type : CType)
  | exitValue (found : CType)
  | printPointer (found : CType)
  | printLength (found : CType)
  deriving DecidableEq, Repr

def InitializerKind.describe : InitializerKind → String
  | string => "string literal"
  | scalar => "scalar literal"
  | other => "expression"

namespace Mismatch

def wanted : Mismatch → String
  | conversion t _ => t.describe
  | width t _ => t.describe
  | notScalar _ => "a scalar type"
  | untypedAccess => "a typed pointer"
  | unrelatedPointers => "pointers into the same buffer"
  | operands op _ _ => s!"operands valid for '{op.spelling}'"
  | negation _ => "int operand for '-'"
  | stepOperand _ => "scalar operand"
  | derefOperand _ => "pointer operand for '*'"
  | indexOperands _ _ => "pointer and int operands for '[]'"
  | notAssignable => "an assignable expression"
  | assignToArray _ => "assignable scalar"
  | voidVariable _ => "object type"
  | stringInitializer t _ => t.describe
  | listExpected t _ => s!"initializer list for {t.describe}"
  | untypedList _ => "pointer to a scalar type"
  | tooManyInitializers n t => s!"at most {n} initializers for {t.describe}"
  | listForScalar t => t.describe
  | exitValue _ => "int exit value"
  | printPointer _ => "pointer as the first argument of print"
  | printLength _ => "int as the second argument of print"

def found : Mismatch → String
  | conversion _ t => t.describe
  | width _ n => s!"{n} bytes"
  | notScalar t => t.describe
  | untypedAccess => "void*"
  | unrelatedPointers => "pointers into different buffers"
  | operands _ l r => s!"{l.describe} and {r.describe}"
  | negation t => t.describe
  | stepOperand t => t.describe
  | derefOperand t => t.describe
  | indexOperands a i => s!"{a.describe} and {i.describe}"
  | notAssignable => "a value"
  | assignToArray t => s!"array {t.describe}"
  | voidVariable name => s!"void variable '{name}'"
  | stringInitializer _ n => s!"string literal of length {n}"
  | listExpected _ k => k.describe
  | untypedList t => t.describe
  | tooManyInitializers _ _ => "more"
  | listForScalar _ => "initializer list"
  | exitValue t => t.describe
  | printPointer t => t.describe
  | printLength t => t.describe

end Mismatch

end BoundedC
