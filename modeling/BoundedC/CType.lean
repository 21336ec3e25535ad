/-!
# Object types

`CType` is `int`, `char`, `void`, a pointer to a type or an array of a type. Sizes are fixed: 4 for
`int`, 1 for `char`, 8 for a pointer, and the product for an array, without padding. `size?` is the
exact size where it fits 64 bits, `size` clamps it to the largest such size, and `stride` is the
distance that pointer arithmetic moves per element.
-/

namespace BoundedC

/-- A type of the language. `void` has no values: it is what a function without a result returns,
and what an untyped pointer points to. -/
inductive CType where
  | int
  | char
  | void
  | pointer (pointee : CType)
  | array (element : CType) (length : Nat)
  deriving DecidableEq, Repr, Inhabited

/-- The number of bytes of a stored pointer: a buffer number and an offset. -/
def pointerBytes : Nat := 8

/-- The largest object a declaration may create, so that every offset into it fits a stored
pointer. -/
def maxObjectBytes : Nat := 0x7fffffff

/-- The largest size that can be stated: sizes are kept in 64 bits. -/
def maxSize : Nat := 0xffffffffffffffff

namespace CType

/-- The size in bytes, if the product of an array's dimensions stays within 64 bits. -/
def size? : CType → Option Nat
  | int => some 4
  | char => some 1
  | void => some 0
  | pointer _ => some pointerBytes
  | array element length => do
    let total := (← element.size?) * length
    if total ≤ maxSize then some total else none

/-- The size in bytes, clamped to the largest size that can be stated. -/
def size (t : CType) : Nat := t.size?.getD maxSize

/-- The distance in bytes between neighbouring elements. A `void` pointer moves in single bytes. -/
def stride : CType → Nat
  | void => 1
  | t => t.size

def isArray : CType → Bool
  | array .. => true
  | _ => false

def isPointer : CType → Bool
  | pointer _ => true
  | _ => false

def element? : CType → Option CType
  | array t _ | pointer t => some t
  | _ => none

/-- An array read as a value is a pointer to its first element; other types stay as they are. -/
def decayed : CType → CType
  | array t _ => pointer t
  | t => t

def scalar : CType → CType
  | array t _ => t.scalar
  | t => t

def scalarCount : CType → Nat
  | array t n => n * t.scalarCount
  | _ => 1

/-- The type, spelled from the inside out: `int[3][2]` is two arrays of three. -/
def describe : CType → String
  | int => "int"
  | char => "char"
  | void => "void"
  | pointer t => s!"{t.describe}*"
  | array t n => s!"{t.describe}[{n}]"

@[simp] theorem size_int : int.size = 4 := rfl
@[simp] theorem size_char : char.size = 1 := rfl
@[simp] theorem size_void : void.size = 0 := rfl
@[simp] theorem size_pointer (t : CType) : (pointer t).size = 8 := rfl

theorem size?_le {t : CType} {n : Nat} (h : t.size? = some n) : n ≤ maxSize := by
  cases t with
  | array t length =>
    simp only [size?, Option.bind_eq_bind, Option.bind_eq_some_iff] at h
    obtain ⟨s, _, h⟩ := h
    split at h <;> simp_all
  | _ => (simp_all [size?, maxSize, pointerBytes]; omega)

theorem size_le (t : CType) : t.size ≤ maxSize := by
  unfold size
  cases h : t.size? with
  | none => simp
  | some n => simpa using size?_le h

end CType

end BoundedC
