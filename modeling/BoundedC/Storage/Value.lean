import BoundedC.Storage.Fault
import BoundedC.Text.Escaped

/-!
# Values and their stored form

A `Value` is a 32-bit integer, a signed byte or a pointer. `convert` fits a value to the type of the
place that receives it; `encode` gives its bytes there and `decode` reads bytes back. Words are stored
with the lowest byte first; a pointer is its buffer number followed by its offset.
-/

namespace BoundedC

inductive Value where
  | int (n : Int32)
  | char (c : Int8)
  | pointer (p : Pointer)
  deriving DecidableEq, Repr

namespace Value

def type : Value → CType
  | int _ => .int
  | char _ => .char
  | pointer p => .pointer p.pointee

/-- The value as an integer; a `char` is widened. -/
def int? : Value → Option Int32
  | int n => some n
  | char c => some c.toInt32
  | pointer _ => none

def pointer? : Value → Option Pointer
  | pointer p => some p
  | _ => none

def isPointer : Value → Bool
  | pointer _ => true
  | _ => false

/-- Whether a condition holds that has this value. -/
def isTruthy : Value → Bool
  | int n => n != 0
  | char c => c != 0
  | pointer p => !p.isNull

/-- The integer by which conditions are answered. -/
def ofBool (b : Bool) : Value := int (if b then 1 else 0)

/-- The value for a place of the given type: integers are cut to `char` and widened to `int`,
pointers take any pointee, and the integer 0 is the null pointer. -/
def convert (v : Value) (target : CType) : Except MemoryFault Value :=
  match target, v with
  | .int, int n => .ok (int n)
  | .int, char c => .ok (int c.toInt32)
  | .char, int n => .ok (char n.toInt8)
  | .char, char c => .ok (char c)
  | .pointer t, pointer p => .ok (pointer (p.retyped t))
  | .pointer t, v =>
    if v.int? = some 0 then .ok (pointer (.null t)) else .error (.mismatch (.conversion target v.type))
  | target, v => .error (.mismatch (.conversion target v.type))

end Value

/-! ## Words as bytes -/

/-- The bytes of a word, the lowest first. -/
def wordBytes (w : UInt32) : List UInt8 :=
  [UInt8.ofNat w.toNat, UInt8.ofNat (w.toNat / 0x100), UInt8.ofNat (w.toNat / 0x10000),
    UInt8.ofNat (w.toNat / 0x1000000)]

/-- The word with the given bytes, the lowest first. -/
def wordOfBytes (a b c d : UInt8) : UInt32 :=
  UInt32.ofNat (a.toNat + 0x100 * b.toNat + 0x10000 * c.toNat + 0x1000000 * d.toNat)

@[simp] theorem length_wordBytes (w : UInt32) : (wordBytes w).length = 4 := rfl

theorem wordOfBytes_wordBytes (w : UInt32) :
    wordOfBytes (UInt8.ofNat w.toNat) (UInt8.ofNat (w.toNat / 0x100))
      (UInt8.ofNat (w.toNat / 0x10000)) (UInt8.ofNat (w.toNat / 0x1000000)) = w := by
  apply UInt32.toNat_inj.1
  have h := w.toNat_lt
  simp only [wordOfBytes, UInt8.toNat_ofNat', UInt32.toNat_ofNat']
  omega

theorem wordBytes_wordOfBytes (a b c d : UInt8) :
    wordBytes (wordOfBytes a b c d) = [a, b, c, d] := by
  have ha := a.toNat_lt
  have hb := b.toNat_lt
  have hc := c.toNat_lt
  have hd := d.toNat_lt
  simp only [wordBytes, wordOfBytes, List.cons.injEq, ← UInt8.toNat_inj, UInt8.toNat_ofNat',
    UInt32.toNat_ofNat', and_true]
  omega

namespace Value

def encode (v : Value) (t : CType) : Except MemoryFault (List UInt8) := do
  match ← v.convert t with
  | int n => return wordBytes n.toUInt32
  | char c => return [c.toUInt8]
  | pointer p =>
    if fitsOffset p.offset then
      return wordBytes p.buffer.index ++ wordBytes (Int32.ofInt p.offset).toUInt32
    else throw (.offsetOverflow p.offset)

def decode (t : CType) (bytes : List UInt8) : Except MemoryFault Value :=
  if bytes.length ≠ t.size then .error (.mismatch (.width t bytes.length))
  else
    match t, bytes with
    | .int, [a, b, c, d] => .ok (int (wordOfBytes a b c d).toInt32)
    | .char, [a] => .ok (char a.toInt8)
    | .pointer t, [a, b, c, d, e, f, g, h] =>
      .ok (pointer ⟨⟨wordOfBytes a b c d⟩, (wordOfBytes e f g h).toInt32.toInt, t⟩)
    | t, _ => .error (.mismatch (.notScalar t))

def describe : Value → String
  | int n => toString n.toInt
  | char c => "'" ++ Text.escapedByte c.toUInt8 ++ "'"
  | pointer p => if p.isNull then "NULL" else s!"{p.buffer.describe}+{p.offset}"

end Value

end BoundedC
