import BoundedC.Text.GraphemeExtend
import BoundedC.Text.Unprintable

/-!
# Escaped spellings

Two spellings of text that may not be shown as it is. `escaped` spells a text for a diagnostic: quotes
and backslashes get a backslash, the common control characters their letter, and characters without
a shape their number in hexadecimal. `escapedByte` spells a single byte, with two hexadecimal digits
where it is not a visible ASCII character.
-/

namespace BoundedC.Text

/-- A number in lower-case hexadecimal digits. -/
def hex (n : Nat) : String := String.ofList (Nat.toDigits 16 n)

def hexByte (b : UInt8) : String := (if b < 16 then "0" else "") ++ hex b.toNat

/-- The spelling of one character. A mark that would be drawn over the opening quote is spelled by
its number at the start of a text only. -/
def escapedChar (atStart : Bool) (c : Char) : String :=
  match c with
  | '\x00' => "\\0"
  | '\t' => "\\t"
  | '\r' => "\\r"
  | '\n' => "\\n"
  | '\\' => "\\\\"
  | '\'' => "\\'"
  | '"' => "\\\""
  | c =>
    if (atStart && extendsGrapheme c) || isUnprintable c then "\\u\x7b" ++ hex c.toNat ++ "\x7d"
    else c.toString

def escaped (text : String) : String :=
  match text.toList with
  | [] => ""
  | c :: cs => escapedChar true c ++ String.join (cs.map (escapedChar false))

/-- The visible ASCII characters, the blank not among them. -/
def isGraphic (b : UInt8) : Bool := decide (33 ≤ b ∧ b ≤ 126)

def charOfByte (b : UInt8) : Char := Char.ofNat b.toNat

/-- The spelling of one byte of a program's data. -/
def escapedByte (b : UInt8) : String :=
  match charOfByte b with
  | '\t' => "\\t"
  | '\r' => "\\r"
  | '\n' => "\\n"
  | '\'' => "\\'"
  | '"' => "\\\""
  | '\\' => "\\\\"
  | c => if isGraphic b || b = 32 then c.toString else "\\x" ++ hexByte b

end BoundedC.Text
