import BoundedC.Reader.Body
import BoundedC.Token.Lexer

/-!
# From a text to a program

`compile` cuts a text into tokens and reads them; what it refuses, it refuses with the place of the
fault.
-/

namespace BoundedC

inductive CompileError where
  | lex (error : LexError)
  | parse (error : ParseError)
  deriving DecidableEq

namespace CompileError

def message : CompileError → String
  | lex e => e.message
  | parse e => e.message

def place : CompileError → Location
  | lex e => e.place
  | parse e => e.place

def kind : CompileError → String
  | lex _ => "LexError"
  | parse _ => "ParseError"

end CompileError

/-- The program that a text spells. -/
def compile (text : String) : Except CompileError Program := do
  let tokens ← (tokenize text).mapError .lex
  (Program.ofTokens tokens).mapError .parse

theorem compile_ofList (chars : List Char) :
    compile (String.ofList chars) = ((Cursor.ofList chars).tokens.1.mapError CompileError.lex).bind
      fun tokens => (Program.ofTokens tokens).mapError .parse := by
  rw [← tokenize_ofList]
  rfl

theorem eq_ok_of_toOption {ε α : Type} {x : Except ε α} {a : α} (h : x.toOption = some a) :
    x = .ok a := by
  cases x with
  | error e => cases h
  | ok b => exact congrArg Except.ok (Option.some.inj h)

/-- If the reading of a text gives a program that passes a check, the text is accepted. -/
theorem exists_compile_of_any {chars : List Char} {check : Program → Bool}
    (h : (((Cursor.ofList chars).tokens.1.mapError CompileError.lex).bind fun tokens =>
      (Program.ofTokens tokens).mapError .parse).toOption.any check = true) :
    ∃ program, compile (String.ofList chars) = .ok program ∧ check program = true := by
  rw [← compile_ofList] at h
  obtain ⟨program, hprogram, hcheck⟩ := (Option.any_eq_true _ _).1 h
  exact ⟨program, eq_ok_of_toOption hprogram, hcheck⟩

end BoundedC
