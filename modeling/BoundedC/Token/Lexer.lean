import BoundedC.Token

/-!
# Cutting a text into tokens

`Cursor` is what is left of a text and the place where it starts. `Cursor.skipGap` passes over blanks,
comments and lines that start with `#`; `Cursor.nextToken` passes over a gap and reads one token. All
readers return the cursor behind what they have read, also when they fail, so a text can be read on
from where an error left off.

`Lexer` adds the text to go back to and a flag that ends the sequence of tokens behind the end of the
text or behind the first error.
-/

namespace BoundedC

/-- What is wrong with a text that cannot be cut into tokens. -/
inductive LexFault where
  | unexpected (c : Char)
  | unterminatedString
  | unterminatedChar
  | emptyChar
  | wideChar (c : Char)
  | escapeAtEnd
  | unknownEscape (c : Char)
  | malformedInteger (digits : String) (next : Char)
  | integerOutOfRange (digits : String)
  | unterminatedComment
  deriving DecidableEq, Repr

structure LexError where
  fault : LexFault
  place : Location
  deriving DecidableEq, Repr

def LexFault.message : LexFault → String
  | unexpected c => "Unexpected character: '" ++ c.toString ++ "'"
  | unterminatedString => "Unterminated string literal"
  | unterminatedChar => "Unterminated character literal"
  | emptyChar => "Empty character literal"
  | wideChar c => "Character '" ++ c.toString ++ "' does not fit in a char"
  | escapeAtEnd => "Unexpected end of file in escape sequence"
  | unknownEscape c => "Unknown escape sequence: \\" ++ c.toString
  | malformedInteger digits next => "Invalid integer literal: " ++ digits ++ next.toString
  | integerOutOfRange digits => "Integer literal out of range: " ++ digits
  | unterminatedComment => "Unterminated block comment"

def LexError.message (e : LexError) : String :=
  s!"Lexer error at {e.place.describe}: {e.fault.message}"

/-- The rest of a text and the place of its first character. -/
structure Cursor where
  rest : List Char
  place : Location
  deriving DecidableEq, Repr

/-! ## Classes of characters -/

def isBlank (c : Char) : Bool := c = ' ' || c = '\t' || c = '\r' || c = '\n'

/-- The characters an identifier may start with: ASCII letters and the underscore. -/
def isWordStart (c : Char) : Bool := c.isAlpha || c = '_'

def isWordPart (c : Char) : Bool := c.isAlphanum || c = '_'

/-- The character that a backslash and the given character stand for. -/
def unescape? : Char → Option Char
  | 'n' => some '\n'
  | 't' => some '\t'
  | 'r' => some '\r'
  | '0' => some '\x00'
  | '\\' => some '\\'
  | '\'' => some '\''
  | '"' => some '"'
  | _ => none

namespace Cursor

def ofList (text : List Char) : Cursor := ⟨text, .start⟩

/-! ## Gaps -/

/-- What kind of gap is being passed over. -/
inductive Gap where
  /-- blanks -/
  | blank
  /-- a comment or a directive that ends with its line -/
  | line
  /-- a block comment that was opened at the given place -/
  | block (opened : Location)

/-- Pass over blanks, comments and directives, up to the next token. -/
def skipGapFrom : Gap → List Char → Location → Except LexError Unit × Cursor
  | .blank, '/' :: '/' :: cs, l => skipGapFrom .line cs ((l.after '/').after '/')
  | .blank, '/' :: '*' :: cs, l => skipGapFrom (.block l) cs ((l.after '/').after '*')
  | .blank, '#' :: cs, l => skipGapFrom .line cs (l.after '#')
  | .blank, c :: cs, l =>
    if isBlank c then skipGapFrom .blank cs (l.after c) else (.ok (), ⟨c :: cs, l⟩)
  | .line, c :: cs, l => skipGapFrom (if c = '\n' then .blank else .line) cs (l.after c)
  | .block _, '*' :: '/' :: cs, l => skipGapFrom .blank cs ((l.after '*').after '/')
  | .block opened, c :: cs, l => skipGapFrom (.block opened) cs (l.after c)
  | .block opened, [], l => (.error ⟨.unterminatedComment, opened⟩, ⟨[], l⟩)
  | .blank, [], l => (.ok (), ⟨[], l⟩)
  | .line, [], l => (.ok (), ⟨[], l⟩)

def skipGap (c : Cursor) : Except LexError Unit × Cursor := skipGapFrom .blank c.rest c.place

/-! ## Literals and words

Each reader is given the place where its token starts and the cursor behind the token's first
character. -/

def readEscape (c : Cursor) : Except LexError Char × Cursor :=
  match c.rest with
  | [] => (.error ⟨.escapeAtEnd, c.place⟩, c)
  | e :: cs =>
    let behind := ⟨cs, c.place.after e⟩
    match unescape? e with
    | some value => (.ok value, behind)
    | none => (.error ⟨.unknownEscape e, c.place⟩, behind)

/-- The rest of a string literal, behind the characters `read` (the last one first). -/
def readStringFrom (start : Location) (read : List Char) :
    List Char → Location → Except LexError TokenKind × Cursor
  | '"' :: cs, l => (.ok (.string (String.ofList read.reverse)), ⟨cs, l.after '"'⟩)
  | '\n' :: cs, l => (.error ⟨.unterminatedString, start⟩, ⟨'\n' :: cs, l⟩)
  | '\\' :: e :: cs, l =>
    match unescape? e with
    | some value => readStringFrom start (value :: read) cs ((l.after '\\').after e)
    | none => (.error ⟨.unknownEscape e, l.after '\\'⟩, ⟨cs, (l.after '\\').after e⟩)
  | '\\' :: [], l => (.error ⟨.escapeAtEnd, l.after '\\'⟩, ⟨[], l.after '\\'⟩)
  | c :: cs, l => readStringFrom start (c :: read) cs (l.after c)
  | [], l => (.error ⟨.unterminatedString, start⟩, ⟨[], l⟩)

def closeChar (start : Location) (value : Char) (c : Cursor) : Except LexError TokenKind × Cursor :=
  match c.rest with
  | '\'' :: cs => (.ok (.char (Int8.ofNat value.toNat)), ⟨cs, c.place.after '\''⟩)
  | other :: cs => (.error ⟨.unterminatedChar, start⟩, ⟨cs, c.place.after other⟩)
  | [] => (.error ⟨.unterminatedChar, start⟩, c)

/-- The rest of a character literal: one ASCII character or an escape, and the closing quote. -/
def readChar (start : Location) (c : Cursor) : Except LexError TokenKind × Cursor :=
  match c.rest with
  | [] => (.error ⟨.unterminatedChar, start⟩, c)
  | first :: cs =>
    let behind := ⟨cs, c.place.after first⟩
    if first = '\n' then (.error ⟨.unterminatedChar, start⟩, behind)
    else if first = '\'' then (.error ⟨.emptyChar, start⟩, behind)
    else if first = '\\' then
      match readEscape behind with
      | (.ok value, behind) => closeChar start value behind
      | (.error e, behind) => (.error e, behind)
    else if first.toNat < 128 then closeChar start first behind
    else (.error ⟨.wideChar first, start⟩, behind)

/-- The longest run of characters of a class, and the cursor behind it. -/
def span (p : Char → Bool) (c : Cursor) : List Char × Cursor :=
  let run := c.rest.takeWhile p
  (run, ⟨c.rest.dropWhile p, c.place.afterAll run⟩)

def decimal (digits : List Char) : Nat := digits.foldl (fun n d => 10 * n + (d.toNat - 48)) 0

/-- The token of a run of digits, which a letter must not follow. -/
def integerToken (start : Location) (digits : List Char) (next : Option Char) :
    Except LexError TokenKind :=
  match next.filter isWordStart with
  | some letter => .error ⟨.malformedInteger (String.ofList digits) letter, start⟩
  | none =>
    if decimal digits < 0x80000000 then .ok (.int (Int32.ofNat (decimal digits)))
    else .error ⟨.integerOutOfRange (String.ofList digits), start⟩

def readInteger (start : Location) (first : Char) (c : Cursor) :
    Except LexError TokenKind × Cursor :=
  let (more, behind) := c.span Char.isDigit
  (integerToken start (first :: more) behind.rest.head?, behind)

def readWord (first : Char) (c : Cursor) : TokenKind × Cursor :=
  let (more, behind) := c.span isWordPart
  let word := String.ofList (first :: more)
  match Keyword.ofWord? word with
  | some k => (.keyword k, behind)
  | none => (.identifier word, behind)

def singleSymbol (start : Location) (first : Char) : Except LexError TokenKind :=
  match Symbol.ofChar? first with
  | some s => .ok (.symbol s)
  | none => .error ⟨.unexpected first, start⟩

/-- The symbol that starts with `first`: two characters long if two fit. -/
def readSymbol (start : Location) (first : Char) (c : Cursor) : Except LexError TokenKind × Cursor :=
  match c.rest with
  | [] => (singleSymbol start first, c)
  | next :: cs =>
    match Symbol.ofPair? first next with
    | some s => (.ok (.symbol s), ⟨cs, c.place.after next⟩)
    | none => (singleSymbol start first, c)

/-! ## Tokens -/

/-- The token at the cursor, which stands behind a gap. -/
def readToken (c : Cursor) : Except LexError Token × Cursor :=
  match c.rest with
  | [] => (.ok ⟨.endOfFile, c.place⟩, c)
  | first :: cs =>
    let behind := ⟨cs, c.place.after first⟩
    let (kind, behind) :=
      if first = '"' then readStringFrom c.place [] behind.rest behind.place
      else if first = '\'' then readChar c.place behind
      else if first.isDigit then readInteger c.place first behind
      else if isWordStart first then
        let (kind, behind) := readWord first behind
        (.ok kind, behind)
      else readSymbol c.place first behind
    (kind.map (⟨·, c.place⟩), behind)

/-- The next token of the text, behind a gap. At the end of the text it is the end. -/
def nextToken (c : Cursor) : Except LexError Token × Cursor :=
  match c.skipGap with
  | (.error e, c) => (.error e, c)
  | (.ok (), c) => c.readToken

/-- The tokens up to the end of the text or the first error, `bound` of them at most. -/
def tokensUpTo : Nat → Cursor → Except LexError (List Token) × Cursor
  | 0, c => (.ok [], c)
  | bound + 1, c =>
    match c.nextToken with
    | (.error e, c) => (.error e, c)
    | (.ok token, c) =>
      if token.kind = .endOfFile then (.ok [token], c)
      else
        let (more, c) := tokensUpTo bound c
        (more.map (token :: ·), c)

/-- The tokens up to the end of the text. Every token but the last takes a character, so the number
of characters bounds their number. -/
def tokens (c : Cursor) : Except LexError (List Token) × Cursor := tokensUpTo (c.rest.length + 1) c

end Cursor

structure Lexer where
  text : List Char
  cursor : Cursor
  /-- whether the end of the text, or an error, has been handed out -/
  finished : Bool
  deriving DecidableEq, Repr

namespace Lexer

def ofString (text : String) : Lexer := ⟨text.toList, .ofList text.toList, false⟩

def reset (l : Lexer) : Lexer := ⟨l.text, .ofList l.text, false⟩

/-- Read the next token, whether or not the sequence has ended. -/
def nextToken (l : Lexer) : Except LexError Token × Lexer :=
  let (outcome, cursor) := l.cursor.nextToken
  (outcome, { l with cursor })

/-- Whether the sequence of tokens ends with this outcome. -/
def isLast : Except LexError Token → Bool
  | .ok token => token.kind = .endOfFile
  | .error _ => true

def next (l : Lexer) : Option (Except LexError Token) × Lexer :=
  if l.finished then (none, l)
  else
    let (outcome, l) := l.nextToken
    (some outcome, { l with finished := isLast outcome })

/-- The rest of the sequence of tokens. -/
def tokenize (l : Lexer) : Except LexError (List Token) × Lexer :=
  if l.finished then (.ok [], l)
  else
    let (outcome, cursor) := l.cursor.tokens
    (outcome, { l with cursor, finished := true })

end Lexer

/-- The tokens of a text, the last of which is its end. -/
def tokenize (text : String) : Except LexError (List Token) := (Lexer.ofString text).tokenize.1

theorem tokenize_ofList (chars : List Char) :
    tokenize (String.ofList chars) = (Cursor.ofList chars).tokens.1 := by
  show (Cursor.ofList (String.ofList chars).toList).tokens.1 = _
  rw [String.toList_ofList]

end BoundedC
