import BoundedC.Location
import BoundedC.Text.Escaped

/-!
# Tokens

A token is a literal, an identifier, a keyword, a symbol or the end of the text, together with the
place where it starts. `Keyword.spelling` and `Symbol.spelling` are the texts that stand for them;
`Keyword.ofWord?`, `Symbol.ofPair?` and `Symbol.ofChar?` read them back. `TokenKind.describe` is the
wording of diagnostics.
-/

namespace BoundedC

inductive Keyword where
  | int | char | void | const
  | ifWord | elseWord | whileWord | forWord | returnWord | breakWord | continueWord
  deriving DecidableEq, Repr

inductive Symbol where
  | plus | minus | star | slash | percent
  | equalEqual | bangEqual | less | lessEqual | greater | greaterEqual
  | ampAmp | barBar | bang | amp
  | equal | plusEqual | minusEqual | starEqual | slashEqual | percentEqual
  | plusPlus | minusMinus
  | leftParen | rightParen | leftBrace | rightBrace | leftBracket | rightBracket
  | semicolon | comma
  deriving DecidableEq, Repr

/-- What a token is. A string literal carries its text with the escapes replaced. -/
inductive TokenKind where
  | int (value : Int32)
  | char (value : Int8)
  | string (text : String)
  | identifier (name : String)
  | keyword (word : Keyword)
  | symbol (symbol : Symbol)
  | endOfFile
  deriving DecidableEq

/-- A token and the place of its first character. -/
structure Token where
  kind : TokenKind
  place : Location
  deriving DecidableEq

namespace Keyword

def spelling : Keyword → String
  | int => "int"
  | char => "char"
  | void => "void"
  | const => "const"
  | ifWord => "if"
  | elseWord => "else"
  | whileWord => "while"
  | forWord => "for"
  | returnWord => "return"
  | breakWord => "break"
  | continueWord => "continue"

def ofWord? : String → Option Keyword
  | "int" => some int
  | "char" => some char
  | "void" => some void
  | "const" => some const
  | "if" => some ifWord
  | "else" => some elseWord
  | "while" => some whileWord
  | "for" => some forWord
  | "return" => some returnWord
  | "break" => some breakWord
  | "continue" => some continueWord
  | _ => none

theorem ofWord?_spelling (k : Keyword) : ofWord? k.spelling = some k := by
  cases k <;> rfl

end Keyword

namespace Symbol

def spelling : Symbol → String
  | plus => "+"
  | minus => "-"
  | star => "*"
  | slash => "/"
  | percent => "%"
  | equalEqual => "=="
  | bangEqual => "!="
  | less => "<"
  | lessEqual => "<="
  | greater => ">"
  | greaterEqual => ">="
  | ampAmp => "&&"
  | barBar => "||"
  | bang => "!"
  | amp => "&"
  | equal => "="
  | plusEqual => "+="
  | minusEqual => "-="
  | starEqual => "*="
  | slashEqual => "/="
  | percentEqual => "%="
  | plusPlus => "++"
  | minusMinus => "--"
  | leftParen => "("
  | rightParen => ")"
  | leftBrace => "\x7b"
  | rightBrace => "\x7d"
  | leftBracket => "["
  | rightBracket => "]"
  | semicolon => ";"
  | comma => ","

def ofPair? : Char → Char → Option Symbol
  | '+', '+' => some plusPlus
  | '+', '=' => some plusEqual
  | '-', '-' => some minusMinus
  | '-', '=' => some minusEqual
  | '*', '=' => some starEqual
  | '/', '=' => some slashEqual
  | '%', '=' => some percentEqual
  | '=', '=' => some equalEqual
  | '!', '=' => some bangEqual
  | '<', '=' => some lessEqual
  | '>', '=' => some greaterEqual
  | '&', '&' => some ampAmp
  | '|', '|' => some barBar
  | _, _ => none

def ofChar? : Char → Option Symbol
  | '+' => some plus
  | '-' => some minus
  | '*' => some star
  | '/' => some slash
  | '%' => some percent
  | '=' => some equal
  | '!' => some bang
  | '<' => some less
  | '>' => some greater
  | '&' => some amp
  | '(' => some leftParen
  | ')' => some rightParen
  | '\x7b' => some leftBrace
  | '\x7d' => some rightBrace
  | '[' => some leftBracket
  | ']' => some rightBracket
  | ';' => some semicolon
  | ',' => some comma
  | _ => none

end Symbol

namespace TokenKind

def describe : TokenKind → String
  | int n => "int literal " ++ toString n.toInt
  | char c =>
    let b := c.toUInt8
    "char literal '" ++
      (if Text.isGraphic b || b = 32 then (Text.charOfByte b).toString else "\\x" ++ Text.hexByte b)
      ++ "'"
  | string text => "string literal \"" ++ Text.escaped text ++ "\""
  | identifier name => "identifier '" ++ name ++ "'"
  | keyword k => "'" ++ k.spelling ++ "'"
  | symbol s => "'" ++ s.spelling ++ "'"
  | endOfFile => "end of file"

end TokenKind

end BoundedC
