import Mathlib.Data.List.TakeWhile
import Mathlib.Data.Nat.Digits.Defs
import BoundedC.Token.Lexer

/-!
# How tokens are spelled

The words of the language, apart from how they are read: what may stand between tokens, and which
characters a token may be written with.

* `IsGap` : blanks, comments and directives, `IsLastGap` the same at the end of a text;
* `Quoted.eq_of_append` : a string ends at its first quote that no backslash escapes;
* `Escape`, `unescape?_eq_some_iff` : what may stand behind a backslash;
* `TokenKind.Spelling` : the spellings of a token;
* `TokenKind.Spelling.isTail` : the first character of a spelling tells what may follow.
-/

namespace BoundedC

/-! ## Gaps -/

/-- The parts of what stands between tokens. Comments and directives that end with their line include
the newline. -/
inductive Filler : List Char → Prop
  | blank {c : Char} (h : isBlank c = true) : Filler [c]
  | comment {line : List Char} (h : '\n' ∉ line) : Filler ('/' :: '/' :: line ++ ['\n'])
  | directive {line : List Char} (h : '\n' ∉ line) : Filler ('#' :: line ++ ['\n'])
  | block {body : List Char} (h : ¬ ['*', '/'] <:+: body) :
    Filler ('/' :: '*' :: body ++ ['*', '/'])

/-- What may stand in front of a token. -/
inductive IsGap : List Char → Prop
  | nil : IsGap []
  | cons {filler gap : List Char} (hfiller : Filler filler) (hgap : IsGap gap) :
    IsGap (filler ++ gap)

/-- A line that ends with the text and not with a newline: nothing, a comment or a directive. -/
inductive IsOpenLine : List Char → Prop
  | nil : IsOpenLine []
  | comment {line : List Char} (h : '\n' ∉ line) : IsOpenLine ('/' :: '/' :: line)
  | directive {line : List Char} (h : '\n' ∉ line) : IsOpenLine ('#' :: line)

/-- What may stand behind the last token of a text. -/
def IsLastGap (cs : List Char) : Prop := ∃ gap line, IsGap gap ∧ IsOpenLine line ∧ cs = gap ++ line

/-- A gap begins with a blank, a directive or a comment. -/
theorem IsLastGap.first_cases {first : Char} {cs : List Char} (h : IsLastGap (first :: cs)) :
    isBlank first = true ∨ first = '#' ∨
      first = '/' ∧ ∃ second rest, cs = second :: rest ∧ (second = '/' ∨ second = '*') := by
  obtain ⟨gap, line, hgap, hline, heq⟩ := h
  cases hgap with
  | nil =>
    cases hline with
    | nil => cases heq
    | comment =>
      cases heq
      exact .inr (.inr ⟨rfl, _, _, rfl, .inl rfl⟩)
    | directive =>
      cases heq
      exact .inr (.inl rfl)
  | cons hfiller =>
    cases hfiller with
    | blank hblank =>
      cases heq
      exact .inl hblank
    | comment =>
      cases heq
      exact .inr (.inr ⟨rfl, _, _, rfl, .inl rfl⟩)
    | directive =>
      cases heq
      exact .inr (.inl rfl)
    | block =>
      cases heq
      exact .inr (.inr ⟨rfl, _, _, rfl, .inr rfl⟩)

/-! ## Strings -/

/-- What is meant by a character behind a backslash. -/
inductive Escape : Char → Char → Prop
  | newline : Escape 'n' '\n'
  | tab : Escape 't' '\t'
  | carriageReturn : Escape 'r' '\r'
  | null : Escape '0' '\x00'
  | backslash : Escape '\\' '\\'
  | apostrophe : Escape '\'' '\''
  | quote : Escape '"' '"'

theorem unescape?_eq_some_iff {e value : Char} : unescape? e = some value ↔ Escape e value := by
  constructor
  · intro h
    unfold unescape? at h
    split at h <;> cases h <;> constructor
  · rintro ⟨⟩ <;> rfl

/-- What stands between the quotes of a string, and the characters that are meant by it. -/
inductive Quoted : List Char → List Char → Prop
  | nil : Quoted [] []
  | plain {c : Char} {cs text : List Char} (hquote : c ≠ '"') (hbackslash : c ≠ '\\')
    (hnewline : c ≠ '\n') (hmore : Quoted cs text) : Quoted (c :: cs) (c :: text)
  | escape {e value : Char} {cs text : List Char} (hvalue : Escape e value)
    (hmore : Quoted cs text) : Quoted ('\\' :: e :: cs) (value :: text)

/-- A string ends at its first quote that no backslash escapes. -/
theorem Quoted.eq_of_append {body body' text text' rest rest' : List Char} (h : Quoted body text)
    (h' : Quoted body' text') (heq : body ++ '"' :: rest = body' ++ '"' :: rest') :
    body = body' := by
  induction h generalizing body' text' with
  | nil =>
    cases h' with
    | nil => rfl
    | plain hquote =>
      cases heq
      exact absurd rfl hquote
    | escape => cases heq
  | plain hquote hbackslash _ _ ih =>
    cases h' with
    | nil =>
      cases heq
      exact absurd rfl hquote
    | plain _ _ _ hmore =>
      obtain ⟨rfl, htail⟩ := List.cons.inj heq
      rw [ih hmore htail]
    | escape => exact absurd (List.cons.inj heq).1 hbackslash
  | escape _ _ ih =>
    cases h' with
    | nil => cases heq
    | plain _ hbackslash => exact absurd (List.cons.inj heq).1.symm hbackslash
    | escape _ hmore =>
      obtain ⟨rfl, htail⟩ := List.cons.inj (List.cons.inj heq).2
      rw [ih hmore htail]

/-! ## Tokens -/

theorem Keyword.eq_spelling_of_ofWord? {word : String} {k : Keyword}
    (h : Keyword.ofWord? word = some k) : word = k.spelling := by
  unfold ofWord? at h
  split at h <;> cases h <;> rfl

theorem Symbol.spelling_of_ofPair? {first second : Char} {s : Symbol}
    (h : ofPair? first second = some s) : s.spelling.toList = [first, second] := by
  unfold ofPair? at h
  split at h <;> cases h <;> rfl

theorem Symbol.spelling_of_ofChar? {first : Char} {s : Symbol} (h : ofChar? first = some s) :
    s.spelling.toList = [first] := by
  unfold ofChar? at h
  split at h <;> cases h <;> rfl

/-- A keyword is a word like an identifier. -/
theorem Keyword.isWord (k : Keyword) {first : Char} {more : List Char}
    (h : k.spelling.toList = first :: more) :
    isWordStart first = true ∧ ∀ c ∈ more, isWordPart c = true := by
  have hword : ∃ first more, k.spelling.toList = first :: more ∧ isWordStart first = true ∧
      more.all isWordPart = true := by
    cases k <;> exact ⟨_, _, rfl, by decide, by decide⟩
  obtain ⟨_, _, hspelling, hfirst, hmore⟩ := hword
  obtain ⟨rfl, rfl⟩ := List.cons.inj (h.symm.trans hspelling)
  exact ⟨hfirst, List.all_eq_true.1 hmore⟩

/-- A symbol is one character or a pair, and begins like no other token. -/
theorem Symbol.exists_spelling (s : Symbol) : ∃ first more, s.spelling.toList = first :: more ∧
    first ≠ '"' ∧ first ≠ '\'' ∧ ¬ first.isDigit = true ∧ ¬ isWordStart first = true ∧
    (more = [] ∧ ofChar? first = some s ∨ ∃ second, more = [second] ∧ ofPair? first second = some s) := by
  cases s <;> first
    | exact ⟨_, _, rfl, by decide, by decide, by decide, by decide, .inl ⟨rfl, rfl⟩⟩
    | exact ⟨_, _, rfl, by decide, by decide, by decide, by decide, .inr ⟨_, rfl, rfl⟩⟩

def valueOfDigits (digits : List Char) : Nat :=
  Nat.ofDigits 10 (digits.reverse.map fun d => d.toNat - '0'.toNat)

/-- The ways to spell a token. The end of a text is not spelled. -/
inductive TokenKind.Spelling : TokenKind → List Char → Prop
  | keyword (k : Keyword) : Spelling (.keyword k) k.spelling.toList
  | identifier {name : String} {first : Char} {more : List Char} (hname : name.toList = first :: more)
    (hfirst : isWordStart first = true) (hmore : ∀ c ∈ more, isWordPart c = true)
    (hfree : ∀ k : Keyword, name ≠ k.spelling) : Spelling (.identifier name) name.toList
  | int {value : Int32} {digits : List Char} (hne : digits ≠ [])
    (hdigits : ∀ d ∈ digits, d.isDigit = true) (hvalue : value.toInt = valueOfDigits digits) :
    Spelling (.int value) digits
  | char {c : Char} (hquote : c ≠ '\'') (hbackslash : c ≠ '\\') (hnewline : c ≠ '\n')
    (hascii : c.toNat < 128) : Spelling (.char (Int8.ofNat c.toNat)) ['\'', c, '\'']
  | escapedChar {e value : Char} (hvalue : Escape e value) :
    Spelling (.char (Int8.ofNat value.toNat)) ['\'', '\\', e, '\'']
  | string {text : String} {body : List Char} (hbody : Quoted body text.toList) :
    Spelling (.string text) ('"' :: body ++ ['"'])
  | symbol (s : Symbol) : Spelling (.symbol s) s.spelling.toList

namespace TokenKind

variable {kind : TokenKind} {span : List Char}

theorem Spelling.ne_endOfFile (h : kind.Spelling span) : kind ≠ .endOfFile := by
  cases h <;> nofun

theorem Spelling.ne_nil (h : kind.Spelling span) : span ≠ [] := by
  cases h with
  | keyword k => cases k <;> decide
  | identifier hname => rw [hname]; nofun
  | int hne => exact hne
  | symbol s => cases s <;> decide
  | _ => nofun

end TokenKind

/-! ## Spellings by their first character -/

/-- What may stand behind the first character of a spelling. -/
def IsTail (first : Char) (more : List Char) : Prop :=
  if first = '"' then ∃ body text, Quoted body text ∧ more = body ++ ['"']
  else if first = '\'' then (∃ c, c ≠ '\\' ∧ more = [c, '\'']) ∨ ∃ e, more = ['\\', e, '\'']
  else if first.isDigit then ∀ d ∈ more, d.isDigit = true
  else if isWordStart first then ∀ c ∈ more, isWordPart c = true
  else more = [] ∨ ∃ second s, more = [second] ∧ Symbol.ofPair? first second = some s

theorem isDigit_eq_false_of_isWordStart {c : Char} (h : isWordStart c = true) :
    c.isDigit = false := by
  rw [Bool.eq_false_iff]
  intro hdigit
  have hnine : c.toNat ≤ '9'.toNat := of_decide_eq_true (Bool.and_eq_true_iff.1 hdigit).2
  rcases Bool.or_eq_true_iff.1 h with h | h
  · rcases Bool.or_eq_true_iff.1 h with h | h
    · have hle : 'A'.toNat ≤ c.toNat := (of_decide_eq_true h).1
      exact absurd (Nat.le_trans hle hnine) (by decide)
    · have hle : 'a'.toNat ≤ c.toNat := of_decide_eq_true (Bool.and_eq_true_iff.1 h).1
      exact absurd (Nat.le_trans hle hnine) (by decide)
  · rw [of_decide_eq_true h] at hnine
    exact absurd hnine (by decide)

section Tails

variable {first : Char} {more : List Char}

theorem isTail_quote_iff :
    IsTail '"' more ↔ ∃ body text, Quoted body text ∧ more = body ++ ['"'] := by
  rw [IsTail, if_pos rfl]

theorem isTail_apostrophe_iff :
    IsTail '\'' more ↔ (∃ c, c ≠ '\\' ∧ more = [c, '\'']) ∨ ∃ e, more = ['\\', e, '\''] := by
  rw [IsTail, if_neg (by decide), if_pos rfl]

theorem isTail_digit_iff (hfirst : first.isDigit = true) :
    IsTail first more ↔ ∀ d ∈ more, d.isDigit = true := by
  have hquote : first ≠ '"' := by
    rintro rfl
    exact absurd hfirst (by decide)
  have hapostrophe : first ≠ '\'' := by
    rintro rfl
    exact absurd hfirst (by decide)
  rw [IsTail, if_neg hquote, if_neg hapostrophe, if_pos hfirst]

theorem isTail_word_iff (hfirst : isWordStart first = true) :
    IsTail first more ↔ ∀ c ∈ more, isWordPart c = true := by
  have hquote : first ≠ '"' := by
    rintro rfl
    exact absurd hfirst (by decide)
  have hapostrophe : first ≠ '\'' := by
    rintro rfl
    exact absurd hfirst (by decide)
  rw [IsTail, if_neg hquote, if_neg hapostrophe, isDigit_eq_false_of_isWordStart hfirst, if_neg nofun,
    if_pos hfirst]

theorem isTail_other_iff (hquote : first ≠ '"') (hapostrophe : first ≠ '\'')
    (hdigit : ¬ first.isDigit = true) (hword : ¬ isWordStart first = true) :
    IsTail first more ↔
      more = [] ∨ ∃ second s, more = [second] ∧ Symbol.ofPair? first second = some s := by
  rw [IsTail, if_neg hquote, if_neg hapostrophe, if_neg hdigit, if_neg hword]

theorem isTail_of_keyword (k : Keyword) (h : k.spelling.toList = first :: more) :
    IsTail first more := by
  obtain ⟨hfirst, hmore⟩ := k.isWord h
  exact (isTail_word_iff hfirst).2 hmore

theorem isTail_of_symbol (s : Symbol) (h : s.spelling.toList = first :: more) :
    IsTail first more := by
  obtain ⟨_, _, hspelling, hquote, hapostrophe, hdigit, hword, hmore⟩ := s.exists_spelling
  obtain ⟨rfl, rfl⟩ := List.cons.inj (h.symm.trans hspelling)
  refine (isTail_other_iff hquote hapostrophe hdigit hword).2 ?_
  rcases hmore with ⟨hnil, -⟩ | ⟨second, hmore, hs⟩
  · exact .inl hnil
  · exact .inr ⟨second, s, hmore, hs⟩

/-- The first character of a spelling tells what may follow. -/
theorem TokenKind.Spelling.isTail {kind : TokenKind} (h : kind.Spelling (first :: more)) :
    IsTail first more := by
  generalize hspan : first :: more = span at h
  cases h with
  | keyword k => exact isTail_of_keyword k hspan.symm
  | identifier hname hfirst hmore =>
    obtain ⟨rfl, rfl⟩ := List.cons.inj (hspan.trans hname)
    exact (isTail_word_iff hfirst).2 hmore
  | int hne hdigits =>
    subst hspan
    obtain ⟨hfirst, hmore⟩ := List.forall_mem_cons.1 hdigits
    exact (isTail_digit_iff hfirst).2 hmore
  | char hquote hbackslash =>
    cases hspan
    exact .inl ⟨_, hbackslash, rfl⟩
  | escapedChar =>
    cases hspan
    exact .inr ⟨_, rfl⟩
  | string hbody =>
    cases hspan
    exact ⟨_, _, hbody, rfl⟩
  | symbol s => exact isTail_of_symbol s hspan.symm

end Tails

end BoundedC
