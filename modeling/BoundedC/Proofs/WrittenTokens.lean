import BoundedC.Proofs.Spans

/-!
# Texts that are written from tokens

A text that is written token by token is cut into just these tokens, whatever spellings are chosen and
whatever keeps them apart, as long as it begins with a blank. Behind a blank no token goes on, so each
spelling is read alone; and no spelling begins a comment, so none is passed over.

* `IsSeparator`, `Written` : what keeps two tokens apart, and the texts that are written in this way;
* `Cursor.skipGapFrom_append` : a gap is passed over, whatever stands behind it;
* `Cursor.readToken_append` : a spelling is read as its token in front of a blank and at the end;
* `tokenize_of_written` : the tokens of a text that is written from tokens.
-/

namespace BoundedC

/-! ## Texts -/

/-- What may stand between two tokens, whatever they are: a blank, and then any gap. -/
inductive IsSeparator : List Char → Prop
  | mk {c : Char} {gap : List Char} (hblank : isBlank c = true) (hgap : IsGap gap) :
    IsSeparator (c :: gap)

/-- The text spells tokens of these kinds, one behind the other, with separators between them. A
separator may also stand at the end. -/
inductive Written : List TokenKind → List Char → Prop
  | nil : Written [] []
  | single {kind : TokenKind} {span : List Char} (h : kind.Spelling span) : Written [kind] span
  | cons {kind : TokenKind} {kinds : List TokenKind} {span separator text : List Char}
    (h : kind.Spelling span) (hseparator : IsSeparator separator) (hmore : Written kinds text) :
    Written (kind :: kinds) (span ++ separator ++ text)

/-- The text ends, or goes on with a blank. -/
def Pauses (cs : List Char) : Prop := ∀ c ∈ cs.head?, isBlank c = true

theorem pauses_nil : Pauses [] := nofun

theorem IsSeparator.isGap {cs : List Char} (h : IsSeparator cs) : IsGap cs := by
  cases h with
  | mk hblank hgap => exact .cons (.blank hblank) hgap

theorem IsSeparator.pauses {cs : List Char} (h : IsSeparator cs) (rest : List Char) :
    Pauses (cs ++ rest) := by
  cases h with
  | mk hblank _ =>
    rintro _ ⟨⟩
    exact hblank

theorem isBlank_cases {c : Char} (h : isBlank c = true) : c = ' ' ∨ c = '\t' ∨ c = '\r' ∨ c = '\n' := by
  simpa [isBlank, or_assoc] using h

/-! ## What no token goes on with -/

theorem isWordPart_eq_false_of_isBlank {c : Char} (h : isBlank c = true) : isWordPart c = false := by
  rcases isBlank_cases h with rfl | rfl | rfl | rfl <;> rfl

theorem isWordPart_of_isWordStart {c : Char} (h : isWordStart c = true) : isWordPart c = true := by
  unfold isWordPart Char.isAlphanum
  rcases Bool.or_eq_true_iff.1 h with h | h <;> simp [h]

theorem isWordPart_of_isDigit {c : Char} (h : c.isDigit = true) : isWordPart c = true := by
  unfold isWordPart Char.isAlphanum
  simp [h]

theorem ofPair?_eq_none_of_isBlank (first : Char) {c : Char} (h : isBlank c = true) :
    Symbol.ofPair? first c = none := by
  unfold Symbol.ofPair?
  rcases isBlank_cases h with rfl | rfl | rfl | rfl <;> split <;> simp_all

/-- Characters of a class are the longest run of it where the text pauses. -/
theorem takeWhile_append_of_pauses {p : Char → Bool} {run rest : List Char}
    (hrun : ∀ c ∈ run, p c = true) (hp : ∀ c, isBlank c = true → p c = false) (hrest : Pauses rest) :
    (run ++ rest).takeWhile p = run ∧ (run ++ rest).dropWhile p = rest := by
  rw [List.takeWhile_append_of_pos hrun, List.dropWhile_append_of_pos hrun]
  cases rest with
  | nil => exact ⟨List.append_nil run, rfl⟩
  | cons c rest =>
    have hc := hp c (hrest c rfl)
    rw [List.takeWhile_cons, List.dropWhile_cons, hc]
    exact ⟨List.append_nil run, rfl⟩

namespace Cursor

variable {kind : TokenKind} {span rest : List Char} {l start : Location}

/-! ## Gaps -/

theorem skipGapFrom_line {line : List Char} (h : '\n' ∉ line) (rest : List Char) (l : Location) :
    skipGapFrom .line (line ++ '\n' :: rest) l =
      skipGapFrom .blank rest (l.afterAll (line ++ ['\n'])) := by
  induction line generalizing l with
  | nil => rfl
  | cons c line ih =>
    obtain ⟨hc, hline⟩ := not_or.1 (List.mem_cons.not.1 h)
    rw [List.cons_append, skipGapFrom, if_neg (Ne.symm hc), ih hline]
    rfl

/-- A block comment ends where it is closed first. -/
theorem skipGapFrom_block {body : List Char} (h : ¬ ['*', '/'] <:+: body) (opened : Location)
    (rest : List Char) (l : Location) :
    skipGapFrom (.block opened) (body ++ '*' :: '/' :: rest) l =
      skipGapFrom .blank rest (l.afterAll (body ++ ['*', '/'])) := by
  induction body generalizing l with
  | nil => rfl
  | cons c body ih =>
    obtain ⟨hbegins, hbody⟩ := not_or.1 (List.infix_cons_iff.not.1 h)
    have hclose : ∀ more, c = '*' → body ++ '*' :: '/' :: rest = '/' :: more → False := by
      rintro more rfl heq
      cases body with
      | nil => cases heq
      | cons d body =>
        cases heq
        exact hbegins ⟨body, rfl⟩
    rw [List.cons_append, skipGapFrom]
    · exact ih hbody _
    · exact hclose

theorem skipGapFrom_filler {filler : List Char} (h : Filler filler) (rest : List Char) (l : Location) :
    skipGapFrom .blank (filler ++ rest) l = skipGapFrom .blank rest (l.afterAll filler) := by
  cases h with
  | blank hblank => rcases isBlank_cases hblank with rfl | rfl | rfl | rfl <;> rfl
  | comment hline =>
    rw [List.append_assoc]
    exact skipGapFrom_line hline rest _
  | directive hline =>
    rw [List.append_assoc]
    exact skipGapFrom_line hline rest _
  | block hbody =>
    rw [List.append_assoc]
    exact skipGapFrom_block hbody l rest _

/-- A gap is passed over, whatever stands behind it. -/
theorem skipGapFrom_append {gap : List Char} (h : IsGap gap) (rest : List Char) (l : Location) :
    skipGapFrom .blank (gap ++ rest) l = skipGapFrom .blank rest (l.afterAll gap) := by
  induction h generalizing l with
  | nil => rfl
  | cons hfiller _ ih =>
    rw [List.append_assoc, skipGapFrom_filler hfiller, ih, Location.afterAll_append]

/-- No gap begins at a character that is neither a blank nor the first of a directive or a comment. -/
theorem skipGapFrom_of_stop {first : Char} {cs : List Char} (hblank : isBlank first = false)
    (hhash : first ≠ '#') (hslash : first = '/' → ∀ second ∈ cs.head?, second ≠ '/' ∧ second ≠ '*')
    (l : Location) : skipGapFrom .blank (first :: cs) l = (.ok (), ⟨first :: cs, l⟩) := by
  rw [skipGapFrom]
  · rw [if_neg (Bool.eq_false_iff.1 hblank)]
  · rintro more hfirst rfl
    exact (hslash hfirst '/' rfl).1 rfl
  · rintro more hfirst rfl
    exact (hslash hfirst '*' rfl).2 rfl
  · exact hhash

theorem skipGapFrom_of_ne_slash {first : Char} (hblank : isBlank first = false) (hhash : first ≠ '#')
    (hslash : first ≠ '/') (cs : List Char) (l : Location) :
    skipGapFrom .blank (first :: cs) l = (.ok (), ⟨first :: cs, l⟩) :=
  skipGapFrom_of_stop hblank hhash (fun heq => absurd heq hslash) l

theorem skipGapFrom_of_isWordPart {first : Char} (hfirst : isWordPart first = true) (cs : List Char)
    (l : Location) : skipGapFrom .blank (first :: cs) l = (.ok (), ⟨first :: cs, l⟩) := by
  refine skipGapFrom_of_ne_slash ?_ ?_ ?_ cs l
  · rw [Bool.eq_false_iff]
    intro hblank
    exact Bool.eq_false_iff.1 (isWordPart_eq_false_of_isBlank hblank) hfirst
  · rintro rfl
    exact absurd hfirst (by decide)
  · rintro rfl
    exact absurd hfirst (by decide)

/-- A spelling begins neither with a blank nor like a directive or a comment. -/
theorem skipGap_span (h : kind.Spelling span) (hrest : Pauses rest) (l : Location) :
    skipGap ⟨span ++ rest, l⟩ = (.ok (), ⟨span ++ rest, l⟩) := by
  cases h with
  | keyword k => cases k <;> exact skipGapFrom_of_isWordPart (by decide) _ l
  | identifier hname hfirst =>
    rw [hname]
    exact skipGapFrom_of_isWordPart (isWordPart_of_isWordStart hfirst) _ l
  | int hne hdigits =>
    obtain ⟨first, more, rfl⟩ := List.exists_cons_of_ne_nil hne
    exact skipGapFrom_of_isWordPart (isWordPart_of_isDigit (hdigits first List.mem_cons_self)) _ l
  | char | escapedChar | string => exact skipGapFrom_of_ne_slash rfl (by decide) (by decide) _ l
  | symbol s =>
    cases s with
    | slash =>
      refine skipGapFrom_of_stop rfl (by decide) (fun _ second hsecond => ?_) l
      have hblank := hrest second hsecond
      constructor <;> rintro rfl <;> exact absurd hblank (by decide)
    | slashEqual =>
      refine skipGapFrom_of_stop rfl (by decide) (fun _ second hsecond => ?_) l
      cases hsecond
      decide
    | _ => exact skipGapFrom_of_ne_slash rfl (by decide) (by decide) _ l

/-! ## Tokens -/

theorem readStringFrom_append {body text : List Char} (h : Quoted body text) (start : Location)
    (read rest : List Char) (l : Location) :
    readStringFrom start read (body ++ '"' :: rest) l =
      (.ok (.string (String.ofList (read.reverse ++ text))), ⟨rest, l.afterAll (body ++ ['"'])⟩) := by
  induction h generalizing read l with
  | nil => simp [readStringFrom]
  | @plain c cs text hquote hbackslash hnewline _ ih =>
    rw [List.cons_append, readStringFrom]
    · rw [ih, List.reverse_cons, List.append_assoc]
      rfl
    · exact hquote
    · exact hnewline
    · exact fun _ _ heq _ => hbackslash heq
    · exact fun heq _ => hbackslash heq
  | @escape e value cs text hvalue _ ih =>
    rw [List.cons_append, List.cons_append, readStringFrom]
    · simp only [unescape?_eq_some_iff.2 hvalue]
      rw [ih, List.reverse_cons, List.append_assoc]
      rfl

/-- The run of a class behind the first character of a token. -/
theorem span_append {p : Char → Bool} {run : List Char} (hrun : ∀ c ∈ run, p c = true)
    (hp : ∀ c, isBlank c = true → p c = false) (hrest : Pauses rest) (l : Location) :
    Cursor.span p ⟨run ++ rest, l⟩ = (run, ⟨rest, l.afterAll run⟩) := by
  obtain ⟨htake, hdrop⟩ := takeWhile_append_of_pauses hrun hp hrest
  unfold Cursor.span
  rw [htake, hdrop]

theorem readKind_word {first : Char} {more : List Char} (hfirst : isWordStart first = true)
    (hmore : ∀ c ∈ more, isWordPart c = true) (hrest : Pauses rest) (start l : Location) :
    readKind start first ⟨more ++ rest, l⟩ =
      (.ok (match Keyword.ofWord? (String.ofList (first :: more)) with
        | some k => .keyword k
        | none => .identifier (String.ofList (first :: more))), ⟨rest, l.afterAll more⟩) := by
  have hquote : first ≠ '"' := by
    rintro rfl
    exact absurd hfirst (by decide)
  have hapostrophe : first ≠ '\'' := by
    rintro rfl
    exact absurd hfirst (by decide)
  unfold readKind readWord
  rw [if_neg hquote, if_neg hapostrophe, isDigit_eq_false_of_isWordStart hfirst, if_neg nofun,
    if_pos hfirst, span_append hmore (fun _ => isWordPart_eq_false_of_isBlank) hrest]
  dsimp only
  cases Keyword.ofWord? (String.ofList (first :: more)) <;> rfl

theorem readKind_integer {first : Char} {more : List Char} (hfirst : first.isDigit = true)
    (hmore : ∀ c ∈ more, c.isDigit = true) (hrest : Pauses rest) {value : Int32}
    (hvalue : value.toInt = valueOfDigits (first :: more)) (start l : Location) :
    readKind start first ⟨more ++ rest, l⟩ = (.ok (.int value), ⟨rest, l.afterAll more⟩) := by
  have hquote : first ≠ '"' := by
    rintro rfl
    exact absurd hfirst (by decide)
  have hapostrophe : first ≠ '\'' := by
    rintro rfl
    exact absurd hfirst (by decide)
  have hclass (c : Char) (hblank : isBlank c = true) : c.isDigit = false := by
    rw [Bool.eq_false_iff]
    intro hdigit
    exact Bool.eq_false_iff.1 (isWordPart_eq_false_of_isBlank hblank) (isWordPart_of_isDigit hdigit)
  -- no letter follows the digits
  have hnext : rest.head?.filter isWordStart = none := by
    cases rest with
    | nil => rfl
    | cons c rest =>
      have hpart := isWordPart_eq_false_of_isBlank (hrest c rfl)
      have hstart : isWordStart c ≠ true := fun h =>
        Bool.eq_false_iff.1 hpart (isWordPart_of_isWordStart h)
      simp [hstart]
  have hrange : decimal (first :: more) < 0x80000000 := by
    have hlt := value.toInt_lt
    rw [decimal_eq_valueOfDigits]
    omega
  have hint : Int32.ofNat (decimal (first :: more)) = value := by
    refine Int32.toInt_inj.1 ?_
    rw [Int32.toInt_ofNat_of_lt hrange, hvalue, decimal_eq_valueOfDigits]
  unfold readKind readInteger
  rw [if_neg hquote, if_neg hapostrophe, if_pos hfirst, span_append hmore hclass hrest]
  dsimp only
  rw [integerToken, hnext]
  dsimp only
  rw [if_pos hrange, hint]

/-- A symbol of one character is not taken for the first of a pair. -/
theorem readSymbol_alone {first : Char} {s : Symbol} (hs : Symbol.ofChar? first = some s)
    (hrest : Pauses rest) (start l : Location) :
    readSymbol start first ⟨rest, l⟩ = (.ok (.symbol s), ⟨rest, l⟩) := by
  have hsingle : singleSymbol start first = .ok (.symbol s) := by rw [singleSymbol, hs]
  cases rest with
  | nil => rw [readSymbol, hsingle]
  | cons next rest =>
    rw [readSymbol]
    dsimp only
    rw [ofPair?_eq_none_of_isBlank first (hrest next rfl), hsingle]

theorem readKind_symbol (s : Symbol) {first : Char} {more : List Char}
    (hspan : s.spelling.toList = first :: more) (hrest : Pauses rest) (start l : Location) :
    readKind start first ⟨more ++ rest, l⟩ = (.ok (.symbol s), ⟨rest, l.afterAll more⟩) := by
  obtain ⟨_, _, hspelling, hquote, hapostrophe, hdigit, hword, hmore⟩ := s.exists_spelling
  obtain ⟨rfl, rfl⟩ := List.cons.inj (hspan.symm.trans hspelling)
  unfold readKind
  rw [if_neg hquote, if_neg hapostrophe, if_neg hdigit, if_neg hword]
  rcases hmore with ⟨rfl, hs⟩ | ⟨second, rfl, hs⟩
  · exact readSymbol_alone hs hrest start l
  · rw [List.singleton_append, readSymbol]
    dsimp only
    rw [hs]
    rfl

/-- A spelling is read as its token in front of a blank and at the end of the text. -/
theorem readKind_append {first : Char} {more : List Char} (h : kind.Spelling (first :: more))
    (hrest : Pauses rest) (start l : Location) :
    readKind start first ⟨more ++ rest, l⟩ = (.ok kind, ⟨rest, l.afterAll more⟩) := by
  generalize hspan : first :: more = span at h
  cases h with
  | keyword k =>
    obtain ⟨hfirst, hmore⟩ := k.isWord hspan.symm
    rw [readKind_word hfirst hmore hrest, hspan, String.ofList_toList, Keyword.ofWord?_spelling]
  | @identifier name _ _ hname hfirst hmore hfree =>
    have hword : Keyword.ofWord? name = none := by
      rw [Option.eq_none_iff_forall_ne_some]
      intro k hk
      exact hfree k (Keyword.eq_spelling_of_ofWord? hk)
    obtain ⟨rfl, rfl⟩ := List.cons.inj (hspan.trans hname)
    rw [readKind_word hfirst hmore hrest, hspan, String.ofList_toList, hword]
  | int hne hdigits hvalue =>
    subst hspan
    obtain ⟨hfirst, hmore⟩ := List.forall_mem_cons.1 hdigits
    exact readKind_integer hfirst hmore hrest hvalue start l
  | char hquote hbackslash hnewline hascii =>
    cases hspan
    rw [readKind, if_neg (by decide), if_pos rfl, readChar]
    dsimp only [List.cons_append, List.nil_append]
    rw [if_neg hnewline, if_neg hquote, if_neg hbackslash, if_pos hascii]
    rfl
  | escapedChar hvalue =>
    cases hspan
    rw [readKind, if_neg (by decide), if_pos rfl, readChar]
    dsimp only [List.cons_append, List.nil_append]
    rw [if_neg (by decide), if_neg (by decide), if_pos rfl, readEscape]
    dsimp only
    rw [unescape?_eq_some_iff.2 hvalue]
    rfl
  | @string text body hbody =>
    obtain ⟨rfl, rfl⟩ := List.cons.inj hspan
    have hread := readStringFrom_append hbody start [] rest l
    rw [List.reverse_nil, List.nil_append, String.ofList_toList] at hread
    rw [readKind, if_pos rfl]
    show readStringFrom start [] (body ++ ['"'] ++ rest) l = _
    rw [List.append_assoc]
    exact hread
  | symbol s => exact readKind_symbol s hspan.symm hrest start l

theorem nextToken_append {gap : List Char} (hgap : IsGap gap) (h : kind.Spelling span)
    (hrest : Pauses rest) (l : Location) :
    nextToken ⟨gap ++ (span ++ rest), l⟩ =
      (.ok ⟨kind, l.afterAll gap⟩, ⟨rest, l.afterAll (gap ++ span)⟩) := by
  have hskip : skipGap ⟨gap ++ (span ++ rest), l⟩ = (.ok (), ⟨span ++ rest, l.afterAll gap⟩) :=
    (skipGapFrom_append hgap _ l).trans (skipGap_span h hrest _)
  unfold nextToken
  rw [hskip]
  dsimp only
  obtain ⟨first, more, rfl⟩ := List.exists_cons_of_ne_nil h.ne_nil
  rw [List.cons_append, readToken_cons, readKind_append h hrest, Location.afterAll_append]
  rfl

/-- Behind a gap, a text that is written from tokens has these tokens. -/
theorem exists_tokenizes_of_written {kinds : List TokenKind} {gap text : List Char}
    (h : Written kinds text) (hgap : IsGap gap) (l : Location) :
    ∃ tokens stop, tokens.map Token.kind = kinds ∧ Tokenizes ⟨gap ++ text, l⟩ tokens stop := by
  induction h generalizing gap l with
  | nil =>
    have hnext : nextToken ⟨gap ++ [], l⟩ =
        (.ok ⟨.endOfFile, l.afterAll gap⟩, ⟨[], l.afterAll gap⟩) := by
      unfold nextToken skipGap
      rw [skipGapFrom_append hgap]
      rfl
    exact ⟨[], _, rfl, .last hnext⟩
  | @single kind span hspan =>
    have hnext := nextToken_append hgap hspan pauses_nil l
    rw [List.append_nil] at hnext
    exact ⟨[_], _, rfl, .more hnext hspan.ne_endOfFile (.last rfl)⟩
  | @cons kind kinds span separator text hspan hseparator _ ih =>
    obtain ⟨tokens, stop, rfl, htokens⟩ := ih hseparator.isGap (l.afterAll (gap ++ span))
    have hnext := nextToken_append hgap hspan (hseparator.pauses text) l
    rw [List.append_assoc]
    exact ⟨_ :: tokens, stop, rfl, .more hnext hspan.ne_endOfFile htokens⟩

end Cursor

/-- Writing tokens and cutting the text into tokens again gives the tokens back, with the end of the
text behind them. -/
theorem tokenize_of_written {kinds : List TokenKind} {gap text : List Char} (h : Written kinds text)
    (hgap : IsGap gap) : ∃ tokens, tokenize (String.ofList (gap ++ text)) = .ok tokens ∧
      tokens.map Token.kind = kinds ++ [.endOfFile] := by
  obtain ⟨tokens, stop, rfl, htokens⟩ := Cursor.exists_tokenizes_of_written h hgap .start
  refine ⟨tokens ++ [⟨.endOfFile, stop⟩], tokenize_of_tokenizes ?_, List.map_append⟩
  rw [String.toList_ofList]
  exact htokens

/-- Separators that look like strings, a string that looks like a comment, a word that begins with a
keyword, and zeros in front of a number. -/
def trickyText : List Char :=
  "ints".toList ++ " // \"\n".toList ++ ("/".toList ++ "\t/*'//*/".toList ++
    ("007".toList ++ "\n#\"\n".toList ++ "\"\\\"/*\"".toList))

theorem tokenize_trickyText :
    Written [.identifier "ints", .symbol .slash, .int 7, .string "\"/*"] trickyText ∧ IsGap ['\n'] ∧
      ∃ tokens, tokenize (String.ofList (['\n'] ++ trickyText)) = .ok tokens ∧ tokens.map Token.kind =
        [.identifier "ints", .symbol .slash, .int 7, .string "\"/*"] ++ [.endOfFile] := by
  have hcomment : IsSeparator " // \"\n".toList :=
    .mk rfl (.cons (.comment (show '\n' ∉ [' ', '"'] by decide)) .nil)
  have hblock : IsSeparator "\t/*'//*/".toList :=
    .mk rfl (.cons (.block (show ¬ ['*', '/'] <:+: ['\'', '/', '/'] by decide)) .nil)
  have hdirective : IsSeparator "\n#\"\n".toList :=
    .mk rfl (.cons (.directive (show '\n' ∉ ['"'] by decide)) .nil)
  have hname : TokenKind.Spelling (.identifier "ints") "ints".toList :=
    .identifier rfl rfl (List.all_eq_true.1 rfl) fun k => by cases k <;> decide
  have hnumber : TokenKind.Spelling (.int 7) "007".toList :=
    .int (by decide) (List.all_eq_true.1 rfl) rfl
  have hstring : TokenKind.Spelling (.string "\"/*") "\"\\\"/*\"".toList :=
    .string (show Quoted ['\\', '"', '/', '*'] _ from
      .escape .quote (.plain (by decide) (by decide) (by decide)
        (.plain (by decide) (by decide) (by decide) .nil)))
  have hwritten : Written [.identifier "ints", .symbol .slash, .int 7, .string "\"/*"] trickyText :=
    .cons hname hcomment (.cons (.symbol .slash) hblock (.cons hnumber hdirective (.single hstring)))
  have hgap : IsGap ['\n'] := .cons (.blank rfl) .nil
  exact ⟨hwritten, hgap, tokenize_of_written hwritten hgap⟩

end BoundedC
