import Mathlib.Data.List.Induction
import BoundedC.Proofs.Embedding
import BoundedC.Proofs.Spelling

/-!
# The spans of tokens

The tokens of a text are spelled by parts of it, in order, with gaps between them and at the end, and
nothing else. Each token says where its part begins.

* `Location.behind` : the place behind some text, counted by lines;
* `gap_of_skipGap` : what is passed over in front of a token is a gap;
* `spells_readKind` : what is read is a spelling of the token, and none is longer;
* `Piece` : a token with its spelling and the gap in front of it;
* `exists_splits` : a text is the sequence of its pieces.
-/

namespace BoundedC

namespace Location

/-- The place behind some text at the start of a file: newlines make lines, and the column is counted
behind the last of them. -/
def behind (before : List Char) : Location :=
  ⟨1 + before.count '\n', 1 + (before.reverse.takeWhile (· ≠ '\n')).length⟩

theorem behind_concat (before : List Char) (c : Char) :
    behind (before ++ [c]) = (behind before).after c := by
  unfold behind after
  rw [List.count_append, List.reverse_append, List.reverse_singleton, List.singleton_append,
    List.takeWhile_cons]
  by_cases h : c = '\n'
  · subst h
    rfl
  · rw [if_neg h, List.count_singleton, if_neg (by simpa using h), if_pos (by simpa using h)]
    simp only [List.length_cons, Location.mk.injEq]
    omega

theorem afterAll_start (before : List Char) : start.afterAll before = behind before := by
  induction before using List.reverseRecOn with
  | nil => rfl
  | append_singleton before c ih =>
    rw [afterAll_append, ih, behind_concat]
    rfl

end Location

namespace Cursor

variable {c c' : Cursor}

/-! ## Gaps -/

/-- What may have been passed over in front of `rest`: only at the end of the text a line may be
open. -/
def IsGapBefore (rest run : List Char) : Prop := IsGap run ∨ rest = [] ∧ IsLastGap run

theorem IsGapBefore.cons {filler rest run : List Char} (hfiller : Filler filler)
    (h : IsGapBefore rest run) : IsGapBefore rest (filler ++ run) := by
  rcases h with hgap | ⟨hrest, gap, line, hgap, hline, rfl⟩
  · exact .inl (.cons hfiller hgap)
  · exact .inr ⟨hrest, filler ++ gap, line, .cons hfiller hgap, hline,
      (List.append_assoc _ _ _).symm⟩

/-- What is passed over in the middle of a gap. -/
def Gap.Passes (rest : List Char) : Gap → List Char → Prop
  | .blank, run => IsGapBefore rest run
  | .line, run =>
    (∃ line gap, '\n' ∉ line ∧ IsGapBefore rest gap ∧ run = line ++ '\n' :: gap) ∨
      rest = [] ∧ '\n' ∉ run
  | .block _, run =>
    ∃ body gap, ¬ ['*', '/'] <:+: body ∧ IsGapBefore rest gap ∧ run = body ++ '*' :: '/' :: gap

theorem passes_of_skipGapFrom (gap : Gap) (cs : List Char) (l : Location)
    (h : skipGapFrom gap cs l = (.ok (), c')) :
    ∃ run, cs = run ++ c'.rest ∧ c'.place = l.afterAll run ∧ gap.Passes c'.rest run := by
  fun_induction skipGapFrom gap cs l with
  | case1 cs l ih =>
    obtain ⟨run, rfl, hplace, hrun⟩ := ih h
    refine ⟨'/' :: '/' :: run, rfl, hplace, ?_⟩
    rcases hrun with ⟨line, gap, hline, hgap, rfl⟩ | ⟨hrest, hline⟩
    · simpa [Gap.Passes] using hgap.cons (.comment hline)
    · exact .inr ⟨hrest, [], _, .nil, .comment hline, rfl⟩
  | case2 cs l ih =>
    obtain ⟨run, rfl, hplace, body, gap, hbody, hgap, rfl⟩ := ih h
    refine ⟨'/' :: '*' :: (body ++ '*' :: '/' :: gap), rfl, hplace, ?_⟩
    simpa [Gap.Passes] using hgap.cons (.block hbody)
  | case3 cs l ih =>
    obtain ⟨run, rfl, hplace, hrun⟩ := ih h
    refine ⟨'#' :: run, rfl, hplace, ?_⟩
    rcases hrun with ⟨line, gap, hline, hgap, rfl⟩ | ⟨hrest, hline⟩
    · simpa [Gap.Passes] using hgap.cons (.directive hline)
    · exact .inr ⟨hrest, [], _, .nil, .directive hline, rfl⟩
  | case4 c cs l _ _ _ hblank ih =>
    obtain ⟨run, rfl, hplace, hrun⟩ := ih h
    exact ⟨c :: run, rfl, hplace, hrun.cons (.blank hblank)⟩
  | case5 c cs l _ _ _ hblank =>
    cases h
    exact ⟨[], rfl, rfl, .inl .nil⟩
  | case6 c cs l ih =>
    obtain ⟨run, rfl, hplace, hrun⟩ := ih h
    refine ⟨c :: run, rfl, hplace, ?_⟩
    by_cases hc : c = '\n'
    · subst hc
      rw [if_pos rfl] at hrun
      exact .inl ⟨[], run, List.not_mem_nil, hrun, rfl⟩
    · rw [if_neg hc] at hrun
      have hcons {line : List Char} (hline : '\n' ∉ line) : '\n' ∉ c :: line := by
        simpa [Ne.symm hc] using hline
      rcases hrun with ⟨line, gap, hline, hgap, rfl⟩ | ⟨hrest, hline⟩
      · exact .inl ⟨c :: line, gap, hcons hline, hgap, rfl⟩
      · exact .inr ⟨hrest, hcons hline⟩
  | case7 opened cs l ih =>
    obtain ⟨run, rfl, hplace, hrun⟩ := ih h
    exact ⟨'*' :: '/' :: run, rfl, hplace, [], run, by decide, hrun, rfl⟩
  | case8 opened c cs l hclose ih =>
    obtain ⟨run, rfl, hplace, body, gap, hbody, hgap, rfl⟩ := ih h
    refine ⟨c :: (body ++ '*' :: '/' :: gap), rfl, hplace, c :: body, gap, ?_, hgap, rfl⟩
    rw [List.infix_cons_iff, not_or]
    refine ⟨fun hbegins => ?_, hbody⟩
    obtain ⟨hc, more, hmore⟩ := List.cons_prefix_cons.1 hbegins
    refine hclose (more ++ '*' :: '/' :: gap ++ c'.rest) hc.symm ?_
    rw [← hmore]
    simp
  | case9 opened l => cases h
  | case10 l =>
    cases h
    exact ⟨[], rfl, rfl, .inl .nil⟩
  | case11 l =>
    cases h
    exact ⟨[], rfl, rfl, .inr ⟨rfl, List.not_mem_nil⟩⟩

/-- Where the passing over ends, no gap begins. -/
theorem eq_nil_of_skipGapFrom (gap : Gap) (cs : List Char) (l : Location)
    (h : skipGapFrom gap cs l = (.ok (), c')) {other : List Char} (hother : IsLastGap other)
    (hbegins : other <+: c'.rest) : other = [] := by
  fun_induction skipGapFrom gap cs l with
  | case5 c cs l hslash hstar hhash hblank =>
    cases h
    cases other with
    | nil => rfl
    | cons first more =>
      obtain ⟨rfl, rest, hrest⟩ := List.cons_prefix_cons.1 hbegins
      obtain h | h | ⟨hfirst, second, rest', rfl, h | h⟩ := hother.first_cases
      · exact absurd h hblank
      · exact absurd h hhash
      · subst h
        exact (hslash _ hfirst hrest.symm).elim
      · subst h
        exact (hstar _ hfirst hrest.symm).elim
  | case9 => cases h
  | case10 | case11 =>
    cases h
    exact List.prefix_nil.1 hbegins
  | _ =>
    rename_i ih
    exact ih h

/-! ## Strings and characters -/

/-- If the outcome is a kind of token, then the characters that were taken behind `first` make a
spelling of it, and no spelling that the text begins with is longer. -/
def Spells (c : Cursor) (first : Char) (read : Except LexError TokenKind × Cursor) : Prop :=
  ∀ ⦃kind c'⦄, read = (.ok kind, c') →
    ∃ run, c.rest = run ++ c'.rest ∧ c'.place = c.place.afterAll run ∧
      kind.Spelling (first :: run) ∧
      ∀ more, IsTail first more → more <+: c.rest → more.length ≤ run.length

theorem quoted_of_readStringFrom (start : Location) (read cs : List Char) (l : Location)
    {kind : TokenKind} (h : readStringFrom start read cs l = (.ok kind, c')) :
    ∃ body text, Quoted body text ∧ kind = .string (String.ofList (read.reverse ++ text)) ∧
      cs = body ++ '"' :: c'.rest ∧ c'.place = l.afterAll (body ++ ['"']) := by
  fun_induction readStringFrom start read cs l with
  | case1 read cs l =>
    cases h
    exact ⟨[], [], .nil, by simp, rfl, rfl⟩
  | case3 read e cs l value hvalue ih =>
    obtain ⟨body, text, hbody, rfl, rfl, hplace⟩ := ih h
    exact ⟨_, _, .escape (unescape?_eq_some_iff.1 hvalue) hbody, by simp, rfl, hplace⟩
  | case6 read c cs l hquote hnewline hescape hend ih =>
    obtain ⟨body, text, hbody, rfl, rfl, hplace⟩ := ih h
    have hbackslash : c ≠ '\\' := by
      rintro rfl
      cases body with
      | nil => exact hescape _ _ rfl rfl
      | cons d body => exact hescape _ _ rfl rfl
    exact ⟨_, _, .plain hquote hbackslash hnewline hbody, by simp, rfl, hplace⟩
  | _ => cases h

theorem spells_readString (start : Location) (c : Cursor) :
    Spells c '"' (readStringFrom start [] c.rest c.place) := by
  intro kind c' h
  obtain ⟨body, text, hbody, rfl, hrest, hplace⟩ := quoted_of_readStringFrom _ _ _ _ h
  refine ⟨body ++ ['"'], by simp [hrest], hplace, .string (by simpa using hbody),
    fun more hmore hbegins => ?_⟩
  obtain ⟨body', text', hbody', rfl⟩ := isTail_quote_iff.1 hmore
  obtain ⟨rest, hrest'⟩ := hbegins
  have hbodies : body' = body :=
    hbody'.eq_of_append hbody (by rw [← hrest, ← hrest', List.append_assoc]; rfl)
  rw [hbodies]

theorem closeChar_eq_ok {start : Location} {value : Char} {kind : TokenKind}
    (h : closeChar start value c = (.ok kind, c')) :
    kind = .char (Int8.ofNat value.toNat) ∧ c.rest = '\'' :: c'.rest ∧
      c'.place = c.place.after '\'' := by
  unfold closeChar at h
  split at h
  · cases h
    exact ⟨rfl, ‹_›, rfl⟩
  · cases h
  · cases h

theorem readEscape_eq_ok {value : Char} (h : c.readEscape = (.ok value, c')) :
    ∃ e, Escape e value ∧ c.rest = e :: c'.rest ∧ c'.place = c.place.after e := by
  unfold readEscape at h
  split at h
  · cases h
  · rename_i e cs hrest
    dsimp only at h
    split at h
    · rename_i hvalue
      cases h
      exact ⟨e, unescape?_eq_some_iff.1 hvalue, hrest, rfl⟩
    · cases h

theorem spells_readChar (start : Location) (c : Cursor) : Spells c '\'' (readChar start c) := by
  intro kind c' h
  unfold readChar at h
  split at h
  · cases h
  rename_i first cs hrest
  dsimp only at h
  split at h
  · cases h
  rename_i hnewline
  split at h
  · cases h
  rename_i hquote
  split at h
  · rename_i hbackslash
    subst hbackslash
    split at h
    · rename_i value behind hescape
      obtain ⟨e, hvalue, rfl, hplace⟩ := readEscape_eq_ok hescape
      obtain ⟨rfl, hclose, hend⟩ := closeChar_eq_ok h
      refine ⟨['\\', e, '\''], by simp [hrest, hclose], ?_, .escapedChar hvalue,
        fun more hmore hbegins => ?_⟩
      · rw [hend, hplace]
        rfl
      · rcases isTail_apostrophe_iff.1 hmore with ⟨c, hc, rfl⟩ | ⟨e, rfl⟩
        · exact Nat.le_succ _
        · exact Nat.le_refl _
    · cases h
  · rename_i hbackslash
    split at h
    · rename_i hascii
      obtain ⟨rfl, rfl, hend⟩ := closeChar_eq_ok h
      refine ⟨[first, '\''], hrest, hend, .char hquote hbackslash hnewline hascii,
        fun more hmore hbegins => ?_⟩
      rcases isTail_apostrophe_iff.1 hmore with ⟨c, hc, rfl⟩ | ⟨e, rfl⟩
      · exact Nat.le_refl _
      · rw [hrest] at hbegins
        exact absurd (List.cons_prefix_cons.1 hbegins).1.symm hbackslash
    · cases h

/-! ## Numbers, words and symbols -/

theorem decimal_eq_valueOfDigits (digits : List Char) : decimal digits = valueOfDigits digits := by
  induction digits using List.reverseRecOn with
  | nil => rfl
  | append_singleton digits d ih =>
    unfold valueOfDigits at ih ⊢
    rw [List.reverse_append, List.reverse_singleton, List.singleton_append, List.map_cons,
      Nat.ofDigits_cons, ← ih, decimal, List.foldl_append, Nat.add_comm]
    rfl

/-- Characters of a class that a text begins with are part of its longest run of that class. -/
theorem length_le_takeWhile {p : Char → Bool} {more cs : List Char} (hmore : ∀ c ∈ more, p c = true)
    (hbegins : more <+: cs) : more.length ≤ (cs.takeWhile p).length := by
  obtain ⟨rest, rfl⟩ := hbegins
  rw [List.takeWhile_append_of_pos hmore, List.length_append]
  exact Nat.le_add_right _ _

theorem spells_readInteger (start : Location) {first : Char} (hfirst : first.isDigit = true)
    (c : Cursor) : Spells c first (readInteger start first c) := by
  intro kind c' h
  obtain ⟨htoken, rfl⟩ := Prod.mk.inj h
  refine ⟨c.rest.takeWhile Char.isDigit, (List.takeWhile_append_dropWhile).symm, rfl, ?_,
    fun more hmore => length_le_takeWhile ((isTail_digit_iff hfirst).1 hmore)⟩
  unfold integerToken at htoken
  split at htoken
  · cases htoken
  split at htoken
  · rename_i hrange
    cases htoken
    refine .int nofun (List.forall_mem_cons.2 ⟨hfirst, fun d => List.mem_takeWhile_imp⟩) ?_
    rw [← decimal_eq_valueOfDigits, Int32.toInt_ofNat_of_lt hrange]
  · cases htoken

theorem spells_readWord {first : Char} (hfirst : isWordStart first = true) (c : Cursor) :
    Spells c first (.ok (readWord first c).1, (readWord first c).2) := by
  intro kind c' h
  have hlongest : ∀ more, IsTail first more → more <+: c.rest →
      more.length ≤ (c.rest.takeWhile isWordPart).length :=
    fun more hmore => length_le_takeWhile ((isTail_word_iff hfirst).1 hmore)
  unfold readWord span at h
  dsimp only at h
  split at h
  · rename_i k hword
    cases h
    refine ⟨_, (List.takeWhile_append_dropWhile).symm, rfl, ?_, hlongest⟩
    have hspelling := congrArg String.toList (Keyword.eq_spelling_of_ofWord? hword)
    rw [String.toList_ofList] at hspelling
    rw [hspelling]
    exact .keyword k
  · rename_i hword
    cases h
    refine ⟨_, (List.takeWhile_append_dropWhile).symm, rfl, ?_, hlongest⟩
    have hname := String.toList_ofList (l := first :: c.rest.takeWhile isWordPart)
    have hspelling := TokenKind.Spelling.identifier hname hfirst (fun c => List.mem_takeWhile_imp) ?_
    · rwa [hname] at hspelling
    · rintro k heq
      rw [heq, Keyword.ofWord?_spelling] at hword
      cases hword

theorem spells_singleSymbol (start : Location) {first : Char}
    (hsingle : ∀ more, IsTail first more → more <+: c.rest → more = []) :
    Spells c first (singleSymbol start first, c) := by
  intro kind c' h
  unfold singleSymbol at h
  split at h
  · rename_i s hs
    cases h
    refine ⟨[], rfl, rfl, ?_, fun more hmore hbegins => by rw [hsingle more hmore hbegins]⟩
    rw [← Symbol.spelling_of_ofChar? hs]
    exact .symbol s
  · cases h

theorem spells_readSymbol (start : Location) {first : Char}
    (htail : ∀ more, IsTail first more →
      more = [] ∨ ∃ second s, more = [second] ∧ Symbol.ofPair? first second = some s) (c : Cursor) :
    Spells c first (readSymbol start first c) := by
  obtain ⟨rest, l⟩ := c
  cases rest with
  | nil => exact spells_singleSymbol start fun more _ hbegins => List.prefix_nil.1 hbegins
  | cons next cs =>
    unfold readSymbol
    dsimp only
    split
    · rename_i s hs
      rintro kind c' ⟨⟩
      refine ⟨[next], rfl, rfl, ?_, fun more hmore _ => ?_⟩
      · rw [← Symbol.spelling_of_ofPair? hs]
        exact .symbol s
      · rcases htail more hmore with rfl | ⟨second, s, rfl, -⟩ <;> simp
    · rename_i hnone
      refine spells_singleSymbol start fun more hmore hbegins => ?_
      rcases htail more hmore with rfl | ⟨second, s, rfl, hs⟩
      · rfl
      · rw [(List.cons_prefix_cons.1 hbegins).1, hnone] at hs
        cases hs

theorem spells_readKind (start : Location) (first : Char) (c : Cursor) :
    Spells c first (readKind start first c) := by
  unfold readKind
  split
  · rename_i hquote
    subst hquote
    exact spells_readString start c
  rename_i hquote
  split
  · rename_i hapostrophe
    subst hapostrophe
    exact spells_readChar start c
  rename_i hapostrophe
  split
  · exact spells_readInteger start ‹_› c
  rename_i hdigit
  split
  · exact spells_readWord ‹_› c
  · exact spells_readSymbol start
      (fun more => (isTail_other_iff hquote hapostrophe hdigit ‹_›).1) c

end Cursor

/-! ## Pieces -/

/-- A token of a text, the characters that spell it, and the gap in front of it. -/
structure Piece where
  gap : List Char
  span : List Char
  token : Token
  isGap : IsGap gap
  spells : token.kind.Spelling span

namespace Piece

/-- The part of the text that a piece takes up. -/
def chars (p : Piece) : List Char := p.gap ++ p.span

/-- The text that some pieces make up. -/
def text (pieces : List Piece) : List Char := pieces.flatMap chars

@[simp] theorem text_nil : text [] = [] := rfl

@[simp] theorem text_cons (p : Piece) (pieces : List Piece) :
    text (p :: pieces) = p.gap ++ p.span ++ text pieces := rfl

end Piece

/-- How a token is cut from the text that begins with it: no gap is left in front of it, and no
spelling of a token that the text begins with is longer. -/
structure IsCut (span rest : List Char) : Prop where
  noGap : ∀ gap, IsLastGap gap → gap <+: rest → gap = []
  longest : ∀ kind other, TokenKind.Spelling kind other → other <+: rest → other.length ≤ span.length

/-- A text that is the sequence of some pieces and a last gap, and the tokens that say so. -/
structure Splits (text : List Char) (tokens : List Token) (pieces : List Piece) (last : List Char) :
    Prop where
  text_eq : text = Piece.text pieces ++ last
  isLastGap : IsLastGap last
  /-- behind the tokens of the pieces stands the end of the text -/
  tokens_eq : tokens = pieces.map Piece.token ++ [⟨.endOfFile, .behind text⟩]
  kind_ne : ∀ p ∈ pieces, p.token.kind ≠ .endOfFile
  /-- a token stands where its spelling begins -/
  place_eq : ∀ before p more, pieces = before ++ p :: more →
    p.token.place = .behind (Piece.text before ++ p.gap)
  isCut : ∀ before p more, pieces = before ++ p :: more →
    IsCut p.span (p.span ++ Piece.text more ++ last)
  ordered : tokens.Pairwise (·.place < ·.place)

namespace Cursor

variable {c c' : Cursor}

theorem exists_skipGap {token : Token} (h : c.nextToken = (.ok token, c')) :
    ∃ front, c.skipGap = (.ok (), front) ∧ front.readToken = (.ok token, c') := by
  unfold nextToken at h
  split at h
  · cases h
  · exact ⟨_, ‹_›, h⟩

/-- What is read is the end of the text, or a token with its spelling. -/
theorem readToken_cases {token : Token} (h : c.readToken = (.ok token, c')) :
    c.rest = [] ∧ token.kind = .endOfFile ∨
      ∃ first run, c.rest = first :: run ++ c'.rest ∧ c'.place = c.place.afterAll (first :: run) ∧
        token.place = c.place ∧ token.kind.Spelling (first :: run) ∧
        ∀ kind other, TokenKind.Spelling kind other → other <+: c.rest →
          other.length ≤ (first :: run).length := by
  obtain ⟨rest, l⟩ := c
  cases rest with
  | nil =>
    cases h
    exact .inl ⟨rfl, rfl⟩
  | cons first cs =>
    rw [readToken_cons] at h
    cases hread : readKind l first ⟨cs, l.after first⟩ with
    | mk outcome behind =>
      rw [hread] at h
      cases outcome with
      | error error => cases h
      | ok kind =>
        cases h
        obtain ⟨run, rfl, hbehind, hspelling, hlongest⟩ := spells_readKind l first ⟨cs, _⟩ hread
        refine .inr ⟨first, run, rfl, hbehind, rfl, hspelling, fun kind other hother hbegins => ?_⟩
        obtain ⟨d, more, rfl⟩ := List.exists_cons_of_ne_nil hother.ne_nil
        obtain ⟨rfl, hmore⟩ := List.cons_prefix_cons.1 hbegins
        exact Nat.succ_le_succ (hlongest more hother.isTail hmore)

/-- The next token is a piece of the text. -/
theorem exists_piece {token : Token} (h : c.nextToken = (.ok token, c'))
    (hkind : token.kind ≠ .endOfFile) :
    ∃ p : Piece, p.token = token ∧ c.rest = p.gap ++ p.span ++ c'.rest ∧
      token.place = c.place.afterAll p.gap ∧ c'.place = c.place.afterAll (p.gap ++ p.span) ∧
      IsCut p.span (p.span ++ c'.rest) := by
  obtain ⟨front, hskip, hread⟩ := exists_skipGap h
  obtain ⟨gap, hrest, hplace, hgap⟩ := passes_of_skipGapFrom .blank _ _ hskip
  rcases readToken_cases hread with
    ⟨-, hend⟩ | ⟨first, run, hspan, hbehind, htoken, hspelling, hlongest⟩
  · exact absurd hend hkind
  · have hgap : IsGap gap := hgap.resolve_right fun hend => absurd (hspan.symm.trans hend.1) nofun
    have hnoGap : ∀ other, IsLastGap other → other <+: front.rest → other = [] :=
      fun other => eq_nil_of_skipGapFrom .blank _ _ hskip
    rw [hspan] at hlongest hnoGap hrest
    refine ⟨⟨gap, first :: run, token, hgap, hspelling⟩, rfl, ?_, htoken.trans hplace, ?_, hnoGap,
      hlongest⟩
    · rw [hrest, List.append_assoc]
    · rw [hbehind, hplace, Location.afterAll_append]

/-- In front of the end of the text there is a gap. -/
theorem isLastGap_of_nextToken {stop : Location} (h : c.nextToken = (.ok ⟨.endOfFile, stop⟩, c')) :
    IsLastGap c.rest := by
  obtain ⟨front, hskip, hread⟩ := exists_skipGap h
  obtain ⟨gap, hrest, -, hgap⟩ := passes_of_skipGapFrom .blank _ _ hskip
  rcases readToken_cases hread with ⟨hend, -⟩ | ⟨_, _, -, -, -, hspelling, -⟩
  · rw [hrest, hend, List.append_nil]
    rcases hgap with hgap | ⟨-, hgap⟩
    · exact ⟨gap, [], hgap, .nil, (List.append_nil gap).symm⟩
    · exact hgap
  · exact absurd rfl hspelling.ne_endOfFile

/-- The tokens behind a cursor cut the text into pieces. -/
theorem exists_pieces_of_tokenizes {tokens : List Token} {stop : Location}
    (h : Tokenizes c tokens stop) :
    ∃ pieces last, pieces.map Piece.token = tokens ∧ c.rest = Piece.text pieces ++ last ∧
      IsLastGap last ∧
      ∀ before p more, pieces = before ++ p :: more →
        p.token.place = c.place.afterAll (Piece.text before ++ p.gap) ∧
        IsCut p.span (p.span ++ Piece.text more ++ last) := by
  induction h with
  | @last c _ _ h => exact ⟨[], c.rest, rfl, rfl, isLastGap_of_nextToken h, by simp⟩
  | more h hkind _ ih =>
    obtain ⟨p, rfl, hrest, hplace, hbehind, hcut⟩ := exists_piece h hkind
    obtain ⟨pieces, last, rfl, hpieces, hlast, hmore⟩ := ih
    refine ⟨p :: pieces, last, rfl, ?_, hlast, ?_⟩
    · rw [hrest, hpieces, Piece.text_cons, List.append_assoc _ (Piece.text pieces)]
    · rintro (_ | ⟨q, before⟩) p' more heq
      · -- the first piece
        cases heq
        rw [hpieces, ← List.append_assoc] at hcut
        exact ⟨hplace, hcut⟩
      · obtain ⟨rfl, rfl⟩ := List.cons.inj heq
        obtain ⟨hplace', hcut'⟩ := hmore before p' more rfl
        refine ⟨?_, hcut'⟩
        rw [hplace', hbehind, Piece.text_cons, List.append_assoc _ (Piece.text before),
          Location.afterAll_append _ (p.gap ++ p.span)]

end Cursor

/-- A text that can be cut into tokens is the sequence of their spellings with gaps in front of them
and behind them, each spelling the longest that is there. Every token stands where its spelling begins,
counted in lines and in characters of the line, each behind the one before it; and the end of the text
is a token behind them all. -/
theorem exists_splits {text : String} {tokens : List Token} (h : tokenize text = .ok tokens) :
    ∃ pieces last, Splits text.toList tokens pieces last := by
  obtain ⟨front, stop, rfl, htokens⟩ := tokenizes_of_tokenize h
  obtain ⟨pieces, last, rfl, htext, hlast, hpieces⟩ := Cursor.exists_pieces_of_tokenizes htokens
  have hstop : stop = .behind text.toList := by
    rw [htokens.stop_eq, ← Location.afterAll_start]
    rfl
  exact ⟨pieces, last, {
    text_eq := htext
    isLastGap := hlast
    tokens_eq := by rw [hstop]
    kind_ne := fun p _ => p.spells.ne_endOfFile
    place_eq := fun before p more heq => by
      rw [← Location.afterAll_start]
      exact (hpieces before p more heq).1
    isCut := fun before p more heq => (hpieces before p more heq).2
    ordered := pairwise_of_tokenize h }⟩

/-- A declaration below a directive, with a comment behind it. -/
theorem exists_splits_declaration :
    tokenize "#include\nint a;// done" = .ok [⟨.keyword .int, ⟨2, 1⟩⟩, ⟨.identifier "a", ⟨2, 5⟩⟩,
        ⟨.symbol .semicolon, ⟨2, 6⟩⟩, ⟨.endOfFile, ⟨2, 14⟩⟩] ∧
      ∃ pieces last, Splits "#include\nint a;// done".toList
        [⟨.keyword .int, ⟨2, 1⟩⟩, ⟨.identifier "a", ⟨2, 5⟩⟩, ⟨.symbol .semicolon, ⟨2, 6⟩⟩,
          ⟨.endOfFile, ⟨2, 14⟩⟩] pieces last :=
  ⟨rfl, exists_splits rfl⟩

end BoundedC
