import BoundedC.Proofs.Locality
import BoundedC.Proofs.Places
import BoundedC.Proofs.Relocation

/-!
# A text as a part of a larger one

How a text is cut into tokens does not depend on where it begins, and no token goes beyond a line. So
the tokens of a text are also cut from a longer one that goes on with another line, and only their
places differ by where the text begins.

* `Embedding` : other places for the characters of a text, and what stands behind it;
* `nextToken_embed` : one token;
* `Cursor.Tokenizes` : the tokens behind a cursor, one by one; `tokenizes_embed` says what becomes of
  them;
* `tokenize_append` : the tokens of two texts with a newline between them.
-/

namespace BoundedC

/-- What a text is put into: the places that its characters have there, and the text behind it, which
begins with a new line. -/
structure Embedding where
  place : Location → Location
  tail : List Char
  place_after : ∀ l c, place (l.after c) = (place l).after c
  tail_eq : tail = [] ∨ ∃ text, tail = '\n' :: text

namespace Embedding

/-- Nothing is changed. -/
def refl : Embedding := ⟨id, [], fun _ _ => rfl, .inl rfl⟩

variable (e : Embedding)

theorem place_afterAll (l : Location) (cs : List Char) :
    e.place (l.afterAll cs) = (e.place l).afterAll cs := by
  induction cs generalizing l with
  | nil => rfl
  | cons c cs ih => rw [Location.afterAll_cons, ih, e.place_after, Location.afterAll_cons]

variable {e}

/-- No character but a newline comes right behind the text. -/
theorem eq_newline_of_cons {c : Char} {text : List Char} (h : e.tail = c :: text) : c = '\n' := by
  rcases e.tail_eq with hnil | ⟨_, hcons⟩
  · cases hnil.symm.trans h
  · cases hcons.symm.trans h
    rfl

/-- Behind the characters `cs`, a character that is no newline stands where it stands in the text. -/
theorem exists_of_append_eq_cons {cs text : List Char} {c : Char} (h : cs ++ e.tail = c :: text)
    (hc : c ≠ '\n') : ∃ rest, cs = c :: rest := by
  cases cs with
  | nil => exact absurd (eq_newline_of_cons h) hc
  | cons d rest =>
    cases h
    exact ⟨rest, rfl⟩

theorem takeWhile_append {p : Char → Bool} (hp : p '\n' = false) (cs : List Char) :
    (cs ++ e.tail).takeWhile p = cs.takeWhile p ∧
      (cs ++ e.tail).dropWhile p = cs.dropWhile p ++ e.tail := by
  induction cs with
  | nil =>
    rcases e.tail_eq with htail | ⟨text, htail⟩
    · rw [htail]
      exact ⟨rfl, rfl⟩
    · rw [htail, List.nil_append, List.takeWhile_cons, List.dropWhile_cons, hp]
      exact ⟨rfl, rfl⟩
  | cons c cs ih =>
    rw [List.cons_append, List.takeWhile_cons, List.dropWhile_cons, List.takeWhile_cons,
      List.dropWhile_cons]
    cases p c with
    | true => exact ⟨congrArg (c :: ·) ih.1, ih.2⟩
    | false => exact ⟨rfl, rfl⟩

end Embedding

namespace Cursor

variable {e : Embedding} {c c' c'' : Cursor}

def embed (e : Embedding) (c : Cursor) : Cursor := ⟨c.rest ++ e.tail, e.place c.place⟩

/-! ## Gaps -/

def Gap.embed (e : Embedding) : Gap → Gap
  | .blank => .blank
  | .line => .line
  | .block opened => .block (e.place opened)

/-- A comment that does not begin in the text does not begin where it ends. -/
theorem not_cons_append {first second : Char} {cs : List Char} (hne : second ≠ '\n')
    (h : ∀ rest, first = '/' → cs = second :: rest → False) (text : List Char) :
    first = '/' → cs ++ e.tail = second :: text → False := by
  intro hfirst happend
  obtain ⟨rest, hcs⟩ := Embedding.exists_of_append_eq_cons happend hne
  exact h rest hfirst hcs

/-- What has been passed over does not matter for what comes behind it. -/
theorem skipGapFrom_embed (gap : Gap) (cs : List Char) (l : Location)
    (h : skipGapFrom gap cs l = (.ok (), c')) :
    skipGapFrom (gap.embed e) (cs ++ e.tail) (e.place l) =
      skipGapFrom .blank (c'.rest ++ e.tail) (e.place c'.place) := by
  fun_induction skipGapFrom gap cs l with
  | case1 cs l ih =>
    rw [← ih h, e.place_after, e.place_after]
    rfl
  | case2 cs l ih =>
    rw [← ih h, e.place_after, e.place_after]
    rfl
  | case3 cs l ih =>
    rw [← ih h, e.place_after]
    rfl
  | case4 c cs l hslash hstar hhash hblank ih =>
    rw [← ih h, e.place_after]
    show skipGapFrom .blank (c :: (cs ++ e.tail)) (e.place l) = _
    rw [skipGapFrom, if_pos hblank]
    · rfl
    · exact not_cons_append (by decide) hslash
    · exact not_cons_append (by decide) hstar
    · exact hhash
  | case5 c cs l _ _ _ hblank =>
    cases h
    rfl
  | case6 c cs l ih =>
    rw [← ih h, e.place_after]
    show skipGapFrom .line (c :: (cs ++ e.tail)) (e.place l) = _
    rw [skipGapFrom]
    split <;> rfl
  | case7 opened cs l ih =>
    rw [← ih h, e.place_after, e.place_after]
    rfl
  | case8 opened c cs l hclose ih =>
    rw [← ih h, e.place_after]
    show skipGapFrom (.block _) (c :: (cs ++ e.tail)) (e.place l) = _
    rw [skipGapFrom]
    · rfl
    · intro text hc happend
      obtain ⟨rest, hcs⟩ := Embedding.exists_of_append_eq_cons happend (by decide)
      exact hclose rest hc hcs
  | case9 opened l => cases h
  | case10 l =>
    cases h
    rfl
  | case11 l =>
    cases h
    -- the line ends with the text, or with the newline behind it
    show skipGapFrom .line e.tail _ = skipGapFrom .blank e.tail _
    rcases e.tail_eq with htail | ⟨text, htail⟩
    · rw [htail]
      rfl
    · rw [htail]
      rfl

/-- Where passing over gaps ends in front of a token, there is no gap. -/
theorem skipGapFrom_of_ends (gap : Gap) (cs : List Char) (l : Location)
    (h : skipGapFrom gap cs l = (.ok (), c')) (hrest : c'.rest ≠ []) (l' : Location) :
    skipGapFrom .blank (c'.rest ++ e.tail) l' = (.ok (), ⟨c'.rest ++ e.tail, l'⟩) := by
  fun_induction skipGapFrom gap cs l with
  | case1 cs l ih => exact ih h
  | case2 cs l ih => exact ih h
  | case3 cs l ih => exact ih h
  | case4 c cs l _ _ _ hblank ih => exact ih h
  | case5 c cs l hslash hstar hhash hblank =>
    cases h
    show skipGapFrom .blank (c :: (cs ++ e.tail)) l' = _
    rw [skipGapFrom, if_neg hblank]
    · rfl
    · exact not_cons_append (by decide) hslash
    · exact not_cons_append (by decide) hstar
    · exact hhash
  | case6 c cs l ih => exact ih h
  | case7 opened cs l ih => exact ih h
  | case8 opened c cs l _ ih => exact ih h
  | case9 opened l => cases h
  | case10 l =>
    cases h
    exact absurd rfl hrest
  | case11 l =>
    cases h
    exact absurd rfl hrest

/-! ## Literals and words -/

/-- If the first outcome is a kind of token, then some characters behind the cursor have been taken, the
token is not the end of the text, and the second outcome is the same in the larger text. -/
def Embeds (e : Embedding) (c : Cursor) (read read' : Except LexError TokenKind × Cursor) : Prop :=
  ∀ ⦃kind c'⦄, read = (.ok kind, c') →
    c.Passes c' ∧ kind ≠ .endOfFile ∧ read' = (.ok kind, c'.embed e)

variable {read read' : Except LexError TokenKind × Cursor}

theorem embeds_error (error : LexError) (behind : Cursor) :
    Embeds e c (.error error, behind) read' := by
  rintro kind c' ⟨⟩

theorem Embeds.of_passes {behind : Cursor} (hpasses : c.Passes behind)
    (h : Embeds e behind read read') : Embeds e c read read' := by
  intro kind c' hread
  obtain ⟨hbehind, hkind, hembed⟩ := h hread
  exact ⟨hpasses.trans hbehind, hkind, hembed⟩

theorem embeds_readStringFrom (start start' : Location) (read cs : List Char) (l : Location) :
    Embeds e ⟨cs, l⟩ (readStringFrom start read cs l)
      (readStringFrom start' read (cs ++ e.tail) (e.place l)) := by
  fun_induction readStringFrom start read cs l with
  | case1 read cs l =>
    rintro kind c' ⟨⟩
    refine ⟨passes_cons _ _ _, by rintro ⟨⟩, ?_⟩
    show (_, (⟨cs ++ e.tail, (e.place l).after '"'⟩ : Cursor)) = _
    rw [← e.place_after]
    rfl
  | case2 read cs l => exact embeds_error _ _
  | case3 read d cs l value hvalue ih =>
    refine Embeds.of_passes ((passes_cons _ _ _).cons) ?_
    rw [e.place_after, e.place_after] at ih
    rw [List.cons_append, List.cons_append, readStringFrom, hvalue]
    exact ih
  | case4 read d cs l hvalue => exact embeds_error _ _
  | case5 read l => exact embeds_error _ _
  | case6 read c cs l hquote hnewline hescape hend ih =>
    refine Embeds.of_passes (passes_cons _ _ _) ?_
    rw [e.place_after] at ih
    have hbackslash : c ≠ '\\' := by
      rintro rfl
      cases cs with
      | nil => exact hend rfl rfl
      | cons d cs => exact hescape d cs rfl rfl
    rw [List.cons_append, readStringFrom]
    · exact ih
    · exact hquote
    · exact hnewline
    · exact fun _ _ h _ => hbackslash h
    · exact fun h _ => hbackslash h
  | case7 read l => exact embeds_error _ _

theorem embeds_closeChar (start start' : Location) (value : Char) (c : Cursor) :
    Embeds e c (closeChar start value c) (closeChar start' value (c.embed e)) := by
  obtain ⟨rest, l⟩ := c
  unfold closeChar
  dsimp only
  split
  · rintro kind c' ⟨⟩
    refine ⟨passes_cons _ _ _, nofun, ?_⟩
    rw [embed, embed, e.place_after]
    rfl
  · exact embeds_error _ _
  · exact embeds_error _ _

theorem embed_readEscape {value : Char} (h : c.readEscape = (.ok value, c')) :
    c.Passes c' ∧ (c.embed e).readEscape = (.ok value, c'.embed e) := by
  obtain ⟨rest, l⟩ := c
  cases rest with
  | nil => cases h
  | cons d cs =>
    unfold readEscape at h ⊢
    dsimp only [embed, List.cons_append] at h ⊢
    cases hvalue : unescape? d with
    | none =>
      rw [hvalue] at h
      cases h
    | some v =>
      rw [hvalue] at h
      cases h
      refine ⟨passes_cons _ _ _, ?_⟩
      rw [← e.place_after]

theorem embeds_readChar (start start' : Location) (c : Cursor) :
    Embeds e c (readChar start c) (readChar start' (c.embed e)) := by
  obtain ⟨rest, l⟩ := c
  cases rest with
  | nil => exact embeds_error _ _
  | cons first cs =>
    have hbehind : (⟨cs ++ e.tail, (e.place l).after first⟩ : Cursor) =
        (⟨cs, l.after first⟩ : Cursor).embed e := by
      rw [embed, e.place_after]
    unfold readChar
    dsimp only [embed, List.cons_append]
    rw [hbehind]
    split
    · exact embeds_error _ _
    split
    · exact embeds_error _ _
    split
    · cases hread : readEscape ⟨cs, l.after first⟩ with
      | mk outcome behind =>
        cases outcome with
        | error error => exact embeds_error _ _
        | ok value =>
          obtain ⟨hpasses, hembed⟩ := embed_readEscape (e := e) hread
          rw [hembed]
          exact (embeds_closeChar start start' value behind).of_passes hpasses.cons
    · split
      · exact (embeds_closeChar start start' first _).of_passes (passes_cons _ _ _)
      · exact embeds_error _ _

theorem span_embed {p : Char → Bool} (hp : p '\n' = false) (c : Cursor) :
    c.Passes (c.span p).2 ∧
      (c.embed e).span p = ((c.span p).1, (c.span p).2.embed e) := by
  obtain ⟨htake, hdrop⟩ := Embedding.takeWhile_append (e := e) hp c.rest
  refine ⟨⟨_, (List.takeWhile_append_dropWhile).symm, rfl⟩, ?_⟩
  show ((c.rest ++ e.tail).takeWhile p, (⟨(c.rest ++ e.tail).dropWhile p,
    (e.place c.place).afterAll ((c.rest ++ e.tail).takeWhile p)⟩ : Cursor)) = _
  rw [htake, hdrop, ← e.place_afterAll]
  rfl

theorem integerToken_embed (start start' : Location) (digits cs : List Char) {kind : TokenKind}
    (h : integerToken start digits cs.head? = .ok kind) :
    kind ≠ .endOfFile ∧ integerToken start' digits (cs ++ e.tail).head? = .ok kind := by
  have hnext : (cs ++ e.tail).head?.filter isWordStart = cs.head?.filter isWordStart := by
    cases cs with
    | cons c cs => rfl
    | nil =>
      rcases e.tail_eq with htail | ⟨text, htail⟩ <;> rw [htail] <;> rfl
  unfold integerToken at h ⊢
  rw [hnext]
  cases hfilter : cs.head?.filter isWordStart with
  | some letter =>
    rw [hfilter] at h
    cases h
  | none =>
    rw [hfilter] at h
    dsimp only at h ⊢
    split at h
    · rename_i hrange
      cases h
      exact ⟨nofun, if_pos hrange⟩
    · cases h

theorem embeds_readInteger (start start' : Location) (first : Char) (c : Cursor) :
    Embeds e c (readInteger start first c) (readInteger start' first (c.embed e)) := by
  obtain ⟨hpasses, hspan⟩ := span_embed (e := e) (p := Char.isDigit) (by decide) c
  rintro kind c' h
  unfold readInteger at h ⊢
  rw [hspan]
  obtain ⟨htoken, rfl⟩ := Prod.mk.inj h
  obtain ⟨hkind, hembed⟩ := integerToken_embed (e := e) start start' _ _ htoken
  exact ⟨hpasses, hkind, congrArg (·, _) hembed⟩

theorem embeds_readWord (first : Char) (c : Cursor) :
    Embeds e c (.ok (readWord first c).1, (readWord first c).2)
      (.ok (readWord first (c.embed e)).1, (readWord first (c.embed e)).2) := by
  obtain ⟨hpasses, hspan⟩ := span_embed (e := e) (p := isWordPart) (by decide) c
  rintro kind c' h
  unfold readWord at h ⊢
  rw [hspan]
  dsimp only at h ⊢
  split at h
  · cases h
    exact ⟨hpasses, nofun, rfl⟩
  · cases h
    exact ⟨hpasses, nofun, rfl⟩

theorem embeds_singleSymbol (start start' : Location) (first : Char) (c : Cursor) :
    Embeds e c (singleSymbol start first, c) (singleSymbol start' first, c.embed e) := by
  unfold singleSymbol
  cases Symbol.ofChar? first with
  | none => exact embeds_error _ _
  | some s =>
    rintro kind c' ⟨⟩
    exact ⟨.refl c, nofun, rfl⟩

theorem ofPair?_newline (first : Char) : Symbol.ofPair? first '\n' = none := by
  unfold Symbol.ofPair?
  split <;> simp_all

theorem embeds_readSymbol (start start' : Location) (first : Char) (c : Cursor) :
    Embeds e c (readSymbol start first c) (readSymbol start' first (c.embed e)) := by
  obtain ⟨rest, l⟩ := c
  cases rest with
  | nil =>
    have hread : readSymbol start' first (embed e ⟨[], l⟩) =
        (singleSymbol start' first, embed e ⟨[], l⟩) := by
      unfold readSymbol
      dsimp only [embed, List.nil_append]
      rcases e.tail_eq with htail | ⟨text, htail⟩
      · rw [htail]
      · rw [htail]
        dsimp only
        rw [ofPair?_newline]
    rw [hread]
    exact embeds_singleSymbol start start' first _
  | cons next cs =>
    unfold readSymbol
    dsimp only [embed, List.cons_append]
    cases Symbol.ofPair? first next with
    | none => exact embeds_singleSymbol start start' first ⟨next :: cs, l⟩
    | some s =>
      rintro kind c' ⟨⟩
      refine ⟨passes_cons _ _ _, nofun, ?_⟩
      dsimp only
      rw [embed, e.place_after]

/-! ## Tokens -/

theorem embeds_readKind (start start' : Location) (first : Char) (c : Cursor) :
    Embeds e c (readKind start first c) (readKind start' first (c.embed e)) := by
  unfold readKind
  split
  · exact embeds_readStringFrom start start' [] c.rest c.place
  split
  · exact embeds_readChar start start' c
  split
  · exact embeds_readInteger start start' first c
  split
  · exact embeds_readWord first c
  · exact embeds_readSymbol start start' first c

/-- A token that is not the end of the text takes a character, and it is cut from the larger text as
well. -/
theorem readToken_embed {token : Token} (hrest : c.rest ≠ []) (h : c.readToken = (.ok token, c')) :
    c.Passes c' ∧ c'.rest.length < c.rest.length ∧ token.kind ≠ .endOfFile ∧
      (c.embed e).readToken = (.ok (relocate e.place token), c'.embed e) := by
  obtain ⟨rest, l⟩ := c
  cases rest with
  | nil => exact absurd rfl hrest
  | cons first cs =>
    rw [readToken_cons] at h
    cases hread : readKind l first ⟨cs, l.after first⟩ with
    | mk outcome behind =>
      rw [hread] at h
      cases outcome with
      | error error => cases h
      | ok kind =>
        cases h
        obtain ⟨hpasses, hkind, hembed⟩ :=
          embeds_readKind (e := e) l (e.place l) first ⟨cs, l.after first⟩ hread
        refine ⟨hpasses.cons, Nat.lt_succ_of_le hpasses.length_le, hkind, ?_⟩
        show readToken ⟨first :: (cs ++ e.tail), e.place l⟩ = _
        rw [readToken_cons, ← e.place_after]
        show (Except.map _ (readKind _ first (embed e ⟨cs, l.after first⟩)).1,
          (readKind _ first (embed e ⟨cs, l.after first⟩)).2) = _
        rw [hembed]
        rfl

/-- In the larger text as well, the next token is the one behind the gap. -/
theorem skipGap_embed (h : c.skipGap = (.ok (), c')) :
    c.Passes c' ∧ (c.embed e).nextToken = (c'.embed e).nextToken := by
  have hembed : (c.embed e).skipGap = (c'.embed e).skipGap := skipGapFrom_embed .blank _ _ h
  constructor
  · have hpasses := passes_skipGapFrom .blank c.rest c.place
    rw [show skipGapFrom .blank c.rest c.place = _ from h] at hpasses
    exact hpasses
  · unfold nextToken
    rw [hembed]

/-- The next token, behind a gap. Where the text ends, the larger text goes on with what stands behind
it. -/
theorem nextToken_embed {token : Token} (h : c.nextToken = (.ok token, c')) :
    (token.kind = .endOfFile ∧ token.place = c.place.afterAll c.rest ∧
        (c.embed e).nextToken = nextToken ⟨e.tail, e.place token.place⟩) ∨
      (token.kind ≠ .endOfFile ∧ c.Passes c' ∧ c'.rest.length < c.rest.length ∧
        (c.embed e).nextToken = (.ok (relocate e.place token), c'.embed e)) := by
  unfold nextToken at h
  cases hskip : c.skipGap with
  | mk outcome behind =>
    rw [hskip] at h
    cases outcome with
    | error error => cases h
    | ok u =>
      obtain ⟨hgap, hnext⟩ := skipGap_embed (e := e) hskip
      rw [hnext]
      dsimp only at h
      by_cases hrest : behind.rest = []
      · left
        obtain ⟨run, hrun, hplace⟩ := hgap
        rw [hrest, List.append_nil] at hrun
        unfold readToken at h
        rw [hrest] at h
        cases h
        refine ⟨rfl, ?_, ?_⟩
        · rw [hrun, hplace]
        · unfold embed
          rw [hrest]
          rfl
      · right
        obtain ⟨hpasses, hlt, hkind, hread⟩ := readToken_embed (e := e) hrest h
        refine ⟨hkind, hgap.trans hpasses, Nat.lt_of_lt_of_le hlt hgap.length_le, ?_⟩
        have hstay : (behind.embed e).skipGap = (.ok (), behind.embed e) :=
          skipGapFrom_of_ends .blank _ _ hskip hrest _
        unfold nextToken
        rw [hstay]
        exact hread

/-! ## Texts -/

/-- The tokens behind a cursor: those in front of the end of the text, and the place of the end. -/
inductive Tokenizes : Cursor → List Token → Location → Prop
  | last {c c' : Cursor} {stop : Location} (h : c.nextToken = (.ok ⟨.endOfFile, stop⟩, c')) :
    Tokenizes c [] stop
  | more {c c' : Cursor} {token : Token} {tokens : List Token} {stop : Location}
    (h : c.nextToken = (.ok token, c')) (hkind : token.kind ≠ .endOfFile)
    (hmore : Tokenizes c' tokens stop) : Tokenizes c (token :: tokens) stop

variable {tokens tokens' : List Token} {stop stop' : Location}

theorem Tokenizes.of_nextToken_eq (h : Tokenizes c' tokens stop) (heq : c.nextToken = c'.nextToken) :
    Tokenizes c tokens stop := by
  cases h with
  | last h => exact .last (heq.trans h)
  | more h hkind hmore => exact .more (heq.trans h) hkind hmore

/-- A token that is not the last one is behind the cursor, and takes a character. -/
theorem passes_nextToken {token : Token} (h : c.nextToken = (.ok token, c'))
    (hkind : token.kind ≠ .endOfFile) : c.Passes c' ∧ c'.rest.length < c.rest.length := by
  rcases nextToken_embed (e := .refl) h with ⟨hend, -⟩ | ⟨-, hpasses, hlt, -⟩
  · exact absurd hend hkind
  · exact ⟨hpasses, hlt⟩

theorem tokenizes_of_tokensUpTo {bound : Nat} {all : List Token}
    (h : c.tokensUpTo bound = (.ok all, c')) (hbound : c.rest.length < bound) :
    ∃ tokens stop, all = tokens ++ [⟨.endOfFile, stop⟩] ∧ Tokenizes c tokens stop := by
  induction bound generalizing c all c' with
  | zero => exact absurd hbound (Nat.not_lt_zero _)
  | succ bound ih =>
    unfold tokensUpTo at h
    split at h
    · cases h
    · rename_i token behind hnext
      split at h
      · rename_i hkind
        obtain ⟨kind, stop⟩ := token
        cases hkind
        cases h
        exact ⟨[], stop, rfl, .last hnext⟩
      · rename_i hkind
        rcases hmore : behind.tokensUpTo bound with ⟨error | more, last⟩
        · rw [hmore] at h
          cases h
        · rw [hmore] at h
          cases h
          have hlt := (passes_nextToken hnext hkind).2
          obtain ⟨tokens, stop, rfl, htokens⟩ := ih hmore (by omega)
          exact ⟨token :: tokens, stop, rfl, .more hnext hkind htokens⟩

theorem Tokenizes.tokensUpTo (h : Tokenizes c tokens stop) {bound : Nat}
    (hbound : c.rest.length < bound) :
    (c.tokensUpTo bound).1 = .ok (tokens ++ [⟨.endOfFile, stop⟩]) := by
  induction h generalizing bound with
  | last h =>
    obtain ⟨bound, rfl⟩ : ∃ b, bound = b + 1 := ⟨bound - 1, by omega⟩
    unfold Cursor.tokensUpTo
    rw [h]
    rfl
  | more h hkind _ ih =>
    obtain ⟨bound, rfl⟩ : ∃ b, bound = b + 1 := ⟨bound - 1, by omega⟩
    have hlt := (passes_nextToken h hkind).2
    have hmore := @ih bound (by omega)
    unfold Cursor.tokensUpTo
    rw [h]
    dsimp only
    rw [if_neg hkind, hmore]
    rfl

/-- The text ends where all of its characters are passed. -/
theorem Tokenizes.stop_eq (h : Tokenizes c tokens stop) : stop = c.place.afterAll c.rest := by
  induction h with
  | last h =>
    rcases nextToken_embed (e := .refl) h with ⟨-, hplace, -⟩ | ⟨hkind, -⟩
    · exact hplace
    · exact absurd rfl hkind
  | more h hkind _ ih =>
    obtain ⟨⟨run, hrest, hplace⟩, -⟩ := passes_nextToken h hkind
    rw [ih, hplace, hrest, Location.afterAll_append]

theorem Tokenizes.endsOnce (h : Tokenizes c tokens stop) :
    EndsOnce (tokens ++ [⟨.endOfFile, stop⟩]) := by
  induction h with
  | last => rfl
  | @more _ _ _ tokens _ _ hkind _ ih => cases tokens <;> exact ⟨hkind, ih⟩

/-- In the larger text the tokens are the same but for their places, and what stands behind goes on
behind them. -/
theorem tokenizes_embed (h : Tokenizes c tokens stop)
    (hmore : Tokenizes ⟨e.tail, e.place stop⟩ tokens' stop') :
    Tokenizes (c.embed e) (relocate e.place tokens ++ tokens') stop' := by
  induction h with
  | last h =>
    rcases nextToken_embed (e := e) h with ⟨-, -, hnext⟩ | ⟨hkind, -⟩
    · exact hmore.of_nextToken_eq hnext
    · exact absurd rfl hkind
  | more h hkind _ ih =>
    rcases nextToken_embed (e := e) h with ⟨hend, -⟩ | ⟨-, -, -, hnext⟩
    · exact absurd hend hkind
    · exact .more hnext hkind (ih hmore)

end Cursor

open Cursor

/-! ## Lines further down -/

/-- The place so many lines further down. -/
def Location.down (lines : Nat) (l : Location) : Location := ⟨l.line + lines, l.column⟩

theorem Location.down_after (lines : Nat) (l : Location) (c : Char) :
    (l.after c).down lines = (l.down lines).after c := by
  unfold after down
  split
  · rw [Nat.add_right_comm]
  · rfl

theorem Location.line_afterAll (l : Location) (cs : List Char) :
    (l.afterAll cs).line = l.line + cs.count '\n' := by
  induction cs generalizing l with
  | nil => rfl
  | cons c cs ih =>
    rw [afterAll_cons, ih, List.count_cons]
    unfold after
    by_cases h : c = '\n'
    · rw [if_pos h, if_pos (beq_iff_eq.2 h)]
      dsimp only
      omega
    · rw [if_neg h, if_neg fun heq => h (beq_iff_eq.1 heq)]
      rfl

/-- A text put behind so many lines. -/
def Embedding.down (lines : Nat) : Embedding where
  place := Location.down lines
  tail := []
  place_after := Location.down_after lines
  tail_eq := .inl rfl

/-- A text with another line behind it. -/
def Embedding.before (text : List Char) : Embedding where
  place := id
  tail := '\n' :: text
  place_after _ _ := rfl
  tail_eq := .inr ⟨text, rfl⟩

theorem tokenizes_of_tokenize {text : String} {all : List Token} (h : tokenize text = .ok all) :
    ∃ tokens stop, all = tokens ++ [⟨.endOfFile, stop⟩] ∧
      Tokenizes (.ofList text.toList) tokens stop := by
  obtain ⟨c, hread⟩ := exists_of_tokenize h
  exact tokenizes_of_tokensUpTo hread (Nat.lt_succ_self _)

theorem tokenize_of_tokenizes {text : String} {tokens : List Token} {stop : Location}
    (h : Tokenizes (.ofList text.toList) tokens stop) :
    tokenize text = .ok (tokens ++ [⟨.endOfFile, stop⟩]) := h.tokensUpTo (Nat.lt_succ_self _)

/-- A text on the line behind another one has its tokens as many lines further down. -/
theorem tokenizes_nextLine {text : List Char} {tokens : List Token} {stop l : Location}
    (h : Tokenizes (.ofList text) tokens stop) :
    Tokenizes ⟨'\n' :: text, l⟩ (relocate (Location.down l.line) tokens) (stop.down l.line) := by
  have hend : Tokenizes ⟨[], stop.down l.line⟩ [] (stop.down l.line) := .last rfl
  have hdown := tokenizes_embed (e := .down l.line) h hend
  have hcursor : (Cursor.ofList text).embed (.down l.line) = ⟨text, l.after '\n'⟩ := by
    show (⟨text ++ [], ⟨1 + l.line, 1⟩⟩ : Cursor) = ⟨text, ⟨l.line + 1, 1⟩⟩
    rw [List.append_nil, Nat.add_comm]
  rw [hcursor, List.append_nil] at hdown
  exact hdown.of_nextToken_eq rfl

/-- The tokens of two texts with a newline between them are those of the first text, without its end,
and those of the second one, as many lines further down as there are newlines in front of it. -/
theorem tokenize_append {s₁ s₂ : String} {tokens₁ tokens₂ : List Token} {stop : Location}
    (h₁ : tokenize s₁ = .ok (tokens₁ ++ [⟨.endOfFile, stop⟩])) (h₂ : tokenize s₂ = .ok tokens₂) :
    tokenize (s₁ ++ "\n" ++ s₂) =
      .ok (tokens₁ ++ relocate (Location.down (s₁.toList.count '\n' + 1)) tokens₂) := by
  obtain ⟨first, stop₁, heq, hfirst⟩ := tokenizes_of_tokenize h₁
  obtain ⟨rfl, -⟩ := List.append_inj' heq rfl
  obtain ⟨second, stop₂, rfl, hsecond⟩ := tokenizes_of_tokenize h₂
  have hline : stop₁.line = s₁.toList.count '\n' + 1 := by
    rw [hfirst.stop_eq, Location.line_afterAll, Nat.add_comm]
    rfl
  have hboth := tokenizes_embed (e := .before s₂.toList) hfirst (tokenizes_nextLine hsecond)
  have hsame : relocate (Embedding.before s₂.toList).place tokens₁ = tokens₁ := List.map_id' _
  have htext : (s₁ ++ "\n" ++ s₂).toList = s₁.toList ++ '\n' :: s₂.toList := by
    rw [String.toList_append, String.toList_append, List.append_assoc]
    rfl
  rw [hsame] at hboth
  have hread : Tokenizes (.ofList (s₁ ++ "\n" ++ s₂).toList)
      (tokens₁ ++ relocate (Location.down stop₁.line) second) (stop₂.down stop₁.line) := by
    rw [htext]
    exact hboth
  rw [tokenize_of_tokenizes hread, hline, relocate_append, List.append_assoc]
  rfl

end BoundedC
