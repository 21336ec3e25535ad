import Mathlib.Data.Prod.Lex
import BoundedC.Token.Lexer

/-!
# Where tokens stand

Places are ordered as in the text, by line and then by column. No reader of the lexer goes back,
whether or not it succeeds, and a token that is not the end of the text takes at least one character,
so every token stands behind the one before it.

* `Location.lt_after`, `Location.le_afterAll` : the way through a text leads forward;
* `Cursor.Passes` : a cursor further on in the same text;
* `Cursor.passes_skipGapFrom`, `Cursor.passes_readStringFrom`, … : the readers of the lexer;
* `pairwise_of_tokenize`, `nodup_of_tokenize` : the tokens of a text stand in order, each at a place of
  its own.
-/

namespace BoundedC

namespace Location

/-- Places in the order of the text. -/
instance : Preorder Location := Preorder.lift fun l => toLex (l.line, l.column)

theorem lt_iff {l m : Location} :
    l < m ↔ l.line < m.line ∨ l.line = m.line ∧ l.column < m.column :=
  Prod.Lex.toLex_lt_toLex

theorem lt_after (l : Location) (c : Char) : l < l.after c := by
  rw [lt_iff]
  unfold after
  split
  · exact .inl (Nat.lt_succ_self _)
  · exact .inr ⟨rfl, Nat.lt_succ_self _⟩

theorem le_after (l : Location) (c : Char) : l ≤ l.after c := (lt_after l c).le

theorem le_afterAll (l : Location) (cs : List Char) : l ≤ l.afterAll cs := by
  induction cs generalizing l with
  | nil => exact le_refl l
  | cons c cs ih => exact (le_after l c).trans (ih _)

end Location

namespace Cursor

variable {c c' c'' : Cursor}

/-- The second cursor stands behind some characters of the text that the first one stands before. -/
def Passes (c c' : Cursor) : Prop :=
  ∃ run, c.rest = run ++ c'.rest ∧ c'.place = c.place.afterAll run

theorem Passes.refl (c : Cursor) : c.Passes c := ⟨[], rfl, rfl⟩

theorem Passes.trans (h : c.Passes c') (h' : c'.Passes c'') : c.Passes c'' := by
  obtain ⟨run, hrest, hplace⟩ := h
  obtain ⟨run', hrest', hplace'⟩ := h'
  refine ⟨run ++ run', ?_, ?_⟩
  · rw [hrest, hrest', List.append_assoc]
  · rw [hplace', hplace, Location.afterAll_append]

theorem passes_cons (first : Char) (cs : List Char) (l : Location) :
    Passes ⟨first :: cs, l⟩ ⟨cs, l.after first⟩ := ⟨[first], rfl, rfl⟩

theorem Passes.cons {first : Char} {cs : List Char} {l : Location}
    (h : Passes ⟨cs, l.after first⟩ c') : Passes ⟨first :: cs, l⟩ c' :=
  (passes_cons first cs l).trans h

theorem passes_of_rest_eq {first : Char} {cs : List Char} (h : c.rest = first :: cs) :
    c.Passes ⟨cs, c.place.after first⟩ := ⟨[first], h, rfl⟩

theorem Passes.length_le (h : c.Passes c') : c'.rest.length ≤ c.rest.length := by
  obtain ⟨run, hrest, -⟩ := h
  rw [hrest, List.length_append]
  exact Nat.le_add_left _ _

theorem Passes.le (h : c.Passes c') : c.place ≤ c'.place := by
  obtain ⟨run, -, hplace⟩ := h
  rw [hplace]
  exact Location.le_afterAll _ _

theorem passes_skipGapFrom (gap : Gap) (cs : List Char) (l : Location) :
    Passes ⟨cs, l⟩ (skipGapFrom gap cs l).2 := by
  fun_induction skipGapFrom gap cs l with
  | case1 cs l ih => exact ih.cons.cons
  | case2 cs l ih => exact ih.cons.cons
  | case3 cs l ih => exact ih.cons
  | case4 c cs l _ _ _ hblank ih => exact ih.cons
  | case5 c cs l _ _ _ hblank => exact .refl _
  | case6 c cs l ih => exact ih.cons
  | case7 opened cs l ih => exact ih.cons.cons
  | case8 opened c cs l _ ih => exact ih.cons
  | case9 opened l => exact .refl _
  | case10 l => exact .refl _
  | case11 l => exact .refl _

/-! ## Literals and words -/

theorem passes_readEscape (c : Cursor) : c.Passes c.readEscape.2 := by
  unfold readEscape
  split
  · exact .refl c
  · dsimp only
    split <;> exact passes_of_rest_eq ‹_›

theorem passes_readStringFrom (start : Location) (read cs : List Char) (l : Location) :
    Passes ⟨cs, l⟩ (readStringFrom start read cs l).2 := by
  fun_induction readStringFrom start read cs l with
  | case1 read cs l => exact passes_cons _ _ _
  | case2 read cs l => exact .refl _
  | case3 read e cs l value hvalue ih => exact ih.cons.cons
  | case4 read e cs l hvalue => exact (passes_cons _ _ _).cons
  | case5 read l => exact passes_cons _ _ _
  | case6 read c cs l _ _ _ _ ih => exact ih.cons
  | case7 read l => exact .refl _

theorem passes_closeChar (start : Location) (value : Char) (c : Cursor) :
    c.Passes (closeChar start value c).2 := by
  unfold closeChar
  split
  · exact passes_of_rest_eq ‹_›
  · exact passes_of_rest_eq ‹_›
  · exact .refl c

theorem passes_readChar (start : Location) (c : Cursor) : c.Passes (readChar start c).2 := by
  unfold readChar
  split
  · exact .refl c
  rename_i first cs hrest
  have hfirst := passes_of_rest_eq hrest
  dsimp only
  split
  · exact hfirst
  split
  · exact hfirst
  split
  · have hescape := passes_readEscape ⟨cs, c.place.after first⟩
    split
    · rename_i value behind hread
      rw [hread] at hescape
      exact hfirst.trans (hescape.trans (passes_closeChar start value behind))
    · rename_i e behind hread
      rw [hread] at hescape
      exact hfirst.trans hescape
  split
  · exact hfirst.trans (passes_closeChar start first _)
  · exact hfirst

theorem passes_readInteger (start : Location) (first : Char) (c : Cursor) :
    c.Passes (readInteger start first c).2 :=
  ⟨c.rest.takeWhile Char.isDigit, List.takeWhile_append_dropWhile.symm, rfl⟩

theorem passes_readWord (first : Char) (c : Cursor) : c.Passes (readWord first c).2 := by
  unfold readWord
  dsimp only
  split <;> exact ⟨c.rest.takeWhile isWordPart, List.takeWhile_append_dropWhile.symm, rfl⟩

theorem passes_readSymbol (start : Location) (first : Char) (c : Cursor) :
    c.Passes (readSymbol start first c).2 := by
  unfold readSymbol
  split
  · exact .refl c
  · split
    · exact passes_of_rest_eq ‹_›
    · exact .refl c

/-! ## Tokens -/

/-- The kind of a token by its first character, and the cursor behind the token. -/
def readKind (start : Location) (first : Char) (behind : Cursor) :
    Except LexError TokenKind × Cursor :=
  if first = '"' then readStringFrom start [] behind.rest behind.place
  else if first = '\'' then readChar start behind
  else if first.isDigit then readInteger start first behind
  else if isWordStart first then
    let (kind, behind) := readWord first behind
    (.ok kind, behind)
  else readSymbol start first behind

theorem readToken_cons (first : Char) (cs : List Char) (l : Location) :
    readToken ⟨first :: cs, l⟩ =
      ((readKind l first ⟨cs, l.after first⟩).1.map (⟨·, l⟩),
        (readKind l first ⟨cs, l.after first⟩).2) := rfl

theorem passes_readKind (start : Location) (first : Char) (c : Cursor) :
    c.Passes (readKind start first c).2 := by
  unfold readKind
  split
  · exact passes_readStringFrom _ _ _ _
  split
  · exact passes_readChar _ _
  split
  · exact passes_readInteger _ _ _
  split
  · exact passes_readWord _ _
  · exact passes_readSymbol _ _ _

/-- Whatever comes of it, reading a token goes on from where it stands, and takes a character if there
is one. -/
theorem passes_readToken (c : Cursor) :
    c.Passes c.readToken.2 ∧ (c.rest ≠ [] → c.readToken.2.rest.length < c.rest.length) := by
  obtain ⟨rest, l⟩ := c
  cases rest with
  | nil => exact ⟨.refl _, fun h => absurd rfl h⟩
  | cons first cs =>
    rw [readToken_cons]
    have hbehind := passes_readKind l first ⟨cs, l.after first⟩
    exact ⟨hbehind.cons, fun _ => Nat.lt_succ_of_le hbehind.length_le⟩

/-- A token stands where the cursor is, and unless it is the end of the text the cursor goes on behind
it. -/
theorem place_of_readToken {token : Token} (h : c.readToken = (.ok token, c')) :
    token.place = c.place ∧ (token.kind ≠ .endOfFile → c.place < c'.place) := by
  obtain ⟨rest, l⟩ := c
  cases rest with
  | nil =>
    cases h
    exact ⟨rfl, fun hkind => absurd rfl hkind⟩
  | cons first cs =>
    rw [readToken_cons] at h
    have hle := (passes_readKind l first ⟨cs, l.after first⟩).le
    rcases hread : readKind l first ⟨cs, l.after first⟩ with ⟨_ | kind, behind⟩
    · rw [hread] at h
      cases h
    · rw [hread] at h hle
      cases h
      exact ⟨rfl, fun _ => (Location.lt_after l first).trans_le hle⟩

theorem place_of_nextToken {token : Token} (h : c.nextToken = (.ok token, c')) :
    c.place ≤ token.place ∧ (token.kind ≠ .endOfFile → token.place < c'.place) := by
  have hgap := (passes_skipGapFrom .blank c.rest c.place).le
  unfold nextToken skipGap at h
  split at h
  · cases h
  · rename_i behind hskip
    rw [hskip] at hgap
    obtain ⟨hplace, hnext⟩ := place_of_readToken h
    rw [hplace]
    exact ⟨hgap, hnext⟩

/-- The tokens behind a cursor stand behind it, in order. -/
theorem pairwise_of_tokensUpTo {bound : Nat} {c c' : Cursor} {tokens : List Token}
    (h : c.tokensUpTo bound = (.ok tokens, c')) :
    tokens.Pairwise (·.place < ·.place) ∧ ∀ token ∈ tokens, c.place ≤ token.place := by
  induction bound generalizing c tokens c' with
  | zero =>
    cases h
    exact ⟨.nil, nofun⟩
  | succ bound ih =>
    unfold tokensUpTo at h
    split at h
    · cases h
    · rename_i token behind hnext
      obtain ⟨hle, hlt⟩ := place_of_nextToken hnext
      split at h
      · cases h
        exact ⟨List.pairwise_singleton _ _, List.forall_mem_singleton.2 hle⟩
      · rename_i hkind
        rcases hmore : behind.tokensUpTo bound with ⟨e | more, last⟩
        · rw [hmore] at h
          cases h
        · rw [hmore] at h
          cases h
          obtain ⟨hpairwise, hbehind⟩ := ih hmore
          have hfirst : ∀ other ∈ more, token.place < other.place := fun other hother =>
            (hlt hkind).trans_le (hbehind other hother)
          refine ⟨hpairwise.cons hfirst, List.forall_mem_cons.2 ⟨hle, fun other hother => ?_⟩⟩
          exact hle.trans (hfirst other hother).le

theorem ne_nil_of_tokensUpTo {bound : Nat} {c c' : Cursor} {tokens : List Token}
    (h : c.tokensUpTo (bound + 1) = (.ok tokens, c')) : tokens ≠ [] := by
  rintro rfl
  unfold tokensUpTo at h
  split at h
  · cases h
  · rename_i token behind hnext
    split at h
    · cases h
    · rcases hmore : behind.tokensUpTo bound with ⟨e | more, last⟩
      · rw [hmore] at h
        cases h
      · rw [hmore] at h
        cases h

end Cursor

theorem exists_of_tokenize {text : String} {tokens : List Token} (h : tokenize text = .ok tokens) :
    ∃ c, (Cursor.ofList text.toList).tokensUpTo (text.toList.length + 1) = (.ok tokens, c) :=
  ⟨_, Prod.ext h rfl⟩

theorem ne_nil_of_tokenize {text : String} {tokens : List Token} (h : tokenize text = .ok tokens) :
    tokens ≠ [] := by
  obtain ⟨c, hread⟩ := exists_of_tokenize h
  exact Cursor.ne_nil_of_tokensUpTo hread

/-- The tokens of a text stand in order. -/
theorem pairwise_of_tokenize {text : String} {tokens : List Token}
    (h : tokenize text = .ok tokens) : tokens.Pairwise (·.place < ·.place) := by
  obtain ⟨c, hread⟩ := exists_of_tokenize h
  exact (Cursor.pairwise_of_tokensUpTo hread).1

/-- No two tokens of a text stand at the same place. -/
theorem nodup_of_tokenize {text : String} {tokens : List Token} (h : tokenize text = .ok tokens) :
    (tokens.map Token.place).Nodup :=
  List.pairwise_map.2 ((pairwise_of_tokenize h).imp ne_of_lt)

end BoundedC
