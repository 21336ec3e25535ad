import BoundedC.Proofs.Spans

/-!
# Histories of a lexer

Whatever has been asked of a lexer, in whatever order, it stands at a place of its text and can tell
which. Reading a token takes a character as long as there is one, also where nothing can be read: all
errors are reported behind a character that was taken. So reading on past errors comes to the end of the
text. The sequence of tokens is silent exactly between its last element and the next reset, and a reset
lexer is a new one.

* `LexerOp`, `Lexer.after` : what may be asked of a lexer, and what becomes of it;
* `Cursor.passes_tokensUpTo`, `Lexer.standsIn_perform` : the cursor stays in the text;
* `Cursor.nextToken_cases` : a token that is read is the end of the text, or takes a character;
* `Lexer.finished_after_iff` : where the sequence of tokens is silent;
* `getsOn_after` : all of it, after any history.
-/

namespace BoundedC

/-! ## Histories -/

inductive LexerOp where
  /-- the next element of the sequence of tokens -/
  | next
  /-- the next token, whether or not the sequence has ended -/
  | nextToken
  | reset
  /-- the rest of the sequence of tokens -/
  | tokenize
  deriving DecidableEq

def LexerOp.perform : LexerOp → Lexer → Lexer
  | next, l => l.next.2
  | nextToken, l => l.nextToken.2
  | reset, l => l.reset
  | tokenize, l => l.tokenize.2

/-- Whether the sequence of tokens comes to its last element. -/
def LexerOp.Ends : LexerOp → Lexer → Prop
  | next, l => ∃ outcome, l.next.1 = some outcome ∧ Lexer.isLast outcome = true
  | tokenize, _ => True
  | nextToken, _ | reset, _ => False

namespace Lexer

def after (l : Lexer) (history : List LexerOp) : Lexer := history.foldl (fun l op => op.perform l) l

/-- The number of characters that the lexer has passed. -/
def position (l : Lexer) : Nat := l.text.length - l.cursor.rest.length

theorem after_concat (l : Lexer) (history : List LexerOp) (op : LexerOp) :
    l.after (history ++ [op]) = op.perform (l.after history) := List.foldl_append

/-- The sequence of tokens from here on: up to its end or the first error, and `bound` elements at
most. -/
def collect : Nat → Lexer → Except LexError (List Token) × Lexer
  | 0, l => (.ok [], l)
  | bound + 1, l =>
    match l.next with
    | (none, l) => (.ok [], l)
    | (some (.error e), l) => (.error e, l)
    | (some (.ok token), l) =>
      let (more, l) := collect bound l
      (more.map (token :: ·), l)

end Lexer

namespace Cursor

variable {c c' : Cursor}

/-! ## The cursor stays in the text -/

theorem passes_behind_nextToken (c : Cursor) : c.Passes c.nextToken.2 := by
  have hgap := passes_skipGapFrom .blank c.rest c.place
  unfold nextToken skipGap
  rcases hskip : skipGapFrom .blank c.rest c.place with ⟨_ | _, front⟩
  · rw [hskip] at hgap
    exact hgap
  · rw [hskip] at hgap
    exact hgap.trans (passes_readToken front).1

theorem passes_tokensUpTo (bound : Nat) (c : Cursor) : c.Passes (c.tokensUpTo bound).2 := by
  induction bound generalizing c with
  | zero => exact .refl c
  | succ bound ih =>
    have hnext := passes_behind_nextToken c
    unfold tokensUpTo
    rcases hread : c.nextToken with ⟨_ | token, behind⟩
    · rw [hread] at hnext
      exact hnext
    · rw [hread] at hnext
      dsimp only
      split
      · exact hnext
      · exact hnext.trans (ih behind)

/-! ## Reading gets on -/

/-- A gap in which something is wrong has at least one character. -/
theorem length_lt_of_skipGapFrom {gap : Gap} {cs : List Char} {l : Location} {e : LexError}
    (h : skipGapFrom gap cs l = (.error e, c')) (hgap : gap = .blank) :
    c'.rest.length < cs.length := by
  have hle {gap : Gap} {more : List Char} {m : Location} (h : skipGapFrom gap more m = (.error e, c')) :
      c'.rest.length ≤ more.length := by
    have hle := (passes_skipGapFrom gap more m).length_le
    rwa [h] at hle
  fun_induction skipGapFrom gap cs l with
  | case1 => exact Nat.lt_succ_of_le (Nat.le_succ_of_le (hle h))
  | case2 => exact Nat.lt_succ_of_le (Nat.le_succ_of_le (hle h))
  | case3 => exact Nat.lt_succ_of_le (hle h)
  | case4 => exact Nat.lt_succ_of_le (hle h)
  | case5 | case10 | case11 => cases h
  | _ => cases hgap

/-- The token that is read is the end of the text, where the text has ended, and then again and again.
Otherwise, whether it is a token or an error, it has taken a character. -/
theorem nextToken_cases (c : Cursor) :
    (∃ stop, c.nextToken = (.ok ⟨.endOfFile, stop⟩, ⟨[], stop⟩)) ∨
      (∀ stop, c.nextToken.1 ≠ .ok ⟨.endOfFile, stop⟩) ∧
        c.nextToken.2.rest.length < c.rest.length := by
  have hgap := (passes_skipGapFrom .blank c.rest c.place).length_le
  unfold nextToken skipGap
  rcases hskip : skipGapFrom .blank c.rest c.place with ⟨e | _, front⟩
  · exact .inr ⟨fun _ => nofun, length_lt_of_skipGapFrom hskip rfl⟩
  · rw [hskip] at hgap
    obtain ⟨rest, l⟩ := front
    cases rest with
    | nil => exact .inl ⟨l, rfl⟩
    | cons first cs =>
      refine .inr ⟨fun stop hstop => ?_, ?_⟩
      · rcases readToken_cases (Prod.ext hstop rfl) with ⟨hnil, -⟩ | ⟨_, _, -, -, -, hspelling, -⟩
        · cases hnil
        · exact hspelling.ne_endOfFile rfl
      · exact Nat.lt_of_lt_of_le ((passes_readToken ⟨first :: cs, l⟩).2 nofun) hgap

end Cursor

namespace Lexer

variable {text : List Char} {l : Lexer}

/-! ## Where a lexer stands -/

/-- The cursor stands in the text. -/
def StandsIn (text : List Char) (l : Lexer) : Prop :=
  l.text = text ∧ (Cursor.ofList text).Passes l.cursor

theorem StandsIn.passes {c : Cursor} {finished : Bool} (h : l.StandsIn text)
    (hc : l.cursor.Passes c) : StandsIn text { l with cursor := c, finished } :=
  ⟨h.1, h.2.trans hc⟩

theorem standsIn_perform (h : l.StandsIn text) (op : LexerOp) : (op.perform l).StandsIn text := by
  have hnext := Cursor.passes_behind_nextToken l.cursor
  cases op with
  | next =>
    unfold LexerOp.perform next
    dsimp only
    split
    · exact h
    · exact h.passes hnext
  | nextToken => exact h.passes hnext
  | reset =>
    obtain ⟨rfl, -⟩ := h
    exact ⟨rfl, .refl _⟩
  | tokenize =>
    unfold LexerOp.perform tokenize
    dsimp only
    split
    · exact h
    · exact h.passes (Cursor.passes_tokensUpTo _ _)

theorem standsIn_after (h : l.StandsIn text) (history : List LexerOp) :
    (l.after history).StandsIn text := by
  induction history using List.reverseRecOn with
  | nil => exact h
  | append_singleton history op ih =>
    rw [after_concat]
    exact standsIn_perform ih op

/-- The characters that were passed are the first ones of the text, and the place is the one behind
them. -/
theorem StandsIn.position (h : l.StandsIn text) : l.position ≤ text.length ∧
    l.cursor.rest = text.drop l.position ∧ l.cursor.place = .behind (text.take l.position) := by
  obtain ⟨rfl, run, htext, hplace⟩ := h
  have htext : l.text = run ++ l.cursor.rest := htext
  have hposition : l.position = run.length := by
    unfold Lexer.position
    rw [htext, List.length_append, Nat.add_sub_cancel]
  rw [hposition, htext, List.drop_left, List.take_left, hplace]
  exact ⟨by simp, rfl, Location.afterAll_start run⟩

/-! ## The end of the text -/

theorem after_nextTokens (l : Lexer) (calls : Nat) :
    l.after (.replicate (calls + 1) .nextToken) = l.nextToken.2.after (.replicate calls .nextToken) := rfl

/-- Where the text has ended, its end is read again and again. -/
theorem nextToken_at_end {stop : Location} (h : l.cursor = ⟨[], stop⟩) (calls : Nat) :
    (l.after (.replicate calls .nextToken)).nextToken.1 = .ok ⟨.endOfFile, stop⟩ := by
  induction calls generalizing l with
  | zero =>
    unfold Lexer.after nextToken
    rw [List.replicate_zero, List.foldl_nil, h]
    rfl
  | succ calls ih =>
    rw [after_nextTokens]
    refine ih ?_
    unfold nextToken
    rw [h]
    rfl

theorem StandsIn.eq_behind {stop : Location} (h : l.StandsIn text) (hcursor : l.cursor = ⟨[], stop⟩) :
    stop = .behind text := by
  obtain ⟨-, run, htext, hplace⟩ := h
  rw [hcursor] at htext hplace
  have htext : text = run ++ [] := htext
  rw [htext, List.append_nil]
  exact hplace.trans (Location.afterAll_start run)

/-- As many calls as there are characters left come to the end of the text. -/
theorem StandsIn.exists_calls (h : l.StandsIn text) : ∃ calls ≤ l.cursor.rest.length,
    ∀ more, calls ≤ more →
      (l.after (.replicate more .nextToken)).nextToken.1 = .ok ⟨.endOfFile, .behind text⟩ := by
  generalize hleft : l.cursor.rest.length = left
  induction left using Nat.strongRecOn generalizing l with
  | _ left ih =>
    have hnext : l.nextToken.2.StandsIn text := standsIn_perform h .nextToken
    rcases l.cursor.nextToken_cases with ⟨stop, hread⟩ | ⟨-, hlt⟩
    · -- the first call comes to the end
      have hcursor : l.nextToken.2.cursor = ⟨[], stop⟩ := congrArg Prod.snd hread
      obtain rfl := hnext.eq_behind hcursor
      refine ⟨0, Nat.zero_le _, fun more _ => ?_⟩
      cases more with
      | zero => exact congrArg Prod.fst hread
      | succ more =>
        rw [after_nextTokens]
        exact nextToken_at_end hcursor more
    · obtain ⟨calls, hcalls, hend⟩ := ih _ (hleft ▸ hlt) hnext rfl
      refine ⟨calls + 1, Nat.succ_le_of_lt (Nat.lt_of_le_of_lt hcalls (hleft ▸ hlt)), ?_⟩
      rintro (_ | more) hmore
      · cases hmore
      · rw [after_nextTokens]
        exact hend more (Nat.le_of_succ_le_succ hmore)

/-! ## The sequence of tokens -/

theorem next_of_finished (h : l.finished = true) : l.next = (none, l) := by
  unfold next
  rw [if_pos h]

theorem next_of_unfinished (h : l.finished = false) : l.next =
    (some l.nextToken.1, { l.nextToken.2 with finished := isLast l.nextToken.1 }) := by
  unfold next
  rw [if_neg (Bool.eq_false_iff.1 h)]

theorem next_eq_none_iff : l.next.1 = none ↔ l.finished = true := by
  cases h : l.finished with
  | true =>
    rw [next_of_finished h]
    exact ⟨fun _ => rfl, fun _ => rfl⟩
  | false =>
    rw [next_of_unfinished h]
    exact ⟨nofun, nofun⟩

/-- Only what ends the sequence, and only a reset, changes whether it has ended. -/
theorem finished_perform_iff (l : Lexer) (op : LexerOp) :
    (op.perform l).finished = true ↔ op.Ends l ∨ op ≠ .reset ∧ l.finished = true := by
  cases op with
  | next =>
    cases h : l.finished with
    | true =>
      rw [LexerOp.perform, next_of_finished h, h]
      exact ⟨fun _ => .inr ⟨nofun, rfl⟩, fun _ => rfl⟩
    | false =>
      rw [LexerOp.perform, LexerOp.Ends, next_of_unfinished h]
      simp
  | nextToken => exact ⟨fun h => .inr ⟨nofun, h⟩, fun h => (h.resolve_left nofun).2⟩
  | reset => exact ⟨nofun, fun h => absurd rfl (h.resolve_left nofun).1⟩
  | tokenize =>
    refine ⟨fun _ => .inl trivial, fun _ => ?_⟩
    unfold LexerOp.perform tokenize
    dsimp only
    split
    · assumption
    · rfl

/-- The sequence of tokens has ended if something has ended it behind the last reset. -/
theorem finished_after_iff (h : l.finished = false) (history : List LexerOp) :
    (l.after history).finished = true ↔ ∃ before op behind, history = before ++ op :: behind ∧
      op.Ends (l.after before) ∧ .reset ∉ behind := by
  induction history using List.reverseRecOn with
  | nil => exact ⟨fun hend => absurd (h.symm.trans hend) nofun, by simp⟩
  | append_singleton history last ih =>
    rw [after_concat, finished_perform_iff, ih]
    constructor
    · rintro (hlast | ⟨hlast, before, op, behind, rfl, hop, hbehind⟩)
      · exact ⟨history, last, [], rfl, hlast, List.not_mem_nil⟩
      · exact ⟨before, op, behind ++ [last], by simp, hop, by simp [hbehind, Ne.symm hlast]⟩
    · rintro ⟨before, op, behind, heq, hop, hbehind⟩
      rcases List.eq_nil_or_concat behind with rfl | ⟨middle, other, rfl⟩
      · obtain ⟨rfl, hlast⟩ := List.append_inj' heq rfl
        cases hlast
        exact .inl hop
      · rw [List.concat_eq_append, ← List.cons_append, ← List.append_assoc] at heq
        obtain ⟨rfl, hlast⟩ := List.append_inj' heq rfl
        cases hlast
        rw [List.concat_eq_append, List.mem_append, not_or, List.mem_singleton] at hbehind
        exact .inr ⟨Ne.symm hbehind.2, before, op, middle, rfl, hop, hbehind.1⟩

/-- A sequence of tokens that has not ended is collected as it is read at once. -/
theorem collect_succ {bound : Nat} (h : l.finished = false) (hbound : l.cursor.rest.length < bound) :
    l.collect (bound + 1) = ((l.cursor.tokensUpTo bound).1,
      { l with cursor := (l.cursor.tokensUpTo bound).2, finished := true }) := by
  induction bound generalizing l with
  | zero => exact absurd hbound (Nat.not_lt_zero _)
  | succ bound ih =>
    have hcases := l.cursor.nextToken_cases
    rw [collect, next_of_unfinished h, Cursor.tokensUpTo]
    unfold nextToken
    rcases hread : l.cursor.nextToken with ⟨e | token, behind⟩
    · rfl
    · dsimp only
      by_cases hkind : token.kind = .endOfFile
      · rw [if_pos hkind, collect, next_of_finished (by simpa [isLast] using hkind)]
        simp [isLast, hkind, Except.map]
      · rw [hread] at hcases
        obtain ⟨stop, hstop⟩ | ⟨-, hlt⟩ := hcases
        · cases hstop
          exact absurd rfl hkind
        · have hlast : isLast (.ok token) = false := by simpa [isLast] using hkind
          have hmore := @ih { l with cursor := behind, finished := false } rfl
            (Nat.lt_of_lt_of_le hlt (Nat.le_of_lt_succ hbound))
          rw [if_neg hkind, hlast, hmore]

/-- All tokens at once are the elements of the sequence one by one. -/
theorem collect_eq_tokenize (l : Lexer) : l.collect (l.cursor.rest.length + 2) = l.tokenize := by
  unfold tokenize
  cases h : l.finished with
  | true =>
    rw [if_pos rfl, collect, next_of_finished h]
  | false =>
    rw [if_neg nofun]
    exact collect_succ h (Nat.lt_succ_self _)

end Lexer

/-! ## The result -/

/-- What is true of the lexer of a text after a history. -/
structure Lexer.GetsOn (text : List Char) (history : List LexerOp) (l : Lexer) : Prop where
  position_le : l.position ≤ text.length
  rest_eq : l.cursor.rest = text.drop l.position
  /-- the place is the one of the position -/
  place_eq : l.cursor.place = .behind (text.take l.position)
  /-- unless the end of the text is read, the next token or error takes a character -/
  progress : (∀ stop, l.nextToken.1 ≠ .ok ⟨.endOfFile, stop⟩) → l.position < l.nextToken.2.position
  /-- as many calls as there are characters left come to the end, and all further ones stay there -/
  ends : ∃ calls ≤ text.length - l.position, ∀ more, calls ≤ more →
    (l.after (.replicate more .nextToken)).nextToken.1 = .ok ⟨.endOfFile, .behind text⟩
  /-- the sequence of tokens is silent behind its last element, up to the next reset -/
  silent_iff : l.next.1 = none ↔ ∃ before op behind, history = before ++ op :: behind ∧
    op.Ends ((Lexer.ofString (String.ofList text)).after before) ∧ .reset ∉ behind
  /-- its elements are the tokens that are read -/
  next_eq : ∀ outcome, l.next.1 = some outcome → outcome = l.nextToken.1
  tokenize_eq : l.tokenize = l.collect (text.length - l.position + 2)
  /-- a lexer that was reset is a new one -/
  reset_eq : l.reset = Lexer.ofString (String.ofList text)

/-- After any history a lexer stands in its text and says where, and gets on to the end of the text,
also past errors. -/
theorem getsOn_after (text : String) (history : List LexerOp) :
    ((Lexer.ofString text).after history).GetsOn text.toList history := by
  have hnew : (Lexer.ofString text).StandsIn text.toList := ⟨rfl, .refl _⟩
  have hfinished := Lexer.finished_after_iff (l := Lexer.ofString text) rfl history
  have h := Lexer.standsIn_after hnew history
  generalize (Lexer.ofString text).after history = l at h hfinished ⊢
  obtain ⟨hle, hrest, hplace⟩ := h.position
  have hleft : l.cursor.rest.length = text.toList.length - l.position := by
    rw [hrest, List.length_drop]
  exact {
    position_le := hle
    rest_eq := hrest
    place_eq := hplace
    progress := fun hread => by
      obtain ⟨hnextle, hnextrest, -⟩ := (Lexer.standsIn_perform h .nextToken).position
      have hlt : l.nextToken.2.cursor.rest.length < l.cursor.rest.length := by
        obtain ⟨stop, hstop⟩ | ⟨-, hlt⟩ := l.cursor.nextToken_cases
        · exact absurd (congrArg Prod.fst hstop) (hread stop)
        · exact hlt
      have hnextleft := congrArg List.length hnextrest
      rw [List.length_drop] at hnextleft
      change l.nextToken.2.cursor.rest.length = text.toList.length - l.nextToken.2.position at hnextleft
      omega
    ends := hleft ▸ h.exists_calls
    silent_iff := by
      rw [Lexer.next_eq_none_iff, hfinished, String.ofList_toList]
    next_eq := fun outcome hnext => by
      cases hend : l.finished with
      | true =>
        rw [Lexer.next_of_finished hend] at hnext
        cases hnext
      | false =>
        rw [Lexer.next_of_unfinished hend] at hnext
        exact (Option.some.inj hnext).symm
    tokenize_eq := by rw [← hleft, Lexer.collect_eq_tokenize]
    reset_eq := by
      rw [String.ofList_toList, Lexer.reset, h.1]
      rfl }

end BoundedC
