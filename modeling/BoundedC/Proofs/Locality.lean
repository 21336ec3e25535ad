import BoundedC.Proofs.Plain

/-!
# Reading does not look beyond

What is read depends on the tokens that are taken and on the next one, and the functions that are
defined already matter for the name of a function only. So where the end of the text is replaced by
more tokens, and more names are defined, the same is read, and what is left is left among the
surroundings.

* `ReaderState.within` : a state with more tokens behind it and more names defined;
* `ReaderState.Follows` : how a state lies behind the one that reading began with;
* `Reader.Local` : the reader does within surroundings what it does alone, unless it comes to the end
  of the text;
* `local_expression`, `local_statement` : the two recursions;
* `functionDefinition_within`, `functionsUpTo_within` : functions, which may stand at the end of the
  text.
-/

namespace BoundedC

/-- The last of the tokens, and no other, is the end of the text. -/
def EndsOnce : List Token → Prop
  | [] => False
  | [token] => token.kind = .endOfFile
  | token :: next :: rest => token.kind ≠ .endOfFile ∧ EndsOnce (next :: rest)

/-- What a text is put into: the tokens that take the place of its end, and the names of functions
that are defined before it. -/
structure Surroundings where
  next : Token
  more : List Token
  names : List String
  /-- no parenthesis is closed -/
  next_ne : next.kind ≠ .symbol .rightParen

namespace ReaderState

/-- Behind the tokens there is the end of the text. -/
def Ended (s : ReaderState) : Prop := EndsOnce (s.current :: s.rest)

/-- The state within surroundings. -/
def within (k : Surroundings) (s : ReaderState) : ReaderState :=
  match s.rest with
  | [] => { s with current := k.next, rest := k.more, defined := s.defined ++ k.names }
  | _ :: _ => { s with rest := s.rest.dropLast ++ k.next :: k.more, defined := s.defined ++ k.names }

variable {k : Surroundings} {s t u : ReaderState}

theorem within_of_ne_nil (h : s.rest ≠ []) : s.within k =
    { s with rest := s.rest.dropLast ++ k.next :: k.more, defined := s.defined ++ k.names } := by
  unfold within
  split
  · exact absurd ‹_› h
  · rfl

theorem within_of_nil (h : s.rest = []) : s.within k =
    { s with current := k.next, rest := k.more, defined := s.defined ++ k.names } := by
  unfold within
  rw [h]

@[simp] theorem loops_within : (s.within k).loops = s.loops := by unfold within; split <;> rfl

@[simp] theorem depth_within : (s.within k).depth = s.depth := by unfold within; split <;> rfl

@[simp] theorem defined_within : (s.within k).defined = s.defined ++ k.names := by
  unfold within
  split <;> rfl

theorem within_define (name : String) :
    { s with defined := name :: s.defined }.within k =
      { s.within k with defined := name :: (s.within k).defined } := by
  unfold within
  cases s.rest <;> rfl

theorem length_le_within : s.rest.length ≤ (s.within k).rest.length := by
  by_cases h : s.rest = []
  · rw [h]
    exact Nat.zero_le _
  · rw [within_of_ne_nil h]
    simp only [List.length_append, List.length_dropLast, List.length_cons]
    omega

/-- Nothing but the tokens, of which none has been added, lies between the states. -/
structure Follows (t s : ReaderState) : Prop where
  ended : t.Ended
  length_le : t.rest.length ≤ s.rest.length
  defined_eq : t.defined = s.defined

theorem Follows.refl (h : s.Ended) : s.Follows s := ⟨h, Nat.le_refl _, rfl⟩

theorem Follows.trans (h : u.Follows t) (h' : t.Follows s) : u.Follows s :=
  ⟨h.ended, Nat.le_trans h.length_le h'.length_le, h.defined_eq.trans h'.defined_eq⟩

theorem Follows.ne_nil (h : t.Follows s) (ht : t.rest ≠ []) : s.rest ≠ [] :=
  List.ne_nil_of_length_pos (Nat.lt_of_lt_of_le (List.length_pos_iff.2 ht) h.length_le)

theorem Ended.rest_ne_nil (h : s.Ended) (hkind : s.current.kind ≠ .endOfFile) : s.rest ≠ [] := by
  intro hrest
  unfold Ended at h
  rw [hrest] at h
  exact hkind h

theorem Ended.rest_eq_nil (h : s.Ended) (hkind : s.current.kind = .endOfFile) : s.rest = [] := by
  unfold Ended at h
  cases hrest : s.rest with
  | nil => rfl
  | cons token rest =>
    rw [hrest] at h
    exact absurd hkind h.1

end ReaderState

open ReaderState

namespace Reader

variable {α β : Type} {k : Surroundings}

/-- Unless the first reader comes to the end of the text, the second one does within surroundings what
the first one does alone. -/
def Local (k : Surroundings) (x x' : Reader α) : Prop :=
  ∀ ⦃s a t⦄, s.Ended → x.run s = .ok (a, t) →
    t.Follows s ∧ (t.rest ≠ [] → x'.run (s.within k) = .ok (a, t.within k))

/-! ## Rules -/

namespace Local

theorem pure (a : α) : Local k (pure a) (pure a) := by
  rintro s _ _ hs ⟨⟩
  exact ⟨.refl hs, fun _ => rfl⟩

theorem fail (fault : ParseFault) (place : Location) :
    Local k (Reader.fail fault place : Reader α) (Reader.fail fault place) := by
  rintro s a t - ⟨⟩

theorem bind {x x' : Reader α} {f f' : α → Reader β} (hx : Local k x x')
    (hf : ∀ a, Local k (f a) (f' a)) : Local k (x >>= f) (x' >>= f') := by
  intro s b t hs h
  obtain ⟨a, u, hu, ht⟩ := run_bind_eq_ok_iff.1 h
  obtain ⟨hfollows, hwithin⟩ := hx hs hu
  obtain ⟨hfollows', hwithin'⟩ := hf a hfollows.ended ht
  refine ⟨hfollows'.trans hfollows, fun hrest => ?_⟩
  exact run_bind_eq_ok_iff.2 ⟨a, _, hwithin (hfollows'.ne_nil hrest), hwithin' hrest⟩

/-- A reader that stops reads nothing. -/
theorem fail_bind (fault : ParseFault) (place : Location) (f f' : α → Reader β) :
    Local k (Reader.fail fault place >>= f) (Reader.fail fault place >>= f') := by
  rintro s b t - ⟨⟩

theorem map {x x' : Reader α} (hx : Local k x x') (f : α → β) : Local k (f <$> x) (f <$> x') := by
  rw [map_eq_pure_bind, map_eq_pure_bind]
  exact hx.bind fun a => .pure (f a)

end Local

theorem local_get_bind {f f' : ReaderState → Reader α} (hf : ∀ s, Local k (f s) (f' (s.within k))) :
    Local k (get >>= f) (get >>= f') := fun s _ _ hs h => hf s hs h

theorem local_modify {f : ReaderState → ReaderState} (hrest : ∀ s, (f s).rest = s.rest)
    (hcurrent : ∀ s, (f s).current = s.current) (hdefined : ∀ s, (f s).defined = s.defined)
    (hf : ∀ s, f (s.within k) = (f s).within k) : Local k (modify f) (modify f) := by
  rintro s _ _ hs ⟨⟩
  refine ⟨⟨?_, Nat.le_of_eq (congrArg _ (hrest s)), hdefined s⟩, fun _ => ?_⟩
  · unfold Ended
    rw [hcurrent, hrest]
    exact hs
  · show Except.ok ((), f (s.within k)) = _
    rw [hf]

theorem local_peek : Local k peek peek := by
  rintro s _ _ hs ⟨⟩
  refine ⟨.refl hs, fun hrest => ?_⟩
  show Except.ok ((s.within k).current, s.within k) = _
  rw [within_of_ne_nil hrest]

theorem local_advance : Local k advance advance := by
  rintro ⟨⟨kind, place⟩, rest, loops, defined, depth⟩ _ t hs h
  by_cases hend : kind = .endOfFile
  · have hstay (s : ReaderState) (hkind : s.current.kind = .endOfFile) :
        advance.run s = .ok ((), s) := by
      show Except.ok ((), if s.current.kind = .endOfFile then s else _) = _
      rw [if_pos hkind]
    cases (hstay ⟨⟨kind, place⟩, rest, loops, defined, depth⟩ hend).symm.trans h
    refine ⟨.refl hs, fun hrest => hstay _ ?_⟩
    rw [within_of_ne_nil hrest]
    exact hend
  · have hmove (next : Token) (more : List Token) (defined : List String) :
        advance.run ⟨⟨kind, place⟩, next :: more, loops, defined, depth⟩ =
          .ok ((), ⟨next, more, loops, defined, depth⟩) := by
      show Except.ok ((), if kind = .endOfFile then _ else _) = _
      rw [if_neg hend]
    cases rest with
    | nil => exact absurd hs hend
    | cons next more =>
      cases (hmove next more defined).symm.trans h
      refine ⟨⟨hs.2, Nat.le_succ _, rfl⟩, fun hrest => ?_⟩
      rw [within_of_ne_nil (List.cons_ne_nil _ _), within_of_ne_nil hrest,
        List.dropLast_cons_of_ne_nil hrest]
      exact hmove _ _ _

theorem Plain.local {x : Reader α} (hx : Plain x) : Local k x x := by
  induction hx with
  | pure a => exact .pure a
  | fail fault place => exact .fail fault place
  | peek => exact local_peek
  | advance => exact local_advance
  | bind _ _ hx hf => exact hx.bind hf

/-- Something that only looks at tokens is read before. -/
theorem Plain.local_bind {x : Reader α} {f f' : α → Reader β} (hx : Plain x)
    (hf : ∀ a, Local k (f a) (f' a)) : Local k (x >>= f) (x >>= f') := hx.local.bind hf

theorem local_outOfBudget {x : Reader α} : Local k outOfBudget x := by
  rintro s a t - ⟨⟩

theorem run_descend (s : ReaderState) : descend.run s =
    if s.depth ≥ maxNesting then .error ⟨.tooDeep, s.current.place⟩
    else .ok ((), { s with depth := s.depth + 1 }) := by
  show (if s.depth ≥ maxNesting then _ else _ : Reader Unit).run s = _
  split <;> rfl

theorem local_descend : Local k descend descend := by
  intro s _ t hs h
  rw [run_descend] at h
  split at h
  · cases h
  · rename_i hdepth
    cases h
    refine ⟨⟨hs, Nat.le_refl _, rfl⟩, fun hrest => ?_⟩
    rw [run_descend, depth_within, if_neg hdepth, within_of_ne_nil hrest,
      within_of_ne_nil (s := s) hrest]

theorem local_ascend (levels : Nat) : Local k (ascend levels) (ascend levels) := by
  refine local_modify (fun _ => rfl) (fun _ => rfl) (fun _ => rfl) fun s => ?_
  unfold within
  cases s.rest <;> rfl

theorem Local.nested {x x' : Reader α} (hx : Local k x x') :
    Local k (Reader.nested x) (Reader.nested x') :=
  local_descend.bind fun _ => hx.bind fun a => (local_ascend 1).bind fun _ => .pure a

/-- Within surroundings there may be more items. -/
theorem local_itemBound_bind {f f' : Nat → Reader α}
    (hf : ∀ bound bound', bound ≤ bound' → Local k (f bound) (f' bound')) :
    Local k (itemBound >>= f) (itemBound >>= f') :=
  local_get_bind fun _ => hf _ _ (Nat.succ_le_succ length_le_within)

theorem Local.commaSeparated {item item' : Reader α} (h : Local k item item') :
    Local k (Reader.commaSeparated item) (Reader.commaSeparated item') := by
  refine local_itemBound_bind fun bound => ?_
  induction bound with
  | zero => exact fun _ _ => local_outOfBudget
  | succ bound ih =>
    intro bound' hle
    obtain ⟨bound', rfl⟩ : ∃ b, bound' = b + 1 := ⟨bound' - 1, by omega⟩
    refine h.bind fun a => (plain_accept _).local_bind fun more => ?_
    cases more with
    | true => exact (ih bound' (Nat.le_of_succ_le_succ hle)).bind fun as => .pure (a :: as)
    | false => exact .pure [a]

/-! ## Declarations -/

/-- The second of the two tokens is none of the surroundings that matters. -/
theorem local_voidIsAlone : Local k voidIsAlone voidIsAlone := by
  rintro ⟨current, rest, loops, defined, depth⟩ _ _ hs ⟨⟩
  refine ⟨.refl hs, fun hrest => ?_⟩
  rw [within_of_ne_nil hrest]
  cases rest with
  | nil => exact absurd rfl hrest
  | cons next more =>
    cases more with
    | cons other more => rfl
    | nil =>
      have hnext : next.kind ≠ .symbol .rightParen := by
        have hend : next.kind = .endOfFile := hs.2
        rw [hend]
        exact nofun
      show Except.ok ((decide (current.kind = .keyword .void) && decide (k.next.kind = _)), _) =
        Except.ok ((decide (current.kind = .keyword .void) && decide (next.kind = _)), _)
      rw [decide_eq_false k.next_ne, decide_eq_false hnext]

theorem local_parameters : Local k parameters parameters := by
  refine (plain_isNext _).local_bind fun next => ?_
  cases next with
  | true => exact .pure []
  | false =>
    refine local_voidIsAlone.bind fun alone => ?_
    cases alone with
    | true => exact Plain.advance.local_bind fun _ => .pure []
    | false => exact plain_parameter.local.commaSeparated

variable {value value' operand operand' statement statement' : Reader Node}

theorem local_declarator (hvalue : Local k value value') :
    Local k (declarator value) (declarator value') := by
  refine plain_typeSpecifier.local_bind fun spec => plain_identifier.local_bind fun name =>
    (plain_dimensionsUpTo _).local_bind fun dims => (plain_accept _).local_bind fun equal => ?_
  have hrest (init : Option Node) : Plain (do
      let type ← variableType spec.1 dims init name.2
      if type = .void then fail (.voidVariable name.1) name.2
      return Node.declaration name.2 name.1 type spec.2 init) := by
    refine .bind (plain_variableType _ _ _ _) fun type => ?_
    split
    · exact .bind (.fail _ _) fun _ => .pure _
    · exact .pure _
  cases equal with
  | true => exact (hvalue.map some).bind fun init => (hrest init).local
  | false => exact (Local.pure none).bind fun init => (hrest init).local

theorem local_variableDeclaration (hvalue : Local k value value') :
    Local k (variableDeclaration value) (variableDeclaration value') :=
  (local_declarator hvalue).bind fun d => (plain_expect _ _).local_bind fun _ => .pure d

/-! ## Expressions -/

theorem local_chainFrom (level : List (Symbol × BinaryOp)) (hoperand : Local k operand operand')
    (bound : Nat) (left : Node) (entered : Nat) :
    Local k (chainFrom level operand bound left entered)
      (chainFrom level operand' bound left entered) := by
  induction bound generalizing left entered with
  | zero => exact local_outOfBudget
  | succ bound ih =>
    refine local_peek.bind fun token => ?_
    split
    · exact .pure (left, entered)
    · exact Plain.advance.local_bind fun _ => local_descend.bind fun _ => hoperand.bind fun right =>
        ih _ _

theorem local_binary (hoperand : Local k operand operand') :
    Local k (binary operand) (binary operand') := by
  unfold binary
  induction binaryLevels with
  | nil => exact hoperand
  | cons level levels ih =>
    exact ih.bind fun first => (local_chainFrom level ih _ first 0).bind fun r =>
      (local_ascend r.2).bind fun _ => .pure r.1

theorem local_assignment (hvalue : Local k value value') (hoperand : Local k operand operand') :
    Local k (assignment value operand) (assignment value' operand') := by
  refine (local_binary hoperand).bind fun target => local_peek.bind fun token => ?_
  split
  · exact .pure target
  · refine Plain.advance.local_bind fun _ => ?_
    dsimp only
    split
    · exact hvalue.bind fun source => .pure _
    · exact .fail_bind _ _ _ _

theorem local_arguments (hvalue : Local k value value') :
    Local k (arguments value) (arguments value') := by
  refine (plain_isNext _).local_bind fun next => ?_
  cases next with
  | true => exact .pure []
  | false => exact hvalue.commaSeparated

theorem local_trailingFrom (hvalue : Local k value value') (bound : Nat) (node : Node)
    (entered : Nat) :
    Local k (trailingFrom value bound node entered) (trailingFrom value' bound node entered) := by
  induction bound generalizing node entered with
  | zero => exact local_outOfBudget
  | succ bound ih =>
    refine local_peek.bind fun token => ?_
    split
    · exact local_descend.bind fun _ => Plain.advance.local_bind fun _ =>
        (plain_stepNode _ _ _).local_bind fun _ => ih _ _
    · exact local_descend.bind fun _ => Plain.advance.local_bind fun _ =>
        (plain_stepNode _ _ _).local_bind fun _ => ih _ _
    · exact local_descend.bind fun _ => Plain.advance.local_bind fun _ => hvalue.bind fun _ =>
        (plain_expect _ _).local_bind fun _ => ih _ _
    · refine local_descend.bind fun _ => ?_
      split
      · exact Plain.advance.local_bind fun _ => (local_arguments hvalue).bind fun _ =>
          (plain_expect _ _).local_bind fun _ => ih _ _
      · exact .fail _ _
    · exact .pure (node, entered)

theorem local_elementsUpTo (hvalue : Local k value value') (bound bound' : Nat)
    (hle : bound ≤ bound') : Local k (elementsUpTo value bound) (elementsUpTo value' bound') := by
  induction bound generalizing bound' with
  | zero => exact local_outOfBudget
  | succ bound ih =>
    obtain ⟨bound', rfl⟩ : ∃ b, bound' = b + 1 := ⟨bound' - 1, by omega⟩
    refine (plain_isNext _).local_bind fun closed => ?_
    cases closed with
    | true => exact .pure []
    | false =>
      refine hvalue.bind fun e => (plain_accept _).local_bind fun more => ?_
      cases more with
      | true => exact (ih bound' (Nat.le_of_succ_le_succ hle)).bind fun es => .pure (e :: es)
      | false => exact .pure [e]

theorem local_arrayLiteral (hvalue : Local k value value') (place : Location) :
    Local k (arrayLiteral value place) (arrayLiteral value' place) := by
  refine local_itemBound_bind fun bound bound' hle =>
    (local_elementsUpTo hvalue bound bound' hle).bind fun es =>
    (plain_expect _ _).local_bind fun _ => ?_
  split
  · exact .fail_bind _ _ _ _
  · exact .pure _

theorem local_parenthesized (hvalue : Local k value value') :
    Local k (parenthesized value) (parenthesized value') := by
  refine plain_typeIsNext.local_bind fun typed => ?_
  cases typed with
  | true =>
    refine (local_declarator hvalue).bind fun declaration => ?_
    dsimp only
    split
    · exact (plain_expect _ _).local_bind fun _ => .pure declaration
    · exact .fail_bind _ _ _ _
  | false => exact hvalue.bind fun node => (plain_expect _ _).local_bind fun _ => .pure node

theorem local_primary (hvalue : Local k value value') :
    Local k (primary value) (primary value') := by
  refine local_peek.bind fun token => ?_
  split
  · exact Plain.advance.local_bind fun _ => .pure _
  · refine (plain_accept _).local_bind fun brace => ?_
    cases brace with
    | true => exact local_arrayLiteral hvalue _
    | false =>
      refine (plain_accept _).local_bind fun paren => ?_
      cases paren with
      | true => exact local_parenthesized hvalue
      | false => exact .fail _ _

theorem local_leading (hvalue : Local k value value') (hoperand : Local k operand operand') :
    Local k (leading value operand) (leading value' operand') := by
  refine local_peek.bind fun token => ?_
  split
  · exact Plain.advance.local_bind fun _ => hoperand.bind fun _ => .pure _
  · exact Plain.advance.local_bind fun _ => hoperand.bind fun _ => .pure _
  · exact Plain.advance.local_bind fun _ => hoperand
  · refine Plain.advance.local_bind fun _ => hoperand.bind fun node => ?_
    dsimp only
    split
    · exact .pure _
    · exact .fail_bind _ _ _ _
  · exact Plain.advance.local_bind fun _ => hoperand.bind fun _ => .pure _
  · exact Plain.advance.local_bind fun _ => hoperand.bind fun _ => (plain_stepNode _ _ _).local
  · exact Plain.advance.local_bind fun _ => hoperand.bind fun _ => (plain_stepNode _ _ _).local
  · exact (local_primary hvalue).bind fun operand => (local_trailingFrom hvalue _ operand 0).bind
      fun r => (local_ascend r.2).bind fun _ => .pure r.1

/-- Values and operands are read within surroundings as they are read alone. -/
theorem local_expression_unary (budget : Nat) :
    Local k (expression budget) (expression budget) ∧ Local k (unary budget) (unary budget) := by
  induction budget with
  | zero => exact ⟨local_outOfBudget, local_outOfBudget⟩
  | succ budget ih =>
    obtain ⟨hvalue, hoperand⟩ := ih
    exact ⟨.nested (local_assignment hvalue hoperand), .nested (local_leading hvalue hoperand)⟩

theorem local_expression (budget : Nat) : Local k (expression budget) (expression budget) :=
  (local_expression_unary budget).1

/-! ## Statements -/

theorem local_statements (hstatement : Local k statement statement') :
    Local k (statements statement) (statements statement') := by
  refine local_itemBound_bind fun bound => ?_
  induction bound with
  | zero => exact fun _ _ => local_outOfBudget
  | succ bound ih =>
    intro bound' hle
    obtain ⟨bound', rfl⟩ : ∃ b, bound' = b + 1 := ⟨bound' - 1, by omega⟩
    refine local_peek.bind fun token => ?_
    split
    · exact .pure []
    · exact hstatement.bind fun first => (ih bound' (Nat.le_of_succ_le_succ hle)).bind fun rest =>
        .pure (first :: rest)

theorem local_valueUnless (hvalue : Local k value value') (s : Symbol) :
    Local k (valueUnless value s) (valueUnless value' s) := by
  refine (plain_isNext _).local_bind fun next => ?_
  cases next with
  | true => exact .pure none
  | false => exact hvalue.map some

theorem local_setLoops (f : Nat → Nat) :
    Local k (modify fun s => { s with loops := f s.loops })
      (modify fun s => { s with loops := f s.loops }) := by
  refine local_modify (fun _ => rfl) (fun _ => rfl) (fun _ => rfl) fun s => ?_
  unfold within
  cases s.rest <;> rfl

theorem local_loopBody (hstatement : Local k statement statement') :
    Local k (loopBody statement) (loopBody statement') :=
  (local_setLoops (· + 1)).bind fun _ => hstatement.bind fun body =>
    (local_setLoops (· - 1)).bind fun _ => .pure body

theorem local_jump (word : Keyword) (place : Location) (node : Node) :
    Local k (jump word place node) (jump word place node) := by
  refine local_get_bind fun s => ?_
  rw [loops_within]
  split
  · exact .fail_bind _ _ _ _
  · exact (plain_expect _ _).local_bind fun _ => .pure node

theorem local_ifStatement (hstatement : Local k statement statement') (hvalue : Local k value value')
    (place : Location) :
    Local k (ifStatement statement value place) (ifStatement statement' value' place) := by
  refine (plain_expect _ _).local_bind fun _ => hvalue.bind fun condition =>
    (plain_expect _ _).local_bind fun _ => hstatement.bind fun thenBranch =>
    (plain_acceptWord _).local_bind fun more => ?_
  cases more with
  | true => exact (hstatement.map some).bind fun _ => .pure _
  | false => exact (Local.pure none).bind fun _ => .pure _

theorem local_forInit (hvalue : Local k value value') :
    Local k (forInit value) (forInit value') := by
  refine (plain_accept _).local_bind fun empty => ?_
  cases empty with
  | true => exact .pure none
  | false =>
    refine plain_typeIsNext.local_bind fun typed => ?_
    cases typed with
    | true => exact (local_variableDeclaration hvalue).bind fun _ => .pure _
    | false => exact hvalue.bind fun _ => (plain_expect _ _).local_bind fun _ => .pure _

theorem local_forStatement (hstatement : Local k statement statement')
    (hvalue : Local k value value') (place : Location) :
    Local k (forStatement statement value place) (forStatement statement' value' place) :=
  (plain_expect _ _).local_bind fun _ => (local_forInit hvalue).bind fun _ =>
    (local_valueUnless hvalue _).bind fun _ => (plain_expect _ _).local_bind fun _ =>
    (local_valueUnless hvalue _).bind fun _ => (plain_expect _ _).local_bind fun _ =>
    (local_loopBody hstatement).bind fun _ => .pure _

theorem local_anyStatement (hstatement : Local k statement statement')
    (hvalue : Local k value value') :
    Local k (anyStatement statement value) (anyStatement statement' value') := by
  refine local_peek.bind fun token => ?_
  split
  · exact Plain.advance.local_bind fun _ => (local_valueUnless hvalue _).bind fun _ =>
      (plain_expect _ _).local_bind fun _ => .pure _
  · exact Plain.advance.local_bind fun _ => local_ifStatement hstatement hvalue _
  · exact Plain.advance.local_bind fun _ => (plain_expect _ _).local_bind fun _ =>
      hvalue.bind fun _ => (plain_expect _ _).local_bind fun _ =>
      (local_loopBody hstatement).bind fun _ => .pure _
  · exact Plain.advance.local_bind fun _ => local_forStatement hstatement hvalue _
  · exact Plain.advance.local_bind fun _ => local_jump _ _ _
  · exact Plain.advance.local_bind fun _ => local_jump _ _ _
  · exact Plain.advance.local_bind fun _ => .pure _
  · exact Plain.advance.local_bind fun _ => (local_statements hstatement).bind fun _ =>
      (plain_expect _ _).local_bind fun _ => .pure _
  · split
    · exact local_variableDeclaration hvalue
    · exact hvalue.bind fun _ => (plain_expect _ _).local_bind fun _ => .pure _

/-- Statements are read within surroundings as they are read alone. -/
theorem local_statement (budget : Nat) :
    Local k (Reader.statement budget) (Reader.statement budget) := by
  induction budget with
  | zero => exact local_outOfBudget
  | succ budget ih => exact .nested (local_anyStatement ih (local_expression budget))

/-! ## Functions

A function may be the last thing in front of the end of the text. It ends in a brace that is taken, and
what comes behind it is not looked at. -/

/-- The second reader does within surroundings what the first one does alone, and a token is taken. -/
def Crosses (k : Surroundings) (x x' : Reader α) : Prop :=
  ∀ ⦃s a t⦄, s.Ended → x.run s = .ok (a, t) →
    t.Follows s ∧ t.rest.length < s.rest.length ∧ x'.run (s.within k) = .ok (a, t.within k)

theorem Local.crosses {x x' : Reader α} {f f' : α → Reader β} (hx : Local k x x')
    (hf : ∀ a, Crosses k (f a) (f' a)) : Crosses k (x >>= f) (x' >>= f') := by
  intro s b t hs h
  obtain ⟨a, u, hu, ht⟩ := run_bind_eq_ok_iff.1 h
  obtain ⟨hfollows, hwithin⟩ := hx hs hu
  obtain ⟨hfollows', hlt, hwithin'⟩ := hf a hfollows.ended ht
  refine ⟨hfollows'.trans hfollows, Nat.lt_of_lt_of_le hlt hfollows.length_le, ?_⟩
  have hrest : u.rest ≠ [] := List.ne_nil_of_length_pos (Nat.zero_lt_of_lt hlt)
  exact run_bind_eq_ok_iff.2 ⟨a, _, hwithin hrest, hwithin'⟩

theorem Plain.crosses {x : Reader α} {f f' : α → Reader β} (hx : Plain x)
    (hf : ∀ a, Crosses k (f a) (f' a)) : Crosses k (x >>= f) (x >>= f') := hx.local.crosses hf

theorem crosses_expect (s : Symbol) (context : String) : Crosses k (expect s context) (expect s context) := by
  rintro ⟨⟨kind, place⟩, rest, loops, defined, depth⟩ _ t hs h
  by_cases hkind : kind = .symbol s
  · have hmove (next : Token) (more : List Token) (defined : List String) :
        (expect s context).run ⟨⟨kind, place⟩, next :: more, loops, defined, depth⟩ =
          .ok ((), ⟨next, more, loops, defined, depth⟩) := by
      show (if kind = .symbol s then advance else _ : Reader Unit).run _ = _
      rw [if_pos hkind]
      show Except.ok ((), if kind = .endOfFile then _ else _) = _
      rw [if_neg (hkind ▸ nofun)]
    cases rest with
    | nil =>
      cases hkind.symm.trans hs
    | cons next more =>
      cases (hmove next more defined).symm.trans h
      refine ⟨⟨hs.2, Nat.le_succ _, rfl⟩, Nat.lt_succ_self _, ?_⟩
      rw [within_of_ne_nil (List.cons_ne_nil _ _)]
      cases more with
      | nil => exact hmove _ _ _
      | cons other more => exact hmove _ _ _
  · have hstop : (expect s context).run ⟨⟨kind, place⟩, rest, loops, defined, depth⟩ =
        .error ⟨.missingSymbol s context kind, place⟩ := by
      show (if kind = .symbol s then advance else _ : Reader Unit).run _ = _
      rw [if_neg hkind]
      rfl
    cases hstop.symm.trans h

theorem Crosses.bind_pure {x x' : Reader α} (hx : Crosses k x x') (f : α → β) :
    Crosses k (x >>= fun a => pure (f a)) (x' >>= fun a => pure (f a)) := by
  intro s b t hs h
  obtain ⟨a, u, hu, ht⟩ := run_bind_eq_ok_iff.1 h
  cases ht
  obtain ⟨hfollows, hlt, hwithin⟩ := hx hs hu
  exact ⟨hfollows, hlt, run_bind_eq_ok_iff.2 ⟨a, _, hwithin, rfl⟩⟩

def functionBehindName (returnType : CType) (name : String) (place : Location) : Reader Node := do
  expect .leftParen "after function name"
  let params ← parameters
  expect .rightParen "after parameters"
  expect .leftBrace "before function body"
  let body ← statements (Reader.statement (maxNesting + 1))
  expect .rightBrace "after function body"
  return .function place name returnType params body

theorem functionDefinition_eq : functionDefinition =
    typeSpecifier >>= fun spec => identifier >>= fun name =>
      define name.1 name.2 >>= fun _ => functionBehindName spec.1 name.1 name.2 := rfl

theorem crosses_functionBehindName (returnType : CType) (name : String) (place : Location) :
    Crosses k (functionBehindName returnType name place)
      (functionBehindName returnType name place) :=
  (plain_expect _ _).crosses fun _ => local_parameters.crosses fun _ => (plain_expect _ _).crosses
    fun _ => (plain_expect _ _).crosses fun _ => (local_statements (local_statement _)).crosses
    fun _ => (crosses_expect _ _).bind_pure _

theorem run_define (name : String) (place : Location) (s : ReaderState) :
    (define name place).run s =
      if name ∈ s.defined then .error ⟨.duplicateFunction name, place⟩
      else .ok ((), { s with defined := name :: s.defined }) := by
  show (if name ∈ s.defined then _ else _ : Reader Unit).run s = _
  split <;> rfl

variable {s t : ReaderState} {node : Node} {nodes : List Node}

theorem run_bind_of_ok {x : Reader α} {f : α → Reader β} {a : α} (h : x.run s = .ok (a, t)) :
    (x >>= f).run s = (f a).run t := by
  rw [StateT.run_bind, h]
  rfl

/-- The name of a function stands where the function is said to stand. -/
theorem exists_function?_of_run {returnType : CType} {name : String} {place : Location}
    (h : (functionBehindName returnType name place).run s = .ok (node, t)) :
    ∃ f, node.function? = some f ∧ f.name = name ∧ f.place = place := by
  have hreads : Reads s.loops (fun node => ∃ f, node.function? = some f ∧ f.name = name ∧ f.place = place)
      (functionBehindName returnType name place) :=
    .after (keeps_expect _ _) fun _ => .after keeps_parameters fun _ => .after (keeps_expect _ _)
      fun _ => .after (keeps_expect _ _) fun _ => (reads_statements (reads_statement _)).bind
      fun _ _ => .after (keeps_expect _ _) fun _ => .pure ⟨_, rfl, rfl, rfl⟩
  exact (hreads rfl h).1

/-- A function is read within surroundings as it is read alone, but for its name, which must not be
defined there. -/
theorem functionDefinition_within (k : Surroundings) (hs : s.Ended)
    (h : functionDefinition.run s = .ok (node, t)) :
    ∃ f, node.function? = some f ∧ t.Ended ∧ t.rest.length < s.rest.length ∧
      t.defined = f.name :: s.defined ∧
      (f.name ∉ k.names → functionDefinition.run (s.within k) = .ok (node, t.within k)) ∧
      (f.name ∈ k.names →
        functionDefinition.run (s.within k) = .error ⟨.duplicateFunction f.name, f.place⟩) := by
  rw [functionDefinition_eq] at h ⊢
  obtain ⟨spec, u, hspec, h⟩ := run_bind_eq_ok_iff.1 h
  obtain ⟨⟨name, place⟩, v, hname, h⟩ := run_bind_eq_ok_iff.1 h
  obtain ⟨_, w, hdefine, h⟩ := run_bind_eq_ok_iff.1 h
  dsimp only at hdefine h
  obtain ⟨hu, huwithin⟩ := (plain_typeSpecifier.local (k := k)) hs hspec
  obtain ⟨hv, hvwithin⟩ := (plain_identifier.local (k := k)) hu.ended hname
  rw [run_define] at hdefine
  split at hdefine
  · cases hdefine
  rename_i hfresh
  cases hdefine
  have hw : ({ v with defined := name :: v.defined } : ReaderState).Ended := hv.ended
  obtain ⟨ht, hlt, htwithin⟩ := crosses_functionBehindName (k := k) _ _ _ hw h
  have hvs := hv.trans hu
  have hvrest : v.rest ≠ [] := List.ne_nil_of_length_pos (Nat.zero_lt_of_lt hlt)
  obtain ⟨f, hf, rfl, rfl⟩ := exists_function?_of_run h
  refine ⟨f, hf, ht.ended, Nat.lt_of_lt_of_le hlt hvs.length_le, ?_, fun hnew => ?_, fun hknown => ?_⟩
  · rw [ht.defined_eq, ← hvs.defined_eq]
  all_goals rw [run_bind_of_ok (huwithin (hv.ne_nil hvrest)), run_bind_of_ok (hvwithin hvrest)]
  · have hrun : (define f.name f.place).run (v.within k) =
        .ok ((), ({ v with defined := f.name :: v.defined } : ReaderState).within k) := by
      rw [run_define, if_neg, within_define]
      rw [defined_within]
      exact fun hmem => (List.mem_append.1 hmem).elim hfresh hnew
    exact (run_bind_of_ok hrun).trans htwithin
  · rw [StateT.run_bind, run_define, defined_within, if_pos (List.mem_append_right _ hknown)]
    rfl

/-! ## Programs -/

def namesOf (nodes : List Node) : List String := (nodes.filterMap Node.function?).map Function.name

theorem namesOf_cons {f : Function} (h : node.function? = some f) :
    namesOf (node :: nodes) = f.name :: namesOf nodes := by
  unfold namesOf
  rw [List.filterMap_cons_some h, List.map_cons]

theorem run_functionsUpTo (bound : Nat) (s : ReaderState) : (functionsUpTo (bound + 1)).run s =
    if s.current.kind = .endOfFile then .ok ([], s)
    else (functionDefinition >>= fun first =>
      functionsUpTo bound >>= fun rest => pure (first :: rest)).run s := by
  show (if decide (s.current.kind = .endOfFile) = true then _ else _ : Reader (List Node)).run s = _
  by_cases h : s.current.kind = .endOfFile
  · rw [if_pos (decide_eq_true h), if_pos h]
    rfl
  · rw [if_neg fun hd => h (of_decide_eq_true hd), if_neg h]

theorem functionsUpTo_nil {bound : Nat} (h : (functionsUpTo bound).run s = .ok ([], t)) :
    s.current.kind = .endOfFile ∧ t = s := by
  cases bound with
  | zero => cases h
  | succ bound =>
    rw [run_functionsUpTo] at h
    split at h
    · rename_i hend
      cases h
      exact ⟨hend, rfl⟩
    · obtain ⟨first, u, -, h⟩ := run_bind_eq_ok_iff.1 h
      obtain ⟨rest, v, -, h⟩ := run_bind_eq_ok_iff.1 h
      cases h

theorem functionsUpTo_cons {bound : Nat} (h : (functionsUpTo bound).run s = .ok (node :: nodes, t)) :
    s.current.kind ≠ .endOfFile ∧ ∃ bound' u, functionDefinition.run s = .ok (node, u) ∧
      (functionsUpTo bound').run u = .ok (nodes, t) := by
  cases bound with
  | zero => cases h
  | succ bound =>
    rw [run_functionsUpTo] at h
    split at h
    · cases h
    · rename_i hkind
      obtain ⟨first, u, hfirst, h⟩ := run_bind_eq_ok_iff.1 h
      obtain ⟨rest, v, hrest, h⟩ := run_bind_eq_ok_iff.1 h
      cases h
      exact ⟨hkind, bound, u, hfirst, hrest⟩

/-- Functions are read up to the end of the text, a token each at least. -/
theorem functionsUpTo_ends {bound : Nat} (hs : s.Ended)
    (h : (functionsUpTo bound).run s = .ok (nodes, t)) :
    t.rest = [] ∧ t.current.kind = .endOfFile ∧ nodes.length ≤ s.rest.length ∧
      t.defined = (namesOf nodes).reverse ++ s.defined := by
  induction nodes generalizing s bound with
  | nil =>
    obtain ⟨hend, rfl⟩ := functionsUpTo_nil h
    exact ⟨hs.rest_eq_nil hend, hend, Nat.zero_le _, rfl⟩
  | cons first nodes ih =>
    obtain ⟨-, bound, u, hfirst, hrest⟩ := functionsUpTo_cons h
    obtain ⟨f, hf, hu, hlt, hdefined, -⟩ :=
      functionDefinition_within ⟨⟨.endOfFile, .start⟩, [], [], nofun⟩ hs hfirst
    obtain ⟨hnil, hend, hlength, hall⟩ := ih hu hrest
    refine ⟨hnil, hend, Nat.lt_of_le_of_lt hlength hlt, ?_⟩
    rw [hall, hdefined, namesOf_cons hf, List.reverse_cons, List.append_assoc]
    rfl

theorem kind_within (hs : s.Ended) (hkind : s.current.kind ≠ .endOfFile) :
    (s.within k).current.kind ≠ .endOfFile := by
  rw [within_of_ne_nil (hs.rest_ne_nil hkind)]
  exact hkind

/-- Functions of other names are read within surroundings as they are read alone, and the reader goes
on behind them. -/
theorem functionsUpTo_within {bound : Nat} (hs : s.Ended)
    (h : (functionsUpTo bound).run s = .ok (nodes, t)) (hnames : ∀ name ∈ namesOf nodes, name ∉ k.names)
    (left : Nat) :
    (functionsUpTo (nodes.length + left)).run (s.within k) =
      (functionsUpTo left >>= fun more => pure (nodes ++ more)).run (t.within k) := by
  induction nodes generalizing s bound with
  | nil =>
    obtain ⟨-, rfl⟩ := functionsUpTo_nil h
    rw [List.length_nil, Nat.zero_add]
    simp only [List.nil_append, bind_pure]
  | cons first nodes ih =>
    obtain ⟨hkind, bound, u, hfirst, hrest⟩ := functionsUpTo_cons h
    obtain ⟨f, hf, hu, -, -, hnew, -⟩ := functionDefinition_within k hs hfirst
    rw [namesOf_cons hf] at hnames
    obtain ⟨hname, hnames⟩ := List.forall_mem_cons.1 hnames
    rw [List.length_cons, Nat.add_right_comm, run_functionsUpTo, if_neg (kind_within hs hkind),
      run_bind_of_ok (hnew hname), StateT.run_bind, ih hu hrest hnames]
    simp only [StateT.run_bind, bind_assoc]
    rfl

/-- The first function whose name is defined there is refused. -/
theorem functionsUpTo_duplicate {before after : List Node} {f : Function} {bound : Nat}
    (hs : s.Ended) (h : (functionsUpTo bound).run s = .ok (before ++ node :: after, t))
    (hbefore : ∀ name ∈ namesOf before, name ∉ k.names) (hf : node.function? = some f)
    (hname : f.name ∈ k.names) (left : Nat) :
    (functionsUpTo (before.length + (left + 1))).run (s.within k) =
      .error ⟨.duplicateFunction f.name, f.place⟩ := by
  induction before generalizing s bound with
  | nil =>
    obtain ⟨hkind, bound, u, hfirst, -⟩ := functionsUpTo_cons h
    obtain ⟨g, hg, -, -, -, -, hknown⟩ := functionDefinition_within k hs hfirst
    obtain rfl := Option.some.inj (hf.symm.trans hg)
    rw [List.length_nil, Nat.zero_add, run_functionsUpTo, if_neg (kind_within hs hkind),
      StateT.run_bind, hknown hname]
    rfl
  | cons first before ih =>
    obtain ⟨hkind, bound, u, hfirst, hrest⟩ := functionsUpTo_cons h
    obtain ⟨g, hg, hu, -, -, hnew, -⟩ := functionDefinition_within k hs hfirst
    rw [namesOf_cons hg] at hbefore
    obtain ⟨hfresh, hbefore⟩ := List.forall_mem_cons.1 hbefore
    rw [List.length_cons, Nat.add_right_comm, run_functionsUpTo, if_neg (kind_within hs hkind),
      run_bind_of_ok (hnew hfresh), StateT.run_bind, ih hu hrest hbefore]
    rfl

end Reader

end BoundedC
