import BoundedC.Proofs.Leads

/-!
# Readers that agree

`Reader.Agrees depth input x y Q` is about two readers before the same tokens, among which there is the
end of the text, and inside so many levels: both do the same, no bound is used up, and `Q` holds of what
is read. The rules put readers together side by side. `Reader.Spends` is the postcondition that most
readers keep to: as deep as before, and at least so many tokens further.

* `CType.arrayDepth`, `Node.listDepth` : how much types and initializers nest;
* `Agrees.bind`, `Agrees.next`, `agrees_peek_bind`, … : the rules;
* `spends_expect`, `spends_typeSpecifier`, … : the readers of tokens and of types;
* `agrees_commaSeparated`, `agrees_statements`, … : repetitions end, since every round takes a token;
* `agrees_chain` : so do chains of binary operators, since every operator is a level.
-/

namespace BoundedC

/-! ## Types and initializers -/

/-- How many dimensions a type has. -/
def CType.arrayDepth : CType → Nat
  | array element _ => element.arrayDepth + 1
  | _ => 0

namespace Node

mutual

def listDepth : Node → Nat
  | arrayLiteral _ elements => listDepthOf elements + 1
  | _ => 0

def listDepthOf : List Node → Nat
  | [] => 0
  | element :: elements => max element.listDepth (listDepthOf elements)

end

theorem listDepthOf_le {limit : Nat} {elements : List Node}
    (h : ∀ e ∈ elements, e.listDepth ≤ limit) : listDepthOf elements ≤ limit := by
  induction elements with
  | nil => exact Nat.zero_le _
  | cons element elements ih =>
    obtain ⟨hfirst, hrest⟩ := List.forall_mem_cons.1 h
    exact Nat.max_le.2 ⟨hfirst, ih hrest⟩

theorem listDepth_atom {place : Location} {kind : TokenKind} {node : Node}
    (h : atom? place kind = some node) : node.listDepth = 0 := by
  unfold atom? at h
  split at h <;> cases h <;> rfl

end Node

namespace Reader

variable {α β : Type} {depth : Nat} {input : List Token} {x y : Reader α}
  {Q Q' : α → Nat → List Token → Prop} {R : β → Nat → List Token → Prop}

/-- The fault is not that a bound is used up. -/
def Affordable (fault : ParseFault) : Prop := fault ≠ .outOfBudget

/-- From the given depth and tokens both readers do the same, and lead to where `Q` holds, or to a fault
that is not about bounds. -/
structure Agrees (depth : Nat) (input : List Token) (x y : Reader α)
    (Q : α → Nat → List Token → Prop) : Prop where
  same : ∀ s : ReaderState, s.depth = depth → s.tokens = input → Ends input → x.run s = y.run s
  leads : Leads Affordable depth input y Q

/-- As deep as before, and at least so many tokens further, `P` holds of what has been read. -/
def Spends (count : Nat) (P : α → Prop) (depth : Nat) (input : List Token) :
    α → Nat → List Token → Prop :=
  fun a d rest => P a ∧ d = depth ∧ rest.length + count ≤ input.length

/-! ## Rules -/

theorem agrees_of_leads (h : Leads Affordable depth input x Q) : Agrees depth input x x Q :=
  ⟨fun _ _ _ _ => rfl, h⟩

theorem Agrees.imp (h : Agrees depth input x y Q) (hQ : ∀ a d r, Q a d r → Q' a d r) :
    Agrees depth input x y Q' :=
  ⟨h.same, h.leads.imp (fun _ h => h) hQ⟩

theorem agrees_pure {a : α} (h : Q a depth input) : Agrees depth input (pure a) (pure a) Q :=
  agrees_of_leads (leads_pure h)

theorem agrees_fail {fault : ParseFault} (place : Location) (h : Affordable fault) :
    Agrees depth input (fail fault place) (fail fault place) Q :=
  agrees_of_leads (leads_fail place h)

theorem agrees_fail_bind {fault : ParseFault} (place : Location) {f g : α → Reader β}
    (h : Affordable fault) :
    Agrees depth input (fail fault place >>= f) (fail fault place >>= g) R :=
  ⟨fun _ _ _ _ => rfl, leads_fail_bind place h⟩

theorem Agrees.bind {f g : α → Reader β} (hx : Agrees depth input x y Q)
    (hf : ∀ a d r, Q a d r → Agrees d r (f a) (g a) R) :
    Agrees depth input (x >>= f) (y >>= g) R := by
  refine ⟨fun s hdepth htokens hends => ?_, hx.leads.bind fun a d r h => (hf a d r h).leads⟩
  have hlead := hx.leads s hdepth htokens hends
  rw [StateT.run_bind, StateT.run_bind, hx.same s hdepth htokens hends]
  cases hrun : y.run s with
  | error e => rfl
  | ok result =>
    obtain ⟨a, t⟩ := result
    rw [hrun] at hlead
    exact (hf a _ _ hlead.1).same t rfl rfl hlead.2

/-- The first reader only gives a value. -/
theorem Agrees.bind_of_pure {a : α} {f : α → Reader β} {z : Reader β}
    (hx : Agrees depth input x (pure a) Q) (hf : Agrees depth input (f a) z R) :
    Agrees depth input (x >>= f) z R := by
  refine ⟨fun s hdepth htokens hends => ?_, hf.leads⟩
  rw [StateT.run_bind, hx.same s hdepth htokens hends]
  exact hf.same s hdepth htokens hends

/-- The first reader stops. -/
theorem Agrees.bind_of_fail {fault : ParseFault} {place : Location} {f : α → Reader β}
    (hx : Agrees depth input x (fail fault place) Q) (h : Affordable fault) :
    Agrees depth input (x >>= f) (fail fault place) R := by
  refine ⟨fun s hdepth htokens hends => ?_, leads_fail place h⟩
  rw [StateT.run_bind, hx.same s hdepth htokens hends]
  rfl

variable {count : Nat} {P P' : α → Prop}

/-- One reader behind the other, as deep as before. -/
theorem Agrees.next {f g : α → Reader β} (hx : Agrees depth input x y (Spends count P depth input))
    (hf : ∀ a r, P a → r.length + count ≤ input.length → Agrees depth r (f a) (g a) R) :
    Agrees depth input (x >>= f) (y >>= g) R := by
  refine hx.bind ?_
  rintro a _ r ⟨ha, rfl, hr⟩
  exact hf a r ha hr

/-- The same reader first. -/
theorem agrees_spends_bind {f g : α → Reader β}
    (hx : Leads Affordable depth input x (Spends count P depth input))
    (hf : ∀ a r, P a → r.length + count ≤ input.length → Agrees depth r (f a) (g a) R) :
    Agrees depth input (x >>= f) (x >>= g) R :=
  (agrees_of_leads hx).next hf

theorem agrees_value (a : α) :
    Agrees depth input (pure a) (pure a) (Spends 0 (fun _ => True) depth input) :=
  agrees_pure ⟨trivial, rfl, Nat.le_refl _⟩

/-- The last reader. -/
theorem Agrees.last {before : List Token} {total : Nat}
    (h : Agrees depth input x y (Spends count P depth input)) (hP : ∀ a, P a → P' a)
    (hle : input.length + total ≤ before.length + count) :
    Agrees depth input x y (Spends total P' depth before) := by
  refine h.imp ?_
  rintro a _ r ⟨ha, rfl, hr⟩
  exact ⟨hP a ha, rfl, by omega⟩

theorem Agrees.map (h : Agrees depth input x y (Spends count P depth input)) {f : α → β}
    {P' : β → Prop} (hP : ∀ a, P a → P' (f a)) :
    Agrees depth input (f <$> x) (f <$> y) (Spends count P' depth input) := by
  rw [map_eq_pure_bind, map_eq_pure_bind]
  exact h.next fun a r ha hr => agrees_pure ⟨hP a ha, rfl, hr⟩

theorem agrees_peek_bind {f g : Token → Reader α}
    (hf : ∀ kind place rest, input = ⟨kind, place⟩ :: rest →
      Agrees depth input (f ⟨kind, place⟩) (g ⟨kind, place⟩) Q) :
    Agrees depth input (peek >>= f) (peek >>= g) Q := by
  refine ⟨?_, leads_peek_bind fun kind place rest h => (hf kind place rest h).leads⟩
  rintro s hdepth rfl hends
  exact (hf s.current.kind s.current.place s.rest rfl).same s hdepth rfl hends

/-- There is always a next token. -/
theorem agrees_of_pos (h : 0 < input.length → Agrees depth input x y Q) : Agrees depth input x y Q := by
  refine ⟨?_, leads_of_cons fun kind place rest hinput => (h (hinput ▸ Nat.succ_pos _)).leads⟩
  rintro s hdepth rfl hends
  exact (h (Nat.succ_pos _)).same s hdepth rfl hends

theorem agrees_accept_bind {f g : Bool → Reader α} (s : Symbol)
    (htrue : ∀ rest, rest.length < input.length → Agrees depth rest (f true) (g true) Q)
    (hfalse : Agrees depth input (f false) (g false) Q) :
    Agrees depth input (accept s >>= f) (accept s >>= g) Q := by
  have haccept : Leads Affordable depth input (accept s) fun b d r =>
      d = depth ∧ (b = true ∧ r.length < input.length ∨ b = false ∧ r = input) := by
    refine leads_of_cons ?_
    rintro kind place rest rfl
    rw [← bind_pure (accept s)]
    exact leads_accept_bind (fun _ => leads_pure ⟨rfl, .inl ⟨rfl, Nat.lt_succ_self _⟩⟩)
      fun _ => leads_pure ⟨rfl, .inr ⟨rfl, rfl⟩⟩
  refine (agrees_of_leads haccept).bind ?_
  rintro _ _ r ⟨rfl, ⟨rfl, hr⟩ | ⟨rfl, rfl⟩⟩
  · exact htrue r hr
  · exact hfalse

theorem agrees_descend_bind {f g : Unit → Reader α}
    (hf : depth < maxNesting → Agrees (depth + 1) input (f ()) (g ()) Q) :
    Agrees depth input (descend >>= f) (descend >>= g) Q := by
  have hdescend : Leads Affordable depth input descend fun _ d r =>
      depth < maxNesting ∧ d = depth + 1 ∧ r = input := by
    rw [← bind_pure descend]
    exact leads_descend_bind nofun fun hlt => leads_pure ⟨hlt, rfl, rfl⟩
  refine (agrees_of_leads hdescend).bind ?_
  rintro _ _ _ ⟨hlt, rfl, rfl⟩
  exact hf hlt

theorem agrees_ascend_bind {levels : Nat} {f g : Unit → Reader α}
    (hf : Agrees (depth - levels) input (f ()) (g ()) Q) :
    Agrees depth input (ascend levels >>= f) (ascend levels >>= g) Q := by
  have hascend : Leads Affordable depth input (ascend levels) fun _ d r =>
      d = depth - levels ∧ r = input := by
    rw [← bind_pure (ascend levels)]
    exact leads_ascend_bind (leads_pure ⟨rfl, rfl⟩)
  refine (agrees_of_leads hascend).bind ?_
  rintro _ _ _ ⟨rfl, rfl⟩
  exact hf

theorem agrees_nested
    (h : depth < maxNesting →
      Agrees (depth + 1) input x y (Spends count P (depth + 1) input)) :
    Agrees depth input (nested x) (nested y) (Spends count P depth input) :=
  agrees_descend_bind fun hlt => (h hlt).next fun _ _ ha hr =>
    agrees_ascend_bind (agrees_pure ⟨ha, Nat.add_sub_cancel _ _, hr⟩)

/-! ## Tokens -/

theorem spends_peek : Leads Affordable depth input peek (Spends 0 (fun _ => True) depth input) := by
  rw [← bind_pure peek]
  exact leads_peek_bind fun _ _ _ _ => leads_pure ⟨trivial, rfl, Nat.le_refl _⟩

theorem spends_advance_of_ne {kind : TokenKind} {place : Location} {rest : List Token}
    (h : kind ≠ .endOfFile) : Leads Affordable depth (⟨kind, place⟩ :: rest) advance
      (Spends 1 (fun _ => True) depth (⟨kind, place⟩ :: rest)) := by
  rw [← bind_pure advance]
  exact leads_advance_bind h (leads_pure ⟨trivial, rfl, Nat.le_refl _⟩)

theorem spends_advance :
    Leads Affordable depth input advance (Spends 0 (fun _ => True) depth input) := by
  rintro s rfl rfl hends
  by_cases h : s.current.kind = .endOfFile
  · have hrun : advance.run s = .ok ((), s) := by
      show Except.ok ((), if s.current.kind = .endOfFile then s else _) = _
      rw [if_pos h]
    rw [hrun]
    exact ⟨⟨trivial, rfl, Nat.le_refl _⟩, hends⟩
  · refine ((spends_advance_of_ne h).imp (fun _ h => h) ?_) s rfl rfl hends
    rintro _ _ _ ⟨-, hd, hr⟩
    exact ⟨trivial, hd, Nat.le_of_succ_le hr⟩

/-- Readers that spend tokens, one behind the other. -/
theorem leads_spends_bind {f : α → Reader β} {x : Reader α}
    (hx : Leads Affordable depth input x (Spends count P depth input))
    (hf : ∀ a r, P a → r.length + count ≤ input.length → Leads Affordable depth r (f a) R) :
    Leads Affordable depth input (x >>= f) R := by
  refine hx.bind ?_
  rintro a _ r ⟨ha, rfl, hr⟩
  exact hf a r ha hr

theorem spends_isNext (kind : TokenKind) :
    Leads Affordable depth input (isNext kind) (Spends 0 (fun _ => True) depth input) :=
  leads_spends_bind spends_peek fun _ _ _ hr => leads_pure ⟨trivial, rfl, hr⟩

theorem spends_typeIsNext :
    Leads Affordable depth input typeIsNext (Spends 0 (fun _ => True) depth input) :=
  leads_spends_bind spends_peek fun _ _ _ hr => leads_pure ⟨trivial, rfl, hr⟩

theorem spends_voidIsAlone :
    Leads Affordable depth input voidIsAlone (Spends 0 (fun _ => True) depth input) :=
  leads_get_bind fun _ _ _ => leads_pure ⟨trivial, rfl, Nat.le_refl _⟩

theorem spends_acceptKind (kind : TokenKind) :
    Leads Affordable depth input (acceptKind kind) (Spends 0 (fun _ => True) depth input) := by
  refine leads_spends_bind (spends_isNext kind) fun next r _ hr => ?_
  cases next with
  | true =>
    exact leads_spends_bind spends_advance fun _ _ _ hr' => leads_pure ⟨trivial, rfl, by omega⟩
  | false => exact leads_pure ⟨trivial, rfl, hr⟩

theorem spends_expect (s : Symbol) (context : String) :
    Leads Affordable depth input (expect s context) (Spends 1 (fun _ => True) depth input) := by
  refine leads_of_cons ?_
  rintro kind place rest rfl
  rw [← bind_pure (expect s context)]
  exact leads_expect_bind (fun _ => leads_pure ⟨trivial, rfl, Nat.le_refl _⟩) fun _ => nofun

theorem spends_identifier :
    Leads Affordable depth input identifier (Spends 0 (fun _ => True) depth input) := by
  refine leads_spends_bind spends_peek fun token r _ hr => ?_
  split
  · exact leads_spends_bind spends_advance fun _ _ _ hr' => leads_pure ⟨trivial, rfl, by omega⟩
  · exact leads_fail _ nofun

theorem spends_itemBound :
    Leads Affordable depth input itemBound (Spends 0 (fun bound => bound = input.length) depth input) := by
  rw [← bind_pure itemBound]
  exact leads_itemBound_bind (leads_pure ⟨rfl, rfl, Nat.le_refl _⟩)

theorem spends_define (name : String) (place : Location) :
    Leads Affordable depth input (define name place) (Spends 0 (fun _ => True) depth input) := by
  rw [← bind_pure (define name place)]
  exact leads_define_bind nofun (leads_pure ⟨trivial, rfl, Nat.le_refl _⟩)

theorem spends_modify {f : ReaderState → ReaderState} (hdepth : ∀ s, (f s).depth = s.depth)
    (htokens : ∀ s, (f s).tokens = s.tokens) :
    Leads Affordable depth input (modify f) (Spends 0 (fun _ => True) depth input) := by
  rw [← bind_pure (modify f)]
  exact leads_modify_bind hdepth htokens (leads_pure ⟨trivial, rfl, Nat.le_refl _⟩)

theorem spends_jump (word : Keyword) (place : Location) (node : Node) :
    Leads Affordable depth input (jump word place node) (Spends 1 (fun _ => True) depth input) := by
  refine leads_get_bind fun s _ _ => ?_
  split
  · exact leads_fail_bind place nofun
  · exact leads_spends_bind (spends_expect _ _) fun _ _ _ hr => leads_pure ⟨trivial, rfl, hr⟩

/-! ## Readers of types -/

theorem spends_pointersTo {t : CType} (ht : t.arrayDepth = 0) (left : Nat) :
    Leads Affordable depth input (pointersTo t left)
      (Spends 0 (fun u => u.arrayDepth = 0) depth input) := by
  induction left generalizing t input with
  | zero =>
    refine leads_spends_bind spends_peek fun token r _ hr => ?_
    split
    · exact leads_spends_bind spends_advance fun _ _ _ _ => leads_fail _ nofun
    · exact leads_pure ⟨ht, rfl, hr⟩
  | succ left ih =>
    refine leads_spends_bind spends_peek fun token r _ hr => ?_
    split
    · refine leads_spends_bind spends_advance fun _ r' _ hr' => (ih rfl).imp (fun _ h => h) ?_
      rintro u _ r'' ⟨hu, rfl, hr''⟩
      exact ⟨hu, rfl, by omega⟩
    · exact leads_pure ⟨ht, rfl, hr⟩

theorem spends_typeSpecifier : Leads Affordable depth input typeSpecifier
    (Spends 0 (fun spec => spec.1.arrayDepth = 0) depth input) := by
  refine leads_spends_bind (spends_acceptKind _) fun isConst r _ hr =>
    leads_spends_bind spends_peek fun token r' _ hr' => ?_
  split
  · exact leads_fail _ nofun
  · rename_i base hbase
    have harray : base.arrayDepth = 0 := by
      unfold baseType? at hbase
      split at hbase <;> cases hbase <;> rfl
    exact leads_spends_bind spends_advance fun _ s _ hs =>
      leads_spends_bind (spends_pointersTo harray _) fun t _ ht hs' =>
        leads_pure ⟨ht, rfl, by omega⟩

theorem spends_arrayLength :
    Leads Affordable depth input arrayLength (Spends 0 (fun _ => True) depth input) := by
  refine leads_spends_bind spends_peek fun token r _ hr => ?_
  split
  · split
    · exact leads_fail_bind _ nofun
    · exact leads_spends_bind spends_advance fun _ _ _ hr' =>
        leads_spends_bind (spends_expect _ _) fun _ _ _ hr'' => leads_pure ⟨trivial, rfl, by omega⟩
  · exact leads_fail _ nofun

theorem spends_dimensionsUpTo (left : Nat) : Leads Affordable depth input (dimensionsUpTo left)
    (Spends 0 (fun dims => dims.length ≤ left) depth input) := by
  induction left generalizing input with
  | zero =>
    refine leads_spends_bind spends_peek fun token r _ hr => ?_
    split
    · exact leads_spends_bind spends_advance fun _ _ _ _ => leads_fail _ nofun
    · exact leads_pure ⟨Nat.le_refl _, rfl, hr⟩
  | succ left ih =>
    refine leads_spends_bind spends_peek fun token r _ hr => ?_
    split
    · refine leads_spends_bind spends_advance fun _ r' _ hr' =>
        leads_spends_bind (spends_acceptKind _) fun omitted s _ hs => ?_
      have hmore (dimension : Dimension) {rest : List Token} (hrest : rest.length ≤ input.length) :
          Leads Affordable depth rest (do return dimension :: (← dimensionsUpTo left))
            (Spends 0 (fun dims => dims.length ≤ left + 1) depth input) :=
        leads_spends_bind ih fun dims _ hdims hr => leads_pure ⟨Nat.succ_le_succ hdims, rfl, by omega⟩
      cases omitted with
      | true => exact hmore none (by omega)
      | false =>
        have hlength : Leads Affordable depth s (Option.some <$> arrayLength)
            (Spends 0 (fun _ => True) depth s) := by
          rw [map_eq_pure_bind]
          exact leads_spends_bind spends_arrayLength fun _ _ _ hr => leads_pure ⟨trivial, rfl, hr⟩
        exact leads_spends_bind hlength fun dimension rest _ hrest => hmore dimension (by omega)
    · exact leads_pure ⟨Nat.zero_le _, rfl, hr⟩

theorem spends_stepNode (place : Location) (op : StepOp) (operand : Node) :
    Leads Affordable depth input (stepNode place op operand)
      (Spends 0 (fun node => node.listDepth = 0) depth input) := by
  unfold stepNode
  split
  · exact leads_pure ⟨rfl, rfl, Nat.le_refl _⟩
  · exact leads_fail_bind _ nofun

/-! ## Repetitions

Every round takes a token, so the bound on the rounds is not used up. -/

theorem agrees_commaSeparated (h : ∀ input, Agrees depth input x y (Spends 0 P depth input)) :
    Agrees depth input (commaSeparated x) (commaSeparated y)
      (Spends 0 (fun as => ∀ a ∈ as, P a) depth input) := by
  have hupTo (bound : Nat) (input : List Token) (hbound : input.length ≤ bound) :
      Agrees depth input (commaSeparatedUpTo x bound) (commaSeparatedUpTo y bound)
        (Spends 0 (fun as => ∀ a ∈ as, P a) depth input) := by
    induction bound generalizing input with
    | zero => exact agrees_of_pos fun hpos => by omega
    | succ bound ih =>
      refine (h input).next fun a r ha hr => agrees_accept_bind .comma (fun rest hrest => ?_) ?_
      · exact (ih rest (by omega)).next fun as r' has hr' =>
          agrees_pure ⟨List.forall_mem_cons.2 ⟨ha, has⟩, rfl, by omega⟩
      · exact agrees_pure ⟨List.forall_mem_singleton.2 ha, rfl, hr⟩
  refine agrees_spends_bind spends_itemBound fun bound r hbound hr => ?_
  exact (hupTo bound r (by omega)).last (fun _ h => h) (by omega)

variable {z w : Reader Node} {P : Node → Prop}

theorem agrees_elementsUpTo (h : ∀ input, Agrees depth input z w (Spends 0 P depth input))
    (bound : Nat) (hbound : input.length ≤ bound) :
    Agrees depth input (elementsUpTo z bound) (elementsUpTo w bound)
      (Spends 0 (fun nodes => ∀ node ∈ nodes, P node) depth input) := by
  induction bound generalizing input with
  | zero => exact agrees_of_pos fun hpos => by omega
  | succ bound ih =>
    refine agrees_spends_bind (spends_isNext _) fun closed r _ hr => ?_
    cases closed with
    | true => exact agrees_pure ⟨nofun, rfl, hr⟩
    | false =>
      refine (h r).next fun node r' hnode hr' => agrees_accept_bind .comma (fun rest hrest => ?_) ?_
      · exact (ih (by omega)).next fun nodes r'' hnodes hr'' =>
          agrees_pure ⟨List.forall_mem_cons.2 ⟨hnode, hnodes⟩, rfl, by omega⟩
      · exact agrees_pure ⟨List.forall_mem_singleton.2 hnode, rfl, by omega⟩

theorem agrees_statements
    (h : ∀ input, Agrees depth input z w (Spends 1 (fun _ => True) depth input)) :
    Agrees depth input (statements z) (statements w) (Spends 0 (fun _ => True) depth input) := by
  have hupTo (bound : Nat) (input : List Token) (hbound : input.length ≤ bound) :
      Agrees depth input (statementsUpTo z bound) (statementsUpTo w bound)
        (Spends 0 (fun _ => True) depth input) := by
    induction bound generalizing input with
    | zero => exact agrees_of_pos fun hpos => by omega
    | succ bound ih =>
      refine agrees_spends_bind spends_peek fun token r _ hr => ?_
      split
      · exact agrees_pure ⟨trivial, rfl, hr⟩
      · exact (h r).next fun _ r' _ hr' => (ih r' (by omega)).next fun _ r'' _ hr'' =>
          agrees_pure ⟨trivial, rfl, by omega⟩
  refine agrees_spends_bind spends_itemBound fun bound r hbound hr => ?_
  exact (hupTo bound r (by omega)).last (fun _ h => h) (by omega)

/-! ## Chains of binary operators

Every operator is a level of nesting, so the bound on the operators is not used up. -/

theorem agrees_chainFrom (level : List (Symbol × BinaryOp))
    (h : ∀ d input, depth ≤ d → d ≤ maxNesting → Agrees d input z w (Spends 0 P d input))
    (hbinary : ∀ place op left right, P (.binary place op left right)) (bound : Nat) {left : Node}
    (entered : Nat) (hleft : P left) (hdepth : depth + entered ≤ maxNesting)
    (hbound : maxNesting < bound + (depth + entered)) :
    Agrees (depth + entered) input (chainFrom level z bound left entered)
      (chainFrom level w bound left entered)
      (fun tree d r => P tree.1 ∧ d = depth + tree.2 ∧ r.length ≤ input.length) := by
  induction bound generalizing input left entered with
  | zero => omega
  | succ bound ih =>
    refine agrees_spends_bind spends_peek fun token r _ hr => ?_
    split
    · exact agrees_pure ⟨hleft, rfl, hr⟩
    · refine agrees_spends_bind spends_advance fun _ r' _ hr' => agrees_descend_bind fun hlt => ?_
      rw [Nat.add_assoc]
      refine (h _ r' (by omega) (by omega)).next fun right r'' _ hr'' => ?_
      exact (ih (entered + 1) (hbinary _ _ _ _) (by omega) (by omega)).imp fun tree d rest htree =>
        ⟨htree.1, htree.2.1, by omega⟩

theorem agrees_chain (level : List (Symbol × BinaryOp)) (hdepth : depth ≤ maxNesting)
    (h : ∀ d input, depth ≤ d → d ≤ maxNesting → Agrees d input z w (Spends 0 P d input))
    (hbinary : ∀ place op left right, P (.binary place op left right)) :
    Agrees depth input (chain level z) (chain level w) (Spends 0 P depth input) := by
  refine (h depth input (Nat.le_refl _) hdepth).next fun first r hfirst hr =>
    (agrees_chainFrom level h hbinary _ 0 hfirst hdepth (by omega)).bind ?_
  rintro ⟨tree, entered⟩ _ rest ⟨htree, rfl, hrest⟩
  exact agrees_ascend_bind (agrees_pure ⟨htree, Nat.add_sub_cancel _ _, by omega⟩)

end Reader

end BoundedC
