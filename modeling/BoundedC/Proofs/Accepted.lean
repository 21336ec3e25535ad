import BoundedC.Proofs.FirstTokens
import BoundedC.Proofs.Leads

/-!
# What can be derived is read

Before a phrase of the grammar a reader reads the tree of the phrase and stops where the phrase ends,
unless a static check stops it. `Reader.Accepts` says so of one reader, and `Phrase.Accepted` of the
readers of one kind of phrases, in terms of what is next behind the phrase:

* the readers of operands and values are as deep inside as they may be, `Fits`;
* a phrase that ends in a chain of operators may be the front of a longer one. `Continues` says what
  the reader of a chain does from there on.

The lemmas `accepted_…` are the steps of the induction over derivations, one for each way to make a
phrase from smaller ones; this module has those of declarations and expressions.
-/

namespace BoundedC

namespace Reader

variable {α β : Type} {depth budget : Nat} {input middle rest : List Token}

/-- A fault of a program that the grammar allows. -/
abbrev Checked (fault : ParseFault) : Prop := fault.isStaticCheck = true

/-- The reader reads the value, if there is one, and stops in front of `rest`, unless a static check
stops it. -/
def Accepts (depth : Nat) (input : List Token) (x : Reader α) (value? : Option α)
    (rest : List Token) : Prop :=
  Leads Checked depth input x (Yields value? depth rest)

theorem accepts_pure (a : α) : Accepts depth input (pure a) (some a) input :=
  leads_pure (yields_some a depth input)

theorem Accepts.map {x : Reader α} {value? : Option α} {f : α → β}
    (h : Accepts depth input x value? rest) : Accepts depth input (f <$> x) (value?.map f) rest := by
  refine Leads.map h ?_
  rintro a _ _ ⟨rfl, rfl, rfl⟩
  exact yields_some _ _ _

theorem accepts_nested {x : Reader α} {value? : Option α}
    (h : depth < maxNesting → Accepts (depth + 1) input x value? rest) :
    Accepts depth input (nested x) value? rest := by
  refine leads_nested rfl fun hlt => Leads.imp (h hlt) (fun _ h => h) ?_
  rintro a _ _ ⟨hvalue, rfl, rfl⟩
  exact ⟨hvalue, rfl, rfl⟩

/-- The budget is enough for the levels that may still be entered. -/
def Fits (depth budget : Nat) : Prop := depth ≤ maxNesting ∧ maxNesting < budget + depth

theorem Fits.add {levels : Nat} (h : Fits depth budget) (hle : depth + levels ≤ maxNesting) :
    Fits (depth + levels) budget := by
  unfold Fits at *
  omega

/-- A recursion with a level of nesting at each entry does not use up its budget. -/
theorem accepts_of_fits {x y : Nat → Reader α} {value? : Option α} (hfits : Fits depth budget)
    (hx : ∀ budget, x (budget + 1) = nested (y budget))
    (hy : ∀ depth budget, Fits depth budget → Accepts depth input (y budget) value? rest) :
    Accepts depth input (x budget) value? rest := by
  unfold Fits at hfits
  cases budget with
  | zero => omega
  | succ budget =>
    rw [hx]
    refine accepts_nested fun hlt => hy (depth + 1) budget ?_
    unfold Fits
    omega

theorem accepts_lastItem {item : Reader α} {item? : Option α} {bound : Nat}
    (hlength : rest.length < input.length) (h : Accepts depth input item item? rest)
    (hrest : Behind (· ≠ .symbol .comma) rest) (hbound : input.length ≤ bound) :
    Accepts depth input (commaSeparatedUpTo item bound) (item?.map ([·])) rest := by
  obtain ⟨bound, rfl⟩ : ∃ b, bound = b + 1 := ⟨bound - 1, by omega⟩
  refine h.after ?_
  rintro a rfl
  refine leads_of_cons ?_
  rintro kind place more rfl
  exact leads_accept_bind (fun hkind => absurd hkind (of_decide_eq_true hrest)) fun _ => accepts_pure _

theorem accepts_moreItems {item : Reader α} {item? : Option α} {items? : Option (List α)}
    {l : Location} {bound : Nat} (hlength : middle.length < input.length)
    (h : Accepts depth input item item? (⟨.symbol .comma, l⟩ :: middle))
    (hmore : ∀ bound, middle.length ≤ bound →
      Accepts depth middle (commaSeparatedUpTo item bound) items? rest)
    (hbound : input.length ≤ bound) :
    Accepts depth input (commaSeparatedUpTo item bound) (List.cons <$> item? <*> items?) rest := by
  obtain ⟨bound, rfl⟩ : ∃ b, bound = b + 1 := ⟨bound - 1, by omega⟩
  refine h.after ?_
  rintro a rfl
  refine leads_accept_bind (fun _ => ?_) fun h => absurd rfl h
  refine (hmore bound (by omega)).after ?_
  rintro as rfl
  exact accepts_pure _

/-! ## Types -/

theorem accepts_pointersTo {t u : CType} (h : Stars t input u rest)
    (hrest : Behind (· ≠ .symbol .star) rest) (left : Nat) :
    Accepts depth input (pointersTo t left) (some u) rest := by
  induction h generalizing left with
  | nil t rest =>
    unfold pointersTo
    refine leads_of_cons ?_
    rintro kind place more rfl
    have hkind : kind ≠ .symbol .star := of_decide_eq_true hrest
    exact leads_symbol_bind (fun h => absurd h hkind) fun _ => accepts_pure t
  | cons _ ih =>
    unfold pointersTo
    refine leads_symbol_bind (fun _ => ?_) fun h => absurd rfl h
    cases left with
    | zero => exact leads_fail _ rfl
    | succ left => exact ih hrest left

theorem accepts_typeSpecifier {spec : CType × Bool} (h : TypeSpecifier input spec rest)
    (hrest : Behind (· ≠ .symbol .star) rest) : Accepts depth input typeSpecifier (some spec) rest := by
  have hbehind (isConst : Bool) {base : BaseType} {t : CType} {l : Location} {input : List Token}
      (hstars : Stars base.type input t rest) :
      Accepts depth (⟨.keyword base.word, l⟩ :: input) (typeBehindConst isConst)
        (some (t, isConst && !t.isPointer)) rest := by
    refine leads_peek_cons ?_
    dsimp only
    rw [baseType?_eq_some_iff.2 ⟨base, rfl, rfl⟩]
    refine leads_advance_bind nofun ((accepts_pointersTo hstars hrest _).after ?_)
    rintro _ ⟨⟩
    exact accepts_pure _
  rw [typeSpecifier_eq]
  cases h with
  | @plain base _ _ _ _ hstars =>
    refine leads_acceptWord_bind (fun h => ?_) fun _ => hbehind false hstars
    cases base <;> cases h
  | const hstars =>
    exact leads_acceptWord_bind (fun _ => hbehind true hstars) fun h => absurd rfl h

theorem accepts_arrayLength (n : Int32) (k r : Location) :
    Accepts depth (⟨.int n, k⟩ :: ⟨.symbol .rightBracket, r⟩ :: input) arrayLength
      (some n.toInt.toNat) input := by
  refine leads_peek_cons ?_
  dsimp only
  split
  · exact leads_fail_bind k rfl
  · exact leads_advance_bind nofun (leads_expect_cons (accepts_pure _))

theorem accepts_dimensionsUpTo {dims : List Dimension} (h : Dimensions input dims rest)
    (hrest : Behind endsOperand rest) (left : Nat) :
    Accepts depth input (dimensionsUpTo left) (some dims) rest := by
  induction h generalizing left with
  | nil rest =>
    unfold dimensionsUpTo
    refine leads_of_cons ?_
    rintro kind place more rfl
    refine leads_symbol_bind ?_ fun _ => accepts_pure []
    rintro rfl
    cases hrest
  | omitted _ ih =>
    unfold dimensionsUpTo
    refine leads_symbol_bind (fun _ => ?_) fun h => absurd rfl h
    cases left with
    | zero => exact leads_fail _ rfl
    | succ left =>
      refine leads_accept_bind (fun _ => ?_) fun h => absurd rfl h
      refine (accepts_pure none).after ?_
      rintro _ ⟨⟩
      refine (ih hrest left).after ?_
      rintro dims ⟨⟩
      exact accepts_pure _
  | @length dims n l k r _ _ _ ih =>
    unfold dimensionsUpTo
    refine leads_symbol_bind (fun _ => ?_) fun h => absurd rfl h
    cases left with
    | zero => exact leads_fail _ rfl
    | succ left =>
      refine leads_accept_bind (fun h => nomatch h) fun _ => ?_
      refine (accepts_arrayLength n k r).map.after ?_
      rintro _ ⟨⟩
      refine (ih hrest left).after ?_
      rintro dims ⟨⟩
      exact accepts_pure _

/-! ## Chains of operators -/

/-- What the reader of a chain does from a node on, so many levels entered: it reads `operators` as
long as there are some, and then leaves the levels. -/
def untilEnd (operators : Nat → Node → Nat → Reader (Node × Nat)) (node : Node) (entered : Nat) :
    Reader Node := do
  let (tree, entered) ← operators (maxNesting + 1 - entered) node entered
  ascend entered
  return tree

/-- The reader leads on from behind the node, if there is one, however many levels are entered. -/
def Continues (depth : Nat) (rest : List Token) (read : Node → Nat → Reader Node)
    (node? : Option Node) (Q : Node → Nat → List Token → Prop) : Prop :=
  ∀ node entered, node? = some node → depth + entered ≤ maxNesting →
    Leads Checked (depth + entered) rest (read node entered) Q

section Operators

variable {operators : Nat → Node → Nat → Reader (Node × Nat)} {node? : Option Node} {node : Node}
  {entered : Nat} {Q : Node → Nat → List Token → Prop}

/-- The bound on the operators is not used up. -/
theorem untilEnd_of_le (h : depth + entered ≤ maxNesting) :
    untilEnd operators node entered = (do
      let (tree, entered) ← operators (maxNesting - entered + 1) node entered
      ascend entered
      return tree) := by
  unfold untilEnd
  rw [show maxNesting + 1 - entered = maxNesting - entered + 1 by omega]

/-- Where no operator is next, the levels are left and the node is the tree. -/
theorem continues_of_ended (hended : ∀ bound node entered,
      Accepts (depth + entered) rest (operators (bound + 1) node entered) (some (node, entered)) rest) :
    Continues depth rest (untilEnd operators) node? (Yields node? depth rest) := by
  intro node entered hnode hle
  rw [untilEnd_of_le hle]
  refine (hended _ node entered).after ?_
  rintro _ ⟨⟩
  refine leads_ascend_bind (leads_pure ⟨hnode, ?_, rfl⟩)
  omega

/-- Behind one more operator, the reader goes on. -/
theorem Continues.behind (h : Continues depth rest (untilEnd operators) node? Q)
    (hnode : node? = some node) (hle : depth + (entered + 1) ≤ maxNesting) :
    Leads Checked (depth + (entered + 1)) rest (do
      let (tree, entered) ← operators (maxNesting - entered) node (entered + 1)
      ascend entered
      return tree) Q := by
  have hgoes := h node (entered + 1) hnode hle
  unfold untilEnd at hgoes
  rw [Nat.add_sub_add_right] at hgoes
  exact hgoes

end Operators

def operands (levels : List (List (Symbol × BinaryOp))) (budget : Nat) : Reader Node :=
  levels.foldr chain (unary budget)

end Reader

open Reader

/-- Before the phrase, the readers of such phrases read its tree and stop behind it, unless a static
check stops them. -/
def Phrase.Accepted : (p : Phrase) → List Token → Option p.Tree → List Token → Prop
  | primary, input, node, rest => ∀ depth budget, Fits depth budget →
    Accepts depth input (Reader.primary (expression budget)) node rest
  | trailing, input, node, rest => ∀ depth budget Q, Fits depth budget →
    Continues depth rest (untilEnd (trailingFrom (expression budget))) node Q →
    Leads Checked depth input (Reader.trailing (expression budget)) Q
  | unary, input, node, rest | binary [], input, node, rest => Behind endsOperand rest →
    ∀ depth budget, Fits depth budget → Accepts depth input (Reader.unary budget) node rest
  | binary (level :: levels), input, node, rest => Stratified (level :: levels) →
    Behind (endsLevels levels) rest → ∀ depth budget Q, Fits depth budget →
    Continues depth rest (untilEnd (chainFrom level (operands levels budget))) node Q →
    Leads Checked depth input (chain level (operands levels budget)) Q
  | value, input, node, rest => Behind endsValue rest → ∀ depth budget, Fits depth budget →
    Accepts depth input (Reader.expression budget) node rest
  | values, input, nodes, rest => Behind (· = .symbol .rightParen) rest →
    ∀ depth budget bound, Fits depth budget → input.length ≤ bound →
    Accepts depth input (commaSeparatedUpTo (expression budget) bound) nodes rest
  | arguments, input, nodes, rest => Behind (· = .symbol .rightParen) rest →
    ∀ depth budget, Fits depth budget →
    Accepts depth input (Reader.arguments (expression budget)) nodes rest
  | elements, input, nodes, rest => Behind (· = .symbol .rightBrace) rest →
    ∀ depth budget bound, Fits depth budget → input.length ≤ bound →
    Accepts depth input (elementsUpTo (expression budget) bound) nodes rest
  | initialized, input, node, rest | declaration, input, node, rest => Behind endsValue rest →
    ∀ depth budget, Fits depth budget → Accepts depth input (declarator (expression budget)) node rest
  | clause, input, node, rest => ∀ s, (s = .semicolon ∨ s = .rightParen) → Behind (· = .symbol s) rest →
    ∀ depth budget, Fits depth budget →
    Accepts depth input (valueUnless (expression budget) s) node rest
  | forInit, input, node, rest => ∀ depth budget, Fits depth budget →
    Accepts depth input (Reader.forInit (expression budget)) node rest
  | statement dangling, input, node, rest =>
    (dangling = true → Behind (· ≠ .keyword .elseWord) rest) → ∀ depth budget, Fits depth budget →
    Accepts depth input (Reader.statement budget) node rest
  | statements, input, nodes, rest => Behind (· = .symbol .rightBrace) rest →
    ∀ depth budget bound, Fits depth budget → input.length ≤ bound →
    Accepts depth input (statementsUpTo (Reader.statement budget) bound) nodes rest

section

variable {depth budget : Nat} {kind : TokenKind} {l r : Location}
  {input middle rest : List Token}

/-! ## Binary operators -/

section Binary

variable {level : List (Symbol × BinaryOp)} {levels : List (List (Symbol × BinaryOp))}
  {node left right : Option Node}

/-- A chain ends where no operator of its level is next. -/
theorem Phrase.Accepted.operands (h : (Phrase.binary levels).Accepted input node rest)
    (hlevels : Stratified levels) (hrest : Behind (endsLevels levels) rest)
    (hfits : Fits depth budget) : Accepts depth input (Reader.operands levels budget) node rest := by
  cases levels with
  | nil => exact h (hrest.imp fun _ => endsOperand_of_endsLevels) depth budget hfits
  | cons level levels =>
    refine h hlevels (hrest.imp fun _ h => (endsLevels_cons.1 h).2) depth budget _ hfits ?_
    refine continues_of_ended fun bound node entered => leads_peek_bind ?_
    rintro kind place more rfl
    dsimp only
    rw [(endsLevels_cons.1 hrest).1]
    exact accepts_pure _

theorem accepted_tighter (h : (Phrase.binary levels).Accepted input node rest) :
    (Phrase.binary (level :: levels)).Accepted input node rest := by
  intro hlevels hrest depth budget Q hfits hnext
  refine (h.operands hlevels.2 hrest hfits).after fun node hnode => ?_
  exact hnext node 0 hnode hfits.1

theorem accepted_binary {s : Symbol} {op : BinaryOp}
    (hleft : (Phrase.binary (level :: levels)).Accepted input left (⟨.symbol s, l⟩ :: middle))
    (hop : (s, op) ∈ level)
    (hright : (Phrase.binary levels).Accepted middle right rest) :
    (Phrase.binary (level :: levels)).Accepted input (.binary l op <$> left <*> right) rest := by
  intro hlevels hrest depth budget Q hfits hnext
  obtain ⟨hfound, hended⟩ := hlevels.1 (s, op) hop
  refine hleft hlevels hended depth budget Q hfits ?_
  rintro left entered rfl hle
  rw [untilEnd_of_le hle, chainFrom, bind_assoc]
  refine leads_peek_cons ?_
  dsimp only
  rw [hfound]
  dsimp only
  rw [bind_assoc]
  refine leads_advance_bind nofun ?_
  rw [bind_assoc]
  refine leads_descend_bind rfl fun hlt => ?_
  have hdeeper : Fits (depth + (entered + 1)) budget := hfits.add hlt
  rw [bind_assoc]
  refine (hright.operands hlevels.2 hrest hdeeper).after ?_
  rintro right rfl
  exact hnext.behind rfl hlt

end Binary

/-! ## Assignments -/

section Assignments

variable {node target source : Option Node}

theorem accepted_unassigned (h : (Phrase.binary operatorLevels).Accepted input node rest) :
    Phrase.value.Accepted input node rest := by
  refine fun hrest depth budget hfits => accepts_of_fits hfits (fun _ => rfl) fun depth budget hfits => ?_
  refine (h.operands stratified_operatorLevels (hrest.imp fun _ => endsLevels_of_endsValue) hfits).after
    fun node hnode => ?_
  refine leads_peek_bind ?_
  rintro kind place more rfl
  dsimp only
  rw [assignmentOf?_of_endsValue hrest]
  exact leads_pure ⟨hnode, rfl, rfl⟩

theorem accepted_assign {s : Symbol} {op : Option BinaryOp}
    (htarget : (Phrase.binary operatorLevels).Accepted input target (⟨.symbol s, l⟩ :: middle))
    (hop : AssignmentSign s op) (hsource : Phrase.value.Accepted middle source rest) :
    Phrase.value.Accepted input (assignmentNode l op <$> target <*> source) rest := by
  refine fun hrest depth budget hfits => accepts_of_fits hfits (fun _ => rfl) fun depth budget hfits => ?_
  have hended : Behind (endsLevels operatorLevels) (⟨.symbol s, l⟩ :: middle) := hop.endsLevels
  refine (htarget.operands stratified_operatorLevels hended hfits).after ?_
  rintro target rfl
  refine leads_peek_cons ?_
  dsimp only
  rw [assignmentOf?_eq_some_iff.2 ⟨s, rfl, hop⟩]
  refine leads_advance_bind nofun ?_
  have hbehind : Accepts depth middle
      (expression budget >>= fun source => pure (assignmentNode l op target source))
      (assignmentNode l op target <$> source) rest := by
    refine (hsource hrest depth budget hfits).after ?_
    rintro source rfl
    exact accepts_pure _
  cases op with
  | none =>
    dsimp only
    split
    · exact hbehind
    · exact leads_fail_bind _ rfl
  | some op =>
    dsimp only
    split
    · exact hbehind
    · exact leads_fail_bind _ rfl

end Assignments

/-! ## Operators in front of an operand -/

section Leading

variable {node : Option Node}

/-- The reader takes the symbol, reads an operand and goes on with `finish`. -/
theorem accepted_prefix {s : Symbol} {tree : Option Node} {finish : Node → Reader Node}
    (h : Phrase.unary.Accepted input node rest)
    (hleading : ∀ depth value operand, Accepts depth input (operand >>= finish) tree rest →
      Accepts depth (⟨.symbol s, l⟩ :: input) (leading value operand) tree rest)
    (hfinish : ∀ depth n, node = some n → Accepts depth rest (finish n) tree rest) :
    Phrase.unary.Accepted (⟨.symbol s, l⟩ :: input) tree rest := by
  refine fun hrest depth budget hfits => accepts_of_fits hfits (fun _ => rfl) fun depth budget hfits => ?_
  exact hleading _ _ _ ((h hrest depth budget hfits).after (hfinish depth))

theorem accepts_stepNode (op : StepOp) (n : Node) :
    Accepts depth input (stepNode l op n) (some (.step l op n)) input :=
  leads_stepNode (fun _ h => h) l op n

theorem accepted_not (h : Phrase.unary.Accepted input node rest) :
    Phrase.unary.Accepted (⟨.symbol .bang, l⟩ :: input) (node.map (.unary l .not)) rest := by
  refine accepted_prefix h (fun _ _ _ h => leads_peek_cons (leads_advance_bind nofun h)) ?_
  rintro depth n rfl
  exact accepts_pure _

theorem accepted_neg (h : Phrase.unary.Accepted input node rest) :
    Phrase.unary.Accepted (⟨.symbol .minus, l⟩ :: input) (node.map (.unary l .neg)) rest := by
  refine accepted_prefix h (fun _ _ _ h => leads_peek_cons (leads_advance_bind nofun h)) ?_
  rintro depth n rfl
  exact accepts_pure _

theorem accepted_plus (h : Phrase.unary.Accepted input node rest) :
    Phrase.unary.Accepted (⟨.symbol .plus, l⟩ :: input) node rest := by
  refine fun hrest depth budget hfits => accepts_of_fits hfits (fun _ => rfl) fun depth budget hfits => ?_
  exact leads_peek_cons (leads_advance_bind nofun (h hrest depth budget hfits))

theorem accepted_addressOf (h : Phrase.unary.Accepted input node rest) :
    Phrase.unary.Accepted (⟨.symbol .amp, l⟩ :: input) (node.map (.addressOf l)) rest := by
  refine accepted_prefix h (fun _ _ _ h => leads_peek_cons (leads_advance_bind nofun h)) ?_
  rintro depth n rfl
  split
  · exact accepts_pure _
  · exact leads_fail_bind _ rfl

theorem accepted_deref (h : Phrase.unary.Accepted input node rest) :
    Phrase.unary.Accepted (⟨.symbol .star, l⟩ :: input) (node.map (.deref l)) rest := by
  refine accepted_prefix h (fun _ _ _ h => leads_peek_cons (leads_advance_bind nofun h)) ?_
  rintro depth n rfl
  exact accepts_pure _

theorem accepted_preInc (h : Phrase.unary.Accepted input node rest) :
    Phrase.unary.Accepted (⟨.symbol .plusPlus, l⟩ :: input) (node.map (.step l .preInc)) rest := by
  refine accepted_prefix h (fun _ _ _ h => leads_peek_cons (leads_advance_bind nofun h)) ?_
  rintro depth n rfl
  exact accepts_stepNode _ _

theorem accepted_preDec (h : Phrase.unary.Accepted input node rest) :
    Phrase.unary.Accepted (⟨.symbol .minusMinus, l⟩ :: input) (node.map (.step l .preDec)) rest := by
  refine accepted_prefix h (fun _ _ _ h => leads_peek_cons (leads_advance_bind nofun h)) ?_
  rintro depth n rfl
  exact accepts_stepNode _ _

/-- At a token that begins an operand, there is no operator in front. -/
theorem leads_leading_of_startsOperand {value operand : Reader Node}
    {Q : Node → Nat → List Token → Prop} (hkind : kind.startsOperand = true)
    (h : Leads Checked depth (⟨kind, l⟩ :: input) (trailing value) Q) :
    Leads Checked depth (⟨kind, l⟩ :: input) (leading value operand) Q := by
  refine leads_peek_cons ?_
  dsimp only
  split
  case h_8 => exact h
  all_goals cases hkind

end Leading

/-! ## Operators behind an operand -/

section Trailing

variable {node : Option Node}

/-- The reader of the operator behind an operand that begins with the token, if there is one. -/
def trailingOperator? (value : Reader Node) (operand : Node) (token : Token) : Option (Reader Node) :=
  match token.kind with
  | .symbol .plusPlus => some do
    advance
    stepNode token.place .postInc operand
  | .symbol .minusMinus => some do
    advance
    stepNode token.place .postDec operand
  | .symbol .leftBracket => some do
    advance
    let position ← value
    expect .rightBracket "after array index"
    return .index token.place operand position
  | .symbol .leftParen => some <| match operand with
    | .identifier place name => do
      advance
      let args ← Reader.arguments value
      expect .rightParen "after function arguments"
      return .call place name args
    | _ => fail .callOnNonIdentifier token.place
  | _ => none

theorem trailingFrom_succ (value : Reader Node) (bound : Nat) (operand : Node) (entered : Nat) :
    trailingFrom value (bound + 1) operand entered = (do
      let token ← peek
      match trailingOperator? value operand token with
      | none => return (operand, entered)
      | some read =>
        descend
        let node ← read
        trailingFrom value bound node (entered + 1)) := by
  rw [trailingFrom]
  congr 1
  funext token
  obtain ⟨kind, l⟩ := token
  cases kind with
  | symbol s =>
    cases s
    case plusPlus | minusMinus => simp only [trailingOperator?, bind_assoc]
    case leftBracket => simp only [trailingOperator?, bind_assoc, pure_bind]
    case leftParen =>
      cases operand with
      | identifier => simp only [trailingOperator?, bind_assoc, pure_bind]
      | _ => rfl
    all_goals rfl
  | _ => rfl

theorem trailingOperator?_of_endsOperand {value : Reader Node} {operand : Node}
    (h : endsOperand kind = true) : trailingOperator? value operand ⟨kind, l⟩ = none := by
  unfold trailingOperator?
  dsimp only
  split <;> first | rfl | cases h

/-- Operators behind an operand end where none of them is next. -/
theorem accepts_trailing (h : Phrase.trailing.Accepted input node rest)
    (hrest : Behind endsOperand rest) (hfits : Fits depth budget) :
    Accepts depth input (Reader.trailing (expression budget)) node rest := by
  refine h depth budget _ hfits (continues_of_ended fun bound node entered => ?_)
  rw [trailingFrom_succ]
  refine leads_peek_bind ?_
  rintro kind place more rfl
  rw [trailingOperator?_of_endsOperand hrest]
  exact accepts_pure _

theorem accepted_unsigned (hbegins : Phrase.trailing.Begins input rest)
    (h : Phrase.trailing.Accepted input node rest) : Phrase.unary.Accepted input node rest := by
  refine fun hrest depth budget hfits => accepts_of_fits hfits (fun _ => rfl) fun depth budget hfits => ?_
  obtain ⟨kind, l, more, rfl, hkind⟩ := hbegins.exists_cons rfl
  exact leads_leading_of_startsOperand hkind (accepts_trailing h hrest hfits)

theorem accepted_operand (h : Phrase.primary.Accepted input node rest) :
    Phrase.trailing.Accepted input node rest := by
  intro depth budget Q hfits hnext
  refine (h depth budget hfits).after fun node hnode => ?_
  exact hnext node 0 hnode hfits.1

/-- One operator behind an operand is read, and the reader goes on with what it makes. -/
theorem accepted_trailing {token : Token} {tree : Option Node}
    (h : Phrase.trailing.Accepted input node (token :: middle))
    (hread : ∀ depth budget, Fits depth budget → ∀ n, node = some n →
      ∃ read, trailingOperator? (expression budget) n token = some read ∧
        Accepts depth (token :: middle) read tree rest) :
    Phrase.trailing.Accepted input tree rest := by
  intro depth budget Q hfits hnext
  refine h depth budget Q hfits ?_
  intro n entered hn hle
  rw [untilEnd_of_le hle, trailingFrom_succ, bind_assoc]
  refine leads_peek_cons ?_
  obtain ⟨read, hop, -⟩ := hread depth budget hfits n hn
  rw [hop]
  dsimp only
  rw [bind_assoc]
  refine leads_descend_bind rfl fun hlt => ?_
  obtain ⟨read', hop', haccepts⟩ := hread (depth + (entered + 1)) budget (hfits.add hlt) n hn
  obtain rfl : read = read' := Option.some.inj (hop.symm.trans hop')
  rw [bind_assoc]
  exact haccepts.after fun made hmade => hnext.behind hmade hlt

theorem accepted_postInc (h : Phrase.trailing.Accepted input node (⟨.symbol .plusPlus, l⟩ :: rest)) :
    Phrase.trailing.Accepted input (node.map (.step l .postInc)) rest := by
  refine accepted_trailing h fun depth budget hfits n hn => ⟨_, rfl, ?_⟩
  rw [hn]
  exact leads_advance_bind nofun (accepts_stepNode _ _)

theorem accepted_postDec (h : Phrase.trailing.Accepted input node (⟨.symbol .minusMinus, l⟩ :: rest)) :
    Phrase.trailing.Accepted input (node.map (.step l .postDec)) rest := by
  refine accepted_trailing h fun depth budget hfits n hn => ⟨_, rfl, ?_⟩
  rw [hn]
  exact leads_advance_bind nofun (accepts_stepNode _ _)

theorem accepted_index {position : Option Node}
    (h : Phrase.trailing.Accepted input node (⟨.symbol .leftBracket, l⟩ :: middle))
    (hposition : Phrase.value.Accepted middle position (⟨.symbol .rightBracket, r⟩ :: rest)) :
    Phrase.trailing.Accepted input (.index l <$> node <*> position) rest := by
  refine accepted_trailing h fun depth budget hfits n hn => ⟨_, rfl, ?_⟩
  refine leads_advance_bind nofun ((hposition rfl depth budget hfits).after fun p hp => ?_)
  rw [hn, hp]
  exact leads_expect_cons (accepts_pure _)

theorem accepted_call {args : Option (List Node)}
    (h : Phrase.trailing.Accepted input node (⟨.symbol .leftParen, l⟩ :: middle))
    (hargs : Phrase.arguments.Accepted middle args (⟨.symbol .rightParen, r⟩ :: rest)) :
    Phrase.trailing.Accepted input (callNode? node args) rest := by
  refine accepted_trailing h fun depth budget hfits n hn => ⟨_, rfl, ?_⟩
  rw [hn]
  cases n with
  | identifier place name =>
    refine leads_advance_bind nofun ((hargs rfl depth budget hfits).after fun as has => ?_)
    rw [has]
    exact leads_expect_cons (accepts_pure _)
  | _ => exact leads_fail l rfl

end Trailing

/-! ## Lists of values -/

section Lists

variable {node : Option Node} {nodes : Option (List Node)}

theorem accepted_lastValue (hbegins : Phrase.value.Begins input rest)
    (h : Phrase.value.Accepted input node rest) :
    Phrase.values.Accepted input (node.map ([·])) rest := by
  intro hrest depth budget bound hfits hbound
  have hitem := h (hrest.of_eq rfl) depth budget hfits
  exact accepts_lastItem (hbegins.length_lt rfl) hitem (hrest.of_eq rfl) hbound

theorem accepted_moreValues (hbegins : Phrase.value.Begins input (⟨.symbol .comma, l⟩ :: middle))
    (hfirst : Phrase.value.Accepted input node (⟨.symbol .comma, l⟩ :: middle))
    (hmore : Phrase.values.Accepted middle nodes rest) :
    Phrase.values.Accepted input (List.cons <$> node <*> nodes) rest := by
  intro hrest depth budget bound hfits hbound
  have hlength := Nat.lt_of_succ_lt (hbegins.length_lt rfl)
  exact accepts_moreItems hlength (hfirst rfl depth budget hfits)
    (fun bound => hmore hrest depth budget bound hfits) hbound

theorem accepted_noArguments : Phrase.arguments.Accepted rest (some []) rest := by
  intro hrest depth budget hfits
  refine leads_of_cons ?_
  rintro kind place more rfl
  have hclosed : kind = .symbol .rightParen := of_decide_eq_true hrest
  exact leads_isNext_bind (fun _ => accepts_pure []) fun h => absurd hclosed h

theorem accepted_arguments (hbegins : Phrase.values.Begins input rest)
    (h : Phrase.values.Accepted input nodes rest) : Phrase.arguments.Accepted input nodes rest := by
  intro hrest depth budget hfits
  obtain ⟨kind, l, more, rfl, hkind⟩ := hbegins.exists_cons rfl
  refine leads_isNext_bind ?_ fun _ => ?_
  · rintro rfl
    cases hkind
  · exact leads_itemBound_bind (h hrest depth budget _ hfits (Nat.le_refl _))

/-- One element is read, and the reader goes on behind a comma. -/
theorem leads_elementsUpTo {value : Reader Node} {bound : Nat}
    {Q : List Node → Nat → List Token → Prop} (hbegins : Phrase.value.Begins input rest)
    (h : Accepts depth input value node rest)
    (hnext : ∀ n, node = some n → Leads Checked depth rest (do
      if ← accept .comma then return n :: (← elementsUpTo value bound) else return [n]) Q) :
    Leads Checked depth input (elementsUpTo value (bound + 1)) Q := by
  obtain ⟨kind, l, more, rfl, hkind⟩ := hbegins.exists_cons rfl
  refine leads_isNext_bind ?_ fun _ => h.after hnext
  rintro rfl
  cases hkind

theorem accepted_lastElement (hbegins : Phrase.value.Begins input rest)
    (h : Phrase.value.Accepted input node rest) :
    Phrase.elements.Accepted input (node.map ([·])) rest := by
  intro hrest depth budget bound hfits hbound
  have hlength := hbegins.length_lt rfl
  obtain ⟨bound, rfl⟩ : ∃ b, bound = b + 1 := ⟨bound - 1, by omega⟩
  refine leads_elementsUpTo hbegins (h (hrest.of_eq rfl) depth budget hfits) ?_
  rintro n rfl
  refine leads_of_cons ?_
  rintro kind place more rfl
  refine leads_accept_bind ?_ fun _ => accepts_pure _
  rintro rfl
  cases hrest

theorem accepted_lastElementComma (hbegins : Phrase.value.Begins input (⟨.symbol .comma, l⟩ :: rest))
    (h : Phrase.value.Accepted input node (⟨.symbol .comma, l⟩ :: rest)) :
    Phrase.elements.Accepted input (node.map ([·])) rest := by
  intro hrest depth budget bound hfits hbound
  have hlength := hbegins.length_lt rfl
  rw [List.length_cons] at hlength
  obtain ⟨bound, rfl⟩ : ∃ b, bound = b + 2 := ⟨bound - 2, by omega⟩
  refine leads_elementsUpTo hbegins (h rfl depth budget hfits) ?_
  rintro n rfl
  refine leads_accept_bind (fun _ => leads_of_cons ?_) fun h => absurd rfl h
  rintro kind place more rfl
  have hclosed : kind = .symbol .rightBrace := of_decide_eq_true hrest
  have hended : Accepts depth (⟨kind, place⟩ :: more) (elementsUpTo (expression budget) (bound + 1))
      (some []) (⟨kind, place⟩ :: more) :=
    leads_isNext_bind (fun _ => accepts_pure []) fun h => absurd hclosed h
  refine hended.after ?_
  rintro _ ⟨⟩
  exact accepts_pure _

theorem accepted_moreElements (hbegins : Phrase.value.Begins input (⟨.symbol .comma, l⟩ :: middle))
    (hfirst : Phrase.value.Accepted input node (⟨.symbol .comma, l⟩ :: middle))
    (hmore : Phrase.elements.Accepted middle nodes rest) :
    Phrase.elements.Accepted input (List.cons <$> node <*> nodes) rest := by
  intro hrest depth budget bound hfits hbound
  have hlength := hbegins.length_lt rfl
  rw [List.length_cons] at hlength
  obtain ⟨bound, rfl⟩ : ∃ b, bound = b + 1 := ⟨bound - 1, by omega⟩
  refine leads_elementsUpTo hbegins (hfirst rfl depth budget hfits) ?_
  rintro n rfl
  refine leads_accept_bind (fun _ => ?_) fun h => absurd rfl h
  refine (hmore hrest depth budget bound hfits ?_).after ?_
  · omega
  · rintro ns rfl
    exact accepts_pure _

end Lists

/-! ## Declarations -/

section Declarations

variable {spec : CType × Bool} {dims : List Dimension} {name : String} {e : Location}
  {behindName behindEqual : List Token}

/-- The front of a declaration is read up to the place of its initializer. -/
theorem leads_declarator {value : Reader Node} {Q : Node → Nat → List Token → Prop}
    (hspec : TypeSpecifier input spec (⟨.identifier name, l⟩ :: behindName))
    (hdims : Dimensions behindName dims rest) (hrest : Behind endsOperand rest)
    (hnext : Leads Checked depth rest (do
      let init ← do
        if ← accept .equal then some <$> value else pure none
      let type ← variableType spec.1 dims init l
      if type = .void then fail (.voidVariable name) l
      return Node.declaration l name type spec.2 init) Q) :
    Leads Checked depth input (declarator value) Q := by
  refine (accepts_typeSpecifier hspec rfl).after ?_
  rintro _ ⟨⟩
  refine leads_identifier_cons ?_
  refine (accepts_dimensionsUpTo hdims hrest maxNesting).after ?_
  rintro _ ⟨⟩
  exact hnext

theorem accepts_declarationNode? (init : Option Node) :
    Accepts depth input (do
      let type ← variableType spec.1 dims init l
      if type = .void then fail (.voidVariable name) l
      return Node.declaration l name type spec.2 init)
      (declarationNode? l name spec dims init) input := by
  refine (leads_variableType (fun _ h => h) spec.1 dims init l).after fun type htype => ?_
  split
  · exact leads_fail_bind l rfl
  · refine leads_pure ⟨?_, rfl, rfl⟩
    unfold declarationNode?
    rw [htype]
    rfl

theorem accepted_initialized {init : Option Node}
    (hspec : TypeSpecifier input spec (⟨.identifier name, l⟩ :: behindName))
    (hdims : Dimensions behindName dims (⟨.symbol .equal, e⟩ :: behindEqual))
    (hinit : Phrase.value.Accepted behindEqual init rest) :
    Phrase.initialized.Accepted input
      (init.bind fun v => declarationNode? l name spec dims (some v)) rest := by
  intro hrest depth budget hfits
  refine leads_declarator hspec hdims rfl ?_
  refine leads_accept_bind (fun _ => ?_) fun h => absurd rfl h
  refine (hinit hrest depth budget hfits).map.after ?_
  rintro v hv
  obtain ⟨v, rfl, rfl⟩ := Option.map_eq_some_iff.1 hv
  exact accepts_declarationNode? (some v)

theorem accepted_withoutInitializer
    (hspec : TypeSpecifier input spec (⟨.identifier name, l⟩ :: behindName))
    (hdims : Dimensions behindName dims rest) :
    Phrase.declaration.Accepted input (declarationNode? l name spec dims none) rest := by
  intro hrest depth budget hfits
  refine leads_declarator hspec hdims
    (hrest.imp fun _ h => endsOperand_of_endsLevels (endsLevels_of_endsValue h)) ?_
  refine leads_of_cons ?_
  rintro kind place more rfl
  refine leads_accept_bind ?_ fun _ => ?_
  · rintro rfl
    cases hrest
  · refine (accepts_pure none).after ?_
    rintro _ ⟨⟩
    exact accepts_declarationNode? none

/-- A declaration is initialized if its phrase is. -/
theorem Derives.isInitialized {tree : Option Node} (h : Derives .initialized input tree rest)
    {node : Node} (hnode : tree = some node) : node.isInitialized = true := by
  cases h with
  | @initialized _ _ _ _ _ _ _ _ _ init hspec hdims hinit =>
    obtain ⟨v, -, hv⟩ := Option.bind_eq_some_iff.1 hnode
    obtain ⟨type, -, rfl⟩ := Option.map_eq_some_iff.1 hv
    rfl

end Declarations

/-! ## Operands -/

section Operands

variable {node : Option Node} {elements : Option (List Node)}

theorem accepted_atom {n : Node} (h : Atom l kind n) :
    Phrase.primary.Accepted (⟨kind, l⟩ :: rest) (some n) rest := by
  intro depth budget hfits
  refine leads_peek_cons ?_
  dsimp only
  rw [atom?_eq_some_iff.2 h]
  exact leads_advance_bind h.ne_endOfFile (accepts_pure n)

/-- An array literal has an element. -/
theorem Derives.ne_nil (h : Derives .elements input elements rest) : elements ≠ some [] := by
  cases h with
  | @lastElement _ _ node | @lastElementComma _ _ _ node =>
    cases node <;> nofun
  | @moreElements _ _ _ _ node nodes =>
    cases node <;> cases nodes <;> nofun

theorem accepted_arrayLiteral (hne : elements ≠ some [])
    (h : Phrase.elements.Accepted input elements (⟨.symbol .rightBrace, r⟩ :: rest)) :
    Phrase.primary.Accepted (⟨.symbol .leftBrace, l⟩ :: input) (elements.map (.arrayLiteral l)) rest := by
  intro depth budget hfits
  refine leads_peek_cons (leads_accept_bind (fun _ => ?_) fun h => absurd rfl h)
  refine leads_itemBound_bind ?_
  refine (h rfl depth budget _ hfits (Nat.le_refl _)).after ?_
  rintro nodes rfl
  refine leads_expect_cons ?_
  rw [if_neg fun hempty => hne (congrArg some (List.isEmpty_iff.1 hempty))]
  exact accepts_pure _

theorem accepted_parentheses (hbegins : Phrase.value.Begins input (⟨.symbol .rightParen, r⟩ :: rest))
    (h : Phrase.value.Accepted input node (⟨.symbol .rightParen, r⟩ :: rest)) :
    Phrase.primary.Accepted (⟨.symbol .leftParen, l⟩ :: input) node rest := by
  intro depth budget hfits
  refine leads_peek_cons (leads_accept_bind nofun fun _ => ?_)
  refine leads_accept_bind (fun _ => ?_) fun h => absurd rfl h
  obtain ⟨kind, place, more, rfl, hkind⟩ := hbegins.exists_cons rfl
  refine leads_typeIsNext_bind ?_
  rw [TokenKind.startsType_of_startsValue hkind]
  refine (h rfl depth budget hfits).after fun n hn => ?_
  exact leads_expect_cons (leads_pure ⟨hn, rfl, rfl⟩)

theorem accepted_parenthesizedDeclaration
    (hderives : Derives .initialized input node (⟨.symbol .rightParen, r⟩ :: rest))
    (h : Phrase.initialized.Accepted input node (⟨.symbol .rightParen, r⟩ :: rest)) :
    Phrase.primary.Accepted (⟨.symbol .leftParen, l⟩ :: input) node rest := by
  intro depth budget hfits
  refine leads_peek_cons (leads_accept_bind nofun fun _ => ?_)
  refine leads_accept_bind (fun _ => ?_) fun h => absurd rfl h
  obtain ⟨kind, place, more, rfl, hkind⟩ := hderives.begins.exists_cons rfl
  refine leads_typeIsNext_bind ?_
  have htype : startsType kind = true := hkind
  rw [htype]
  refine (h rfl depth budget hfits).after fun n hn => ?_
  rw [hderives.isInitialized hn]
  exact leads_expect_cons (leads_pure ⟨hn, rfl, rfl⟩)

end Operands

end

end BoundedC
