import BoundedC.Compile
import BoundedC.Proofs.WellFormed

/-!
# What the reader guarantees

A reader that leaves the number of enclosing loops as it was and reads trees of some kind is what
`Reader.Reads` says. All readers of the language are of this kind.

* `Reads.bind`, `Reads.nested`, `Reads.commaSeparated` : readers made of readers;
* `reads_expression`, `reads_statement` : the two recursions;
* `wellFormed_of_compile` : what `compile` accepts is well formed.
-/

namespace BoundedC

/-! ## Readers -/

namespace Reader

variable {α β : Type}

theorem run_bind_eq_ok_iff {x : Reader α} {f : α → Reader β} {s : ReaderState} {r : β × ReaderState} :
    (x >>= f).run s = .ok r ↔ ∃ a t, x.run s = .ok (a, t) ∧ (f a).run t = .ok r := by
  rw [StateT.run_bind]
  cases hx : x.run s with
  | error e =>
    constructor
    · intro h
      cases h
    · rintro ⟨_, _, h, -⟩
      cases h
  | ok p =>
    constructor
    · exact fun h => ⟨p.1, p.2, rfl, h⟩
    · rintro ⟨a, t, h, hf⟩
      cases h
      exact hf

/-- Inside so many loops the reader reads something with the property, and then it is inside as many
loops. -/
def Reads (loops : Nat) (P : α → Prop) (x : Reader α) : Prop :=
  ∀ ⦃s a t⦄, s.loops = loops → x.run s = .ok (a, t) → P a ∧ t.loops = loops

/-- The reader is not concerned with loops. -/
def Keeps (x : Reader α) : Prop := ∀ loops, Reads loops (fun _ => True) x

variable {loops : Nat} {P : α → Prop} {Q : β → Prop}

namespace Reads

theorem pure {a : α} (h : P a) : Reads loops P (pure a) := by
  rintro s _ _ hs ⟨⟩
  exact ⟨h, hs⟩

theorem fail (fault : ParseFault) (place : Location) : Reads loops P (Reader.fail fault place) := by
  rintro s a t - ⟨⟩

theorem bind {x : Reader α} {f : α → Reader β} (hx : Reads loops P x)
    (hf : ∀ a, P a → Reads loops Q (f a)) : Reads loops Q (x >>= f) := by
  intro s b t hs h
  obtain ⟨a, u, hu, ht⟩ := run_bind_eq_ok_iff.1 h
  obtain ⟨ha, hl⟩ := hx hs hu
  exact hf a ha hl ht

/-- Something without importance is read before. -/
theorem after {x : Reader α} {f : α → Reader β} (hx : Keeps x) (hf : ∀ a, Reads loops Q (f a)) :
    Reads loops Q (x >>= f) :=
  (hx loops).bind fun a _ => hf a

/-- A reader that stops reads nothing. -/
theorem fail_bind (fault : ParseFault) (place : Location) (f : α → Reader β) :
    Reads loops Q (Reader.fail fault place >>= f) :=
  (Reads.fail (P := fun _ => False) fault place).bind fun _ h => h.elim

theorem imp {P' : α → Prop} {x : Reader α} (hx : Reads loops P x) (h : ∀ a, P a → P' a) :
    Reads loops P' x := by
  intro s a t hs hrun
  obtain ⟨ha, ht⟩ := hx hs hrun
  exact ⟨h a ha, ht⟩

theorem some {x : Reader α} (hx : Reads loops P x) :
    Reads loops (fun o : Option α => ∀ a ∈ o, P a) (Option.some <$> x) := by
  rw [map_eq_pure_bind]
  refine hx.bind fun a ha => .pure ?_
  rintro _ ⟨⟩
  exact ha

theorem none : Reads loops (fun o : Option α => ∀ a ∈ o, P a) (Pure.pure Option.none) :=
  .pure nofun

end Reads

/-! ## Tokens and levels -/

theorem keeps_pure (a : α) : Keeps (pure a) := fun _ => .pure trivial

theorem keeps_fail (fault : ParseFault) (place : Location) : Keeps (fail fault place : Reader α) :=
  fun _ => .fail _ _

theorem keeps_bind {x : Reader α} {f : α → Reader β} (hx : Keeps x) (hf : ∀ a, Keeps (f a)) :
    Keeps (x >>= f) :=
  fun loops => .after hx fun a => hf a loops

theorem keeps_get : Keeps get := by
  rintro loops s _ _ hs ⟨⟩
  exact ⟨trivial, hs⟩

theorem keeps_modify {f : ReaderState → ReaderState} (hf : ∀ s, (f s).loops = s.loops) :
    Keeps (modify f) := by
  rintro loops s _ _ hs ⟨⟩
  exact ⟨trivial, (hf s).trans hs⟩

theorem keeps_peek : Keeps peek := keeps_bind keeps_get fun _ => keeps_pure _

theorem reads_outOfBudget : Reads loops P outOfBudget := .after keeps_peek fun _ => .fail _ _

theorem keeps_advance : Keeps advance := by
  refine keeps_modify fun s => ?_
  split
  · rfl
  · split <;> rfl

theorem keeps_descend : Keeps descend := by
  rintro loops s _ t hs h
  obtain ⟨s', u, hu, h⟩ := run_bind_eq_ok_iff.1 h
  cases hu
  split at h
  · obtain ⟨_, _, hu, -⟩ := run_bind_eq_ok_iff.1 h
    cases hu
  · cases h
    exact ⟨trivial, hs⟩

theorem keeps_ascend (levels : Nat) : Keeps (ascend levels) := keeps_modify fun _ => rfl

theorem Reads.nested {x : Reader α} (hx : Reads loops P x) : Reads loops P (Reader.nested x) :=
  .after keeps_descend fun _ => hx.bind fun _ ha => .after (keeps_ascend 1) fun _ => .pure ha

theorem keeps_isNext (kind : TokenKind) : Keeps (isNext kind) :=
  keeps_bind keeps_peek fun _ => keeps_pure _

theorem keeps_acceptKind (kind : TokenKind) : Keeps (acceptKind kind) := by
  refine keeps_bind (keeps_isNext kind) fun next => ?_
  cases next with
  | true => exact keeps_bind keeps_advance fun _ => keeps_pure _
  | false => exact keeps_pure _

theorem keeps_accept (s : Symbol) : Keeps (accept s) := keeps_acceptKind _

theorem keeps_acceptWord (w : Keyword) : Keeps (acceptWord w) := keeps_acceptKind _

theorem keeps_expect (s : Symbol) (context : String) : Keeps (expect s context) := by
  refine keeps_bind keeps_peek fun token => ?_
  split
  · exact keeps_advance
  · exact keeps_fail _ _

theorem keeps_identifier : Keeps identifier := by
  refine keeps_bind keeps_peek fun token => ?_
  split
  · exact keeps_bind keeps_advance fun _ => keeps_pure _
  · exact keeps_fail _ _

theorem keeps_itemBound : Keeps itemBound := keeps_bind keeps_get fun _ => keeps_pure _

theorem Reads.commaSeparatedUpTo {item : Reader α} (h : Reads loops P item) (bound : Nat) :
    Reads loops (fun as => ∀ a ∈ as, P a) (Reader.commaSeparatedUpTo item bound) := by
  induction bound with
  | zero => exact reads_outOfBudget
  | succ bound ih =>
    refine h.bind fun a ha => .after (keeps_accept _) fun more => ?_
    cases more with
    | true => exact ih.bind fun as has => .pure (List.forall_mem_cons.2 ⟨ha, has⟩)
    | false => exact .pure (List.forall_mem_singleton.2 ha)

theorem Reads.commaSeparated {item : Reader α} (h : Reads loops P item) :
    Reads loops (fun as => ∀ a ∈ as, P a) (Reader.commaSeparated item) :=
  .after keeps_itemBound fun bound => h.commaSeparatedUpTo bound

/-! ## Types -/

theorem keeps_typeIsNext : Keeps typeIsNext := keeps_bind keeps_peek fun _ => keeps_pure _

theorem keeps_pointersTo (t : CType) (left : Nat) : Keeps (pointersTo t left) := by
  induction left generalizing t with
  | zero =>
    refine keeps_bind keeps_peek fun token => ?_
    split
    · exact keeps_bind keeps_advance fun _ => keeps_fail _ _
    · exact keeps_pure _
  | succ left ih =>
    refine keeps_bind keeps_peek fun token => ?_
    split
    · exact keeps_bind keeps_advance fun _ => ih _
    · exact keeps_pure _

theorem keeps_typeSpecifier : Keeps typeSpecifier := by
  refine keeps_bind (keeps_acceptWord _) fun isConst => keeps_bind keeps_peek fun token => ?_
  split
  · exact keeps_fail _ _
  · exact keeps_bind keeps_advance fun _ => keeps_bind (keeps_pointersTo _ _) fun _ => keeps_pure _

theorem keeps_arrayLength : Keeps arrayLength := by
  refine keeps_bind keeps_peek fun token => ?_
  split
  · split
    · exact keeps_bind (keeps_fail _ _) fun _ => keeps_bind keeps_advance fun _ =>
        keeps_bind (keeps_expect _ _) fun _ => keeps_pure _
    · exact keeps_bind keeps_advance fun _ => keeps_bind (keeps_expect _ _) fun _ => keeps_pure _
  · exact keeps_fail _ _

theorem keeps_dimensionsUpTo (left : Nat) : Keeps (dimensionsUpTo left) := by
  induction left with
  | zero =>
    refine keeps_bind keeps_peek fun token => ?_
    split
    · exact keeps_bind keeps_advance fun _ => keeps_fail _ _
    · exact keeps_pure _
  | succ left ih =>
    refine keeps_bind keeps_peek fun token => ?_
    split
    · refine keeps_bind keeps_advance fun _ => keeps_bind (keeps_accept _) fun omitted => ?_
      cases omitted with
      | true => exact keeps_bind (keeps_pure _) fun _ => keeps_bind ih fun _ => keeps_pure _
      | false =>
        refine keeps_bind ?_ fun _ => keeps_bind ih fun _ => keeps_pure _
        exact keeps_bind keeps_arrayLength fun _ => keeps_pure _
    · exact keeps_pure _

theorem keeps_arrayOf (element : CType) (length : Nat) (place : Location) :
    Keeps (arrayOf element length place) := by
  unfold arrayOf
  dsimp only
  split
  · split
    · exact keeps_pure _
    · exact keeps_fail _ _
  · exact keeps_fail _ _

theorem keeps_arrayType (base : CType) (place : Location) (dims : List Dimension) :
    Keeps (arrayType base place dims) := by
  induction dims with
  | nil => exact keeps_pure _
  | cons dimension inner ih =>
    refine keeps_bind ih fun element => ?_
    cases dimension with
    | some length => exact keeps_arrayOf _ _ _
    | none => exact keeps_fail _ _

theorem keeps_inferredLength (element : CType) (init : Option Node) (place : Location) :
    Keeps (inferredLength element init place) := by
  unfold inferredLength
  split
  · exact keeps_fail _ _
  · exact keeps_fail _ _
  · exact keeps_pure _

theorem keeps_variableType (base : CType) (dims : List Dimension) (init : Option Node)
    (place : Location) : Keeps (variableType base dims init place) := by
  cases dims with
  | nil => exact keeps_pure _
  | cons outer inner =>
    refine keeps_bind (keeps_arrayType _ _ _) fun element => ?_
    cases outer with
    | some length => exact keeps_bind (keeps_pure _) fun _ => keeps_arrayOf _ _ _
    | none => exact keeps_bind (keeps_inferredLength _ _ _) fun _ => keeps_arrayOf _ _ _

theorem keeps_parameterType (base : CType) (dims : List Dimension) (place : Location) :
    Keeps (parameterType base dims place) := by
  cases dims with
  | nil => exact keeps_pure _
  | cons outer inner => exact keeps_bind (keeps_arrayType _ _ _) fun _ => keeps_pure _

theorem keeps_parameter : Keeps parameter := by
  refine keeps_bind keeps_peek fun token => keeps_bind keeps_typeSpecifier fun spec =>
    keeps_bind keeps_identifier fun name => keeps_bind (keeps_dimensionsUpTo _) fun dims =>
    keeps_bind (keeps_parameterType _ _ _) fun type => ?_
  split
  · exact keeps_bind (keeps_fail _ _) fun _ => keeps_pure _
  · exact keeps_pure _

theorem keeps_parameters : Keeps parameters := by
  refine keeps_bind (keeps_isNext _) fun next => ?_
  cases next with
  | true => exact keeps_pure _
  | false =>
    refine keeps_bind (keeps_bind keeps_get fun _ => keeps_pure _) fun alone => ?_
    cases alone with
    | true => exact keeps_bind keeps_advance fun _ => keeps_pure _
    | false => exact fun loops => (Reads.commaSeparated (keeps_parameter loops)).imp fun _ _ => trivial

/-- A declaration whose variable can be created, with an initializer that is an expression. -/
def IsDeclaration (node : Node) : Prop :=
  ∃ place name type isConst init, node = .declaration place name type isConst init ∧
    type ≠ .void ∧ ∀ v ∈ init, v.IsExpression

theorem reads_declarator {value : Reader Node} (hvalue : Reads loops Node.IsExpression value) :
    Reads loops IsDeclaration (declarator value) := by
  refine .after keeps_typeSpecifier fun spec => .after keeps_identifier fun name =>
    .after (keeps_dimensionsUpTo _) fun dims => .after (keeps_accept _) fun equal => ?_
  have hrest {init : Option Node} (hinit : ∀ v ∈ init, v.IsExpression) :
      Reads loops IsDeclaration (do
        let type ← variableType spec.1 dims init name.2
        if type = .void then fail (.voidVariable name.1) name.2
        return .declaration name.2 name.1 type spec.2 init) := by
    refine .after (keeps_variableType _ _ _ _) fun type => ?_
    split
    · exact .fail_bind _ _ _
    · rename_i htype
      exact .pure ⟨_, _, type, _, init, rfl, htype, hinit⟩
  cases equal with
  | true => exact (Reads.some hvalue).bind fun _ hinit => hrest hinit
  | false => exact Reads.none.bind fun _ hinit => hrest hinit

theorem reads_variableDeclaration {value : Reader Node}
    (hvalue : Reads loops Node.IsExpression value) :
    Reads loops IsDeclaration (variableDeclaration value) :=
  (reads_declarator hvalue).bind fun _ h => .after (keeps_expect _ _) fun _ => .pure h

/-! ## Expressions -/

theorem isArithmetic_of_assignmentOf? {kind : TokenKind} {op : BinaryOp}
    (h : assignmentOf? kind = some (some op)) : op.isArithmetic = true := by
  unfold assignmentOf? at h
  split at h <;> cases h <;> rfl

theorem isExpression_of_atom? {place : Location} {kind : TokenKind} {node : Node}
    (h : atom? place kind = some node) : node.IsExpression := by
  unfold atom? at h
  split at h <;> cases h
  · exact .intLiteral _ _
  · exact .charLiteral _ _
  · exact .stringLiteral _ _
  · exact .identifier _ _

variable {value operand : Reader Node}

theorem reads_chainFrom (level : List (Symbol × BinaryOp))
    (hoperand : Reads loops Node.IsExpression operand) (bound : Nat) {left : Node}
    (hleft : left.IsExpression) (entered : Nat) :
    Reads loops (fun r => r.1.IsExpression) (chainFrom level operand bound left entered) := by
  induction bound generalizing left entered with
  | zero => exact reads_outOfBudget
  | succ bound ih =>
    refine .after keeps_peek fun token => ?_
    split
    · exact .pure hleft
    · refine .after keeps_advance fun _ => .after keeps_descend fun _ => ?_
      exact hoperand.bind fun right hright => ih (.binary hleft hright) _

theorem reads_chain (level : List (Symbol × BinaryOp))
    (hoperand : Reads loops Node.IsExpression operand) :
    Reads loops Node.IsExpression (chain level operand) :=
  hoperand.bind fun _ hfirst => (reads_chainFrom level hoperand _ hfirst 0).bind fun _ htree =>
    .after (keeps_ascend _) fun _ => .pure htree

theorem reads_binary (hoperand : Reads loops Node.IsExpression operand) :
    Reads loops Node.IsExpression (binary operand) := by
  unfold binary
  induction binaryLevels with
  | nil => exact hoperand
  | cons level levels ih => exact reads_chain level ih

theorem reads_assignment (hvalue : Reads loops Node.IsExpression value)
    (hoperand : Reads loops Node.IsExpression operand) :
    Reads loops Node.IsExpression (assignment value operand) := by
  refine (reads_binary hoperand).bind fun target htarget => .after keeps_peek fun token => ?_
  split
  · exact .pure htarget
  · rename_i op? hop
    refine .after keeps_advance fun _ => ?_
    cases op? with
    | none =>
      dsimp only
      split
      · rename_i hplace
        exact hvalue.bind fun source hsource => .pure (.assign hplace htarget hsource)
      · exact .fail_bind _ _ _
    | some op =>
      have harith := isArithmetic_of_assignmentOf? hop
      dsimp only
      split
      · rename_i hplace
        exact hvalue.bind fun source hsource =>
          .pure (.compoundAssign harith hplace htarget hsource)
      · exact .fail_bind _ _ _

theorem reads_stepNode (place : Location) (op : StepOp) {node : Node} (h : node.IsExpression) :
    Reads loops Node.IsExpression (stepNode place op node) := by
  unfold stepNode
  split
  · rename_i hplace
    exact .pure (.step hplace h)
  · exact .fail_bind _ _ _

theorem reads_arguments (hvalue : Reads loops Node.IsExpression value) :
    Reads loops (fun args => ∀ a ∈ args, a.IsExpression) (arguments value) := by
  refine .after (keeps_isNext _) fun next => ?_
  cases next with
  | true => exact .pure nofun
  | false => exact hvalue.commaSeparated

theorem reads_trailingFrom (hvalue : Reads loops Node.IsExpression value) (bound : Nat)
    {node : Node} (h : node.IsExpression) (entered : Nat) :
    Reads loops (fun r => r.1.IsExpression) (trailingFrom value bound node entered) := by
  induction bound generalizing node entered with
  | zero => exact reads_outOfBudget
  | succ bound ih =>
    refine .after keeps_peek fun token => ?_
    split
    · exact .after keeps_descend fun _ => .after keeps_advance fun _ =>
        (reads_stepNode _ _ h).bind fun _ hstep => ih hstep _
    · exact .after keeps_descend fun _ => .after keeps_advance fun _ =>
        (reads_stepNode _ _ h).bind fun _ hstep => ih hstep _
    · exact .after keeps_descend fun _ => .after keeps_advance fun _ =>
        hvalue.bind fun _ hindex => .after (keeps_expect _ _) fun _ => ih (.index h hindex) _
    · refine .after keeps_descend fun _ => ?_
      split
      · exact .after keeps_advance fun _ => (reads_arguments hvalue).bind fun _ hargs =>
          .after (keeps_expect _ _) fun _ => ih (.call hargs) _
      · exact .fail _ _
    · exact .pure h

theorem reads_elementsUpTo (hvalue : Reads loops Node.IsExpression value) (bound : Nat) :
    Reads loops (fun elements => ∀ e ∈ elements, e.IsExpression) (elementsUpTo value bound) := by
  induction bound with
  | zero => exact reads_outOfBudget
  | succ bound ih =>
    refine .after (keeps_isNext _) fun closed => ?_
    cases closed with
    | true => exact .pure nofun
    | false =>
      refine hvalue.bind fun e he => .after (keeps_accept _) fun more => ?_
      cases more with
      | true => exact ih.bind fun es hes => .pure (List.forall_mem_cons.2 ⟨he, hes⟩)
      | false => exact .pure (List.forall_mem_singleton.2 he)

theorem reads_arrayLiteral (hvalue : Reads loops Node.IsExpression value) (place : Location) :
    Reads loops Node.IsExpression (arrayLiteral value place) := by
  refine .after keeps_itemBound fun bound => (reads_elementsUpTo hvalue bound).bind fun es hes =>
    .after (keeps_expect _ _) fun _ => ?_
  split
  · exact .fail_bind _ _ _
  · exact .pure (.arrayLiteral hes)

theorem reads_parenthesized (hvalue : Reads loops Node.IsExpression value) :
    Reads loops Node.IsExpression (parenthesized value) := by
  refine .after keeps_typeIsNext fun typed => ?_
  cases typed with
  | true =>
    refine (reads_declarator hvalue).bind fun node hnode => ?_
    obtain ⟨place, name, type, isConst, init, rfl, htype, hinit⟩ := hnode
    cases init with
    | none => exact .fail_bind _ _ _
    | some init => exact .after (keeps_expect _ _) fun _ => .pure (.declaration htype (hinit init rfl))
  | false => exact hvalue.bind fun _ h => .after (keeps_expect _ _) fun _ => .pure h

theorem reads_primary (hvalue : Reads loops Node.IsExpression value) :
    Reads loops Node.IsExpression (primary value) := by
  refine .after keeps_peek fun token => ?_
  split
  · rename_i hatom
    exact .after keeps_advance fun _ => .pure (isExpression_of_atom? hatom)
  · refine .after (keeps_accept _) fun brace => ?_
    cases brace with
    | true => exact reads_arrayLiteral hvalue _
    | false =>
      refine .after (keeps_accept _) fun paren => ?_
      cases paren with
      | true => exact reads_parenthesized hvalue
      | false => exact .fail _ _

theorem reads_trailing (hvalue : Reads loops Node.IsExpression value) :
    Reads loops Node.IsExpression (trailing value) :=
  (reads_primary hvalue).bind fun _ h => (reads_trailingFrom hvalue _ h 0).bind fun _ hnode =>
    .after (keeps_ascend _) fun _ => .pure hnode

theorem reads_leading (hvalue : Reads loops Node.IsExpression value)
    (hoperand : Reads loops Node.IsExpression operand) :
    Reads loops Node.IsExpression (leading value operand) := by
  refine .after keeps_peek fun token => ?_
  split
  · exact .after keeps_advance fun _ => hoperand.bind fun _ h => .pure (.unary h)
  · exact .after keeps_advance fun _ => hoperand.bind fun _ h => .pure (.unary h)
  · exact .after keeps_advance fun _ => hoperand
  · refine .after keeps_advance fun _ => hoperand.bind fun node h => ?_
    split
    · rename_i hplace
      exact .pure (.addressOf hplace h)
    · exact .fail_bind _ _ _
  · exact .after keeps_advance fun _ => hoperand.bind fun _ h => .pure (.deref h)
  · exact .after keeps_advance fun _ => hoperand.bind fun _ h => reads_stepNode _ _ h
  · exact .after keeps_advance fun _ => hoperand.bind fun _ h => reads_stepNode _ _ h
  · exact reads_trailing hvalue

/-- What is read as an expression is one, however deep it is. -/
theorem reads_expression_unary (budget : Nat) :
    Reads loops Node.IsExpression (expression budget) ∧
      Reads loops Node.IsExpression (unary budget) := by
  induction budget with
  | zero => exact ⟨reads_outOfBudget, reads_outOfBudget⟩
  | succ budget ih =>
    obtain ⟨hexpression, hunary⟩ := ih
    exact ⟨.nested (reads_assignment hexpression hunary), .nested (reads_leading hexpression hunary)⟩

theorem reads_expression (budget : Nat) : Reads loops Node.IsExpression (expression budget) :=
  (reads_expression_unary budget).1

/-! ## Statements -/

variable {statement : Reader Node}

theorem IsDeclaration.isStatement {node : Node} (h : IsDeclaration node) :
    node.IsStatement loops := by
  obtain ⟨place, name, type, isConst, init, rfl, htype, hinit⟩ := h
  exact .declaration htype hinit

theorem reads_statements (hstatement : Reads loops (Node.IsStatement loops) statement) :
    Reads loops (fun nodes => ∀ s ∈ nodes, s.IsStatement loops) (statements statement) := by
  refine .after keeps_itemBound fun bound => ?_
  induction bound with
  | zero => exact reads_outOfBudget
  | succ bound ih =>
    refine .after keeps_peek fun token => ?_
    split
    · exact .pure nofun
    · exact hstatement.bind fun first hfirst => ih.bind fun rest hrest =>
        .pure (List.forall_mem_cons.2 ⟨hfirst, hrest⟩)

theorem reads_valueUnless (hvalue : Reads loops Node.IsExpression value) (s : Symbol) :
    Reads loops (fun o => ∀ v ∈ o, v.IsExpression) (valueUnless value s) := by
  refine .after (keeps_isNext _) fun next => ?_
  cases next with
  | true => exact .none
  | false => exact .some hvalue

/-- The body of a loop is inside one loop more, and what follows it is not. -/
theorem reads_loopBody (hstatement : Reads (loops + 1) (Node.IsStatement (loops + 1)) statement) :
    Reads loops (Node.IsStatement (loops + 1)) (loopBody statement) := by
  intro s node t hs h
  obtain ⟨_, u, hu, h⟩ := run_bind_eq_ok_iff.1 h
  cases hu
  obtain ⟨body, v, hv, h⟩ := run_bind_eq_ok_iff.1 h
  obtain ⟨_, w, hw, h⟩ := run_bind_eq_ok_iff.1 h
  cases hw
  cases h
  obtain ⟨hbody, hloops⟩ := hstatement (congrArg (· + 1) hs) hv
  refine ⟨hbody, ?_⟩
  dsimp only
  omega

/-- Loop control is read only inside a loop. -/
theorem reads_jump (word : Keyword) (place : Location) {node : Node}
    (hnode : loops ≠ 0 → node.IsStatement loops) :
    Reads loops (Node.IsStatement loops) (jump word place node) := by
  have hget : Reads loops (fun s => s.loops = loops) (get : Reader ReaderState) := by
    rintro s _ _ hs ⟨⟩
    exact ⟨hs, hs⟩
  refine hget.bind fun s hs => ?_
  split
  · exact .fail_bind _ _ _
  · rename_i hloops
    exact .after (keeps_expect _ _) fun _ => .pure (hnode fun h => hloops (hs.trans h))

theorem reads_returnStatement (hvalue : Reads loops Node.IsExpression value) (place : Location) :
    Reads loops (Node.IsStatement loops) (returnStatement value place) :=
  (reads_valueUnless hvalue _).bind fun _ h => .after (keeps_expect _ _) fun _ =>
    .pure (.returnFrom h)

theorem reads_ifStatement (hstatement : Reads loops (Node.IsStatement loops) statement)
    (hvalue : Reads loops Node.IsExpression value) (place : Location) :
    Reads loops (Node.IsStatement loops) (ifStatement statement value place) := by
  refine .after (keeps_expect _ _) fun _ => hvalue.bind fun condition hc =>
    .after (keeps_expect _ _) fun _ => hstatement.bind fun thenBranch ht =>
    .after (keeps_acceptWord _) fun more => ?_
  cases more with
  | true => exact (Reads.some hstatement).bind fun _ he => .pure (.ifElse hc ht he)
  | false => exact Reads.none.bind fun _ he => .pure (.ifElse hc ht he)

theorem reads_whileStatement
    (hbody : Reads (loops + 1) (Node.IsStatement (loops + 1)) statement)
    (hvalue : Reads loops Node.IsExpression value) (place : Location) :
    Reads loops (Node.IsStatement loops) (whileStatement statement value place) :=
  .after (keeps_expect _ _) fun _ => hvalue.bind fun _ hc => .after (keeps_expect _ _) fun _ =>
    (reads_loopBody hbody).bind fun _ hb => .pure (.whileLoop hc hb)

theorem reads_forInit (hvalue : Reads loops Node.IsExpression value) :
    Reads loops (fun o => ∀ s ∈ o, s.IsStatement 0) (forInit value) := by
  refine .after (keeps_accept _) fun empty => ?_
  cases empty with
  | true => exact .none
  | false =>
    refine .after keeps_typeIsNext fun typed => ?_
    cases typed with
    | true =>
      refine (reads_variableDeclaration hvalue).bind fun node hnode => .pure ?_
      rintro _ ⟨⟩
      exact hnode.isStatement
    | false =>
      refine hvalue.bind fun node hnode => .after (keeps_expect _ _) fun _ => .pure ?_
      rintro _ ⟨⟩
      exact .value hnode

theorem reads_forStatement
    (hbody : Reads (loops + 1) (Node.IsStatement (loops + 1)) statement)
    (hvalue : Reads loops Node.IsExpression value) (place : Location) :
    Reads loops (Node.IsStatement loops) (forStatement statement value place) :=
  .after (keeps_expect _ _) fun _ => (reads_forInit hvalue).bind fun _ hinit =>
    (reads_valueUnless hvalue _).bind fun _ hc => .after (keeps_expect _ _) fun _ =>
    (reads_valueUnless hvalue _).bind fun _ hi => .after (keeps_expect _ _) fun _ =>
    (reads_loopBody hbody).bind fun _ hb => .pure (.forLoop hinit hc hi hb)

theorem reads_anyStatement (hstatement : ∀ loops, Reads loops (Node.IsStatement loops) statement)
    (hvalue : ∀ loops, Reads loops Node.IsExpression value) :
    Reads loops (Node.IsStatement loops) (anyStatement statement value) := by
  refine .after keeps_peek fun token => ?_
  split
  · exact .after keeps_advance fun _ => reads_returnStatement (hvalue _) _
  · exact .after keeps_advance fun _ => reads_ifStatement (hstatement _) (hvalue _) _
  · exact .after keeps_advance fun _ => reads_whileStatement (hstatement _) (hvalue _) _
  · exact .after keeps_advance fun _ => reads_forStatement (hstatement _) (hvalue _) _
  · exact .after keeps_advance fun _ => reads_jump _ _ fun h => .breakLoop _ h
  · exact .after keeps_advance fun _ => reads_jump _ _ fun h => .continueLoop _ h
  · exact .after keeps_advance fun _ => .pure (.block nofun)
  · exact .after keeps_advance fun _ => (reads_statements (hstatement _)).bind fun _ h =>
      .after (keeps_expect _ _) fun _ => .pure (.block h)
  · split
    · exact (reads_variableDeclaration (hvalue _)).imp fun _ h => h.isStatement
    · exact (hvalue _).bind fun _ h => .after (keeps_expect _ _) fun _ => .pure (.expression h)

/-- What is read as a statement is one, inside the loops around it. -/
theorem reads_statement (budget : Nat) :
    Reads loops (Node.IsStatement loops) (Reader.statement budget) := by
  induction budget generalizing loops with
  | zero => exact reads_outOfBudget
  | succ budget ih => exact .nested (reads_anyStatement (fun _ => ih) fun _ => reads_expression budget)

/-! ## Programs -/

theorem keeps_define (name : String) (place : Location) : Keeps (define name place) := by
  refine keeps_bind keeps_get fun s => ?_
  split
  · exact keeps_bind (keeps_fail _ _) fun _ => keeps_modify fun _ => rfl
  · exact keeps_modify fun _ => rfl

theorem reads_functionDefinition : Reads 0 Node.IsDefinition functionDefinition :=
  .after keeps_typeSpecifier fun _ => .after keeps_identifier fun _ => .after (keeps_define _ _) fun _ =>
    .after (keeps_expect _ _) fun _ => .after keeps_parameters fun _ => .after (keeps_expect _ _) fun _ =>
    .after (keeps_expect _ _) fun _ => (reads_statements (reads_statement _)).bind fun _ h =>
    .after (keeps_expect _ _) fun _ => .pure ⟨_, rfl, h⟩

theorem reads_functionsUpTo (bound : Nat) :
    Reads 0 (fun nodes => ∀ node ∈ nodes, node.IsDefinition) (functionsUpTo bound) := by
  induction bound with
  | zero => exact reads_outOfBudget
  | succ bound ih =>
    refine .after (keeps_isNext _) fun ended => ?_
    cases ended with
    | true => exact .pure nofun
    | false =>
      exact reads_functionDefinition.bind fun first hfirst => ih.bind fun rest hrest =>
        .pure (List.forall_mem_cons.2 ⟨hfirst, hrest⟩)

end Reader

/-- A text that is accepted has tokens, and its program is read from them. -/
theorem exists_run_of_compile {text : String} {program : Program} (h : compile text = .ok program) :
    ∃ tokens s, tokenize text = .ok tokens ∧
      (Reader.functionsUpTo (tokens.length + 1)).run (.ofTokens tokens) = .ok (program.nodes, s) := by
  unfold compile at h
  cases htokens : tokenize text with
  | error e =>
    rw [htokens] at h
    cases h
  | ok tokens =>
    rw [htokens] at h
    change (Program.ofTokens tokens).mapError CompileError.parse = .ok program at h
    unfold Program.ofTokens at h
    cases hread : (Reader.functionsUpTo (tokens.length + 1)).run (.ofTokens tokens) with
    | error e =>
      rw [hread] at h
      cases h
    | ok r =>
      rw [hread] at h
      cases h
      exact ⟨tokens, r.2, rfl, hread⟩

theorem loops_ofTokens (tokens : List Token) : (ReaderState.ofTokens tokens).loops = 0 := by
  cases tokens <;> rfl

/-- Whatever text is accepted, its program is well formed. -/
theorem wellFormed_of_compile {text : String} {program : Program} (h : compile text = .ok program) :
    program.WellFormed := by
  obtain ⟨tokens, s, -, hread⟩ := exists_run_of_compile h
  intro f hf
  obtain ⟨node, hnode, hdef⟩ := List.mem_filterMap.1 hf
  obtain ⟨g, hg, hbody⟩ := (Reader.reads_functionsUpTo _ (loops_ofTokens tokens) hread).1 node hnode
  cases hdef.symm.trans hg
  exact hbody

end BoundedC
