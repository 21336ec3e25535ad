import BoundedC.Proofs.Relocation

/-!
# Reading the same tokens at other places

Where the tokens stand decides nothing but the places of trees and errors: from tokens with other
places the same is read, with those places. `Reader.Relocates σ x x'` says that `x'` does to relocated
tokens what `x` does to the tokens.

* `Relocates.bind`, `Relocates.after`, `relocates_peek_bind` : readers made of readers;
* `relocates_expression`, `relocates_statement` : the two recursions;
* `ofTokens_relocate` : programs.
-/

namespace BoundedC

instance : Located ParseError := ⟨fun σ e => ⟨e.fault, σ e.place⟩⟩

instance : Located ReaderState where
  relocate σ s := ⟨relocate σ s.current, relocate σ s.rest, s.loops, s.defined, s.depth⟩

namespace Reader

variable {α β : Type} [Located α] [Located β] {σ : Location → Location}

/-- What the second reader does to relocated tokens is what the first one does to the tokens. -/
def Relocates (σ : Location → Location) (x x' : Reader α) : Prop :=
  ∀ s, x'.run (relocate σ s) = relocate σ (x.run s)

namespace Relocates

theorem pure (a : α) : Relocates σ (pure a) (pure (relocate σ a)) := fun _ => rfl

/-- Without places there is nothing to change. -/
theorem same [Placeless α] (a : α) : Relocates σ (Pure.pure a) (Pure.pure a) := by
  intro s
  show Except.ok (a, relocate σ s) = .ok (relocate σ a, relocate σ s)
  rw [relocate_eq_self a]

theorem fail (fault : ParseFault) (place : Location) :
    Relocates σ (Reader.fail fault place : Reader α) (Reader.fail fault (σ place)) := fun _ => rfl

theorem bind {x x' : Reader α} {f f' : α → Reader β} (hx : Relocates σ x x')
    (hf : ∀ a, Relocates σ (f a) (f' (relocate σ a))) : Relocates σ (x >>= f) (x' >>= f') := by
  intro s
  rw [StateT.run_bind, StateT.run_bind, hx s]
  cases x.run s with
  | error e => rfl
  | ok r => exact hf r.1 r.2

/-- Something without places is read before. -/
theorem after [Placeless α] {x x' : Reader α} {f f' : α → Reader β} (hx : Relocates σ x x')
    (hf : ∀ a, Relocates σ (f a) (f' a)) : Relocates σ (x >>= f) (x' >>= f') := by
  refine hx.bind fun a => ?_
  rw [relocate_eq_self]
  exact hf a

/-- A reader that stops reads nothing. -/
theorem fail_bind {γ : Type} (fault : ParseFault) (place : Location) (f f' : γ → Reader β) :
    Relocates σ (Reader.fail fault place >>= f) (Reader.fail fault (σ place) >>= f') :=
  fun _ => rfl

theorem some {x x' : Reader α} (hx : Relocates σ x x') :
    Relocates σ (Option.some <$> x) (Option.some <$> x') := by
  rw [map_eq_pure_bind, map_eq_pure_bind]
  exact hx.bind fun a => .pure (Option.some a)

end Relocates

/-! ## Tokens and levels -/

theorem relocates_get_bind {f f' : ReaderState → Reader α}
    (hf : ∀ s, Relocates σ (f s) (f' (relocate σ s))) : Relocates σ (get >>= f) (get >>= f') :=
  fun s => hf s s

theorem relocates_modify {f : ReaderState → ReaderState}
    (hf : ∀ s, f (relocate σ s) = relocate σ (f s)) : Relocates σ (modify f) (modify f) := by
  intro s
  show Except.ok ((), f (relocate σ s)) = .ok ((), relocate σ (f s))
  rw [hf]

/-- The next token has the same kind, and its place has changed. -/
theorem relocates_peek_bind {f f' : Token → Reader α}
    (hf : ∀ kind place, Relocates σ (f ⟨kind, place⟩) (f' ⟨kind, σ place⟩)) :
    Relocates σ (peek >>= f) (peek >>= f') :=
  fun s => hf s.current.kind s.current.place s

theorem relocates_outOfBudget : Relocates σ (outOfBudget : Reader α) outOfBudget := fun _ => rfl

theorem relocates_advance : Relocates σ advance advance := by
  refine relocates_modify fun s => ?_
  obtain ⟨⟨kind, place⟩, rest, loops, defined, depth⟩ := s
  by_cases hend : kind = .endOfFile
  · simp only [relocate, hend, if_pos]
  · cases rest <;> simp [relocate, hend]

theorem relocates_descend : Relocates σ descend descend := by
  refine relocates_get_bind fun s => ?_
  show Relocates σ (if s.depth ≥ maxNesting then _ else _) (if s.depth ≥ maxNesting then _ else _)
  split
  · exact .fail_bind _ _ _ _
  · exact fun _ => rfl

theorem relocates_ascend (levels : Nat) : Relocates σ (ascend levels) (ascend levels) :=
  relocates_modify fun _ => rfl

theorem Relocates.nested {x x' : Reader α} (hx : Relocates σ x x') :
    Relocates σ (Reader.nested x) (Reader.nested x') :=
  relocates_descend.after fun _ => hx.bind fun a => (relocates_ascend 1).after fun _ => .pure a

theorem relocates_isNext (kind : TokenKind) : Relocates σ (isNext kind) (isNext kind) :=
  fun _ => rfl

theorem relocates_acceptKind (kind : TokenKind) :
    Relocates σ (acceptKind kind) (acceptKind kind) := by
  refine (relocates_isNext kind).after fun next => ?_
  cases next with
  | true => exact relocates_advance.after fun _ => .pure true
  | false => exact .pure false

theorem relocates_accept (s : Symbol) : Relocates σ (accept s) (accept s) := relocates_acceptKind _

theorem relocates_acceptWord (w : Keyword) : Relocates σ (acceptWord w) (acceptWord w) :=
  relocates_acceptKind _

theorem relocates_expect (s : Symbol) (context : String) :
    Relocates σ (expect s context) (expect s context) := by
  refine relocates_peek_bind fun kind place => ?_
  dsimp only
  split
  · exact relocates_advance
  · exact .fail _ _

theorem relocates_identifier : Relocates σ identifier identifier := by
  refine relocates_peek_bind fun kind place => ?_
  dsimp only
  split
  · exact relocates_advance.after fun _ => .pure (_, place)
  · exact .fail _ _

theorem relocates_identifier_bind {f f' : String × Location → Reader α}
    (hf : ∀ name place, Relocates σ (f (name, place)) (f' (name, σ place))) :
    Relocates σ (identifier >>= f) (identifier >>= f') :=
  relocates_identifier.bind fun r => hf r.1 r.2

theorem relocates_itemBound : Relocates σ itemBound itemBound := by
  refine relocates_get_bind fun s => ?_
  have hlength : (relocate σ s).rest.length = s.rest.length := length_relocate s.rest
  rw [hlength]
  exact .pure (s.rest.length + 1)

theorem Relocates.commaSeparatedUpTo {item item' : Reader α} (h : Relocates σ item item')
    (bound : Nat) :
    Relocates σ (Reader.commaSeparatedUpTo item bound) (Reader.commaSeparatedUpTo item' bound) := by
  induction bound with
  | zero => exact relocates_outOfBudget
  | succ bound ih =>
    refine h.bind fun a => (relocates_accept _).after fun more => ?_
    cases more with
    | true => exact ih.bind fun as => .pure (a :: as)
    | false => exact .pure [a]

theorem Relocates.commaSeparated {item item' : Reader α} (h : Relocates σ item item') :
    Relocates σ (Reader.commaSeparated item) (Reader.commaSeparated item') :=
  relocates_itemBound.after fun bound => h.commaSeparatedUpTo bound

/-! ## Types -/

theorem relocates_typeIsNext : Relocates σ typeIsNext typeIsNext := fun _ => rfl

theorem relocates_pointersTo (t : CType) (left : Nat) :
    Relocates σ (pointersTo t left) (pointersTo t left) := by
  induction left generalizing t with
  | zero =>
    refine relocates_peek_bind fun kind place => ?_
    dsimp only
    split
    · exact relocates_advance.after fun _ => .fail _ _
    · exact .pure t
  | succ left ih =>
    refine relocates_peek_bind fun kind place => ?_
    dsimp only
    split
    · exact relocates_advance.after fun _ => ih _
    · exact .pure t

theorem relocates_typeSpecifier : Relocates σ typeSpecifier typeSpecifier := by
  refine (relocates_acceptWord _).after fun isConst => relocates_peek_bind fun kind place => ?_
  dsimp only
  split
  · exact .fail _ _
  · exact relocates_advance.after fun _ => (relocates_pointersTo _ _).after fun t =>
      .pure (t, isConst && !t.isPointer)

theorem relocates_arrayLength : Relocates σ arrayLength arrayLength := by
  refine relocates_peek_bind fun kind place => ?_
  dsimp only
  split
  · rename_i n
    split
    · exact .fail_bind _ _ _ _
    · exact relocates_advance.after fun _ => (relocates_expect _ _).after fun _ =>
        .pure n.toInt.toNat
  · exact .fail _ _

theorem relocates_dimensionsUpTo (left : Nat) :
    Relocates σ (dimensionsUpTo left) (dimensionsUpTo left) := by
  induction left with
  | zero =>
    refine relocates_peek_bind fun kind place => ?_
    dsimp only
    split
    · exact relocates_advance.after fun _ => .fail _ _
    · exact .pure []
  | succ left ih =>
    refine relocates_peek_bind fun kind place => ?_
    dsimp only
    split
    · refine relocates_advance.after fun _ => (relocates_accept _).after fun omitted => ?_
      cases omitted with
      | true => exact (Relocates.pure none).after fun dim => ih.after fun dims => .same (dim :: dims)
      | false =>
        exact relocates_arrayLength.some.after fun dim => ih.after fun dims => .same (dim :: dims)
    · exact .pure []

theorem relocates_arrayOf (element : CType) (length : Nat) (place : Location) :
    Relocates σ (arrayOf element length place) (arrayOf element length (σ place)) := by
  unfold arrayOf
  dsimp only
  split
  · split
    · exact .pure (CType.array element length)
    · exact .fail _ _
  · exact .fail _ _

theorem relocates_arrayType (base : CType) (place : Location) (dims : List Dimension) :
    Relocates σ (arrayType base place dims) (arrayType base (σ place) dims) := by
  induction dims with
  | nil => exact .pure base
  | cons dimension inner ih =>
    refine ih.after fun element => ?_
    cases dimension with
    | some length => exact relocates_arrayOf element length place
    | none => exact .fail _ _

theorem relocates_inferredLength (element : CType) (init : Option Node) (place : Location) :
    Relocates σ (inferredLength element init place)
      (inferredLength element (relocate σ init) (σ place)) := by
  unfold inferredLength
  rw [inferredLength?_relocate]
  split
  · exact .fail _ _
  · exact .fail _ _
  · exact .pure _

theorem relocates_variableType (base : CType) (dims : List Dimension) (init : Option Node)
    (place : Location) :
    Relocates σ (variableType base dims init place)
      (variableType base dims (relocate σ init) (σ place)) := by
  cases dims with
  | nil => exact .pure base
  | cons outer inner =>
    refine (relocates_arrayType base place inner).after fun element => ?_
    cases outer with
    | some length => exact (Relocates.pure length).after fun _ => relocates_arrayOf _ _ _
    | none => exact (relocates_inferredLength element init place).after fun _ =>
        relocates_arrayOf _ _ _

theorem relocates_parameterType (base : CType) (dims : List Dimension) (place : Location) :
    Relocates σ (parameterType base dims place) (parameterType base dims (σ place)) := by
  cases dims with
  | nil => exact .pure base
  | cons outer inner =>
    unfold parameterType
    dsimp only
    rw [map_eq_pure_bind, map_eq_pure_bind]
    exact (relocates_arrayType base place inner).after fun element => .pure (CType.pointer element)

theorem relocates_parameter : Relocates σ parameter parameter := by
  refine relocates_peek_bind fun _ place => relocates_typeSpecifier.after fun spec =>
    relocates_identifier_bind fun name _ => (relocates_dimensionsUpTo maxNesting).after fun dims =>
    (relocates_parameterType spec.1 dims place).after fun type => ?_
  dsimp only
  split
  · exact .fail_bind _ _ _ _
  · exact .pure (Param.mk name type spec.2)

theorem relocates_voidIsAlone : Relocates σ voidIsAlone voidIsAlone := by
  rintro ⟨current, rest, loops, defined, depth⟩
  cases rest <;> rfl

theorem relocates_parameters : Relocates σ parameters parameters := by
  refine (relocates_isNext _).after fun next => ?_
  cases next with
  | true => exact .pure ([] : List Param)
  | false =>
    refine relocates_voidIsAlone.after fun alone => ?_
    cases alone with
    | true => exact relocates_advance.after fun _ => .pure ([] : List Param)
    | false => exact relocates_parameter.commaSeparated

section Expressions

variable {value value' operand operand' : Reader Node}

theorem relocates_declarator (hvalue : Relocates σ value value') :
    Relocates σ (declarator value) (declarator value') := by
  refine relocates_typeSpecifier.after fun spec => relocates_identifier_bind fun name place =>
    (relocates_dimensionsUpTo maxNesting).after fun dims => (relocates_accept _).after fun equal => ?_
  have hrest (init : Option Node) :
      Relocates σ
        (do
          let type ← variableType spec.1 dims init place
          if type = .void then fail (.voidVariable name) place
          return Node.declaration place name type spec.2 init)
        (do
          let type ← variableType spec.1 dims (relocate σ init) (σ place)
          if type = .void then fail (.voidVariable name) (σ place)
          return Node.declaration (σ place) name type spec.2 (relocate σ init)) := by
    refine (relocates_variableType spec.1 dims init place).after fun type => ?_
    split
    · exact .fail_bind _ _ _ _
    · rw [← relocate_declaration]
      exact .pure _
  cases equal with
  | true => exact hvalue.some.bind hrest
  | false => exact (Relocates.pure none).bind hrest

theorem relocates_variableDeclaration (hvalue : Relocates σ value value') :
    Relocates σ (variableDeclaration value) (variableDeclaration value') :=
  (relocates_declarator hvalue).bind fun declaration => (relocates_expect _ _).after fun _ =>
    .pure declaration

/-! ## Expressions -/

theorem relocates_chainFrom (level : List (Symbol × BinaryOp))
    (hoperand : Relocates σ operand operand') (bound : Nat) (left : Node) (entered : Nat) :
    Relocates σ (chainFrom level operand bound left entered)
      (chainFrom level operand' bound (relocate σ left) entered) := by
  induction bound generalizing left entered with
  | zero => exact relocates_outOfBudget
  | succ bound ih =>
    refine relocates_peek_bind fun kind place => ?_
    dsimp only
    split
    · exact .pure (left, entered)
    · exact relocates_advance.after fun _ => relocates_descend.after fun _ =>
        hoperand.bind fun right => ih (.binary place _ left right) (entered + 1)

theorem relocates_chain (level : List (Symbol × BinaryOp))
    (hoperand : Relocates σ operand operand') :
    Relocates σ (chain level operand) (chain level operand') :=
  hoperand.bind fun first => (relocates_chainFrom level hoperand _ first 0).bind
    fun ⟨tree, entered⟩ => (relocates_ascend entered).after fun _ => .pure tree

theorem relocates_binary (hoperand : Relocates σ operand operand') :
    Relocates σ (binary operand) (binary operand') := by
  unfold binary
  induction binaryLevels with
  | nil => exact hoperand
  | cons level levels ih => exact relocates_chain level ih

theorem relocates_assignment (hvalue : Relocates σ value value')
    (hoperand : Relocates σ operand operand') :
    Relocates σ (assignment value operand) (assignment value' operand') := by
  refine (relocates_binary hoperand).bind fun target => relocates_peek_bind fun kind place => ?_
  dsimp only
  rw [isLvalue_relocate, place_relocate]
  split
  · exact .pure target
  · rename_i op? _
    refine relocates_advance.after fun _ => ?_
    cases op? with
    | none =>
      dsimp only
      split
      · exact hvalue.bind fun source => .pure (Node.assign place target source)
      · exact .fail_bind _ _ _ _
    | some op =>
      dsimp only
      split
      · exact hvalue.bind fun source => .pure (Node.compoundAssign place op target source)
      · exact .fail_bind _ _ _ _

theorem relocates_stepNode (place : Location) (op : StepOp) (node : Node) :
    Relocates σ (stepNode place op node) (stepNode (σ place) op (relocate σ node)) := by
  unfold stepNode
  rw [isLvalue_relocate, place_relocate]
  split
  · exact .pure (Node.step place op node)
  · exact .fail_bind _ _ _ _

theorem relocates_arguments (hvalue : Relocates σ value value') :
    Relocates σ (arguments value) (arguments value') := by
  refine (relocates_isNext _).after fun next => ?_
  cases next with
  | true => exact .pure []
  | false => exact hvalue.commaSeparated

theorem relocates_trailingFrom (hvalue : Relocates σ value value') (bound : Nat) (node : Node)
    (entered : Nat) :
    Relocates σ (trailingFrom value bound node entered)
      (trailingFrom value' bound (relocate σ node) entered) := by
  induction bound generalizing node entered with
  | zero => exact relocates_outOfBudget
  | succ bound ih =>
    refine relocates_peek_bind fun kind place => ?_
    dsimp only
    split
    · exact relocates_descend.after fun _ => relocates_advance.after fun _ =>
        (relocates_stepNode place _ node).bind fun stepped => ih stepped _
    · exact relocates_descend.after fun _ => relocates_advance.after fun _ =>
        (relocates_stepNode place _ node).bind fun stepped => ih stepped _
    · exact relocates_descend.after fun _ => relocates_advance.after fun _ =>
        hvalue.bind fun position => (relocates_expect _ _).after fun _ =>
        ih (.index place node position) _
    · refine relocates_descend.after fun _ => ?_
      cases node with
      | identifier site name =>
        refine relocates_advance.after fun _ => (relocates_arguments hvalue).bind fun args =>
          (relocates_expect _ _).after fun _ => ?_
        have hcall := ih (.call site name args) (entered + 1)
        rw [relocate_call] at hcall
        exact hcall
      | _ => exact .fail _ _
    · exact .pure (node, entered)

theorem relocates_elementsUpTo (hvalue : Relocates σ value value') (bound : Nat) :
    Relocates σ (elementsUpTo value bound) (elementsUpTo value' bound) := by
  induction bound with
  | zero => exact relocates_outOfBudget
  | succ bound ih =>
    refine (relocates_isNext _).after fun closed => ?_
    cases closed with
    | true => exact .pure []
    | false =>
      refine hvalue.bind fun element => (relocates_accept _).after fun more => ?_
      cases more with
      | true => exact ih.bind fun elements => .pure (element :: elements)
      | false => exact .pure [element]

theorem relocates_arrayLiteral (hvalue : Relocates σ value value') (place : Location) :
    Relocates σ (arrayLiteral value place) (arrayLiteral value' (σ place)) := by
  refine relocates_itemBound.after fun bound => (relocates_elementsUpTo hvalue bound).bind
    fun elements => (relocates_expect _ _).after fun _ => ?_
  cases elements with
  | nil => exact .fail_bind _ _ _ _
  | cons element elements =>
    rw [relocate_cons, ← relocate_cons]
    dsimp only [List.isEmpty_cons]
    rw [← relocate_arrayLiteral]
    exact .pure _

theorem relocates_parenthesized (hvalue : Relocates σ value value') :
    Relocates σ (parenthesized value) (parenthesized value') := by
  refine relocates_typeIsNext.after fun typed => ?_
  cases typed with
  | true =>
    refine (relocates_declarator hvalue).bind fun node => ?_
    rw [isInitialized_relocate, place_relocate]
    dsimp only
    split
    · exact (relocates_expect _ _).after fun _ => .pure node
    · exact .fail_bind _ _ _ _
  | false => exact hvalue.bind fun node => (relocates_expect _ _).after fun _ => .pure node

theorem atom?_relocate (place : Location) (kind : TokenKind) :
    atom? (σ place) kind = relocate σ (atom? place kind) := by
  cases kind <;> rfl

theorem relocates_primary (hvalue : Relocates σ value value') :
    Relocates σ (primary value) (primary value') := by
  refine relocates_peek_bind fun kind place => ?_
  dsimp only
  rw [atom?_relocate]
  cases atom? place kind with
  | some node => exact relocates_advance.after fun _ => .pure node
  | none =>
    refine (relocates_accept _).after fun brace => ?_
    cases brace with
    | true => exact relocates_arrayLiteral hvalue place
    | false =>
      refine (relocates_accept _).after fun paren => ?_
      cases paren with
      | true => exact relocates_parenthesized hvalue
      | false => exact .fail _ _

theorem relocates_trailing (hvalue : Relocates σ value value') :
    Relocates σ (trailing value) (trailing value') :=
  (relocates_primary hvalue).bind fun operand =>
    (relocates_trailingFrom hvalue _ operand 0).bind fun ⟨node, entered⟩ =>
    (relocates_ascend entered).after fun _ => .pure node

theorem relocates_leading (hvalue : Relocates σ value value')
    (hoperand : Relocates σ operand operand') :
    Relocates σ (leading value operand) (leading value' operand') := by
  refine relocates_peek_bind fun kind place => ?_
  dsimp only
  split
  · exact relocates_advance.after fun _ => hoperand.bind fun node => .pure (Node.unary place .not node)
  · exact relocates_advance.after fun _ => hoperand.bind fun node => .pure (Node.unary place .neg node)
  · exact relocates_advance.after fun _ => hoperand
  · refine relocates_advance.after fun _ => hoperand.bind fun node => ?_
    rw [isLvalue_relocate, place_relocate]
    split
    · exact .pure (Node.addressOf place node)
    · exact .fail_bind _ _ _ _
  · exact relocates_advance.after fun _ => hoperand.bind fun node => .pure (Node.deref place node)
  · exact relocates_advance.after fun _ => hoperand.bind fun node => relocates_stepNode place _ node
  · exact relocates_advance.after fun _ => hoperand.bind fun node => relocates_stepNode place _ node
  · exact relocates_trailing hvalue

end Expressions

theorem relocates_expression_unary (budget : Nat) :
    Relocates σ (expression budget) (expression budget) ∧
      Relocates σ (unary budget) (unary budget) := by
  induction budget with
  | zero => exact ⟨relocates_outOfBudget, relocates_outOfBudget⟩
  | succ budget ih =>
    obtain ⟨hexpression, hunary⟩ := ih
    exact ⟨(relocates_assignment hexpression hunary).nested,
      (relocates_leading hexpression hunary).nested⟩

/-- The same expression is read, however deep it is. -/
theorem relocates_expression (budget : Nat) : Relocates σ (expression budget) (expression budget) :=
  (relocates_expression_unary budget).1

/-! ## Statements -/

section Statements

variable {statement statement' value value' : Reader Node}

theorem relocates_statements (hstatement : Relocates σ statement statement') :
    Relocates σ (statements statement) (statements statement') := by
  refine relocates_itemBound.after fun bound => ?_
  induction bound with
  | zero => exact relocates_outOfBudget
  | succ bound ih =>
    refine relocates_peek_bind fun kind place => ?_
    dsimp only
    split
    · exact .pure []
    · exact hstatement.bind fun first => ih.bind fun rest => .pure (first :: rest)

theorem relocates_valueUnless (hvalue : Relocates σ value value') (s : Symbol) :
    Relocates σ (valueUnless value s) (valueUnless value' s) := by
  refine (relocates_isNext _).after fun next => ?_
  cases next with
  | true => exact .pure none
  | false => exact hvalue.some

theorem relocates_loopBody (hstatement : Relocates σ statement statement') :
    Relocates σ (loopBody statement) (loopBody statement') :=
  .after (relocates_modify fun _ => rfl) fun _ => hstatement.bind fun body =>
    .after (relocates_modify fun _ => rfl) fun _ => .pure body

theorem relocates_jump (word : Keyword) (place : Location) (node : Node) :
    Relocates σ (jump word place node) (jump word (σ place) (relocate σ node)) := by
  refine relocates_get_bind fun s => ?_
  show Relocates σ (if s.loops = 0 then _ else _) (if s.loops = 0 then _ else _)
  split
  · exact .fail_bind _ _ _ _
  · exact (relocates_expect _ _).after fun _ => .pure node

theorem relocates_returnStatement (hvalue : Relocates σ value value') (place : Location) :
    Relocates σ (returnStatement value place) (returnStatement value' (σ place)) := by
  refine (relocates_valueUnless hvalue _).bind fun result => (relocates_expect _ _).after fun _ => ?_
  rw [← relocate_returnFrom]
  exact .pure _

theorem relocates_ifStatement (hstatement : Relocates σ statement statement')
    (hvalue : Relocates σ value value') (place : Location) :
    Relocates σ (ifStatement statement value place) (ifStatement statement' value' (σ place)) := by
  refine (relocates_expect _ _).after fun _ => hvalue.bind fun condition =>
    (relocates_expect _ _).after fun _ => hstatement.bind fun thenBranch =>
    (relocates_acceptWord _).after fun more => ?_
  have hrest (elseBranch : Option Node) :
      Relocates σ (pure (Node.ifElse place condition thenBranch elseBranch))
        (pure (Node.ifElse (σ place) (relocate σ condition) (relocate σ thenBranch)
          (relocate σ elseBranch))) := by
    rw [← relocate_ifElse]
    exact .pure _
  cases more with
  | true => exact hstatement.some.bind hrest
  | false => exact (Relocates.pure none).bind hrest

theorem relocates_whileStatement (hstatement : Relocates σ statement statement')
    (hvalue : Relocates σ value value') (place : Location) :
    Relocates σ (whileStatement statement value place)
      (whileStatement statement' value' (σ place)) :=
  (relocates_expect _ _).after fun _ => hvalue.bind fun condition =>
    (relocates_expect _ _).after fun _ => (relocates_loopBody hstatement).bind fun body =>
    .pure (Node.whileLoop place condition body)

theorem relocates_forInit (hvalue : Relocates σ value value') :
    Relocates σ (forInit value) (forInit value') := by
  refine (relocates_accept _).after fun empty => ?_
  cases empty with
  | true => exact .pure none
  | false =>
    refine relocates_typeIsNext.after fun typed => ?_
    cases typed with
    | true => exact (relocates_variableDeclaration hvalue).bind fun init => .pure (some init)
    | false =>
      exact hvalue.bind fun init => (relocates_expect _ _).after fun _ => .pure (some init)

theorem relocates_forStatement (hstatement : Relocates σ statement statement')
    (hvalue : Relocates σ value value') (place : Location) :
    Relocates σ (forStatement statement value place) (forStatement statement' value' (σ place)) := by
  refine (relocates_expect _ _).after fun _ => (relocates_forInit hvalue).bind fun init =>
    (relocates_valueUnless hvalue _).bind fun condition => (relocates_expect _ _).after fun _ =>
    (relocates_valueUnless hvalue _).bind fun increment => (relocates_expect _ _).after fun _ =>
    (relocates_loopBody hstatement).bind fun body => ?_
  rw [← relocate_forLoop]
  exact .pure _

theorem relocates_blockStatement (hstatement : Relocates σ statement statement')
    (place : Location) :
    Relocates σ (blockStatement statement place) (blockStatement statement' (σ place)) := by
  refine (relocates_statements hstatement).bind fun body => (relocates_expect _ _).after fun _ => ?_
  rw [← relocate_block]
  exact .pure _

theorem relocates_anyStatement (hstatement : Relocates σ statement statement')
    (hvalue : Relocates σ value value') :
    Relocates σ (anyStatement statement value) (anyStatement statement' value') := by
  refine relocates_peek_bind fun kind place => ?_
  dsimp only
  split
  · exact relocates_advance.after fun _ => relocates_returnStatement hvalue place
  · exact relocates_advance.after fun _ => relocates_ifStatement hstatement hvalue place
  · exact relocates_advance.after fun _ => relocates_whileStatement hstatement hvalue place
  · exact relocates_advance.after fun _ => relocates_forStatement hstatement hvalue place
  · exact relocates_advance.after fun _ => relocates_jump _ place (.breakLoop place)
  · exact relocates_advance.after fun _ => relocates_jump _ place (.continueLoop place)
  · exact relocates_advance.after fun _ => .pure (Node.block place [])
  · exact relocates_advance.after fun _ => relocates_blockStatement hstatement place
  · split
    · exact relocates_variableDeclaration hvalue
    · exact hvalue.bind fun node => (relocates_expect _ _).after fun _ =>
        .pure (Node.expression place node)

end Statements

/-- The same statement is read, however deep it is. -/
theorem relocates_statement (budget : Nat) : Relocates σ (statement budget) (statement budget) := by
  induction budget with
  | zero => exact relocates_outOfBudget
  | succ budget ih => exact (relocates_anyStatement ih (relocates_expression budget)).nested

/-! ## Programs -/

theorem relocates_define (name : String) (place : Location) :
    Relocates σ (define name place) (define name (σ place)) := by
  refine relocates_get_bind fun s => ?_
  show Relocates σ (if name ∈ s.defined then _ else _) (if name ∈ s.defined then _ else _)
  split
  · exact .fail_bind _ _ _ _
  · exact relocates_modify fun _ => rfl

theorem relocates_functionDefinition : Relocates σ functionDefinition functionDefinition := by
  refine relocates_typeSpecifier.after fun spec => relocates_identifier_bind fun name place =>
    (relocates_define name place).after fun _ => (relocates_expect _ _).after fun _ =>
    relocates_parameters.after fun params => (relocates_expect _ _).after fun _ =>
    (relocates_expect _ _).after fun _ =>
    (relocates_statements (relocates_statement (maxNesting + 1))).bind fun body =>
    (relocates_expect _ _).after fun _ => ?_
  rw [← relocate_function]
  exact .pure _

theorem relocates_functionsUpTo (bound : Nat) :
    Relocates σ (functionsUpTo bound) (functionsUpTo bound) := by
  induction bound with
  | zero => exact relocates_outOfBudget
  | succ bound ih =>
    refine (relocates_isNext _).after fun ended => ?_
    cases ended with
    | true => exact .pure []
    | false =>
      exact relocates_functionDefinition.bind fun first => ih.bind fun rest => .pure (first :: rest)

end Reader

/-- From tokens at other places the same program is read, or the same error, with those places. -/
theorem ofTokens_relocate (σ : Location → Location) {tokens : List Token} (h : tokens ≠ []) :
    Program.ofTokens (relocate σ tokens) = relocate σ (Program.ofTokens tokens) := by
  obtain ⟨token, rest, rfl⟩ := List.exists_cons_of_ne_nil h
  have hread : Reader.Relocates σ _ _ := Reader.relocates_functionsUpTo ((token :: rest).length + 1)
  unfold Program.ofTokens
  rw [length_relocate]
  have hstate : ReaderState.ofTokens (relocate σ (token :: rest)) =
      relocate σ (ReaderState.ofTokens (token :: rest)) := rfl
  rw [hstate, hread (.ofTokens (token :: rest))]
  cases (Reader.functionsUpTo ((token :: rest).length + 1)).run (.ofTokens (token :: rest)) <;> rfl

end BoundedC
