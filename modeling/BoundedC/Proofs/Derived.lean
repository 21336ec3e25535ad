import BoundedC.Proofs.Leads

/-!
# What is read can be derived

The tokens that a reader of the language takes are a phrase of the grammar, and what it reads is the
tree of the phrase. `Reader.Matches x P` says so of one reader: `P` holds of the tokens before it, of
what it reads and of the tokens behind it.

* `matches_typeSpecifier`, `matches_declarator`, … : types and declarations;
* `matches_expression_unary`, `matches_statement` : the two recursions, by induction on the budget;
* `spells_of_ofTokens` : programs.
-/

namespace BoundedC

/-- The tokens begin with a phrase of the given tree. -/
def Phrase.Derived (p : Phrase) (input : List Token) (tree : p.Tree) (rest : List Token) : Prop :=
  Derives p input (some tree) rest

/-- The tokens begin with a statement. Where it ends in an `if` without `else`, no `else` follows. -/
def StatementDerived (input : List Token) (node : Node) (rest : List Token) : Prop :=
  ∃ dangling, Derives (.statement dangling) input (some node) rest ∧
    (dangling = true → ∀ place more, rest ≠ ⟨.keyword .elseWord, place⟩ :: more)

/-- A statement in front of an `else` does not end in an `if` without one. -/
theorem StatementDerived.closed {input rest : List Token} {node : Node} {place : Location}
    (h : StatementDerived input node (⟨.keyword .elseWord, place⟩ :: rest)) :
    Derives (.statement false) input (some node) (⟨.keyword .elseWord, place⟩ :: rest) := by
  obtain ⟨dangling, hstatement, helse⟩ := h
  cases dangling with
  | false => exact hstatement
  | true => exact absurd rfl (helse rfl place rest)

theorem StatementDerived.of_closed {input rest : List Token} {node : Node}
    (h : Derives (.statement false) input (some node) rest) : StatementDerived input node rest :=
  ⟨false, h, nofun⟩

namespace Reader

variable {α β : Type}

/-- What the reader reads, and what it leaves, is as `P` says. -/
def Matches (x : Reader α) (P : List Token → α → List Token → Prop) : Prop :=
  ∀ depth input, Leads (fun _ => True) depth input x fun a _ rest => P input a rest

variable {P : List Token → α → List Token → Prop} {Q : List Token → β → List Token → Prop}
  {depth : Nat} {input : List Token}

/-- What is read first is of a known kind. -/
theorem Matches.bind {x : Reader α} {f : α → Reader β} {R : β → Nat → List Token → Prop}
    (hx : Matches x P)
    (hf : ∀ a d r, P input a r → Leads (fun _ => True) d r (f a) R) :
    Leads (fun _ => True) depth input (x >>= f) R :=
  (hx depth input).bind hf

theorem Matches.lead {x : Reader α} {R : α → Nat → List Token → Prop} (hx : Matches x P)
    (hR : ∀ a d r, P input a r → R a d r) : Leads (fun _ => True) depth input x R :=
  (hx depth input).imp (fun _ h => h) hR

/-- A symbol is taken, or the reader stops. -/
theorem leads_expect {s : Symbol} {context : String} {f : Unit → Reader α}
    {R : α → Nat → List Token → Prop}
    (hf : ∀ place rest, input = ⟨.symbol s, place⟩ :: rest →
      Leads (fun _ => True) depth rest (f ()) R) :
    Leads (fun _ => True) depth input (expect s context >>= f) R := by
  refine leads_of_cons ?_
  rintro kind place rest rfl
  refine leads_expect_bind ?_ fun _ => trivial
  rintro rfl
  exact hf place rest rfl

theorem leads_identifier {f : String × Location → Reader α} {R : α → Nat → List Token → Prop}
    (hf : ∀ name place rest, input = ⟨.identifier name, place⟩ :: rest →
      Leads (fun _ => True) depth rest (f (name, place)) R) :
    Leads (fun _ => True) depth input (identifier >>= f) R := by
  refine leads_of_cons ?_
  rintro kind place rest rfl
  cases kind with
  | identifier name => exact leads_identifier_cons (hf name place rest rfl)
  | _ =>
    unfold identifier
    rw [bind_assoc]
    exact leads_peek_cons (leads_fail_bind place trivial)

theorem matches_nested {x : Reader α} (hx : Matches x P) : Matches (nested x) P :=
  fun depth input => leads_nested trivial fun _ => hx (depth + 1) input

/-- Items with commas between them make a list of the kind `L`. -/
theorem matches_commaSeparated {item : Reader α} {L : List Token → List α → List Token → Prop}
    (hitem : Matches item P) (hlast : ∀ i a r, P i a r → L i [a] r)
    (hmore : ∀ i a l m as r, P i a (⟨.symbol .comma, l⟩ :: m) → L m as r → L i (a :: as) r) :
    Matches (commaSeparated item) L := by
  have hupTo (bound : Nat) : Matches (commaSeparatedUpTo item bound) L := by
    induction bound with
    | zero => exact fun _ _ => leads_outOfBudget trivial
    | succ bound ih =>
      refine fun depth input => hitem.bind fun a d r ha => leads_of_cons ?_
      rintro kind place rest rfl
      refine leads_accept_bind ?_ fun _ => leads_pure (hlast _ _ _ ha)
      rintro rfl
      exact ih.bind fun as d r has => leads_pure (hmore _ _ _ _ _ _ ha has)
  exact fun depth input => leads_itemBound_bind (hupTo input.length depth input)

/-! ## Types -/

theorem matches_pointersTo (t : CType) (left : Nat) : Matches (pointersTo t left) (Stars t) := by
  induction left generalizing t with
  | zero =>
    refine fun depth input => leads_of_cons ?_
    rintro kind place rest rfl
    exact leads_symbol_bind (fun _ => leads_fail place trivial) fun _ => leads_pure (.nil t _)
  | succ left ih =>
    refine fun depth input => leads_of_cons ?_
    rintro kind place rest rfl
    refine leads_symbol_bind ?_ fun _ => leads_pure (.nil t _)
    rintro rfl
    exact (ih _).lead fun _ _ _ h => .cons h

theorem matches_typeSpecifier : Matches typeSpecifier TypeSpecifier := by
  have hrest (isConst : Bool) (depth : Nat) (input : List Token) :
      Leads (fun _ => True) depth input (typeBehindConst isConst)
        fun spec _ rest => ∃ (base : BaseType) (place : Location) (more : List Token),
          input = ⟨.keyword base.word, place⟩ :: more ∧ Stars base.type more spec.1 rest ∧
          spec.2 = (isConst && !spec.1.isPointer) := by
    refine leads_peek_bind ?_
    rintro kind place more rfl
    dsimp only
    split
    · exact leads_fail place trivial
    · rename_i hbase
      obtain ⟨base, rfl, rfl⟩ := baseType?_eq_some_iff.1 hbase
      refine leads_advance_bind nofun ?_
      exact (matches_pointersTo base.type _).bind fun t d r ht =>
        leads_pure ⟨base, place, more, rfl, ht, rfl⟩
  refine fun depth input => leads_of_cons ?_
  rintro kind place rest rfl
  refine leads_acceptWord_bind ?_ fun _ => ?_
  · rintro rfl
    refine (hrest true depth rest).imp (fun _ h => h) ?_
    rintro ⟨t, isConst⟩ _ r ⟨base, _, more, rfl, hstars, hconst⟩
    obtain rfl : isConst = !t.isPointer := hconst
    exact .const hstars
  · refine (hrest false depth _).imp (fun _ h => h) ?_
    rintro ⟨t, isConst⟩ _ r ⟨base, _, more, hinput, hstars, hconst⟩
    cases hinput
    obtain rfl : isConst = false := hconst
    exact .plain hstars

theorem matches_arrayLength : Matches arrayLength fun input length rest =>
    ∃ n k r, input = ⟨.int n, k⟩ :: ⟨.symbol .rightBracket, r⟩ :: rest ∧ length = n.toInt.toNat := by
  refine fun depth input => leads_peek_bind ?_
  rintro kind place rest rfl
  dsimp only
  split
  · rename_i n
    split
    · exact leads_fail_bind place trivial
    · refine leads_advance_bind nofun (leads_expect ?_)
      rintro r rest rfl
      exact leads_pure ⟨n, place, r, rfl, rfl⟩
  · exact leads_fail place trivial

theorem matches_dimensionsUpTo (left : Nat) : Matches (dimensionsUpTo left) Dimensions := by
  induction left with
  | zero =>
    refine fun depth input => leads_of_cons ?_
    rintro kind place rest rfl
    exact leads_symbol_bind (fun _ => leads_fail place trivial) fun _ => leads_pure (.nil _)
  | succ left ih =>
    refine fun depth input => leads_of_cons ?_
    rintro kind place rest rfl
    refine leads_symbol_bind ?_ fun _ => leads_pure (.nil _)
    rintro rfl
    refine leads_of_cons ?_
    rintro kind r more rfl
    refine leads_accept_bind ?_ fun _ => ?_
    · rintro rfl
      refine (leads_pure (yields_some none _ _)).after ?_
      rintro _ ⟨⟩
      exact ih.bind fun dims d r h => leads_pure (.omitted h)
    · refine (matches_arrayLength depth _).map_bind ?_
      rintro _ d middle ⟨n, k, close, hlength, rfl⟩
      rw [hlength]
      exact ih.bind fun dims d r h => leads_pure (.length h)

/-- A declaration, which may be one with an initializer. -/
def DeclarationDerived (input : List Token) (node : Node) (rest : List Token) : Prop :=
  Phrase.declaration.Derived input node rest ∧
    (node.isInitialized = true → Phrase.initialized.Derived input node rest)

theorem matches_declarator {value : Reader Node} (hvalue : Matches value Phrase.value.Derived) :
    Matches (declarator value) DeclarationDerived := by
  refine fun depth input => matches_typeSpecifier.bind fun spec d r hspec => leads_identifier ?_
  rintro name place behindName rfl
  refine (matches_dimensionsUpTo maxNesting).bind fun dims d r hdims => leads_of_cons ?_
  rintro kind e rest rfl
  have hrest (depth : Nat) (input' : List Token) (init : Option Node)
      (hinit : ∀ node, declarationNode? place name spec dims init = some node →
        DeclarationDerived input node input') :
      Leads (fun _ => True) depth input'
        (do
          let type ← variableType spec.1 dims init place
          if type = .void then fail (.voidVariable name) place
          return Node.declaration place name type spec.2 init)
        fun node _ rest => DeclarationDerived input node rest := by
    refine (leads_variableType (fun _ _ => trivial) spec.1 dims init place).after fun type htype => ?_
    split
    · exact leads_fail_bind place trivial
    · refine leads_pure (hinit _ ?_)
      unfold declarationNode?
      rw [htype]
      rfl
  refine leads_accept_bind ?_ fun _ => ?_
  · rintro rfl
    refine (hvalue d rest).map_bind fun init d r hinit => hrest d r (some init) fun node hnode => ?_
    have hderived := Derives.initialized hspec hdims hinit
    rw [Option.bind_some, hnode] at hderived
    exact ⟨.withInitializer hderived, fun _ => hderived⟩
  · refine (leads_pure (yields_some none _ _)).after ?_
    rintro _ ⟨⟩
    refine hrest d _ none fun node hnode => ?_
    have hderived := Derives.withoutInitializer hspec hdims
    rw [hnode] at hderived
    refine ⟨hderived, fun hinitialized => ?_⟩
    obtain ⟨type, -, rfl⟩ := Option.map_eq_some_iff.1 hnode
    cases hinitialized

theorem matches_variableDeclaration {value : Reader Node}
    (hvalue : Matches value Phrase.value.Derived) :
    Matches (variableDeclaration value) fun input node rest =>
      ∃ l, Phrase.declaration.Derived input node (⟨.symbol .semicolon, l⟩ :: rest) := by
  refine fun depth input => (matches_declarator hvalue).bind fun node d r hnode => leads_expect ?_
  rintro l rest rfl
  exact leads_pure ⟨l, hnode.1⟩

/-! ## Expressions -/

section Expressions

variable {value operand : Reader Node}

/-- The operands behind `left` make a longer phrase of the level. -/
theorem leads_chainFrom (level : List (Symbol × BinaryOp))
    {levels : List (List (Symbol × BinaryOp))}
    (hoperand : Matches operand (Phrase.binary levels).Derived) (bound entered : Nat) {left : Node}
    {before : List Token} (hleft : (Phrase.binary (level :: levels)).Derived before left input) :
    Leads (fun _ => True) depth input (chainFrom level operand bound left entered)
      fun r _ rest => (Phrase.binary (level :: levels)).Derived before r.1 rest := by
  induction bound generalizing depth input left entered with
  | zero => exact leads_outOfBudget trivial
  | succ bound ih =>
    refine leads_peek_bind ?_
    rintro kind place rest rfl
    dsimp only
    split
    · exact leads_pure hleft
    · rename_i op hop
      obtain ⟨s, rfl, hsign⟩ := exists_of_operatorOf? hop
      refine leads_advance_bind nofun (leads_descend_bind trivial fun _ => ?_)
      exact hoperand.bind fun right d r hright => ih (entered + 1) (.binary hleft hsign hright)

theorem matches_chain (level : List (Symbol × BinaryOp))
    {levels : List (List (Symbol × BinaryOp))}
    (hoperand : Matches operand (Phrase.binary levels).Derived) :
    Matches (chain level operand) (Phrase.binary (level :: levels)).Derived :=
  fun _ _ => hoperand.bind fun _ _ _ hfirst =>
    (leads_chainFrom level hoperand _ 0 (.tighter hfirst)).bind fun _ _ _ htree =>
    leads_ascend_bind (leads_pure htree)

theorem matches_binary (hoperand : Matches operand Phrase.unary.Derived) :
    Matches (binary operand) (Phrase.binary operatorLevels).Derived := by
  rw [operatorLevels_eq_binaryLevels]
  unfold binary
  induction binaryLevels with
  | nil => exact fun depth input => (hoperand depth input).imp (fun _ h => h) fun _ _ _ h => .factor h
  | cons level levels ih => exact matches_chain level ih

theorem matches_assignment (hvalue : Matches value Phrase.value.Derived)
    (hoperand : Matches operand Phrase.unary.Derived) :
    Matches (assignment value operand) Phrase.value.Derived := by
  refine fun depth input => (matches_binary hoperand).bind fun target d r htarget => leads_peek_bind ?_
  rintro kind place rest rfl
  dsimp only
  split
  · exact leads_pure (.unassigned htarget)
  · rename_i op? hop
    obtain ⟨s, rfl, hsign⟩ := assignmentOf?_eq_some_iff.1 hop
    refine leads_advance_bind nofun ?_
    have hsource : Leads (fun _ => True) d rest
        (value >>= fun source => pure (assignmentNode place op? target source))
        fun node _ rest => Phrase.value.Derived input node rest :=
      hvalue.bind fun source d r hsource => leads_pure (.assign htarget hsign hsource)
    cases op? with
    | none =>
      dsimp only
      split
      · exact hsource
      · exact leads_fail_bind _ trivial
    | some op =>
      dsimp only
      split
      · exact hsource
      · exact leads_fail_bind _ trivial

theorem matches_values (hvalue : Matches value Phrase.value.Derived) :
    Matches (commaSeparated value) Phrase.values.Derived :=
  matches_commaSeparated hvalue (fun _ _ _ h => .lastValue h) fun _ _ _ _ _ _ hfirst hmore =>
    .moreValues hfirst hmore

theorem matches_arguments (hvalue : Matches value Phrase.value.Derived) :
    Matches (arguments value) Phrase.arguments.Derived := by
  refine fun depth input => leads_of_cons ?_
  rintro kind place rest rfl
  refine leads_isNext_bind (fun _ => leads_pure .noArguments) fun _ => ?_
  exact (matches_values hvalue).lead fun _ _ _ h => .arguments h

/-- The operators behind `operand` make a longer phrase. -/
theorem leads_trailingFrom (hvalue : Matches value Phrase.value.Derived) (bound entered : Nat)
    {node : Node} {before : List Token} (hnode : Phrase.trailing.Derived before node input) :
    Leads (fun _ => True) depth input (trailingFrom value bound node entered)
      fun r _ rest => Phrase.trailing.Derived before r.1 rest := by
  induction bound generalizing depth input node entered with
  | zero => exact leads_outOfBudget trivial
  | succ bound ih =>
    refine leads_peek_bind ?_
    rintro kind place rest rfl
    have hstep {op : StepOp} {d : Nat} (h : Phrase.trailing.Derived before (.step place op node) rest) :
        Leads (fun _ => True) d rest
          (stepNode place op node >>= fun stepped => trailingFrom value bound stepped (entered + 1))
          fun r _ rest => Phrase.trailing.Derived before r.1 rest := by
      refine (leads_stepNode (fun _ _ => trivial) place op node).after ?_
      rintro _ ⟨⟩
      exact ih (entered + 1) h
    dsimp only
    split
    · exact leads_descend_bind trivial fun _ => leads_advance_bind nofun (hstep (.postInc hnode))
    · exact leads_descend_bind trivial fun _ => leads_advance_bind nofun (hstep (.postDec hnode))
    · refine leads_descend_bind trivial fun _ => leads_advance_bind nofun ?_
      refine hvalue.bind fun position d r hposition => leads_expect ?_
      rintro close rest rfl
      exact ih (entered + 1) (.index hnode hposition)
    · refine leads_descend_bind trivial fun _ => ?_
      split
      · refine leads_advance_bind nofun ?_
        refine (matches_arguments hvalue).bind fun args d r hargs => leads_expect ?_
        rintro close rest rfl
        exact ih (entered + 1) (.call hnode hargs)
      · exact leads_fail place trivial
    · exact leads_pure hnode

/-- The elements up to the closing brace, of which there may be none yet. -/
theorem matches_elementsUpTo (hvalue : Matches value Phrase.value.Derived) (bound : Nat) :
    Matches (elementsUpTo value bound) fun input elements rest =>
      elements = [] ∧ rest = input ∨ Phrase.elements.Derived input elements rest := by
  induction bound with
  | zero => exact fun _ _ => leads_outOfBudget trivial
  | succ bound ih =>
    refine fun depth input => leads_of_cons ?_
    rintro kind place rest rfl
    refine leads_isNext_bind (fun _ => leads_pure (.inl ⟨rfl, rfl⟩)) fun _ => ?_
    refine hvalue.bind fun element d r helement => leads_of_cons ?_
    rintro kind comma more rfl
    refine leads_accept_bind ?_ fun _ => leads_pure (.inr (.lastElement helement))
    rintro rfl
    refine ih.bind fun elements d r helements => leads_pure (.inr ?_)
    rcases helements with ⟨rfl, rfl⟩ | helements
    · exact .lastElementComma helement
    · exact .moreElements helement helements

theorem leads_arrayLiteral (hvalue : Matches value Phrase.value.Derived) (place : Location) :
    Leads (fun _ => True) depth input (arrayLiteral value place) fun node _ rest =>
      Phrase.primary.Derived (⟨.symbol .leftBrace, place⟩ :: input) node rest := by
  refine leads_itemBound_bind ((matches_elementsUpTo hvalue _).bind fun elements d r helements => ?_)
  refine leads_expect ?_
  rintro close rest rfl
  split
  · exact leads_fail_bind place trivial
  · rename_i hnonempty
    rcases helements with ⟨rfl, -⟩ | helements
    · exact absurd rfl hnonempty
    · exact leads_pure (.arrayLiteral helements)

theorem leads_parenthesized (hvalue : Matches value Phrase.value.Derived) (place : Location) :
    Leads (fun _ => True) depth input (parenthesized value) fun node _ rest =>
      Phrase.primary.Derived (⟨.symbol .leftParen, place⟩ :: input) node rest := by
  refine leads_of_cons ?_
  rintro kind l more rfl
  refine leads_typeIsNext_bind ?_
  split
  · refine (matches_declarator hvalue).bind fun node d r hnode => ?_
    split
    · rename_i hinitialized
      refine leads_expect ?_
      rintro close rest rfl
      exact leads_pure (.parenthesizedDeclaration (hnode.2 hinitialized))
    · exact leads_fail_bind _ trivial
  · refine hvalue.bind fun node d r hnode => leads_expect ?_
    rintro close rest rfl
    exact leads_pure (.parentheses hnode)

theorem matches_primary (hvalue : Matches value Phrase.value.Derived) :
    Matches (primary value) Phrase.primary.Derived := by
  refine fun depth input => leads_peek_bind ?_
  rintro kind place rest rfl
  dsimp only
  split
  · rename_i node hnode
    have hatom : Atom place kind node := atom?_eq_some_iff.1 hnode
    exact leads_advance_bind hatom.ne_endOfFile (leads_pure (.atom hatom))
  · refine leads_accept_bind ?_ fun _ => leads_accept_bind ?_ fun _ => leads_fail place trivial
    · rintro rfl
      exact leads_arrayLiteral hvalue place
    · rintro rfl
      exact leads_parenthesized hvalue place

theorem matches_trailing (hvalue : Matches value Phrase.value.Derived) :
    Matches (trailing value) Phrase.trailing.Derived :=
  fun _ _ => (matches_primary hvalue).bind fun _ _ _ hoperand =>
    (leads_trailingFrom hvalue _ 0 (.operand hoperand)).bind fun _ _ _ hnode =>
    leads_ascend_bind (leads_pure hnode)

theorem matches_leading (hvalue : Matches value Phrase.value.Derived)
    (hoperand : Matches operand Phrase.unary.Derived) :
    Matches (leading value operand) Phrase.unary.Derived := by
  refine fun depth input => leads_peek_bind ?_
  rintro kind place rest rfl
  have hstep {op : StepOp} {before : List Token} {node : Node} {d : Nat} {r : List Token}
      (h : Phrase.unary.Derived before (.step place op node) r) :
      Leads (fun _ => True) d r (stepNode place op node) fun stepped _ rest =>
        Phrase.unary.Derived before stepped rest := by
    refine (leads_stepNode (fun _ _ => trivial) place op node).imp (fun _ h => h) ?_
    rintro _ _ _ ⟨⟨⟩, rfl, rfl⟩
    exact h
  dsimp only
  split
  · exact leads_advance_bind nofun (hoperand.bind fun _ _ _ h => leads_pure (.not h))
  · exact leads_advance_bind nofun (hoperand.bind fun _ _ _ h => leads_pure (.neg h))
  · exact leads_advance_bind nofun (hoperand.lead fun _ _ _ h => .plus h)
  · refine leads_advance_bind nofun (hoperand.bind fun node d r h => ?_)
    split
    · exact leads_pure (.addressOf h)
    · exact leads_fail_bind _ trivial
  · exact leads_advance_bind nofun (hoperand.bind fun _ _ _ h => leads_pure (.deref h))
  · exact leads_advance_bind nofun (hoperand.bind fun _ _ _ h => hstep (.preInc h))
  · exact leads_advance_bind nofun (hoperand.bind fun _ _ _ h => hstep (.preDec h))
  · exact (matches_trailing hvalue).lead fun _ _ _ h => .unsigned h

end Expressions

theorem matches_expression_unary (budget : Nat) :
    Matches (expression budget) Phrase.value.Derived ∧ Matches (unary budget) Phrase.unary.Derived := by
  induction budget with
  | zero =>
    exact ⟨fun _ _ => leads_outOfBudget trivial, fun _ _ => leads_outOfBudget trivial⟩
  | succ budget ih =>
    obtain ⟨hvalue, hoperand⟩ := ih
    exact ⟨matches_nested (matches_assignment hvalue hoperand),
      matches_nested (matches_leading hvalue hoperand)⟩

/-- What is read as an expression is a value of the grammar. -/
theorem matches_expression (budget : Nat) : Matches (expression budget) Phrase.value.Derived :=
  (matches_expression_unary budget).1

/-! ## Statements -/

section Statements

variable {statement value : Reader Node}

theorem matches_statementsUpTo (hstatement : Matches statement StatementDerived) (bound : Nat) :
    Matches (statementsUpTo statement bound) Phrase.statements.Derived := by
  induction bound with
  | zero => exact fun _ _ => leads_outOfBudget trivial
  | succ bound ih =>
    refine fun depth input => leads_peek_bind ?_
    rintro kind place rest rfl
    dsimp only
    split
    · exact leads_pure .noStatements
    · refine hstatement.bind ?_
      rintro first d r ⟨dangling, hfirst, -⟩
      exact ih.bind fun rest d r hmore => leads_pure (.moreStatements hfirst hmore)

theorem matches_statements (hstatement : Matches statement StatementDerived) :
    Matches (statements statement) Phrase.statements.Derived :=
  fun depth input => leads_itemBound_bind (matches_statementsUpTo hstatement input.length depth input)

theorem matches_valueUnless (hvalue : Matches value Phrase.value.Derived) (s : Symbol) :
    Matches (valueUnless value s) Phrase.clause.Derived := by
  refine fun depth input => leads_of_cons ?_
  rintro kind place rest rfl
  refine leads_isNext_bind (fun _ => leads_pure .noClause) fun _ => ?_
  exact (hvalue _ _).map fun _ _ _ h => .clause h

theorem matches_loopBody (hstatement : Matches statement StatementDerived) :
    Matches (loopBody statement) StatementDerived := by
  refine fun depth input => leads_modify_bind (fun _ => rfl) (fun _ => rfl) ?_
  exact hstatement.bind fun body d r hbody =>
    leads_modify_bind (fun _ => rfl) (fun _ => rfl) (leads_pure hbody)

theorem leads_jump (word : Keyword) (place : Location) {node : Node} {before : List Token}
    (h : ∀ l rest, input = ⟨.symbol .semicolon, l⟩ :: rest → StatementDerived before node rest) :
    Leads (fun _ => True) depth input (jump word place node) fun node _ rest =>
      StatementDerived before node rest := by
  refine leads_get_bind fun s _ _ => ?_
  split
  · exact leads_fail_bind place trivial
  · refine leads_expect ?_
    rintro l rest rfl
    exact leads_pure (h l rest rfl)

/-- A branch that ends in an `if` without `else` takes the next `else` itself. -/
theorem leads_ifStatement (hstatement : Matches statement StatementDerived)
    (hvalue : Matches value Phrase.value.Derived) (place : Location) :
    Leads (fun _ => True) depth input (ifStatement statement value place) fun node _ rest =>
      StatementDerived (⟨.keyword .ifWord, place⟩ :: input) node rest := by
  refine leads_expect ?_
  rintro openParen behindOpen rfl
  refine hvalue.bind fun condition d r hcondition => leads_expect ?_
  rintro closeParen middle rfl
  refine hstatement.bind fun thenBranch d r hthen => leads_of_cons ?_
  rintro kind e rest rfl
  refine leads_acceptWord_bind ?_ fun hkind => ?_
  · rintro rfl
    refine (hstatement d rest).map_bind ?_
    rintro elseBranch d r ⟨dangling, helse, hnext⟩
    exact leads_pure ⟨dangling, .ifElse hcondition hthen.closed helse, hnext⟩
  · refine (leads_pure (yields_some none _ _)).after ?_
    rintro _ ⟨⟩
    obtain ⟨dangling, hbody, -⟩ := hthen
    refine leads_pure ⟨true, .ifThen hcondition hbody, fun _ place more hmore => ?_⟩
    cases hmore
    exact hkind rfl

theorem leads_whileStatement (hstatement : Matches statement StatementDerived)
    (hvalue : Matches value Phrase.value.Derived) (place : Location) :
    Leads (fun _ => True) depth input (whileStatement statement value place) fun node _ rest =>
      StatementDerived (⟨.keyword .whileWord, place⟩ :: input) node rest := by
  refine leads_expect ?_
  rintro openParen behindOpen rfl
  refine hvalue.bind fun condition d r hcondition => leads_expect ?_
  rintro closeParen middle rfl
  refine (matches_loopBody hstatement).bind ?_
  rintro body d r ⟨dangling, hbody, hnext⟩
  exact leads_pure ⟨dangling, .whileLoop hcondition hbody, hnext⟩

theorem matches_forInit (hvalue : Matches value Phrase.value.Derived) :
    Matches (forInit value) Phrase.forInit.Derived := by
  refine fun depth input => leads_of_cons ?_
  rintro kind place rest rfl
  refine leads_accept_bind ?_ fun _ => leads_typeIsNext_bind ?_
  · rintro rfl
    exact leads_pure .noInit
  · split
    · refine (matches_variableDeclaration hvalue).bind ?_
      rintro node d r ⟨l, hnode⟩
      exact leads_pure (.declarationInit hnode)
    · refine hvalue.bind fun node d r hnode => leads_expect ?_
      rintro l rest rfl
      exact leads_pure (.valueInit hnode)

theorem leads_forStatement (hstatement : Matches statement StatementDerived)
    (hvalue : Matches value Phrase.value.Derived) (place : Location) :
    Leads (fun _ => True) depth input (forStatement statement value place) fun node _ rest =>
      StatementDerived (⟨.keyword .forWord, place⟩ :: input) node rest := by
  refine leads_expect ?_
  rintro openParen behindOpen rfl
  refine (matches_forInit hvalue).bind fun init d r hinit => ?_
  refine (matches_valueUnless hvalue _).bind fun condition d r hcondition => leads_expect ?_
  rintro semicolon behindCondition rfl
  refine (matches_valueUnless hvalue _).bind fun increment d r hincrement => leads_expect ?_
  rintro closeParen behindClauses rfl
  refine (matches_loopBody hstatement).bind ?_
  rintro body d r ⟨dangling, hbody, hnext⟩
  exact leads_pure ⟨dangling, .forLoop hinit hcondition hincrement hbody, hnext⟩

theorem matches_anyStatement (hstatement : Matches statement StatementDerived)
    (hvalue : Matches value Phrase.value.Derived) :
    Matches (anyStatement statement value) StatementDerived := by
  refine fun depth input => leads_peek_bind ?_
  rintro kind place rest rfl
  dsimp only
  split
  · refine leads_advance_bind nofun ?_
    refine (matches_valueUnless hvalue _).bind fun result d r hresult => leads_expect ?_
    rintro l rest rfl
    exact leads_pure (.of_closed (.returnFrom hresult))
  · exact leads_advance_bind nofun (leads_ifStatement hstatement hvalue place)
  · exact leads_advance_bind nofun (leads_whileStatement hstatement hvalue place)
  · exact leads_advance_bind nofun (leads_forStatement hstatement hvalue place)
  · refine leads_advance_bind nofun (leads_jump .breakWord place ?_)
    rintro l rest rfl
    exact .of_closed .breakLoop
  · refine leads_advance_bind nofun (leads_jump .continueWord place ?_)
    rintro l rest rfl
    exact .of_closed .continueLoop
  · exact leads_advance_bind nofun (leads_pure (.of_closed .empty))
  · refine leads_advance_bind nofun ?_
    refine (matches_statements hstatement).bind fun body d r hbody => leads_expect ?_
    rintro l rest rfl
    exact leads_pure (.of_closed (.block hbody))
  · rename_i hbrace
    split
    · refine (matches_variableDeclaration hvalue).lead ?_
      rintro node _ r ⟨l, hnode⟩
      exact .of_closed (.declared hnode)
    · refine hvalue.bind fun node d r hnode => leads_expect ?_
      rintro l rest rfl
      exact leads_pure (.of_closed (.expression hnode hbrace))

end Statements

/-- What is read as a statement is one of the grammar. -/
theorem matches_statement (budget : Nat) : Matches (statement budget) StatementDerived := by
  induction budget with
  | zero => exact fun _ _ => leads_outOfBudget trivial
  | succ budget ih => exact matches_nested (matches_anyStatement ih (matches_expression budget))

/-! ## Functions and programs -/

theorem matches_parameter : Matches parameter fun input param rest =>
    Parameter input (some param) rest := by
  refine fun depth input => leads_peek_bind fun kind place more _ => ?_
  refine matches_typeSpecifier.bind fun spec d r hspec => leads_identifier ?_
  rintro name l behindName rfl
  refine (matches_dimensionsUpTo maxNesting).bind fun dims d r hdims => ?_
  refine (leads_parameterType (fun _ _ => trivial) spec.1 dims place).after fun type htype => ?_
  split
  · exact leads_fail_bind place trivial
  · have hparam := Parameter.mk hspec hdims
    rw [htype] at hparam
    exact leads_pure hparam

/-- The parameters are read up to the closing parenthesis. -/
theorem matches_parameters : Matches parameters fun input params rest =>
    ∀ r more, rest = ⟨.symbol .rightParen, r⟩ :: more → ParameterList input (some params) more := by
  refine fun depth input => leads_of_cons ?_
  rintro kind place rest rfl
  refine leads_isNext_bind (fun _ => leads_pure ?_) fun _ => ?_
  · rintro r more ⟨⟩
    exact .empty
  · refine leads_voidIsAlone_bind ?_ fun _ => ?_
    · rintro l r more ⟨⟩
      refine leads_advance_bind nofun (leads_pure ?_)
      rintro r more ⟨⟩
      exact .void
    · have hparams : Matches (commaSeparated parameter) fun input params rest =>
          Parameters input (some params) rest :=
        matches_commaSeparated matches_parameter (fun _ _ _ h => .last h)
          fun _ _ _ _ _ _ hfirst hmore => .more hfirst hmore
      refine hparams.lead ?_
      rintro params _ _ h r more rfl
      exact .some h

theorem leads_functionDefinition :
    Leads (fun _ => True) depth input functionDefinition fun node _ rest => ∀ nodes end_,
      Definitions rest (some nodes) end_ → Definitions input (some (node :: nodes)) end_ := by
  refine matches_typeSpecifier.bind fun spec d r hspec => leads_identifier ?_
  rintro name place behindName rfl
  refine leads_define_bind trivial (leads_expect ?_)
  rintro openParen behindOpen rfl
  refine matches_parameters.bind fun params d r hparams => leads_expect ?_
  rintro closeParen behindClose rfl
  refine leads_expect ?_
  rintro openBrace behindBrace rfl
  refine (matches_statements (matches_statement _)).bind fun body d r hbody => leads_expect ?_
  rintro closeBrace middle rfl
  refine leads_pure fun nodes end_ hmore => ?_
  exact .cons hspec (hparams _ _ rfl) hbody hmore

theorem matches_functionsUpTo (bound : Nat) : Matches (functionsUpTo bound) fun input nodes rest =>
    Definitions input (some nodes) rest ∧ ∃ place more, rest = ⟨.endOfFile, place⟩ :: more := by
  induction bound with
  | zero => exact fun _ _ => leads_outOfBudget trivial
  | succ bound ih =>
    refine fun depth input => leads_of_cons ?_
    rintro kind place rest rfl
    refine leads_isNext_bind ?_ fun _ => ?_
    · rintro rfl
      exact leads_pure ⟨.nil, place, rest, rfl⟩
    · refine leads_functionDefinition.bind fun node d r hnode => ih.bind ?_
      rintro nodes d r ⟨hnodes, hend⟩
      exact leads_pure ⟨hnode nodes r hnodes, hend⟩

end Reader

/-- What is read as a program is one of the grammar. -/
theorem spells_of_ofTokens {tokens : List Token} {program : Program} (hends : Ends tokens)
    (h : Program.ofTokens tokens = .ok program) : Spells tokens (some program.nodes) := by
  obtain ⟨token, rest, rfl⟩ : ∃ token rest, tokens = token :: rest := by
    obtain ⟨token, hmem, -⟩ := hends
    exact List.exists_cons_of_ne_nil (List.ne_nil_of_mem hmem)
  have hreads := Reader.matches_functionsUpTo ((token :: rest).length + 1) 0 (token :: rest)
    (.ofTokens (token :: rest)) rfl rfl hends
  unfold Program.ofTokens at h
  cases hrun : (Reader.functionsUpTo ((token :: rest).length + 1)).run (.ofTokens (token :: rest)) with
  | error e =>
    rw [hrun] at h
    cases h
  | ok r =>
    rw [hrun] at h hreads
    cases h
    obtain ⟨⟨hnodes, place, more, hend⟩, -⟩ := hreads
    exact ⟨place, more, hend ▸ hnodes⟩

end BoundedC
