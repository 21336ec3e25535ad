import BoundedC.Proofs.Accepted
import BoundedC.Proofs.Derived

/-!
# The language that is read

The lists of tokens that are read as programs are those that the grammar derives, but for the static
checks, and what is read is the tree of the derivation.

* `accepted_…` : the steps of the induction over derivations, for clauses and statements;
* `Derives.accepted` : the induction;
* `accepts_functionsUpTo` : functions and programs;
* `ofTokens_recognizes` : both directions.
-/

namespace BoundedC

open Reader

section

variable {depth budget : Nat} {kind : TokenKind} {dangling : Bool} {l o c e : Location}
  {input middle rest : List Token} {node condition body other : Option Node}

/-! ## Clauses -/

theorem accepted_noClause : Phrase.clause.Accepted rest (some none) rest := by
  intro s _ hrest depth budget hfits
  refine leads_of_cons ?_
  rintro kind place more rfl
  have hclosed : kind = .symbol s := of_decide_eq_true hrest
  exact leads_isNext_bind (fun _ => accepts_pure none) fun h => absurd hclosed h

theorem accepted_clause (hbegins : Phrase.value.Begins input rest)
    (h : Phrase.value.Accepted input node rest) : Phrase.clause.Accepted input (node.map some) rest := by
  intro s hs hrest depth budget hfits
  obtain ⟨kind, l, more, rfl, hkind⟩ := hbegins.exists_cons rfl
  have hended : Behind endsValue rest := hrest.of_eq (by rcases hs with rfl | rfl <;> rfl)
  refine leads_isNext_bind ?_ fun _ => (h hended depth budget hfits).map
  rintro rfl
  rcases hs with rfl | rfl <;> cases hkind

theorem accepts_variableDeclaration
    (h : Phrase.declaration.Accepted input node (⟨.symbol .semicolon, l⟩ :: rest))
    (hfits : Fits depth budget) :
    Accepts depth input (variableDeclaration (expression budget)) node rest := by
  refine (h rfl depth budget hfits).after fun n hn => ?_
  exact leads_expect_cons (leads_pure ⟨hn, rfl, rfl⟩)

theorem accepted_noInit : Phrase.forInit.Accepted (⟨.symbol .semicolon, l⟩ :: rest) (some none) rest :=
  fun _ _ _ => leads_accept_bind (fun _ => accepts_pure none) fun h => absurd rfl h

theorem accepted_declarationInit
    (hbegins : Phrase.declaration.Begins input (⟨.symbol .semicolon, l⟩ :: rest))
    (h : Phrase.declaration.Accepted input node (⟨.symbol .semicolon, l⟩ :: rest)) :
    Phrase.forInit.Accepted input (node.map some) rest := by
  intro depth budget hfits
  obtain ⟨kind, place, more, rfl, hkind⟩ := hbegins.exists_cons rfl
  have htype : startsType kind = true := hkind
  refine leads_accept_bind ?_ fun _ => leads_typeIsNext_bind ?_
  · rintro rfl
    cases htype
  · rw [htype]
    refine (accepts_variableDeclaration h hfits).after ?_
    rintro n rfl
    exact accepts_pure _

theorem accepted_valueInit (hbegins : Phrase.value.Begins input (⟨.symbol .semicolon, l⟩ :: rest))
    (h : Phrase.value.Accepted input node (⟨.symbol .semicolon, l⟩ :: rest)) :
    Phrase.forInit.Accepted input (node.map some) rest := by
  intro depth budget hfits
  obtain ⟨kind, place, more, rfl, hkind⟩ := hbegins.exists_cons rfl
  refine leads_accept_bind ?_ fun _ => leads_typeIsNext_bind ?_
  · rintro rfl
    cases hkind
  · rw [TokenKind.startsType_of_startsValue hkind]
    refine (h rfl depth budget hfits).after ?_
    rintro n rfl
    exact leads_expect_cons (accepts_pure _)

/-! ## Statements -/

/-- A statement is read one level deeper, by its first token. -/
theorem accepted_statement
    (h : (dangling = true → Behind (· ≠ .keyword .elseWord) rest) → ∀ depth budget, Fits depth budget →
      Accepts depth input (anyStatement (Reader.statement budget) (expression budget)) node rest) :
    (Phrase.statement dangling).Accepted input node rest :=
  fun hrest _ _ hfits => accepts_of_fits hfits (fun _ => rfl) (h hrest)

theorem accepted_returnFrom {result : Option (Option Node)}
    (h : Phrase.clause.Accepted input result (⟨.symbol .semicolon, e⟩ :: rest)) :
    (Phrase.statement false).Accepted (⟨.keyword .returnWord, l⟩ :: input)
      (result.map (.returnFrom l)) rest := by
  refine accepted_statement fun _ depth budget hfits => leads_peek_cons (leads_advance_bind nofun ?_)
  refine (h .semicolon (.inl rfl) rfl depth budget hfits).after ?_
  rintro n rfl
  exact leads_expect_cons (accepts_pure _)

/-- The branch is read, and no `else` behind it. -/
theorem accepted_ifThen
    (hcondition : Phrase.value.Accepted input condition (⟨.symbol .rightParen, c⟩ :: middle))
    (hbody : (Phrase.statement dangling).Accepted middle body rest) :
    (Phrase.statement true).Accepted (⟨.keyword .ifWord, l⟩ :: ⟨.symbol .leftParen, o⟩ :: input)
      ((.ifElse l · · none) <$> condition <*> body) rest := by
  refine accepted_statement fun hrest depth budget hfits => ?_
  have helse := hrest rfl
  refine leads_peek_cons (leads_advance_bind nofun (leads_expect_cons ?_))
  refine (hcondition rfl depth budget hfits).after ?_
  rintro condition rfl
  refine leads_expect_cons ((hbody (fun _ => helse) depth budget hfits).after ?_)
  rintro body rfl
  refine leads_of_cons ?_
  rintro kind place more rfl
  refine leads_acceptWord_bind (fun hkind => absurd hkind (of_decide_eq_true helse)) fun _ => ?_
  refine (accepts_pure none).after ?_
  rintro _ ⟨⟩
  exact accepts_pure _

theorem accepted_ifElse {behindElse : List Token}
    (hcondition : Phrase.value.Accepted input condition (⟨.symbol .rightParen, c⟩ :: middle))
    (hbody : (Phrase.statement false).Accepted middle body (⟨.keyword .elseWord, e⟩ :: behindElse))
    (hother : (Phrase.statement dangling).Accepted behindElse other rest) :
    (Phrase.statement dangling).Accepted
      (⟨.keyword .ifWord, l⟩ :: ⟨.symbol .leftParen, o⟩ :: input)
      ((fun c b o => .ifElse l c b (some o)) <$> condition <*> body <*> other) rest := by
  refine accepted_statement fun hrest depth budget hfits => ?_
  refine leads_peek_cons (leads_advance_bind nofun (leads_expect_cons ?_))
  refine (hcondition rfl depth budget hfits).after ?_
  rintro condition rfl
  refine leads_expect_cons ((hbody nofun depth budget hfits).after ?_)
  rintro body rfl
  refine leads_acceptWord_bind (fun _ => ?_) fun h => absurd rfl h
  refine (hother hrest depth budget hfits).map.after ?_
  rintro branch hbranch
  obtain ⟨other, rfl, rfl⟩ := Option.map_eq_some_iff.1 hbranch
  exact accepts_pure _

theorem accepts_loopBody {statement : Reader Node} (h : Accepts depth input statement node rest) :
    Accepts depth input (loopBody statement) node rest := by
  refine leads_modify_bind (fun _ => rfl) (fun _ => rfl) (h.after fun n hn => ?_)
  exact leads_modify_bind (fun _ => rfl) (fun _ => rfl) (leads_pure ⟨hn, rfl, rfl⟩)

theorem accepted_whileLoop
    (hcondition : Phrase.value.Accepted input condition (⟨.symbol .rightParen, c⟩ :: middle))
    (hbody : (Phrase.statement dangling).Accepted middle body rest) :
    (Phrase.statement dangling).Accepted
      (⟨.keyword .whileWord, l⟩ :: ⟨.symbol .leftParen, o⟩ :: input)
      (.whileLoop l <$> condition <*> body) rest := by
  refine accepted_statement fun hrest depth budget hfits => ?_
  refine leads_peek_cons (leads_advance_bind nofun (leads_expect_cons ?_))
  refine (hcondition rfl depth budget hfits).after ?_
  rintro condition rfl
  refine leads_expect_cons ((accepts_loopBody (hbody hrest depth budget hfits)).after ?_)
  rintro body rfl
  exact accepts_pure _

theorem accepted_forLoop {s : Location} {behindInit behindCondition behindClauses : List Token}
    {init condition increment : Option (Option Node)}
    (hinit : Phrase.forInit.Accepted input init behindInit)
    (hcondition : Phrase.clause.Accepted behindInit condition (⟨.symbol .semicolon, s⟩ :: behindCondition))
    (hincrement : Phrase.clause.Accepted behindCondition increment
      (⟨.symbol .rightParen, c⟩ :: behindClauses))
    (hbody : (Phrase.statement dangling).Accepted behindClauses body rest) :
    (Phrase.statement dangling).Accepted (⟨.keyword .forWord, l⟩ :: ⟨.symbol .leftParen, o⟩ :: input)
      (.forLoop l <$> init <*> condition <*> increment <*> body) rest := by
  refine accepted_statement fun hrest depth budget hfits => ?_
  refine leads_peek_cons (leads_advance_bind nofun (leads_expect_cons ?_))
  refine (hinit depth budget hfits).after ?_
  rintro init rfl
  refine (hcondition .semicolon (.inl rfl) rfl depth budget hfits).after ?_
  rintro condition rfl
  refine leads_expect_cons ((hincrement .rightParen (.inr rfl) rfl depth budget hfits).after ?_)
  rintro increment rfl
  refine leads_expect_cons ((accepts_loopBody (hbody hrest depth budget hfits)).after ?_)
  rintro body rfl
  exact accepts_pure _

theorem accepts_jump (word : Keyword) (n : Node) :
    Accepts depth (⟨.symbol .semicolon, e⟩ :: rest) (jump word l n) (some n) rest := by
  refine leads_get_bind fun s _ _ => ?_
  split
  · exact leads_fail_bind l rfl
  · exact leads_expect_cons (accepts_pure n)

theorem accepted_breakLoop :
    (Phrase.statement false).Accepted (⟨.keyword .breakWord, l⟩ :: ⟨.symbol .semicolon, e⟩ :: rest)
      (some (.breakLoop l)) rest :=
  accepted_statement fun _ _ _ _ => leads_peek_cons (leads_advance_bind nofun (accepts_jump _ _))

theorem accepted_continueLoop :
    (Phrase.statement false).Accepted
      (⟨.keyword .continueWord, l⟩ :: ⟨.symbol .semicolon, e⟩ :: rest) (some (.continueLoop l)) rest :=
  accepted_statement fun _ _ _ _ => leads_peek_cons (leads_advance_bind nofun (accepts_jump _ _))

theorem accepted_empty :
    (Phrase.statement false).Accepted (⟨.symbol .semicolon, l⟩ :: rest) (some (.block l [])) rest :=
  accepted_statement fun _ _ _ _ => leads_peek_cons (leads_advance_bind nofun (accepts_pure _))

theorem accepted_block {nodes : Option (List Node)}
    (h : Phrase.statements.Accepted input nodes (⟨.symbol .rightBrace, e⟩ :: rest)) :
    (Phrase.statement false).Accepted (⟨.symbol .leftBrace, l⟩ :: input) (nodes.map (.block l)) rest := by
  refine accepted_statement fun _ depth budget hfits => leads_peek_cons (leads_advance_bind nofun ?_)
  have hbody : Accepts depth input (Reader.statements (Reader.statement budget)) nodes
      (⟨.symbol .rightBrace, e⟩ :: rest) :=
    leads_itemBound_bind (h rfl depth budget _ hfits (Nat.le_refl _))
  refine hbody.after ?_
  rintro body rfl
  exact leads_expect_cons (accepts_pure _)

theorem accepted_declared
    (hbegins : Phrase.declaration.Begins input (⟨.symbol .semicolon, l⟩ :: rest))
    (h : Phrase.declaration.Accepted input node (⟨.symbol .semicolon, l⟩ :: rest)) :
    (Phrase.statement false).Accepted input node rest := by
  refine accepted_statement fun _ depth budget hfits => ?_
  obtain ⟨kind, place, more, rfl, hkind⟩ := hbegins.exists_cons rfl
  have htype : startsType kind = true := hkind
  refine leads_peek_cons ?_
  dsimp only
  split
  case h_9 =>
    rw [if_pos htype]
    exact accepts_variableDeclaration h hfits
  all_goals cases htype

theorem accepted_expression
    (hbegins : Phrase.value.Begins (⟨kind, l⟩ :: input) (⟨.symbol .semicolon, e⟩ :: rest))
    (h : Phrase.value.Accepted (⟨kind, l⟩ :: input) node (⟨.symbol .semicolon, e⟩ :: rest))
    (hkind : kind ≠ .symbol .leftBrace) :
    (Phrase.statement false).Accepted (⟨kind, l⟩ :: input) (node.map (.expression l)) rest := by
  refine accepted_statement fun _ depth budget hfits => leads_peek_cons ?_
  obtain ⟨_, _, _, hinput, hvalue⟩ := hbegins.exists_cons rfl
  cases hinput
  dsimp only
  split
  case h_8 => exact absurd rfl hkind
  case h_9 =>
    rw [TokenKind.startsType_of_startsValue hvalue]
    refine (h rfl depth budget hfits).after ?_
    rintro n rfl
    exact leads_expect_cons (accepts_pure _)
  all_goals cases hvalue

theorem accepted_noStatements : Phrase.statements.Accepted rest (some []) rest := by
  intro hrest depth budget bound hfits hbound
  refine leads_of_cons ?_
  rintro kind place more rfl
  have hclosed : kind = .symbol .rightBrace := of_decide_eq_true hrest
  obtain ⟨bound, rfl⟩ : ∃ b, bound = b + 1 := ⟨bound - 1, by rw [List.length_cons] at hbound; omega⟩
  refine leads_peek_cons ?_
  rw [hclosed]
  exact accepts_pure []

/-- No `else` is next in front of statements and a closing brace. -/
theorem Phrase.Begins.no_else (h : Phrase.statements.Begins middle rest)
    (hrest : Behind (· = .symbol .rightBrace) rest) : Behind (· ≠ .keyword .elseWord) middle := by
  obtain ⟨-, rfl⟩ | ⟨kind, place, more, rfl, hkind, -⟩ := h
  · exact hrest.of_eq rfl
  · refine decide_eq_true ?_
    rintro rfl
    cases hkind

theorem accepted_moreStatements {nodes : Option (List Node)}
    (hbegins : (Phrase.statement dangling).Begins input middle)
    (hbegins' : Phrase.statements.Begins middle rest)
    (hfirst : (Phrase.statement dangling).Accepted input node middle)
    (hmore : Phrase.statements.Accepted middle nodes rest) :
    Phrase.statements.Accepted input (List.cons <$> node <*> nodes) rest := by
  intro hrest depth budget bound hfits hbound
  have hlength := hbegins.length_lt rfl
  obtain ⟨bound, rfl⟩ : ∃ b, bound = b + 1 := ⟨bound - 1, by omega⟩
  obtain ⟨kind, place, more, rfl, hkind⟩ := hbegins.exists_cons rfl
  refine leads_peek_cons ?_
  dsimp only
  rw [if_neg]
  · refine (hfirst (fun _ => hbegins'.no_else hrest) depth budget hfits).after ?_
    rintro n rfl
    refine (hmore hrest depth budget bound hfits ?_).after ?_
    · omega
    · rintro ns rfl
      exact accepts_pure _
  · intro hended
    rcases Bool.or_eq_true_iff.1 hended with hclosed | hend
    · rw [of_decide_eq_true hclosed] at hkind
      cases hkind
    · rw [of_decide_eq_true hend] at hkind
      cases hkind

/-! ## The induction -/

/-- What the grammar derives is read. -/
theorem Derives.accepted {p : Phrase} {tree : Option p.Tree} (h : Derives p input tree rest) :
    p.Accepted input tree rest := by
  induction h with
  | atom h => exact accepted_atom h
  | arrayLiteral h ih => exact accepted_arrayLiteral h.ne_nil ih
  | parentheses h ih => exact accepted_parentheses h.begins ih
  | parenthesizedDeclaration h ih => exact accepted_parenthesizedDeclaration h ih
  | operand _ ih => exact accepted_operand ih
  | postInc _ ih => exact accepted_postInc ih
  | postDec _ ih => exact accepted_postDec ih
  | index _ _ ih ih' => exact accepted_index ih ih'
  | call _ _ ih ih' => exact accepted_call ih ih'
  | unsigned h ih => exact accepted_unsigned h.begins ih
  | not _ ih => exact accepted_not ih
  | neg _ ih => exact accepted_neg ih
  | plus _ ih => exact accepted_plus ih
  | addressOf _ ih => exact accepted_addressOf ih
  | deref _ ih => exact accepted_deref ih
  | preInc _ ih => exact accepted_preInc ih
  | preDec _ ih => exact accepted_preDec ih
  | factor _ ih => exact ih
  | tighter _ ih => exact accepted_tighter ih
  | binary _ hop _ ih ih' => exact accepted_binary ih hop ih'
  | unassigned _ ih => exact accepted_unassigned ih
  | assign _ hop _ ih ih' => exact accepted_assign ih hop ih'
  | lastValue h ih => exact accepted_lastValue h.begins ih
  | moreValues h _ ih ih' => exact accepted_moreValues h.begins ih ih'
  | noArguments => exact accepted_noArguments
  | arguments h ih => exact accepted_arguments h.begins ih
  | lastElement h ih => exact accepted_lastElement h.begins ih
  | lastElementComma h ih => exact accepted_lastElementComma h.begins ih
  | moreElements h _ ih ih' => exact accepted_moreElements h.begins ih ih'
  | initialized hspec hdims _ ih => exact accepted_initialized hspec hdims ih
  | withInitializer _ ih => exact ih
  | withoutInitializer hspec hdims => exact accepted_withoutInitializer hspec hdims
  | noClause => exact accepted_noClause
  | clause h ih => exact accepted_clause h.begins ih
  | noInit => exact accepted_noInit
  | declarationInit h ih => exact accepted_declarationInit h.begins ih
  | valueInit h ih => exact accepted_valueInit h.begins ih
  | returnFrom _ ih => exact accepted_returnFrom ih
  | ifThen _ _ ih ih' => exact accepted_ifThen ih ih'
  | ifElse _ _ _ ih ih' ih'' => exact accepted_ifElse ih ih' ih''
  | whileLoop _ _ ih ih' => exact accepted_whileLoop ih ih'
  | forLoop _ _ _ _ ih ih' ih'' ih''' => exact accepted_forLoop ih ih' ih'' ih'''
  | breakLoop => exact accepted_breakLoop
  | continueLoop => exact accepted_continueLoop
  | empty => exact accepted_empty
  | block _ ih => exact accepted_block ih
  | declared h ih => exact accepted_declared h.begins ih
  | expression h hkind ih => exact accepted_expression h.begins ih hkind
  | noStatements => exact accepted_noStatements
  | moreStatements h h' ih ih' => exact accepted_moreStatements h.begins h'.begins ih ih'

end

/-! ## Functions and programs -/

namespace Parameter

variable {param : Option Param} {input middle rest : List Token}

theorem begins (h : Parameter input param rest) : Phrase.declaration.Begins input rest := by
  obtain ⟨hspec, hdims⟩ := h
  exact hspec.begins (Nat.le_succ_of_le hdims.length_le)

end Parameter

/-- What stands behind a lone `void` is not a parenthesis. -/
theorem TypeSpecifier.not_void_alone {spec : CType × Bool} {name : String} {l v r : Location}
    {rest middle : List Token}
    (h : TypeSpecifier (⟨.keyword .void, v⟩ :: ⟨.symbol .rightParen, r⟩ :: rest) spec
      (⟨.identifier name, l⟩ :: middle)) : False := by
  generalize hinput : ⟨.keyword .void, v⟩ :: ⟨.symbol .rightParen, r⟩ :: rest = input at h
  cases h with
  | plain hstars =>
    obtain ⟨-, rfl⟩ := List.cons.inj hinput
    cases hstars
  | const => cases hinput

namespace Reader

variable {depth : Nat} {input middle rest : List Token}

theorem accepts_parameter {param : Option Param} (h : Parameter input param rest)
    (hrest : Behind endsOperand rest) : Accepts depth input parameter param rest := by
  obtain ⟨hspec, hdims⟩ := h
  refine leads_peek_bind fun kind place more _ => ?_
  refine (accepts_typeSpecifier hspec rfl).after ?_
  rintro _ ⟨⟩
  refine leads_identifier_cons ?_
  refine (accepts_dimensionsUpTo hdims hrest maxNesting).after ?_
  rintro _ ⟨⟩
  refine (leads_parameterType (fun _ h => h) _ _ place).after fun type htype => ?_
  split
  · exact leads_fail_bind place rfl
  · rw [htype]
    exact accepts_pure _

theorem accepts_parametersUpTo {params : Option (List Param)} (h : Parameters input params rest)
    (hrest : Behind (· = .symbol .rightParen) rest) (bound : Nat) (hbound : input.length ≤ bound) :
    Accepts depth input (commaSeparatedUpTo parameter bound) params rest := by
  induction h generalizing bound with
  | last h =>
    exact accepts_lastItem (h.begins.length_lt rfl) (accepts_parameter h (hrest.of_eq rfl))
      (hrest.of_eq rfl) hbound
  | more h _ ih =>
    have hlength := Nat.lt_of_succ_lt (h.begins.length_lt rfl)
    exact accepts_moreItems hlength (accepts_parameter h rfl) (ih hrest) hbound

theorem begins_of_parameters {params : Option (List Param)} (h : Parameters input params rest) :
    ∃ kind place more, input = ⟨kind, place⟩ :: more ∧ startsType kind = true := by
  cases h with
  | last h => exact h.begins.exists_cons rfl
  | more h => exact h.begins.exists_cons rfl

theorem not_void_alone_of_parameters {params : Option (List Param)} {l r : Location}
    (h : Parameters (⟨.keyword .void, l⟩ :: ⟨.symbol .rightParen, r⟩ :: middle) params rest) : False := by
  cases h with
  | last h | more h =>
    obtain ⟨hspec, -⟩ := h
    exact hspec.not_void_alone

/-- The parameters are read up to the closing parenthesis. -/
theorem leads_parameters {α : Type} {params : Option (List Param)} {f : List Param → Reader α}
    {Q : α → Nat → List Token → Prop} (h : ParameterList input params rest)
    (hf : ∀ ps, params = some ps → Leads Checked depth rest (f ps) Q) :
    Leads Checked depth input
      (parameters >>= fun ps => expect .rightParen "after parameters" >>= fun _ => f ps) Q := by
  cases h with
  | @empty r =>
    have hread : Accepts depth (⟨.symbol .rightParen, r⟩ :: rest) parameters (some [])
        (⟨.symbol .rightParen, r⟩ :: rest) :=
      leads_isNext_bind (fun _ => accepts_pure []) fun h => absurd rfl h
    refine hread.after ?_
    rintro _ ⟨⟩
    exact leads_expect_cons (hf [] rfl)
  | @void l r =>
    have hread : Accepts depth (⟨.keyword .void, l⟩ :: ⟨.symbol .rightParen, r⟩ :: rest) parameters
        (some []) (⟨.symbol .rightParen, r⟩ :: rest) := by
      refine leads_isNext_bind (fun h => nomatch h) fun _ => ?_
      refine leads_voidIsAlone_bind ?_ fun h => absurd rfl (h l r rest)
      rintro _ _ _ ⟨⟩
      exact leads_advance_bind nofun (accepts_pure [])
    refine hread.after ?_
    rintro _ ⟨⟩
    exact leads_expect_cons (hf [] rfl)
  | @some r input rest params h =>
    have hread : Accepts depth input parameters params (⟨.symbol .rightParen, r⟩ :: rest) := by
      obtain ⟨kind, place, more, rfl, hkind⟩ := begins_of_parameters h
      refine leads_isNext_bind ?_ fun _ => leads_voidIsAlone_bind ?_ fun _ => ?_
      · rintro rfl
        cases hkind
      · rintro l r more ⟨⟩
        exact (not_void_alone_of_parameters h).elim
      · exact leads_itemBound_bind (accepts_parametersUpTo h rfl _ (Nat.le_refl _))
    exact hread.after fun ps hps => leads_expect_cons (hf ps hps)

end Reader

theorem ParameterList.length_le {input rest : List Token} {params : Option (List Param)}
    (h : ParameterList input params rest) : rest.length ≤ input.length := by
  have hmore {input rest : List Token} {params : Option (List Param)}
      (h : Parameters input params rest) : rest.length ≤ input.length := by
    induction h with
    | last h => exact h.begins.length_le
    | more h _ ih => exact Nat.le_trans ih h.begins.length_le_of_cons
  cases h with
  | empty => exact Nat.le_succ _
  | void => exact Nat.le_succ_of_le (Nat.le_succ _)
  | some h => exact Nat.le_of_succ_le (hmore h)

section Programs

variable {spec : CType × Bool} {name : String} {l o b e : Location}
  {input behindOpen behindBrace middle rest : List Token} {params : Option (List Param)}
  {body nodes : Option (List Node)}

theorem accepts_functionDefinition
    (hspec : TypeSpecifier input spec (⟨.identifier name, l⟩ :: ⟨.symbol .leftParen, o⟩ :: behindOpen))
    (hparams : ParameterList behindOpen params (⟨.symbol .leftBrace, b⟩ :: behindBrace))
    (hbody : Derives .statements behindBrace body (⟨.symbol .rightBrace, e⟩ :: middle)) :
    Accepts 0 input functionDefinition ((.function l name spec.1 · ·) <$> params <*> body) middle := by
  have hfits : Fits 0 (maxNesting + 1) := by
    unfold Fits
    omega
  refine (accepts_typeSpecifier hspec rfl).after ?_
  rintro _ ⟨⟩
  refine leads_identifier_cons (leads_define_bind rfl (leads_expect_cons ?_))
  refine leads_parameters hparams ?_
  rintro ps rfl
  refine leads_expect_cons ?_
  have hstatements : Accepts 0 behindBrace (statements (statement (maxNesting + 1))) body
      (⟨.symbol .rightBrace, e⟩ :: middle) :=
    leads_itemBound_bind (hbody.accepted rfl 0 _ _ hfits (Nat.le_refl _))
  refine hstatements.after ?_
  rintro ns rfl
  exact leads_expect_cons (accepts_pure _)

theorem length_lt_of_function
    (hspec : TypeSpecifier input spec (⟨.identifier name, l⟩ :: ⟨.symbol .leftParen, o⟩ :: behindOpen))
    (hparams : ParameterList behindOpen params (⟨.symbol .leftBrace, b⟩ :: behindBrace))
    (hbody : Derives .statements behindBrace body (⟨.symbol .rightBrace, e⟩ :: middle)) :
    middle.length < input.length := by
  have hmiddle := hbody.begins.length_le_of_cons
  have hbrace := Nat.le_of_succ_le hparams.length_le
  refine (hspec.begins (Nat.le_succ_of_le (Nat.le_succ_of_le ?_))).length_lt rfl
  exact Nat.le_trans hmiddle hbrace

theorem accepts_functionsUpTo (h : Definitions input nodes rest) (hrest : Behind (· = .endOfFile) rest)
    (bound : Nat) (hbound : input.length ≤ bound) :
    Accepts 0 input (functionsUpTo bound) nodes rest := by
  induction h generalizing bound with
  | nil =>
    refine leads_of_cons ?_
    rintro kind place more rfl
    have hended : kind = .endOfFile := of_decide_eq_true hrest
    obtain ⟨bound, rfl⟩ : ∃ b, bound = b + 1 := ⟨bound - 1, by rw [List.length_cons] at hbound; omega⟩
    exact leads_isNext_bind (fun _ => accepts_pure []) fun h => absurd hended h
  | @cons _ _ _ _ _ _ _ _ _ _ _ params body _ hspec hparams hbody _ ih =>
    have hlength := length_lt_of_function hspec hparams hbody
    obtain ⟨bound, rfl⟩ : ∃ b, bound = b + 1 := ⟨bound - 1, by omega⟩
    obtain ⟨kind, place, more, rfl, hkind⟩ := (hspec.begins (Nat.le_refl _)).exists_cons rfl
    refine leads_isNext_bind ?_ fun _ => ?_
    · rintro rfl
      cases hkind
    · refine (accepts_functionDefinition hspec hparams hbody).after fun node hnode => ?_
      refine (ih hrest bound (by omega)).after ?_
      rintro nodes rfl
      cases params with
      | none => cases hnode
      | some ps =>
        cases body with
        | none => cases hnode
        | some ns =>
          obtain rfl := Option.some.inj hnode
          exact accepts_pure _

end Programs

/-- What the grammar derives is read as the program of the derivation, or refused by a static check. -/
theorem ofTokens_of_spells {tokens : List Token} {nodes : Option (List Node)} (hends : Ends tokens)
    (h : Spells tokens nodes) :
    (∃ ns, nodes = some ns ∧ Program.ofTokens tokens = .ok ⟨ns⟩) ∨
      ∃ e, Program.ofTokens tokens = .error e ∧ e.fault.isStaticCheck = true := by
  obtain ⟨token, rest, rfl⟩ : ∃ token rest, tokens = token :: rest := by
    obtain ⟨token, hmem, -⟩ := hends
    exact List.exists_cons_of_ne_nil (List.ne_nil_of_mem hmem)
  obtain ⟨place, more, hspells⟩ := h
  have hreads := accepts_functionsUpTo hspells rfl _ (Nat.le_succ _)
    (.ofTokens (token :: rest)) rfl rfl hends
  unfold Program.ofTokens
  cases hrun : (functionsUpTo ((token :: rest).length + 1)).run (.ofTokens (token :: rest)) with
  | error e =>
    rw [hrun] at hreads
    exact .inr ⟨e, rfl, hreads⟩
  | ok r =>
    rw [hrun] at hreads
    obtain ⟨⟨hnodes, -⟩, -⟩ := hreads
    exact .inl ⟨r.1, hnodes, rfl⟩

/-- The lists of tokens that are read as programs are those that the grammar derives, but for the
static checks, and what is read is the tree of the derivation. -/
theorem ofTokens_recognizes (tokens : List Token) (place : Location) :
    (∀ program, Program.ofTokens (tokens ++ [⟨.endOfFile, place⟩]) = .ok program →
      Spells (tokens ++ [⟨.endOfFile, place⟩]) (some program.nodes)) ∧
    ∀ nodes, Spells (tokens ++ [⟨.endOfFile, place⟩]) nodes →
      (∃ ns, nodes = some ns ∧ Program.ofTokens (tokens ++ [⟨.endOfFile, place⟩]) = .ok ⟨ns⟩) ∨
        ∃ e, Program.ofTokens (tokens ++ [⟨.endOfFile, place⟩]) = .error e ∧
          e.fault.isStaticCheck = true := by
  have hends : Ends (tokens ++ [⟨.endOfFile, place⟩]) :=
    ⟨⟨.endOfFile, place⟩, List.mem_append_right _ (List.mem_singleton_self _), rfl⟩
  exact ⟨fun _ => spells_of_ofTokens hends, fun _ => ofTokens_of_spells hends⟩

end BoundedC
