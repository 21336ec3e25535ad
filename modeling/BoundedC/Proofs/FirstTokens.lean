import BoundedC.Proofs.Grammar

/-!
# First tokens

A reader decides by the next token. `Phrase.starts` says which tokens a phrase of the grammar may
begin with, and `Derives.begins` that it begins with one of them and takes it. On the other side of a
phrase, `Behind` says which token is next: an operand ends where no operator can go on with it.

* `endsOperand`, `endsLevels`, `endsValue` : tokens that no operator of some levels is;
* `Stratified` : an operator of a level is none of a tighter one.
-/

namespace BoundedC

namespace TokenKind

def startsOperand : TokenKind → Bool
  | .int _ | .char _ | .string _ | .identifier _ | .symbol .leftBrace | .symbol .leftParen => true
  | _ => false

def startsValue : TokenKind → Bool
  | .symbol .bang | .symbol .minus | .symbol .plus | .symbol .amp | .symbol .star
  | .symbol .plusPlus | .symbol .minusMinus => true
  | kind => kind.startsOperand

def startsStatement : TokenKind → Bool
  | .symbol .semicolon | .keyword .returnWord | .keyword .ifWord | .keyword .whileWord
  | .keyword .forWord | .keyword .breakWord | .keyword .continueWord => true
  | kind => kind.startsValue || Reader.startsType kind

theorem startsValue_of_startsOperand {kind : TokenKind} (h : kind.startsOperand = true) :
    kind.startsValue = true := by
  unfold startsValue
  split <;> first | rfl | exact h

theorem startsStatement_of_startsValue {kind : TokenKind} (h : kind.startsValue = true) :
    kind.startsStatement = true := by
  unfold startsStatement
  split
  case h_8 => rw [h, Bool.true_or]
  all_goals rfl

theorem startsStatement_of_startsType {kind : TokenKind} (h : Reader.startsType kind = true) :
    kind.startsStatement = true := by
  unfold startsStatement
  split
  case h_8 => rw [h, Bool.or_true]
  all_goals rfl

theorem startsType_of_startsValue {kind : TokenKind} (h : kind.startsValue = true) :
    Reader.startsType kind = false := by
  cases kind with
  | keyword => cases h
  | _ => rfl

end TokenKind

/-- Whether there is a phrase of the kind with no tokens in it. -/
def Phrase.isNullable : Phrase → Bool
  | arguments | clause | statements => true
  | _ => false

def Phrase.starts : Phrase → TokenKind → Bool
  | primary, kind | trailing, kind => kind.startsOperand
  | initialized, kind | declaration, kind => Reader.startsType kind
  | forInit, kind | statement _, kind | statements, kind => kind.startsStatement
  | _, kind => kind.startsValue

/-- The phrase in front of `rest` has no tokens, or takes a token that may begin it. -/
def Phrase.Begins (p : Phrase) (input rest : List Token) : Prop :=
  p.isNullable = true ∧ input = rest ∨
    ∃ kind place more, input = ⟨kind, place⟩ :: more ∧ p.starts kind = true ∧ rest.length ≤ more.length

namespace Phrase.Begins

variable {p q : Phrase} {input middle rest : List Token}

theorem length_le (h : p.Begins input rest) : rest.length ≤ input.length := by
  obtain ⟨-, rfl⟩ | ⟨kind, place, more, rfl, -, hle⟩ := h
  · exact Nat.le_refl _
  · exact Nat.le_succ_of_le hle

theorem length_le_of_cons {token : Token} (h : p.Begins input (token :: rest)) :
    rest.length ≤ input.length :=
  Nat.le_of_succ_le h.length_le

theorem length_lt (h : p.Begins input rest) (hp : p.isNullable = false) : rest.length < input.length := by
  obtain ⟨hnull, -⟩ | ⟨kind, place, more, rfl, -, hle⟩ := h
  · rw [hp] at hnull
    cases hnull
  · exact Nat.lt_succ_of_le hle

theorem exists_cons (h : p.Begins input rest) (hp : p.isNullable = false) :
    ∃ kind place more, input = ⟨kind, place⟩ :: more ∧ p.starts kind = true := by
  obtain ⟨hnull, -⟩ | ⟨kind, place, more, hinput, hstarts, -⟩ := h
  · rw [hp] at hnull
    cases hnull
  · exact ⟨kind, place, more, hinput, hstarts⟩

theorem cons {kind : TokenKind} {place : Location} (hstarts : p.starts kind = true)
    (hle : rest.length ≤ input.length) : p.Begins (⟨kind, place⟩ :: input) rest :=
  .inr ⟨kind, place, input, rfl, hstarts, hle⟩

/-- A longer phrase begins with its first part. -/
theorem extend (h : p.Begins input middle) (hp : p.isNullable = false)
    (hstarts : ∀ kind, p.starts kind = true → q.starts kind = true)
    (hle : rest.length ≤ middle.length) : q.Begins input rest := by
  obtain ⟨hnull, -⟩ | ⟨kind, place, more, hinput, hkind, hmore⟩ := h
  · rw [hp] at hnull
    cases hnull
  · exact .inr ⟨kind, place, more, hinput, hstarts kind hkind, Nat.le_trans hle hmore⟩

end Phrase.Begins

/-! ## Types -/

theorem Stars.length_le {t u : CType} {input rest : List Token} (h : Stars t input u rest) :
    rest.length ≤ input.length := by
  induction h with
  | nil => exact Nat.le_refl _
  | cons _ ih => exact Nat.le_succ_of_le ih

theorem Dimensions.length_le {dims : List Dimension} {input rest : List Token}
    (h : Dimensions input dims rest) : rest.length ≤ input.length := by
  induction h with
  | nil => exact Nat.le_refl _
  | omitted _ ih | length _ ih =>
    simp only [List.length_cons]
    omega

theorem startsType_word (base : BaseType) : Reader.startsType (.keyword base.word) = true := by
  cases base <;> rfl

theorem TypeSpecifier.begins {spec : CType × Bool} {input middle rest : List Token}
    (h : TypeSpecifier input spec middle) (hle : rest.length ≤ middle.length) :
    Phrase.declaration.Begins input rest := by
  cases h with
  | plain hstars => exact .cons (startsType_word _) (Nat.le_trans hle hstars.length_le)
  | const hstars => exact .cons rfl (Nat.le_succ_of_le (Nat.le_trans hle hstars.length_le))

/-! ## Phrases -/

theorem Atom.startsOperand {l : Location} {kind : TokenKind} {node : Node} (h : Atom l kind node) :
    kind.startsOperand = true := by
  cases h <;> rfl

open TokenKind in
theorem Derives.begins {p : Phrase} {input rest : List Token} {tree : Option p.Tree}
    (h : Derives p input tree rest) : p.Begins input rest := by
  induction h with
  | atom h => exact .cons h.startsOperand (Nat.le_refl _)
  | arrayLiteral _ ih | parentheses _ ih | parenthesizedDeclaration _ ih =>
    exact .cons rfl ih.length_le_of_cons
  | operand _ ih => exact ih.extend rfl (fun _ h => h) (Nat.le_refl _)
  | postInc _ ih | postDec _ ih => exact ih.extend rfl (fun _ h => h) (Nat.le_succ _)
  | index _ _ ih ih' | call _ _ ih ih' =>
    exact ih.extend rfl (fun _ h => h) (Nat.le_succ_of_le ih'.length_le_of_cons)
  | unsigned _ ih => exact ih.extend rfl (fun _ => startsValue_of_startsOperand) (Nat.le_refl _)
  | not _ ih | neg _ ih | plus _ ih | addressOf _ ih | deref _ ih | preInc _ ih | preDec _ ih =>
    exact .cons rfl ih.length_le
  | factor _ ih | tighter _ ih | unassigned _ ih | lastValue _ ih | lastElement _ ih =>
    exact ih.extend rfl (fun _ h => h) (Nat.le_refl _)
  | binary _ _ _ ih ih' | assign _ _ _ ih ih' | moreValues _ _ ih ih' | moreElements _ _ ih ih' =>
    exact ih.extend rfl (fun _ h => h) (Nat.le_succ_of_le ih'.length_le)
  | noArguments | noClause | noStatements => exact .inl ⟨rfl, rfl⟩
  | arguments _ ih | clause _ ih => exact ih.extend rfl (fun _ h => h) (Nat.le_refl _)
  | lastElementComma _ ih => exact ih.extend rfl (fun _ h => h) (Nat.le_succ _)
  | initialized hspec hdims _ ih =>
    have hle := Nat.le_trans (Nat.le_succ_of_le ih.length_le) hdims.length_le
    exact (hspec.begins (Nat.le_succ_of_le hle)).extend rfl (fun _ h => h) (Nat.le_refl _)
  | withInitializer _ ih => exact ih.extend rfl (fun _ h => h) (Nat.le_refl _)
  | withoutInitializer hspec hdims => exact hspec.begins (Nat.le_succ_of_le hdims.length_le)
  | noInit | empty => exact .cons rfl (Nat.le_refl _)
  | breakLoop | continueLoop => exact .cons rfl (Nat.le_succ _)
  | declarationInit _ ih | declared _ ih =>
    exact ih.extend rfl (fun _ => startsStatement_of_startsType) (Nat.le_succ _)
  | valueInit _ ih | expression _ _ ih =>
    exact ih.extend rfl (fun _ => startsStatement_of_startsValue) (Nat.le_succ _)
  | returnFrom _ ih | block _ ih => exact .cons rfl ih.length_le_of_cons
  | ifThen _ _ ih ih' | whileLoop _ _ ih ih' =>
    have h := ih.length_le
    have h' := ih'.length_le
    simp only [List.length_cons] at h
    exact .cons rfl (by simp only [List.length_cons]; omega)
  | ifElse _ _ _ ih ih' ih'' =>
    have h := ih.length_le
    have h' := ih'.length_le
    have h'' := ih''.length_le
    simp only [List.length_cons] at h h'
    exact .cons rfl (by simp only [List.length_cons]; omega)
  | forLoop _ _ _ _ ih ih' ih'' ih''' =>
    have h := ih.length_le
    have h' := ih'.length_le
    have h'' := ih''.length_le
    have h''' := ih'''.length_le
    simp only [List.length_cons] at h' h''
    exact .cons rfl (by simp only [List.length_cons]; omega)
  | moreStatements _ _ ih ih' => exact ih.extend rfl (fun _ h => h) ih'.length_le

/-! ## What is next behind a phrase -/

/-- The next token, if there is one, is such a one. -/
def Behind (ends : TokenKind → Bool) : List Token → Prop
  | [] => True
  | token :: _ => ends token.kind = true

theorem Behind.imp {ends ends' : TokenKind → Bool} {rest : List Token} (h : Behind ends rest)
    (himp : ∀ kind, ends kind = true → ends' kind = true) : Behind ends' rest := by
  cases rest with
  | nil => trivial
  | cons token rest => exact himp token.kind h

theorem Behind.of_eq {ends : TokenKind → Bool} {kind : TokenKind} {rest : List Token}
    (h : Behind (· = kind) rest) (hends : ends kind = true) : Behind ends rest :=
  h.imp fun _ heq => of_decide_eq_true heq ▸ hends

/-- Whether no operator behind an operand is next. -/
def endsOperand : TokenKind → Bool
  | .symbol .plusPlus | .symbol .minusMinus | .symbol .leftBracket | .symbol .leftParen => false
  | _ => true

/-- Whether no operator of the levels is next, and none behind an operand. -/
def endsLevels (levels : List (List (Symbol × BinaryOp))) (kind : TokenKind) : Bool :=
  endsOperand kind && levels.all fun level => (operatorOf? level kind).isNone

/-- Whether no operator is next that a value could go on with. -/
def endsValue (kind : TokenKind) : Bool :=
  endsLevels operatorLevels kind && (assignmentOf? kind).isNone

theorem endsOperand_of_endsLevels {levels : List (List (Symbol × BinaryOp))} {kind : TokenKind}
    (h : endsLevels levels kind = true) : endsOperand kind = true :=
  (Bool.and_eq_true_iff.1 h).1

theorem endsLevels_cons {level : List (Symbol × BinaryOp)} {levels : List (List (Symbol × BinaryOp))}
    {kind : TokenKind} :
    endsLevels (level :: levels) kind = true ↔
      operatorOf? level kind = none ∧ endsLevels levels kind = true := by
  simp only [endsLevels, List.all_cons, Bool.and_eq_true, Option.isNone_iff_eq_none]
  exact and_left_comm

theorem endsLevels_of_endsValue {kind : TokenKind} (h : endsValue kind = true) :
    endsLevels operatorLevels kind = true :=
  (Bool.and_eq_true_iff.1 h).1

theorem assignmentOf?_of_endsValue {kind : TokenKind} (h : endsValue kind = true) :
    assignmentOf? kind = none :=
  Option.isNone_iff_eq_none.1 (Bool.and_eq_true_iff.1 h).2

/-- An operator of a level is found there, is none of a tighter level, and none that stands behind an
operand. -/
def Stratified : List (List (Symbol × BinaryOp)) → Prop
  | [] => True
  | level :: levels =>
    (∀ sign ∈ level, operatorOf? level (.symbol sign.1) = some sign.2 ∧
      endsLevels levels (.symbol sign.1) = true) ∧ Stratified levels

theorem stratified_operatorLevels : Stratified operatorLevels := by
  refine ⟨?_, ?_, ?_, ?_, ?_, ?_, trivial⟩
  all_goals decide

/-- An assignment is not a binary operator. -/
theorem AssignmentSign.endsLevels {s : Symbol} {op : Option BinaryOp} (h : AssignmentSign s op) :
    endsLevels operatorLevels (.symbol s) = true := by
  cases h <;> rfl

end BoundedC
