import BoundedC.Proofs.Leads
import BoundedC.Proofs.Plain

/-!
# Parameters as they are written

A parameter is written as a type, a name and perhaps the dimensions of an array. What is declared is
told by these alone: neither the tokens behind them matter nor the places at which they stand. The
length of the outermost dimension is not part of it.

* `WrittenParam.kinds`, `WrittenParam.param` : the tokens of a parameter, and what they declare;
* `WrittenParam.Declarable` : none of the checks of declarations refuses it;
* `Reader.Takes` : the reader takes tokens of these kinds, whatever stands behind them;
* `takes_parameter` : a declarable parameter is read.
-/

namespace BoundedC

/-! ## What is written -/

namespace CType

def starred (t : CType) : Nat → CType
  | 0 => t
  | stars + 1 => (pointer t).starred stars

/-- The array type with the given lengths, the outermost first. -/
def arrayed (t : CType) : List Int32 → CType
  | [] => t
  | n :: inner => .array (t.arrayed inner) n.toInt.toNat

theorem starred_succ (t : CType) (stars : Nat) : t.starred (stars + 1) = .pointer (t.starred stars) := by
  induction stars generalizing t with
  | zero => rfl
  | succ stars ih => exact ih (.pointer t)

end CType

structure WrittenType where
  isConst : Bool
  base : BaseType
  stars : Nat
  deriving DecidableEq

namespace WrittenType

def kinds (w : WrittenType) : List TokenKind :=
  (if w.isConst then [.keyword .const] else []) ++
    .keyword w.base.word :: List.replicate w.stars (.symbol .star)

def type (w : WrittenType) : CType := w.base.type.starred w.stars

/-- The name behind the type is read-only: a star behind `const` makes it about the pointee. -/
def isReadOnly (w : WrittenType) : Bool := w.isConst && w.stars == 0

theorem not_isPointer_type (w : WrittenType) : (!w.type.isPointer) = (w.stars == 0) := by
  obtain ⟨isConst, base, stars⟩ := w
  cases stars with
  | zero => cases base <;> rfl
  | succ stars =>
    unfold type
    rw [CType.starred_succ]
    rfl

end WrittenType

/-- What is written behind the name of a parameter: nothing, or the dimensions of an array, of which the
outermost may be left out. -/
inductive WrittenShape where
  | plain
  | array (outer : Option Int32) (inner : List Int32)
  deriving DecidableEq

namespace WrittenShape

def dims : WrittenShape → List (Option Int32)
  | plain => []
  | array outer inner => outer :: inner.map some

def inner : WrittenShape → List Int32
  | plain => []
  | array _ inner => inner

end WrittenShape

def dimensionKinds : Option Int32 → List TokenKind
  | none => [.symbol .leftBracket, .symbol .rightBracket]
  | some n => [.symbol .leftBracket, .int n, .symbol .rightBracket]

def dimensionOf : Option Int32 → Dimension := Option.map fun n => n.toInt.toNat

structure WrittenParam where
  spec : WrittenType
  name : String
  shape : WrittenShape
  deriving DecidableEq

namespace WrittenParam

def kinds (p : WrittenParam) : List TokenKind :=
  p.spec.kinds ++ .identifier p.name :: p.shape.dims.flatMap dimensionKinds

def elementType (p : WrittenParam) : CType := p.spec.type.arrayed p.shape.inner

/-- The type that is declared: an array parameter is a pointer to its element type. -/
def type (p : WrittenParam) : CType :=
  match p.shape with
  | .plain => p.spec.type
  | .array .. => .pointer p.elementType

/-- What is declared. Whether the name is read-only is told by what is written in front of it. -/
def param (p : WrittenParam) : Param := ⟨p.name, p.type, p.spec.isReadOnly⟩

/-- No check of a declaration refuses the parameter: it has no more stars and dimensions than are
allowed, its lengths are positive, the elements of the array can be addressed and it is not `void`. -/
structure Declarable (p : WrittenParam) : Prop where
  stars_le : p.spec.stars ≤ maxNesting
  dims_le : p.shape.dims.length ≤ maxNesting
  positive : ∀ n, some n ∈ p.shape.dims → 0 < n
  addressable : p.elementType.size?.any (· ≤ maxObjectBytes) = true
  type_ne : p.type ≠ .void

end WrittenParam

/-! ## Taking tokens -/

def ReaderState.facing (s : ReaderState) : List Token → ReaderState
  | [] => s
  | token :: rest => { s with current := token, rest }

namespace Reader

variable {α β : Type} {kind : TokenKind} {kinds kinds' : List TokenKind} {a : α} {b : β}
  {stop stop' : TokenKind → Prop}

/-- Tokens of these kinds are taken and the value is read from them, if a token of a kind follows at
which the reader stops. -/
def Takes (x : Reader α) (kinds : List TokenKind) (a : α) (stop : TokenKind → Prop) : Prop :=
  ∀ (s : ReaderState) (tokens more : List Token) (next : Token), tokens.map Token.kind = kinds →
    stop next.kind → x.run (s.facing (tokens ++ next :: more)) = .ok (a, s.facing (next :: more))

namespace Takes

theorem pure (a : α) : Takes (pure a) [] a stop := by
  intro s tokens more next htokens _
  rw [List.map_eq_nil_iff.1 htokens]
  rfl

/-- Behind one reader another one goes on, and the first one stops at what it begins with. -/
theorem bind {x : Reader α} {f : α → Reader β} (hx : Takes x kinds a stop)
    (hf : Takes (f a) kinds' b stop') (hstop : ∀ kind, stop' kind → stop (kinds'.headD kind)) :
    Takes (x >>= f) (kinds ++ kinds') b stop' := by
  intro s tokens more next htokens hnext
  obtain ⟨first, second, rfl, hfirst, rfl⟩ := List.map_eq_append_iff.1 htokens
  have hrest := hf s second more next rfl hnext
  have hbegins := hstop _ hnext
  rw [List.append_assoc, StateT.run_bind]
  cases second with
  | nil =>
    rw [List.nil_append, hx s first more next hfirst hbegins]
    exact hrest
  | cons token second =>
    rw [List.cons_append, hx s first (second ++ next :: more) token hfirst hbegins]
    exact hrest

/-- Nothing is taken in front of the other reader. -/
theorem bind_nil {x : Reader α} {f : α → Reader β} (hx : Takes x [] a fun _ => True)
    (hf : Takes (f a) kinds b stop) : Takes (x >>= f) kinds b stop :=
  hx.bind hf fun _ _ => trivial

theorem map {x : Reader α} (hx : Takes x kinds a stop) (f : α → β) :
    Takes (f <$> x) kinds (f a) stop := by
  rw [map_eq_pure_bind, ← List.append_nil kinds]
  exact hx.bind (.pure (f a)) fun _ h => h

end Takes

theorem takes_peek_bind {f : Token → Reader α}
    (hf : ∀ place, Takes (f ⟨kind, place⟩) (kind :: kinds) a stop) :
    Takes (peek >>= f) (kind :: kinds) a stop := by
  intro s tokens more next htokens hnext
  obtain ⟨token, rest, rfl, rfl, hrest⟩ := List.map_eq_cons_iff.1 htokens
  exact hf token.place s (token :: rest) more next htokens hnext

/-- What the reader stops at is looked at. -/
theorem takes_peek_nil {f : Token → Reader α}
    (hf : ∀ token : Token, stop token.kind → f token = pure a) : Takes (peek >>= f) [] a stop := by
  intro s tokens more next htokens hnext
  rw [List.map_eq_nil_iff.1 htokens]
  show (f next).run _ = _
  rw [hf next hnext]
  rfl

theorem takes_advance (hkind : kind ≠ .endOfFile) : Takes advance [kind] () fun _ => True := by
  intro s tokens more next htokens _
  obtain ⟨token, rest, rfl, rfl, hrest⟩ := List.map_eq_cons_iff.1 htokens
  rw [List.map_eq_nil_iff.1 hrest]
  show Except.ok ((), if token.kind = .endOfFile then _ else _) = _
  rw [if_neg hkind]
  rfl

theorem takes_advance_bind {f : Unit → Reader α} (hkind : kind ≠ .endOfFile)
    (hf : Takes (f ()) kinds a stop) : Takes (advance >>= f) (kind :: kinds) a stop :=
  (takes_advance hkind).bind hf fun _ _ => trivial

theorem takes_acceptKind (hkind : kind ≠ .endOfFile) :
    Takes (acceptKind kind) [kind] true fun _ => True := by
  unfold acceptKind isNext
  rw [bind_assoc]
  refine takes_peek_bind fun place => ?_
  rw [pure_bind, decide_eq_true rfl, if_pos rfl]
  exact takes_advance_bind hkind (.pure true)

theorem takes_acceptKind_bind {f : Bool → Reader α} (hkind : kind ≠ .endOfFile)
    (hf : Takes (f true) kinds a stop) : Takes (acceptKind kind >>= f) (kind :: kinds) a stop :=
  (takes_acceptKind hkind).bind hf fun _ _ => trivial

/-- Another token is next. -/
theorem takes_acceptKind_bind_of_ne {f : Bool → Reader α} {other : TokenKind} (hne : kind ≠ other)
    (hf : Takes (f false) (kind :: kinds) a stop) :
    Takes (acceptKind other >>= f) (kind :: kinds) a stop := by
  unfold acceptKind isNext
  rw [bind_assoc, bind_assoc]
  refine takes_peek_bind fun place => ?_
  rw [pure_bind, decide_eq_false hne]
  exact hf

theorem takes_identifier_bind {f : String × Location → Reader α} {name : String}
    (hf : ∀ place, Takes (f (name, place)) kinds a stop) :
    Takes (identifier >>= f) (.identifier name :: kinds) a stop := by
  unfold identifier
  rw [bind_assoc]
  refine takes_peek_bind fun place => ?_
  dsimp only
  rw [bind_assoc]
  exact takes_advance_bind nofun (hf place)

theorem takes_expect (s : Symbol) (context : String) :
    Takes (expect s context) [.symbol s] () fun _ => True := by
  refine takes_peek_bind fun place => ?_
  rw [if_pos rfl]
  exact takes_advance nofun

/-! ## Types -/

theorem takes_pointersTo (t : CType) {stars left : Nat} (hle : stars ≤ left) :
    Takes (pointersTo t left) (List.replicate stars (.symbol .star)) (t.starred stars)
      (· ≠ .symbol .star) := by
  induction stars generalizing t left with
  | zero =>
    unfold pointersTo
    exact takes_peek_nil fun token htoken => if_neg htoken
  | succ stars ih =>
    obtain ⟨left, rfl⟩ := Nat.exists_eq_add_of_lt hle
    unfold pointersTo
    refine takes_peek_bind fun place => ?_
    rw [if_pos rfl]
    exact takes_advance_bind nofun (ih _ (by omega))

theorem takes_typeSpecifier {w : WrittenType} (hstars : w.stars ≤ maxNesting) :
    Takes typeSpecifier w.kinds (w.type, w.isReadOnly) (· ≠ .symbol .star) := by
  have hbase (isConst : Bool) : Takes (typeBehindConst isConst)
      (.keyword w.base.word :: List.replicate w.stars (.symbol .star))
      (w.type, isConst && w.stars == 0) (· ≠ .symbol .star) := by
    refine takes_peek_bind fun place => ?_
    dsimp only
    rw [baseType?_eq_some_iff.2 ⟨w.base, rfl, rfl⟩, ← w.not_isPointer_type]
    have hstarred := (takes_pointersTo w.base.type hstars).map fun t => (t, isConst && !t.isPointer)
    rw [map_eq_pure_bind] at hstarred
    exact takes_advance_bind nofun hstarred
  obtain ⟨isConst, base, stars⟩ := w
  cases isConst with
  | true => exact takes_acceptKind_bind nofun (hbase true)
  | false =>
    refine takes_acceptKind_bind_of_ne ?_ (hbase false)
    cases base <;> exact nofun

/-! ## Dimensions -/

theorem takes_arrayLength {n : Int32} (hn : 0 < n) :
    Takes arrayLength [.int n, .symbol .rightBracket] n.toInt.toNat fun _ => True := by
  refine takes_peek_bind fun place => ?_
  dsimp only
  rw [if_neg (Int32.not_le.2 hn)]
  exact takes_advance_bind nofun ((takes_expect _ _).bind (.pure _) fun _ _ => trivial)

theorem takes_dimensionsUpTo {dims : List (Option Int32)} {left : Nat} (hle : dims.length ≤ left)
    (hpositive : ∀ n, some n ∈ dims → 0 < n) :
    Takes (dimensionsUpTo left) (dims.flatMap dimensionKinds) (dims.map dimensionOf)
      (· ≠ .symbol .leftBracket) := by
  induction dims generalizing left with
  | nil =>
    unfold dimensionsUpTo
    exact takes_peek_nil fun token htoken => if_neg htoken
  | cons dim dims ih =>
    obtain ⟨left, rfl⟩ := Nat.exists_eq_add_of_lt hle
    have hinner : Takes (dimensionsUpTo (dims.length + left)) (dims.flatMap dimensionKinds)
        (dims.map dimensionOf) (· ≠ .symbol .leftBracket) :=
      ih (Nat.le_add_right _ _) fun n hn => hpositive n (List.mem_cons_of_mem _ hn)
    have hrest := hinner.map (dimensionOf dim :: ·)
    rw [map_eq_pure_bind] at hrest
    rw [List.flatMap_cons]
    unfold dimensionsUpTo
    cases dim with
    | none =>
      refine takes_peek_bind fun place => ?_
      rw [if_pos rfl]
      exact takes_advance_bind nofun (takes_acceptKind_bind nofun (.bind_nil (.pure none) hrest))
    | some n =>
      have hn := hpositive n List.mem_cons_self
      refine takes_peek_bind fun place => ?_
      rw [if_pos rfl]
      refine takes_advance_bind nofun (takes_acceptKind_bind_of_ne nofun ?_)
      exact ((takes_arrayLength hn).map some).bind hrest fun _ _ => trivial

/-- The elements of an array that can be addressed can be addressed. -/
theorem addressable_of_array {t : CType} {length : Nat} (hlength : 0 < length)
    (h : (CType.array t length).size?.any (· ≤ maxObjectBytes) = true) :
    t.size?.any (· ≤ maxObjectBytes) = true := by
  obtain ⟨size, hsize, hle⟩ := (Option.any_eq_true _ _).1 h
  simp only [CType.size?, Option.bind_eq_bind, Option.bind_eq_some_iff] at hsize
  obtain ⟨element, helement, htotal⟩ := hsize
  split at htotal
  · cases htotal
    have helement_le : element ≤ element * length := Nat.le_mul_of_pos_right _ hlength
    have hobject : element * length ≤ maxObjectBytes := of_decide_eq_true hle
    exact (Option.any_eq_true _ _).2
      ⟨element, helement, decide_eq_true (Nat.le_trans helement_le hobject)⟩
  · cases htotal

theorem arrayOf_eq_pure {t : CType} {length : Nat} (place : Location)
    (h : (CType.array t length).size?.any (· ≤ maxObjectBytes) = true) :
    arrayOf t length place = pure (.array t length) := by
  obtain ⟨size, hsize, hle⟩ := (Option.any_eq_true _ _).1 h
  unfold arrayOf
  dsimp only
  rw [hsize]
  exact if_pos (of_decide_eq_true hle)

theorem arrayType_eq_pure {t : CType} {inner : List Int32} (place : Location)
    (hpositive : ∀ n ∈ inner, 0 < n)
    (h : (t.arrayed inner).size?.any (· ≤ maxObjectBytes) = true) :
    arrayType t place ((inner.map some).map dimensionOf) = pure (t.arrayed inner) := by
  induction inner with
  | nil => rfl
  | cons n inner ih =>
    obtain ⟨hn, hpositive⟩ := List.forall_mem_cons.1 hpositive
    have hlength : 0 < n.toInt.toNat := by
      have := Int32.lt_iff_toInt_lt.1 hn
      simp only [Int32.toInt_zero] at this
      omega
    show arrayType t place _ >>= (fun element => arrayOf element n.toInt.toNat place) = _
    rw [ih hpositive (addressable_of_array hlength h), pure_bind]
    exact arrayOf_eq_pure place h

theorem parameterType_eq_pure {p : WrittenParam} (hp : p.Declarable) (place : Location) :
    parameterType p.spec.type (p.shape.dims.map dimensionOf) place = pure p.type := by
  obtain ⟨spec, name, shape⟩ := p
  cases shape with
  | plain => rfl
  | array outer inner =>
    have hpositive : ∀ n ∈ inner, 0 < n := fun n hn =>
      hp.positive n (List.mem_cons_of_mem _ (List.mem_map_of_mem hn))
    show CType.pointer <$> arrayType _ place _ = _
    rw [arrayType_eq_pure place hpositive hp.addressable, map_pure]
    rfl

/-! ## Parameters -/

/-- A parameter is read from its tokens: an array parameter is a pointer to its element type, whatever
its outermost length, and read-only if `const` is written and no star. -/
theorem takes_parameter {p : WrittenParam} (hp : p.Declarable) :
    Takes parameter p.kinds p.param (· ≠ .symbol .leftBracket) := by
  have hkinds : ∃ kind rest, p.kinds = kind :: rest := by
    obtain ⟨⟨isConst, base, stars⟩, name, shape⟩ := p
    cases isConst <;> exact ⟨_, _, rfl⟩
  obtain ⟨kind, rest, hkinds⟩ := hkinds
  unfold parameter
  rw [hkinds]
  refine takes_peek_bind fun place => ?_
  rw [← hkinds]
  refine (takes_typeSpecifier hp.stars_le).bind (takes_identifier_bind fun l => ?_) fun _ _ => nofun
  have hdims := takes_dimensionsUpTo hp.dims_le hp.positive
  rw [← List.append_nil (p.shape.dims.flatMap dimensionKinds)]
  refine hdims.bind ?_ fun _ h => h
  rw [parameterType_eq_pure hp, pure_bind, if_neg hp.type_ne]
  exact .pure _

end Reader

end BoundedC
