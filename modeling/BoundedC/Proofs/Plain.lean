import BoundedC.Proofs.Reading

/-!
# Readers that only look at tokens

Many readers look at the next token and go behind it, and that is all. They do not know how deep they
are, how many loops are around them and which functions are defined. `Reader.Plain` says that a reader
is put together in this way, so what holds of looking, going on and stopping, and of one reader behind
the other, holds of all of them.

* `plain_accept`, `plain_expect`, `plain_identifier` : single tokens;
* `plain_typeSpecifier`, `plain_dimensionsUpTo`, `plain_parameter` : types and parameters;
* `Plain.keeps` : nothing but the tokens changes.
-/

namespace BoundedC.Reader

/-- The reader is made of looking at the next token, going behind it and stopping. -/
inductive Plain : {α : Type} → Reader α → Prop
  | pure {α : Type} (a : α) : Plain (pure a)
  | fail {α : Type} (fault : ParseFault) (place : Location) : Plain (fail fault place : Reader α)
  | peek : Plain peek
  | advance : Plain advance
  | bind {α β : Type} {x : Reader α} {f : α → Reader β} (hx : Plain x) (hf : ∀ a, Plain (f a)) :
      Plain (x >>= f)

variable {α β : Type}

theorem Plain.map {x : Reader α} (hx : Plain x) (f : α → β) : Plain (f <$> x) := by
  rw [map_eq_pure_bind]
  exact hx.bind fun a => .pure (f a)

/-- Nothing but the tokens changes. -/
theorem Plain.keeps {x : Reader α} (hx : Plain x) {s t : ReaderState} {a : α}
    (h : x.run s = .ok (a, t)) : t.loops = s.loops ∧ t.defined = s.defined ∧ t.depth = s.depth := by
  induction hx generalizing s t with
  | pure a =>
    cases h
    exact ⟨rfl, rfl, rfl⟩
  | fail fault place => cases h
  | peek =>
    cases h
    exact ⟨rfl, rfl, rfl⟩
  | advance =>
    cases h
    dsimp only
    split
    · exact ⟨rfl, rfl, rfl⟩
    · split <;> exact ⟨rfl, rfl, rfl⟩
  | bind _ _ hx hf =>
    obtain ⟨b, u, hu, ht⟩ := run_bind_eq_ok_iff.1 h
    obtain ⟨hloops, hdefined, hdepth⟩ := hx hu
    obtain ⟨hloops', hdefined', hdepth'⟩ := hf b ht
    exact ⟨hloops'.trans hloops, hdefined'.trans hdefined, hdepth'.trans hdepth⟩

/-! ## Tokens -/

theorem plain_isNext (kind : TokenKind) : Plain (isNext kind) := .bind .peek fun _ => .pure _

theorem plain_acceptKind (kind : TokenKind) : Plain (acceptKind kind) := by
  refine .bind (plain_isNext kind) fun next => ?_
  cases next with
  | true => exact .bind .advance fun _ => .pure true
  | false => exact .pure false

theorem plain_accept (s : Symbol) : Plain (accept s) := plain_acceptKind _

theorem plain_acceptWord (w : Keyword) : Plain (acceptWord w) := plain_acceptKind _

theorem plain_expect (s : Symbol) (context : String) : Plain (expect s context) := by
  refine .bind .peek fun token => ?_
  split
  · exact .advance
  · exact .fail _ _

theorem plain_identifier : Plain identifier := by
  refine .bind .peek fun token => ?_
  split
  · exact .bind .advance fun _ => .pure _
  · exact .fail _ _

theorem plain_typeIsNext : Plain typeIsNext := .bind .peek fun _ => .pure _

/-! ## Types and parameters -/

theorem plain_pointersTo (t : CType) (left : Nat) : Plain (pointersTo t left) := by
  induction left generalizing t with
  | zero =>
    refine .bind .peek fun token => ?_
    split
    · exact .bind .advance fun _ => .fail _ _
    · exact .pure t
  | succ left ih =>
    refine .bind .peek fun token => ?_
    split
    · exact .bind .advance fun _ => ih _
    · exact .pure t

theorem plain_typeSpecifier : Plain typeSpecifier := by
  refine .bind (plain_acceptWord _) fun isConst => .bind .peek fun token => ?_
  split
  · exact .fail _ _
  · exact .bind .advance fun _ => .bind (plain_pointersTo _ _) fun _ => .pure _

theorem plain_arrayLength : Plain arrayLength := by
  refine .bind .peek fun token => ?_
  split
  · split
    · exact .bind (.fail _ _) fun _ => .bind .advance fun _ => .bind (plain_expect _ _) fun _ => .pure _
    · exact .bind .advance fun _ => .bind (plain_expect _ _) fun _ => .pure _
  · exact .fail _ _

theorem plain_dimensionsUpTo (left : Nat) : Plain (dimensionsUpTo left) := by
  induction left with
  | zero =>
    refine .bind .peek fun token => ?_
    split
    · exact .bind .advance fun _ => .fail _ _
    · exact .pure []
  | succ left ih =>
    refine .bind .peek fun token => ?_
    split
    · refine .bind .advance fun _ => .bind (plain_accept _) fun omitted => ?_
      cases omitted with
      | true => exact .bind (.pure none) fun _ => .bind ih fun _ => .pure _
      | false => exact .bind (plain_arrayLength.map some) fun _ => .bind ih fun _ => .pure _
    · exact .pure []

theorem plain_arrayOf (element : CType) (length : Nat) (place : Location) :
    Plain (arrayOf element length place) := by
  unfold arrayOf
  dsimp only
  split
  · split
    · exact .pure _
    · exact .fail _ _
  · exact .fail _ _

theorem plain_arrayType (base : CType) (place : Location) (dims : List Dimension) :
    Plain (arrayType base place dims) := by
  induction dims with
  | nil => exact .pure base
  | cons dimension inner ih =>
    refine .bind ih fun element => ?_
    cases dimension with
    | some length => exact plain_arrayOf element length place
    | none => exact .fail _ _

theorem plain_inferredLength (element : CType) (init : Option Node) (place : Location) :
    Plain (inferredLength element init place) := by
  unfold inferredLength
  split
  · exact .fail _ _
  · exact .fail _ _
  · exact .pure _

theorem plain_variableType (base : CType) (dims : List Dimension) (init : Option Node)
    (place : Location) : Plain (variableType base dims init place) := by
  cases dims with
  | nil => exact .pure base
  | cons outer inner =>
    refine .bind (plain_arrayType base place inner) fun element => ?_
    cases outer with
    | some length => exact .bind (.pure length) fun _ => plain_arrayOf _ _ _
    | none => exact .bind (plain_inferredLength element init place) fun _ => plain_arrayOf _ _ _

theorem plain_parameterType (base : CType) (dims : List Dimension) (place : Location) :
    Plain (parameterType base dims place) := by
  cases dims with
  | nil => exact .pure base
  | cons outer inner => exact (plain_arrayType base place inner).map CType.pointer

theorem plain_parameter : Plain parameter := by
  refine .bind .peek fun token => .bind plain_typeSpecifier fun spec =>
    .bind plain_identifier fun name => .bind (plain_dimensionsUpTo _) fun dims =>
    .bind (plain_parameterType _ _ _) fun type => ?_
  dsimp only
  split
  · exact .bind (.fail _ _) fun _ => .pure _
  · exact .pure _

theorem plain_stepNode (place : Location) (op : StepOp) (operand : Node) :
    Plain (stepNode place op operand) := by
  unfold stepNode
  split
  · exact .pure _
  · exact .bind (.fail _ _) fun _ => .pure _

end BoundedC.Reader
