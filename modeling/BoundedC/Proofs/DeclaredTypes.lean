import BoundedC.Initializer
import BoundedC.Proofs.Height

/-!
# The types that are declared

Which types the variables and parameters of an accepted text may have. No array in them is without
elements, and each can be addressed by a stored pointer. Only `void` itself is refused as a type to
declare, though: arrays of `void` are accepted. They take no bytes, whatever their dimensions, so that
nothing bounds the number of their elements.

* `CType.IsObject` : types in which `void` stands only right behind a pointer;
* `CType.Sized` : the arrays in a type have elements and can be addressed;
* `CType.Fits` : a type has a size and a number of scalars that can be stated, neither of them 0;
* `Reader.Gives` : what is read, whatever it is read from;
* `fits_of_compile` : the types of an accepted text, and those without an array of `void`.
-/

namespace BoundedC

namespace CType

/-! ## Types -/

/-- `void` stands only right behind a pointer. -/
inductive IsObject : CType → Prop
  | int : IsObject int
  | char : IsObject char
  | untyped : IsObject (pointer void)
  | pointer {t : CType} (h : t.IsObject) : IsObject (pointer t)
  | array {t : CType} (length : Nat) (h : t.IsObject) : IsObject (array t length)

/-- The arrays in a type, also those behind pointers. -/
def arrays : CType → List CType
  | array t length => array t length :: t.arrays
  | pointer t => t.arrays
  | _ => []

/-- Every array in the type has elements, and a stored pointer can address all of it. -/
def Sized (t : CType) : Prop :=
  ∀ element length, array element length ∈ t.arrays →
    0 < length ∧ ∃ size, (array element length).size? = some size ∧ size ≤ maxObjectBytes

/-- The size of the type can be addressed, the number of its scalars can be stated, and neither is
0. -/
structure Fits (t : CType) : Prop where
  size : ∃ size, t.size? = some size ∧ 0 < size ∧ size ≤ maxObjectBytes
  scalarCount_le : t.scalarCount ≤ maxObjectBytes
  slotCount_eq : t.slotCount = t.scalarCount
  slotCount_pos : 0 < t.slotCount

variable {t : CType} {length : Nat}

theorem isObject_of_no_void_array (h : t ≠ void) (harrays : ∀ length, array void length ∉ t.arrays) :
    t.IsObject := by
  induction t with
  | int => exact .int
  | char => exact .char
  | void => exact absurd rfl h
  | pointer t ih =>
    by_cases ht : t = void
    · rw [ht]
      exact .untyped
    · exact .pointer (ih ht harrays)
  | array t length ih =>
    refine .array length (ih ?_ fun n hn => harrays n (List.mem_cons_of_mem _ hn))
    rintro rfl
    exact harrays length List.mem_cons_self

theorem Sized.array (h : t.Sized) (hpos : 0 < length) {size : Nat}
    (hsize : (CType.array t length).size? = some size) (hle : size ≤ maxObjectBytes) :
    (CType.array t length).Sized := by
  intro element n hmem
  rcases List.mem_cons.1 hmem with heq | hmem
  · cases heq
    exact ⟨hpos, size, hsize, hle⟩
  · exact h element n hmem

theorem Sized.element (h : (CType.array t length).Sized) : t.Sized :=
  fun element n hmem => h element n (List.mem_cons_of_mem _ hmem)

/-- Each scalar takes at least a byte. -/
theorem IsObject.exists_size (h : t.IsObject) (hsized : t.Sized) :
    ∃ size, t.size? = some size ∧ size ≤ maxObjectBytes ∧ 0 < t.scalarCount ∧ t.scalarCount ≤ size := by
  induction h with
  | int => exact ⟨4, rfl, by decide, by decide, by decide⟩
  | char => exact ⟨1, rfl, by decide, by decide, by decide⟩
  | untyped => exact ⟨pointerBytes, rfl, by decide, by decide, by decide⟩
  | pointer _ => exact ⟨pointerBytes, rfl, by decide, Nat.one_pos, by show 1 ≤ 8; decide⟩
  | @array t length _ ih =>
    obtain ⟨hlength, total, htotal, hle⟩ := hsized t length List.mem_cons_self
    obtain ⟨size, hsize, -, hpos, hcount⟩ := ih hsized.element
    refine ⟨total, htotal, hle, Nat.mul_pos hlength hpos, ?_⟩
    rw [size?, hsize] at htotal
    have hproduct : size * length = total := by
      by_cases hmax : size * length ≤ maxSize
      · exact Option.some.inj ((if_pos hmax).symm.trans htotal)
      · cases (if_neg hmax).symm.trans htotal
    rw [← hproduct, Nat.mul_comm size]
    exact Nat.mul_le_mul_left length hcount

theorem IsObject.fits (h : t.IsObject) (hsized : t.Sized) : t.Fits := by
  obtain ⟨size, hsize, hle, hpos, hcount⟩ := h.exists_size hsized
  have hmax : t.scalarCount ≤ maxObjectBytes := Nat.le_trans hcount hle
  have hslots : t.slotCount = t.scalarCount := wrapCount_of_le (Nat.le_trans hmax (by decide))
  exact ⟨⟨size, hsize, Nat.lt_of_lt_of_le hpos hcount, hle⟩, hmax, hslots, hslots ▸ hpos⟩

/-- What holds of a type holds of the arrays in it and of their elements. -/
theorem IsObject.of_mem_arrays (h : t.IsObject) (hsized : t.Sized) {element : CType}
    (hmem : CType.array element length ∈ t.arrays) : element.IsObject ∧ element.Sized := by
  induction h with
  | int => cases hmem
  | char => cases hmem
  | untyped => cases hmem
  | pointer _ ih => exact ih hsized hmem
  | array n ht ih =>
    rcases List.mem_cons.1 hmem with heq | hmem
    · cases heq
      exact ⟨ht, hsized.element⟩
    · exact ih hsized.element hmem

end CType

/-! ## Declarations in a tree -/

namespace Node

/-- The types that a node gives to the variable or the parameters it declares. -/
def declares : Node → List CType
  | declaration _ _ type _ _ => [type]
  | function _ _ _ params _ => params.map Param.type
  | _ => []

/-- The node is the root of a tree or somewhere below it. -/
inductive IsIn : Node → Node → Prop
  | root (node : Node) : IsIn node node
  | inside {node child root : Node} (hchild : child ∈ root.children) (h : IsIn node child) :
    IsIn node root

/-- What may be declared: all types but `void` itself whose arrays have elements and can be
addressed. -/
def DeclaresSized (root : Node) : Prop :=
  ∀ node : Node, node.IsIn root → ∀ t ∈ node.declares, t ≠ .void ∧ t.Sized

theorem declaresSized_of_children {root : Node} (hroot : ∀ t ∈ root.declares, t ≠ .void ∧ t.Sized)
    (hchildren : ∀ child ∈ root.children, child.DeclaresSized) : root.DeclaresSized := by
  intro node hnode
  cases hnode with
  | root => exact hroot
  | inside hchild h => exact hchildren _ hchild node h

theorem declaresSized_atom {place : Location} {kind : TokenKind} {node : Node}
    (h : atom? place kind = some node) : node.DeclaresSized := by
  unfold atom? at h
  split at h <;> cases h <;> exact declaresSized_of_children nofun nofun

end Node

def Program.Declares (program : Program) (t : CType) : Prop :=
  ∃ root ∈ program.nodes, ∃ node : Node, node.IsIn root ∧ t ∈ node.declares

open Node

/-! ## What is read -/

namespace Reader

variable {α β : Type} {P : α → Prop} {Q : β → Prop}

/-- What the reader reads has the property, whatever it is read from. -/
def Gives (P : α → Prop) (x : Reader α) : Prop := ∀ ⦃s a t⦄, x.run s = .ok (a, t) → P a

theorem gives_pure {a : α} (h : P a) : Gives P (pure a) := by
  rintro s _ _ ⟨⟩
  exact h

theorem gives_fail (fault : ParseFault) (place : Location) : Gives P (fail fault place) := by
  rintro s a t ⟨⟩

theorem Gives.bind {x : Reader α} {f : α → Reader β} (hx : Gives P x)
    (hf : ∀ a, P a → Gives Q (f a)) : Gives Q (x >>= f) := by
  intro s b t h
  obtain ⟨a, u, hu, ht⟩ := run_bind_eq_ok_iff.1 h
  exact hf a (hx hu) ht

/-- It does not matter what is read before. -/
theorem gives_bind {x : Reader α} {f : α → Reader β} (hf : ∀ a, Gives Q (f a)) : Gives Q (x >>= f) :=
  Gives.bind (P := fun _ => True) (fun _ _ _ _ => trivial) fun a _ => hf a

/-- A reader that stops reads nothing. -/
theorem gives_fail_bind (fault : ParseFault) (place : Location) (f : α → Reader β) :
    Gives Q (fail fault place >>= f) :=
  (gives_fail (P := fun _ => False) fault place).bind fun _ h => h.elim

theorem gives_outOfBudget : Gives P outOfBudget := gives_bind fun _ => gives_fail _ _

theorem Gives.map {x : Reader α} {f : α → β} (hx : Gives P x) (h : ∀ a, P a → Q (f a)) :
    Gives Q (f <$> x) := by
  rw [map_eq_pure_bind]
  exact hx.bind fun a ha => gives_pure (h a ha)

theorem Gives.some {x : Reader α} (hx : Gives P x) :
    Gives (fun o : Option α => ∀ a ∈ o.toList, P a) (Option.some <$> x) :=
  hx.map fun _ ha => List.forall_mem_singleton.2 ha

theorem gives_none : Gives (fun o : Option α => ∀ a ∈ o.toList, P a) (pure none) := gives_pure nofun

theorem Gives.nested {x : Reader α} (hx : Gives P x) : Gives P (Reader.nested x) :=
  gives_bind fun _ => hx.bind fun _ ha => gives_bind fun _ => gives_pure ha

theorem Gives.commaSeparated {item : Reader α} (h : Gives P item) :
    Gives (fun as => ∀ a ∈ as, P a) (Reader.commaSeparated item) := by
  refine gives_bind fun bound => ?_
  induction bound with
  | zero => exact gives_outOfBudget
  | succ bound ih =>
    refine h.bind fun a ha => gives_bind fun more => ?_
    cases more with
    | true => exact ih.bind fun as has => gives_pure (List.forall_mem_cons.2 ⟨ha, has⟩)
    | false => exact gives_pure (List.forall_mem_singleton.2 ha)

/-! ## Types -/

theorem gives_pointersTo {t : CType} (h : t.Sized) (left : Nat) :
    Gives CType.Sized (pointersTo t left) := by
  induction left generalizing t with
  | zero =>
    refine gives_bind fun token => ?_
    split
    · exact gives_bind fun _ => gives_fail _ _
    · exact gives_pure h
  | succ left ih =>
    refine gives_bind fun token => ?_
    split
    · exact gives_bind fun _ => ih h
    · exact gives_pure h

theorem sized_of_baseType? {kind : TokenKind} {base : CType} (h : baseType? kind = some base) :
    base.Sized := by
  unfold baseType? at h
  split at h <;> cases h <;> exact nofun

theorem gives_typeSpecifier : Gives (fun spec => spec.1.Sized) typeSpecifier := by
  refine gives_bind fun isConst => gives_bind fun token => ?_
  split
  · exact gives_fail _ _
  · rename_i hbase
    exact gives_bind fun _ => (gives_pointersTo (sized_of_baseType? hbase) _).bind fun _ h =>
      gives_pure h

theorem gives_arrayLength : Gives (0 < ·) arrayLength := by
  refine gives_bind fun token => ?_
  split
  · rename_i n
    split
    · exact gives_fail_bind _ _ _
    · rename_i hpos
      refine gives_bind fun _ => gives_bind fun _ => gives_pure ?_
      rw [Int32.le_iff_toInt_le, Int32.toInt_zero] at hpos
      omega
  · exact gives_fail _ _

theorem gives_dimensionsUpTo (left : Nat) :
    Gives (fun dims => ∀ dim ∈ dims, ∀ length ∈ dim, 0 < length) (dimensionsUpTo left) := by
  induction left with
  | zero =>
    refine gives_bind fun token => ?_
    split
    · exact gives_bind fun _ => gives_fail _ _
    · exact gives_pure nofun
  | succ left ih =>
    refine gives_bind fun token => ?_
    split
    · refine gives_bind fun _ => gives_bind fun omitted => ?_
      have hrest {dim : Dimension} (hdim : ∀ length ∈ dim, 0 < length) :
          Gives (fun dims => ∀ dim ∈ dims, ∀ length ∈ dim, 0 < length)
            (do return dim :: (← dimensionsUpTo left)) :=
        ih.bind fun dims hdims => gives_pure (List.forall_mem_cons.2 ⟨hdim, hdims⟩)
      cases omitted with
      | true =>
        refine (gives_pure (P := fun dim : Dimension => ∀ length ∈ dim, 0 < length) ?_).bind fun _ => hrest
        rintro _ ⟨⟩
      | false =>
        refine (gives_arrayLength.map ?_).bind fun _ => hrest
        rintro length hpos _ ⟨⟩
        exact hpos
    · exact gives_pure nofun

theorem gives_arrayOf {element : CType} (h : element.Sized) {length : Nat} (hpos : 0 < length)
    (place : Location) :
    Gives (fun t => t = .array element length ∧ t.Sized) (arrayOf element length place) := by
  unfold arrayOf
  dsimp only
  split
  · rename_i size hsize
    split
    · rename_i hle
      exact gives_pure ⟨rfl, h.array hpos hsize hle⟩
    · exact gives_fail _ _
  · exact gives_fail _ _

theorem gives_arrayType {base : CType} (h : base.Sized) (place : Location) {dims : List Dimension}
    (hdims : ∀ dim ∈ dims, ∀ length ∈ dim, 0 < length) :
    Gives CType.Sized (arrayType base place dims) := by
  induction dims with
  | nil => exact gives_pure h
  | cons dimension inner ih =>
    obtain ⟨hdim, hinner⟩ := List.forall_mem_cons.1 hdims
    refine (ih hinner).bind fun element helement => ?_
    cases dimension with
    | some length =>
      intro s t u hrun
      exact (gives_arrayOf helement (hdim length rfl) place hrun).2
    | none => exact gives_fail _ _

theorem gives_inferredLength (element : CType) (init : Option Node) (place : Location) :
    Gives (0 < ·) (inferredLength element init place) := by
  unfold inferredLength
  split
  · exact gives_fail _ _
  · exact gives_fail _ _
  · rename_i length hzero _
    exact gives_pure (Nat.pos_of_ne_zero hzero)

theorem gives_variableType {base : CType} (h : base.Sized) {dims : List Dimension}
    (hdims : ∀ dim ∈ dims, ∀ length ∈ dim, 0 < length) (init : Option Node) (place : Location) :
    Gives CType.Sized (variableType base dims init place) := by
  cases dims with
  | nil => exact gives_pure h
  | cons outer inner =>
    obtain ⟨houter, hinner⟩ := List.forall_mem_cons.1 hdims
    refine (gives_arrayType h place hinner).bind fun element helement => ?_
    have hrest {length : Nat} (hpos : 0 < length) :
        Gives CType.Sized (arrayOf element length place) :=
      fun _ _ _ hrun => (gives_arrayOf helement hpos place hrun).2
    cases outer with
    | some length => exact (gives_pure (houter length rfl)).bind fun _ => hrest
    | none => exact (gives_inferredLength element init place).bind fun _ => hrest

theorem gives_parameterType {base : CType} (h : base.Sized) {dims : List Dimension}
    (hdims : ∀ dim ∈ dims, ∀ length ∈ dim, 0 < length) (place : Location) :
    Gives CType.Sized (parameterType base dims place) := by
  cases dims with
  | nil => exact gives_pure h
  | cons outer inner =>
    exact (gives_arrayType h place (List.forall_mem_cons.1 hdims).2).map fun _ h => h

theorem gives_parameter : Gives (fun p => p.type ≠ .void ∧ p.type.Sized) parameter := by
  refine gives_bind fun token => gives_typeSpecifier.bind fun spec hspec => gives_bind fun name =>
    (gives_dimensionsUpTo maxNesting).bind fun dims hdims =>
    (gives_parameterType hspec hdims _).bind fun type htype => ?_
  dsimp only
  split
  · exact gives_fail_bind _ _ _
  · rename_i hvoid
    exact gives_pure ⟨hvoid, htype⟩

theorem gives_parameters :
    Gives (fun params => ∀ p ∈ params, p.type ≠ .void ∧ p.type.Sized) parameters := by
  refine gives_bind fun next => ?_
  cases next with
  | true => exact gives_pure nofun
  | false =>
    refine gives_bind fun alone => ?_
    cases alone with
    | true => exact gives_bind fun _ => gives_pure nofun
    | false => exact gives_parameter.commaSeparated

variable {value operand statement : Reader Node}

theorem gives_declarator (hvalue : Gives DeclaresSized value) : Gives DeclaresSized (declarator value) := by
  refine gives_typeSpecifier.bind fun spec hspec => gives_bind fun name =>
    (gives_dimensionsUpTo maxNesting).bind fun dims hdims => gives_bind fun equal => ?_
  have hrest {init : Option Node} (hinit : ∀ v ∈ init.toList, v.DeclaresSized) :
      Gives DeclaresSized (do
        let type ← variableType spec.1 dims init name.2
        if type = .void then fail (.voidVariable name.1) name.2
        return .declaration name.2 name.1 type spec.2 init) := by
    refine (gives_variableType hspec hdims init name.2).bind fun type htype => ?_
    split
    · exact gives_fail_bind _ _ _
    · rename_i hvoid
      exact gives_pure (declaresSized_of_children (List.forall_mem_singleton.2 ⟨hvoid, htype⟩) hinit)
  cases equal with
  | true => exact hvalue.some.bind fun _ hinit => hrest hinit
  | false => exact gives_none.bind fun _ hinit => hrest hinit

theorem gives_variableDeclaration (hvalue : Gives DeclaresSized value) :
    Gives DeclaresSized (variableDeclaration value) :=
  (gives_declarator hvalue).bind fun _ h => gives_bind fun _ => gives_pure h

/-! ## Expressions -/

theorem gives_chainFrom (level : List (Symbol × BinaryOp)) (hoperand : Gives DeclaresSized operand)
    (bound : Nat) {left : Node} (hleft : left.DeclaresSized) (entered : Nat) :
    Gives (fun r => r.1.DeclaresSized) (chainFrom level operand bound left entered) := by
  induction bound generalizing left entered with
  | zero => exact gives_outOfBudget
  | succ bound ih =>
    refine gives_bind fun token => ?_
    split
    · exact gives_pure hleft
    · refine gives_bind fun _ => gives_bind fun _ => hoperand.bind fun right hright => ih ?_ _
      exact declaresSized_of_children nofun
        (List.forall_mem_cons.2 ⟨hleft, List.forall_mem_singleton.2 hright⟩)

theorem gives_binary (hoperand : Gives DeclaresSized operand) : Gives DeclaresSized (binary operand) := by
  unfold binary
  induction binaryLevels with
  | nil => exact hoperand
  | cons level levels ih =>
    exact ih.bind fun _ hfirst => (gives_chainFrom level ih _ hfirst 0).bind fun _ htree =>
      gives_bind fun _ => gives_pure htree

theorem gives_assignment (hvalue : Gives DeclaresSized value) (hoperand : Gives DeclaresSized operand) :
    Gives DeclaresSized (assignment value operand) := by
  refine (gives_binary hoperand).bind fun target htarget => gives_bind fun token => ?_
  split
  · exact gives_pure htarget
  · rename_i op? _
    refine gives_bind fun _ => ?_
    dsimp only
    split
    · refine hvalue.bind fun source hsource => ?_
      cases op? <;> exact gives_pure (declaresSized_of_children nofun
        (List.forall_mem_cons.2 ⟨htarget, List.forall_mem_singleton.2 hsource⟩))
    · exact gives_fail_bind _ _ _

theorem gives_stepNode (place : Location) (op : StepOp) {node : Node} (h : node.DeclaresSized) :
    Gives DeclaresSized (stepNode place op node) := by
  unfold stepNode
  split
  · exact gives_pure (declaresSized_of_children nofun (List.forall_mem_singleton.2 h))
  · exact gives_fail_bind _ _ _

theorem gives_arguments (hvalue : Gives DeclaresSized value) :
    Gives (fun args => ∀ a ∈ args, a.DeclaresSized) (arguments value) := by
  refine gives_bind fun next => ?_
  cases next with
  | true => exact gives_pure nofun
  | false => exact hvalue.commaSeparated

theorem gives_trailingFrom (hvalue : Gives DeclaresSized value) (bound : Nat) {node : Node}
    (hnode : node.DeclaresSized) (entered : Nat) :
    Gives (fun r => r.1.DeclaresSized) (trailingFrom value bound node entered) := by
  induction bound generalizing node entered with
  | zero => exact gives_outOfBudget
  | succ bound ih =>
    refine gives_bind fun token => ?_
    split
    · exact gives_bind fun _ => gives_bind fun _ => (gives_stepNode _ _ hnode).bind fun _ h => ih h _
    · exact gives_bind fun _ => gives_bind fun _ => (gives_stepNode _ _ hnode).bind fun _ h => ih h _
    · refine gives_bind fun _ => gives_bind fun _ => hvalue.bind fun position hposition =>
        gives_bind fun _ => ih (declaresSized_of_children ?_ ?_) _
      · exact nofun
      · exact List.forall_mem_cons.2 ⟨hnode, List.forall_mem_singleton.2 hposition⟩
    · refine gives_bind fun _ => ?_
      split
      · refine gives_bind fun _ => (gives_arguments hvalue).bind fun args hargs =>
          gives_bind fun _ => ih (declaresSized_of_children ?_ ?_) _
        · exact nofun
        · exact hargs
      · exact gives_fail _ _
    · exact gives_pure hnode

theorem gives_elementsUpTo (hvalue : Gives DeclaresSized value) (bound : Nat) :
    Gives (fun elements => ∀ e ∈ elements, e.DeclaresSized) (elementsUpTo value bound) := by
  induction bound with
  | zero => exact gives_outOfBudget
  | succ bound ih =>
    refine gives_bind fun closed => ?_
    cases closed with
    | true => exact gives_pure nofun
    | false =>
      refine hvalue.bind fun e he => gives_bind fun more => ?_
      cases more with
      | true => exact ih.bind fun es hes => gives_pure (List.forall_mem_cons.2 ⟨he, hes⟩)
      | false => exact gives_pure (List.forall_mem_singleton.2 he)

theorem gives_primary (hvalue : Gives DeclaresSized value) : Gives DeclaresSized (primary value) := by
  refine gives_bind fun token => ?_
  split
  · rename_i hatom
    exact gives_bind fun _ => gives_pure (declaresSized_atom hatom)
  · refine gives_bind fun brace => ?_
    cases brace with
    | true =>
      refine gives_bind fun bound => (gives_elementsUpTo hvalue bound).bind fun es hes =>
        gives_bind fun _ => ?_
      split
      · exact gives_fail_bind _ _ _
      · exact gives_pure (declaresSized_of_children nofun hes)
    | false =>
      refine gives_bind fun paren => ?_
      cases paren with
      | false => exact gives_fail _ _
      | true =>
        refine gives_bind fun typed => ?_
        cases typed with
        | true =>
          refine (gives_declarator hvalue).bind fun node hnode => ?_
          split
          · exact gives_bind fun _ => gives_pure hnode
          · exact gives_fail_bind _ _ _
        | false => exact hvalue.bind fun _ h => gives_bind fun _ => gives_pure h

theorem gives_leading (hvalue : Gives DeclaresSized value) (hoperand : Gives DeclaresSized operand) :
    Gives DeclaresSized (leading value operand) := by
  have hprefix {f : Node → Node} (hdeclares : ∀ node, (f node).declares = [])
      (hchildren : ∀ node, (f node).children = [node]) : Gives DeclaresSized (do return f (← operand)) :=
    hoperand.bind fun node h => gives_pure (declaresSized_of_children (hdeclares node ▸ nofun)
      (hchildren node ▸ List.forall_mem_singleton.2 h))
  refine gives_bind fun token => ?_
  split
  · exact gives_bind fun _ => hprefix (fun _ => rfl) fun _ => rfl
  · exact gives_bind fun _ => hprefix (fun _ => rfl) fun _ => rfl
  · exact gives_bind fun _ => hoperand
  · refine gives_bind fun _ => hoperand.bind fun node h => ?_
    split
    · exact gives_pure (declaresSized_of_children nofun (List.forall_mem_singleton.2 h))
    · exact gives_fail_bind _ _ _
  · exact gives_bind fun _ => hprefix (fun _ => rfl) fun _ => rfl
  · exact gives_bind fun _ => hoperand.bind fun _ h => gives_stepNode _ _ h
  · exact gives_bind fun _ => hoperand.bind fun _ h => gives_stepNode _ _ h
  · exact (gives_primary hvalue).bind fun _ h => (gives_trailingFrom hvalue _ h 0).bind
      fun _ hnode => gives_bind fun _ => gives_pure hnode

theorem gives_expression_unary (budget : Nat) :
    Gives DeclaresSized (expression budget) ∧ Gives DeclaresSized (unary budget) := by
  induction budget with
  | zero => exact ⟨gives_outOfBudget, gives_outOfBudget⟩
  | succ budget ih =>
    obtain ⟨hvalue, hoperand⟩ := ih
    exact ⟨.nested (gives_assignment hvalue hoperand), .nested (gives_leading hvalue hoperand)⟩

/-! ## Statements -/

theorem gives_statements (hstatement : Gives DeclaresSized statement) :
    Gives (fun nodes => ∀ s ∈ nodes, s.DeclaresSized) (statements statement) := by
  refine gives_bind fun bound => ?_
  induction bound with
  | zero => exact gives_outOfBudget
  | succ bound ih =>
    refine gives_bind fun token => ?_
    split
    · exact gives_pure nofun
    · exact hstatement.bind fun first hfirst => ih.bind fun rest hrest =>
        gives_pure (List.forall_mem_cons.2 ⟨hfirst, hrest⟩)

theorem gives_valueUnless (hvalue : Gives DeclaresSized value) (s : Symbol) :
    Gives (fun o => ∀ v ∈ o.toList, v.DeclaresSized) (valueUnless value s) := by
  refine gives_bind fun next => ?_
  cases next with
  | true => exact gives_none
  | false => exact hvalue.some

theorem gives_loopBody (hstatement : Gives DeclaresSized statement) :
    Gives DeclaresSized (loopBody statement) :=
  gives_bind fun _ => hstatement.bind fun _ h => gives_bind fun _ => gives_pure h

theorem gives_jump (word : Keyword) (place : Location) {node : Node} (h : node.DeclaresSized) :
    Gives DeclaresSized (jump word place node) := by
  refine gives_bind fun s => ?_
  split
  · exact gives_fail_bind _ _ _
  · exact gives_bind fun _ => gives_pure h

theorem gives_ifStatement (hstatement : Gives DeclaresSized statement) (hvalue : Gives DeclaresSized value)
    (place : Location) : Gives DeclaresSized (ifStatement statement value place) := by
  refine gives_bind fun _ => hvalue.bind fun condition hc => gives_bind fun _ =>
    hstatement.bind fun thenBranch ht => gives_bind fun more => ?_
  have hrest {elseBranch : Option Node} (he : ∀ s ∈ elseBranch.toList, s.DeclaresSized) :
      (Node.ifElse place condition thenBranch elseBranch).DeclaresSized :=
    declaresSized_of_children nofun (List.forall_mem_cons.2 ⟨hc, List.forall_mem_cons.2 ⟨ht, he⟩⟩)
  cases more with
  | true => exact hstatement.some.bind fun _ he => gives_pure (hrest he)
  | false => exact gives_none.bind fun _ he => gives_pure (hrest he)

theorem gives_forInit (hvalue : Gives DeclaresSized value) :
    Gives (fun o => ∀ s ∈ o.toList, s.DeclaresSized) (forInit value) := by
  refine gives_bind fun empty => ?_
  cases empty with
  | true => exact gives_none
  | false =>
    refine gives_bind fun typed => ?_
    cases typed with
    | true =>
      exact (gives_variableDeclaration hvalue).bind fun _ h =>
        gives_pure (List.forall_mem_singleton.2 h)
    | false =>
      exact hvalue.bind fun _ h => gives_bind fun _ => gives_pure (List.forall_mem_singleton.2 h)

theorem gives_forStatement (hstatement : Gives DeclaresSized statement) (hvalue : Gives DeclaresSized value)
    (place : Location) : Gives DeclaresSized (forStatement statement value place) := by
  refine gives_bind fun _ => (gives_forInit hvalue).bind fun init hinit =>
    (gives_valueUnless hvalue _).bind fun condition hc => gives_bind fun _ =>
    (gives_valueUnless hvalue _).bind fun increment hi => gives_bind fun _ =>
    (gives_loopBody hstatement).bind fun body hb => gives_pure (declaresSized_of_children nofun ?_)
  intro child hchild
  simp only [children, List.mem_append, List.mem_singleton] at hchild
  rcases hchild with ((h | h) | h) | rfl
  · exact hinit child h
  · exact hc child h
  · exact hi child h
  · exact hb

theorem gives_anyStatement (hstatement : Gives DeclaresSized statement) (hvalue : Gives DeclaresSized value) :
    Gives DeclaresSized (anyStatement statement value) := by
  refine gives_bind fun token => ?_
  split
  · exact gives_bind fun _ => (gives_valueUnless hvalue _).bind fun _ h => gives_bind fun _ =>
      gives_pure (declaresSized_of_children nofun h)
  · exact gives_bind fun _ => gives_ifStatement hstatement hvalue _
  · exact gives_bind fun _ => gives_bind fun _ => hvalue.bind fun _ hc => gives_bind fun _ =>
      (gives_loopBody hstatement).bind fun _ hb => gives_pure (declaresSized_of_children nofun
        (List.forall_mem_cons.2 ⟨hc, List.forall_mem_singleton.2 hb⟩))
  · exact gives_bind fun _ => gives_forStatement hstatement hvalue _
  · exact gives_bind fun _ => gives_jump _ _ (declaresSized_of_children nofun nofun)
  · exact gives_bind fun _ => gives_jump _ _ (declaresSized_of_children nofun nofun)
  · exact gives_bind fun _ => gives_pure (declaresSized_of_children nofun nofun)
  · exact gives_bind fun _ => (gives_statements hstatement).bind fun _ h => gives_bind fun _ =>
      gives_pure (declaresSized_of_children nofun h)
  · split
    · exact gives_variableDeclaration hvalue
    · exact hvalue.bind fun _ h => gives_bind fun _ =>
        gives_pure (declaresSized_of_children nofun (List.forall_mem_singleton.2 h))

theorem gives_statement (budget : Nat) : Gives DeclaresSized (Reader.statement budget) := by
  induction budget with
  | zero => exact gives_outOfBudget
  | succ budget ih => exact .nested (gives_anyStatement ih (gives_expression_unary budget).1)

/-! ## Programs -/

theorem gives_functionDefinition : Gives DeclaresSized functionDefinition :=
  gives_bind fun _ => gives_bind fun _ => gives_bind fun _ => gives_bind fun _ =>
    gives_parameters.bind fun _ hparams => gives_bind fun _ => gives_bind fun _ =>
    (gives_statements (gives_statement _)).bind fun _ h => gives_bind fun _ =>
    gives_pure (declaresSized_of_children (List.forall_mem_map.2 hparams) h)

theorem gives_functionsUpTo (bound : Nat) :
    Gives (fun nodes => ∀ node ∈ nodes, node.DeclaresSized) (functionsUpTo bound) := by
  induction bound with
  | zero => exact gives_outOfBudget
  | succ bound ih =>
    refine gives_bind fun ended => ?_
    cases ended with
    | true => exact gives_pure nofun
    | false =>
      exact gives_functionDefinition.bind fun first hfirst => ih.bind fun rest hrest =>
        gives_pure (List.forall_mem_cons.2 ⟨hfirst, hrest⟩)

end Reader

/-- A type that an accepted text declares is not `void`, and its arrays have elements and can be
addressed. If none of them is an array of `void`, then `void` stands only right behind pointers, and
the type, its arrays and their elements have sizes and numbers of scalars that can be stated and are
not 0. -/
theorem fits_of_compile {text : String} {program : Program} (h : compile text = .ok program)
    {t : CType} (ht : program.Declares t) :
    t ≠ .void ∧ t.Sized ∧
      ((∀ length, .array .void length ∉ t.arrays) →
        t.IsObject ∧ t.Fits ∧
          ∀ element length, .array element length ∈ t.arrays →
            (CType.array element length).Fits ∧ element.Fits) := by
  obtain ⟨tokens, s, -, hread⟩ := exists_run_of_compile h
  obtain ⟨root, hroot, node, hnode, ht⟩ := ht
  obtain ⟨hvoid, hsized⟩ := Reader.gives_functionsUpTo _ hread root hroot node hnode t ht
  refine ⟨hvoid, hsized, fun harrays => ?_⟩
  have hobject := CType.isObject_of_no_void_array hvoid harrays
  refine ⟨hobject, hobject.fits hsized, fun element length hmem => ?_⟩
  obtain ⟨helement, hinner⟩ := hobject.of_mem_arrays hsized hmem
  obtain ⟨hpos, size, hsize, hle⟩ := hsized element length hmem
  exact ⟨(helement.array length).fits (hinner.array hpos hsize hle), helement.fits hinner⟩

/-- Whether a text is accepted and a statement of one of its functions declares the type. -/
def declaresType (text : String) (t : CType) : Bool :=
  match compile text with
  | .ok program => program.nodes.any fun root => root.children.any fun node => t ∈ node.declares
  | .error _ => false

theorem exists_of_declaresType {text : String} {t : CType} (h : declaresType text t = true) :
    ∃ program, compile text = .ok program ∧ program.Declares t := by
  unfold declaresType at h
  split at h
  · rename_i program hcompile
    simp only [List.any_eq_true, decide_eq_true_eq] at h
    obtain ⟨root, hroot, node, hnode, ht⟩ := h
    exact ⟨program, hcompile, root, hroot, node, .inside hnode (.root node), ht⟩
  · cases h

/-- Two arrays of three. -/
theorem fits_of_compile_array :
    (CType.array (.array .int 3) 2).IsObject ∧ (CType.array (.array .int 3) 2).Fits := by
  have hdeclares : declaresType "int main() \x7b int a[2][3]; \x7d" (.array (.array .int 3) 2) = true := by
    decide +kernel
  obtain ⟨program, hcompile, ht⟩ := exists_of_declaresType hdeclares
  obtain ⟨-, -, hfits⟩ := fits_of_compile hcompile ht
  obtain ⟨hobject, hfits, -⟩ := hfits fun length hmem => by
    rcases List.mem_cons.1 hmem with heq | hmem
    · cases heq
    · cases List.mem_singleton.1 hmem
  exact ⟨hobject, hfits⟩

/-! ## Arrays of `void` -/

theorem CType.not_isObject_of_void_array {t : CType} {length : Nat}
    (hmem : CType.array .void length ∈ t.arrays) : ¬t.IsObject := by
  intro h
  induction h with
  | int => cases hmem
  | char => cases hmem
  | untyped => cases hmem
  | pointer _ ih => exact ih hmem
  | array n ht ih =>
    rcases List.mem_cons.1 hmem with heq | hmem
    · cases heq
      cases ht
    · exact ih hmem

/-- An array of `void` is a type that an accepted text declares, although `void` does not stand behind
a pointer there and nothing can be stored in it. -/
theorem exists_declared_void_array : ∃ program,
    compile "int main() \x7b void a[3]; return 0; \x7d" = .ok program ∧
      program.Declares (.array .void 3) ∧ ¬(CType.array .void 3).IsObject ∧
      (CType.array .void 3).size? = some 0 := by
  have hdeclares : declaresType "int main() \x7b void a[3]; return 0; \x7d" (.array .void 3) = true := by
    decide +kernel
  obtain ⟨program, hcompile, ht⟩ := exists_of_declaresType hdeclares
  exact ⟨program, hcompile, ht, CType.not_isObject_of_void_array List.mem_cons_self, rfl⟩

end BoundedC
