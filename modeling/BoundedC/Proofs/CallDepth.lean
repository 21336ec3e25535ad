import BoundedC.Proofs.Agreement
import BoundedC.Proofs.Descent

/-!
# How many calls are inside each other

The readers call each other, and so do the functions that look at types and initializers. Every cycle
of readers enters a level of nesting, of which there are `maxNesting`, and between two levels there are
only so many calls. Types have no more dimensions and initializers no more lists inside each other than
there are levels, so looking at them takes no more calls either. How long the text is does not matter.

* `Procedure.cost` : a bound on the calls inside each other, by the depth of nesting;
* `Faithful` : with so many calls left a procedure does what its reader does, and no bound is used up;
* `faithful_body`, `faithful_perform` : one call, and all of them;
* `ofTokensWithin_levels` : programs.
-/

namespace BoundedC

/-! ## The cost of a call -/

/-- A bound on the calls inside each other that the levels of nesting below a depth take: so many for
each of them, and those that look at a type and an initializer. -/
def callsBelow (depth : Nat) : Nat := 16 * (maxNesting - depth) + 2 * maxNesting + 4

theorem typeCalls_le (depth : Nat) : 2 * maxNesting + 4 ≤ callsBelow depth := by
  unfold callsBelow
  omega

theorem callsBelow_mono {d depth : Nat} (h : depth ≤ d) : callsBelow d ≤ callsBelow depth := by
  unfold callsBelow
  omega

/-- A level of nesting takes so many calls. -/
theorem callsBelow_succ {depth : Nat} (h : depth < maxNesting) :
    callsBelow (depth + 1) + 16 = callsBelow depth := by
  unfold callsBelow
  omega

/-- How many calls inside each other it takes from a procedure to the next level of nesting. -/
def Procedure.rank : Procedure → Nat
  | enter _ => 1
  | expression | statements | loopBody => 2
  | binary levels => 2 + 2 * levels.length
  | operators _ levels => 3 + 2 * levels.length
  | declarator | arguments | arrayLiteral _ | returnStatement _ | ifStatement _ | whileStatement _
  | function => 3
  | variableDeclaration | primary | program => 4
  | forStatement _ | trailing => 5
  | inside .statement | inside .operand => 6
  | inside .value => 15
  | _ => 0

/-- A bound on the calls inside each other, the procedure's own included. -/
def Procedure.cost (depth : Nat) : Procedure → Nat
  | typeSpecifier | dimensions => 1
  | size t | scalarCount t => t.arrayDepth + 1
  | leafCount elements => Node.listDepthOf elements + 1
  | arrayOf element _ _ => element.arrayDepth + 3
  | arrayType base _ dims => base.arrayDepth + dims.length + 3
  | inferredLength element init _ => element.arrayDepth + (init.elim 0 Node.listDepth) + 2
  | parameters => maxNesting + 5
  | p => callsBelow depth + p.rank

theorem Procedure.cost_pos (p : Procedure) (depth : Nat) : 0 < p.cost depth := by
  have h := typeCalls_le depth
  cases p <;> exact Nat.pos_of_ne_zero (by dsimp only [cost]; omega)

/-! ## What procedures answer -/

/-- How many tokens a procedure takes at least. -/
def Procedure.taken : Procedure → Nat
  | function | variableDeclaration | enter .statement | nested .statement | inside .statement
  | returnStatement _ | ifStatement _ | whileStatement _ | forStatement _ | loopBody => 1
  | _ => 0

/-- What is known of an answer from the given depth. -/
def Procedure.Answers (depth : Nat) : (p : Procedure) → p.Result → Prop
  | typeSpecifier, spec => spec.1.arrayDepth = 0
  | dimensions, dims => dims.length ≤ maxNesting
  | arrayType base _ dims, t => t.arrayDepth ≤ base.arrayDepth + dims.length
  | arrayOf element _ _, t => t.arrayDepth ≤ element.arrayDepth + 1
  | enter .value, node | enter .operand, node | nested .value, node | nested .operand, node
  | expression, node | binary _, node | operators _ _, node => node.listDepth ≤ maxNesting - depth
  | inside .value, node | inside .operand, node | trailing, node | primary, node
  | arrayLiteral _, node => node.listDepth ≤ maxNesting - depth + 1
  | declarator, node => node.listDepth = 0
  | _, _ => True

/-- With so many calls left, a procedure does what its reader does, and no bound is used up. -/
def Faithful (calls : Nat) (call : (p : Procedure) → Reader p.Result) : Prop :=
  ∀ (p : Procedure) ⦃depth budget : Nat⦄ (input : List Token), depth ≤ maxNesting →
    maxNesting < budget + depth → p.cost depth ≤ calls →
    Reader.Agrees depth input (call p) (p.reader budget)
      (Reader.Spends p.taken (p.Answers depth) depth input)

def Reader.declarationOf (isConst : Bool) (name : String) (place : Location) (init : Option Node)
    (type : CType) : Reader Node := do
  if type = .void then fail (.voidVariable name) place
  return .declaration place name type isConst init

/-! ## One call

In each case `h` says that what is called is faithful. -/

namespace Faithful

open Reader

variable {n depth budget : Nat} {input : List Token} {call : (p : Procedure) → Reader p.Result}

section Types

variable (h : Faithful n call) (hd : depth ≤ maxNesting) (hb : maxNesting < budget + depth)

include h hd hb

theorem size (t : CType) (hn : t.arrayDepth ≤ n) :
    Agrees depth input (Procedure.body call (.size t)) (pure t.size?)
      (Spends 0 (fun _ => True) depth input) := by
  cases t with
  | array element length => exact (h (.size element) input hd hb hn).bind_of_pure (agrees_value _)
  | _ => exact agrees_value _

theorem scalarCount (t : CType) (hn : t.arrayDepth ≤ n) :
    Agrees depth input (Procedure.body call (.scalarCount t)) (pure t.scalarCount)
      (Spends 0 (fun _ => True) depth input) := by
  cases t with
  | array element length => exact (h (.scalarCount element) input hd hb hn).bind_of_pure (agrees_value _)
  | _ => exact agrees_value _

theorem leafCount (elements : List Node) (hn : Node.listDepthOf elements ≤ n) :
    Agrees depth input (Procedure.body call (.leafCount elements))
      (pure (Node.leavesOf elements).length) (Spends 0 (fun _ => True) depth input) := by
  show Agrees depth input (countWith (fun elements => call (.leafCount elements)) elements) _ _
  induction elements with
  | nil => exact agrees_value _
  | cons element elements ih =>
    obtain ⟨hfirst, hrest⟩ := Nat.max_le.1 hn
    have hcount : Agrees depth input (scalarsWith (fun elements => call (.leafCount elements)) element)
        (pure element.leaves.length) (Spends 0 (fun _ => True) depth input) := by
      cases element with
      | arrayLiteral place inner => exact h (.leafCount inner) input hd hb hfirst
      | _ => exact agrees_value _
    rw [Node.leavesOf, List.length_append]
    refine hcount.bind_of_pure ?_
    exact (ih hrest).bind_of_pure (agrees_value _)

theorem arrayOf (element : CType) (length : Nat) (place : Location)
    (hn : element.arrayDepth + 2 ≤ n) :
    Agrees depth input (Procedure.body call (.arrayOf element length place))
      (Reader.arrayOf element length place)
      (Spends 0 (fun t => t.arrayDepth ≤ element.arrayDepth + 1) depth input) := by
  refine (h (.size (.array element length)) input hd hb hn).bind_of_pure ?_
  unfold Reader.arrayOf
  dsimp only
  generalize (CType.array element length).size? = bytes?
  cases bytes? with
  | none => exact agrees_fail place nofun
  | some bytes =>
    dsimp only
    split
    · exact agrees_pure ⟨Nat.le_refl _, rfl, Nat.le_refl _⟩
    · exact agrees_fail place nofun

theorem arrayType (base : CType) (place : Location) (dims : List Dimension)
    (hn : base.arrayDepth + dims.length + 2 ≤ n) :
    Agrees depth input (Procedure.body call (.arrayType base place dims))
      (Reader.arrayType base place dims)
      (Spends 0 (fun t => t.arrayDepth ≤ base.arrayDepth + dims.length) depth input) := by
  show Agrees depth input (arrayTypeWith _ base place dims) _ _
  induction dims with
  | nil => exact agrees_pure ⟨Nat.le_refl _, rfl, Nat.le_refl _⟩
  | cons dimension inner ih =>
    rw [List.length_cons] at hn ⊢
    refine (ih (by omega)).next fun element r helement hr => ?_
    cases dimension with
    | none => exact agrees_fail place nofun
    | some length =>
      exact (h (.arrayOf element length place) r hd hb
        (show element.arrayDepth + 3 ≤ n by omega)).last
          (fun t (ht : t.arrayDepth ≤ element.arrayDepth + 1) => by omega) hr

theorem countedLength (element : CType) (init : Option Node) (place : Location)
    (hn : element.arrayDepth + init.elim 0 Node.listDepth + 1 ≤ n) :
    Agrees depth input (Procedure.countedLength call element place init)
      (match inferredLength? element init with
        | some length => pure length
        | none => fail .lengthNotInferred place)
      (Spends 0 (fun _ => True) depth input) := by
  cases init with
  | none => exact agrees_fail place nofun
  | some init =>
    cases init with
    | stringLiteral _ bytes =>
      unfold Procedure.countedLength inferredLength?
      dsimp only
      by_cases hchar : element = .char
      · rw [if_pos hchar, if_pos hchar]
        exact agrees_value _
      · rw [if_neg hchar, if_neg hchar]
        exact agrees_fail place nofun
    | arrayLiteral _ elements =>
      have hdepth : element.arrayDepth + (Node.listDepthOf elements + 1) + 1 ≤ n := hn
      unfold Procedure.countedLength inferredLength?
      dsimp only
      by_cases hlists : elements.all Node.isArrayLiteral = true
      · rw [if_pos hlists, if_pos hlists]
        exact agrees_value _
      · rw [if_neg hlists, if_neg hlists]
        have hscalars := h (.scalarCount element) input hd hb (show element.arrayDepth + 1 ≤ n by omega)
        have hleaves := h (.leafCount elements) input hd hb
          (show Node.listDepthOf elements + 1 ≤ n by omega)
        refine hscalars.bind_of_pure ?_
        refine hleaves.bind_of_pure ?_
        exact agrees_value _
    | _ => exact agrees_fail place nofun

theorem inferredLength (element : CType) (init : Option Node) (place : Location)
    (hn : element.arrayDepth + init.elim 0 Node.listDepth + 1 ≤ n) :
    Agrees depth input (Procedure.body call (.inferredLength element init place))
      (Reader.inferredLength element init place) (Spends 0 (fun _ => True) depth input) := by
  have hcounted : Agrees depth input _ _ _ := countedLength h hd hb element init place hn
  unfold Reader.inferredLength
  generalize inferredLength? element init = length? at hcounted ⊢
  cases length? with
  | none => exact hcounted.bind_of_fail nofun
  | some length =>
    refine hcounted.bind_of_pure ?_
    cases length with
    | zero => exact agrees_fail place nofun
    | succ length => exact agrees_value _

theorem parameterType (base : CType) (dims : List Dimension) (place : Location)
    (hn : base.arrayDepth + dims.length + 3 ≤ n) :
    Agrees depth input (Procedure.parameterType call base place dims)
      (Reader.parameterType base dims place) (Spends 0 (fun _ => True) depth input) := by
  cases dims with
  | nil => exact agrees_value _
  | cons outer inner =>
    rw [List.length_cons] at hn
    exact (h (.arrayType base place inner) input hd hb
      (show base.arrayDepth + inner.length + 3 ≤ n by omega)).map fun _ _ => trivial

theorem variableType (base : CType) (dims : List Dimension) (init : Option Node) (place : Location)
    (hn : base.arrayDepth + dims.length + init.elim 0 Node.listDepth + 3 ≤ n) :
    Agrees depth input (Procedure.variableType call base place init dims)
      (Reader.variableType base dims init place) (Spends 0 (fun _ => True) depth input) := by
  cases dims with
  | nil => exact agrees_value _
  | cons outer inner =>
    rw [List.length_cons] at hn
    refine (h (.arrayType base place inner) input hd hb
      (show base.arrayDepth + inner.length + 3 ≤ n by omega)).next
        fun element r (helement : element.arrayDepth ≤ base.arrayDepth + inner.length) hr => ?_
    have harray (length : Nat) {rest : List Token} (hrest : rest.length ≤ input.length) :
        Agrees depth rest (call (.arrayOf element length place)) (Reader.arrayOf element length place)
          (Spends 0 (fun _ => True) depth input) :=
      (h (.arrayOf element length place) rest hd hb (show element.arrayDepth + 3 ≤ n by omega)).last
        (fun _ _ => trivial) hrest
    cases outer with
    | some length => exact harray length hr
    | none =>
      exact (h (.inferredLength element init place) r hd hb
        (show element.arrayDepth + init.elim 0 Node.listDepth + 2 ≤ n by omega)).next
          fun length r' _ hr' => harray length (Nat.le_trans hr' hr)

theorem parameter (hn : maxNesting + 4 ≤ n) :
    Agrees depth input (Procedure.parameter call) Reader.parameter
      (Spends 0 (fun _ => True) depth input) := by
  refine agrees_spends_bind spends_peek fun token r₁ _ hr₁ => ?_
  refine (h .typeSpecifier r₁ hd hb (show 1 ≤ n by omega)).next fun spec r₂ hspec hr₂ => ?_
  refine agrees_spends_bind spends_identifier fun name r₃ _ hr₃ => ?_
  refine (h .dimensions r₃ hd hb (show 1 ≤ n by omega)).next fun dims r₄ hdims hr₄ => ?_
  have hshape : spec.1.arrayDepth + dims.length ≤ maxNesting := by
    rw [show spec.1.arrayDepth = 0 from hspec, Nat.zero_add]
    exact hdims
  refine (parameterType h hd hb spec.1 dims _ (by omega)).next fun type r₅ _ hr₅ => ?_
  split
  · exact agrees_fail_bind _ nofun
  · exact agrees_pure ⟨trivial, rfl, by omega⟩

theorem parameters (hn : maxNesting + 4 ≤ n) :
    Agrees depth input (Procedure.body call .parameters) Reader.parameters
      (Spends 0 (fun _ => True) depth input) := by
  refine agrees_spends_bind (spends_isNext _) fun empty r₁ _ hr₁ => ?_
  cases empty with
  | true => exact agrees_pure ⟨trivial, rfl, hr₁⟩
  | false =>
    refine agrees_spends_bind spends_voidIsAlone fun alone r₂ _ hr₂ => ?_
    cases alone with
    | true =>
      exact agrees_spends_bind spends_advance fun _ r₃ _ hr₃ =>
        agrees_pure ⟨trivial, rfl, by omega⟩
    | false =>
      exact (agrees_commaSeparated fun _ => parameter h hd hb hn).last (fun _ _ => trivial) (by omega)

end Types

/-! ### Expressions -/

section Expressions

variable (h : Faithful n call) (hd : depth ≤ maxNesting) (hb : maxNesting < budget + depth)

include h hd hb

theorem declarator (hn : callsBelow depth + 2 ≤ n) :
    Agrees depth input (Procedure.body call .declarator) (Reader.declarator (Reader.expression budget))
      (Spends 0 (fun node => node.listDepth = 0) depth input) := by
  have htypes := typeCalls_le depth
  refine (h .typeSpecifier input hd hb (show 1 ≤ n by omega)).next fun spec r₁ hspec hr₁ => ?_
  refine agrees_spends_bind spends_identifier fun name r₂ _ hr₂ => ?_
  refine (h .dimensions r₂ hd hb (show 1 ≤ n by omega)).next fun dims r₃ hdims hr₃ => ?_
  have hshape : spec.1.arrayDepth + dims.length ≤ maxNesting := by
    rw [show spec.1.arrayDepth = 0 from hspec, Nat.zero_add]
    exact hdims
  have hrest (init : Option Node) {rest : List Token} (hrest : rest.length ≤ input.length)
      (hinit : init.elim 0 Node.listDepth ≤ maxNesting) :
      Agrees depth rest
        (Procedure.variableType call spec.1 name.2 init dims >>= declarationOf spec.2 name.1 name.2 init)
        (Reader.variableType spec.1 dims init name.2 >>= declarationOf spec.2 name.1 name.2 init)
        (Spends 0 (fun node => node.listDepth = 0) depth input) := by
    refine (variableType h hd hb spec.1 dims init _ (by omega)).next fun type r _ hr => ?_
    unfold declarationOf
    split
    · exact agrees_fail_bind _ nofun
    · exact agrees_pure ⟨rfl, rfl, by omega⟩
  refine agrees_accept_bind .equal (fun r hr => ?_) (hrest none (by omega) (Nat.zero_le _))
  have hinit : Agrees depth r (some <$> call .expression) (some <$> Reader.expression budget)
      (Spends 0 (fun init => init.elim 0 Node.listDepth ≤ maxNesting) depth r) :=
    (h .expression r hd hb hn).map fun value hvalue => Nat.le_trans hvalue (Nat.sub_le _ _)
  exact hinit.next fun init r' hinit hr' => hrest init (by omega) hinit

theorem arguments (hn : callsBelow depth + 2 ≤ n) :
    Agrees depth input (Procedure.body call .arguments) (Reader.arguments (Reader.expression budget))
      (Spends 0 (fun _ => True) depth input) := by
  refine agrees_spends_bind (spends_isNext _) fun empty r _ hr => ?_
  cases empty with
  | true => exact agrees_pure ⟨trivial, rfl, hr⟩
  | false =>
    exact (agrees_commaSeparated fun input => h .expression input hd hb hn).last (fun _ _ => trivial) hr

theorem arrayLiteral (place : Location) (hn : callsBelow depth + 2 ≤ n) :
    Agrees depth input (Procedure.body call (.arrayLiteral place))
      (Reader.arrayLiteral (Reader.expression budget) place)
      (Spends 0 (fun node => node.listDepth ≤ maxNesting - depth + 1) depth input) := by
  refine agrees_spends_bind spends_itemBound fun bound r hbound hr => ?_
  refine (agrees_elementsUpTo (fun input => h .expression input hd hb hn) bound (by omega)).next
    fun elements r' helements hr' => ?_
  refine agrees_spends_bind (spends_expect _ _) fun _ r'' _ hr'' => ?_
  split
  · exact agrees_fail_bind _ nofun
  · exact agrees_pure ⟨Nat.succ_le_succ (Node.listDepthOf_le helements), rfl, by omega⟩

theorem primary (hn : callsBelow depth + 3 ≤ n) :
    Agrees depth input (Procedure.body call .primary) (Reader.primary (Reader.expression budget))
      (Spends 0 (fun node => node.listDepth ≤ maxNesting - depth + 1) depth input) := by
  refine agrees_spends_bind spends_peek fun token r₁ _ hr₁ => ?_
  cases hatom : atom? token.place token.kind with
  | some node =>
    have hflat := Node.listDepth_atom hatom
    exact agrees_spends_bind spends_advance fun _ r₂ _ hr₂ => agrees_pure ⟨by omega, rfl, by omega⟩
  | none =>
    refine agrees_accept_bind .leftBrace (fun r₂ hr₂ => ?_) ?_
    · exact (h (.arrayLiteral token.place) r₂ hd hb hn).last (fun _ hnode => hnode) (by omega)
    · refine agrees_accept_bind .leftParen (fun r₂ hr₂ => ?_) (agrees_fail _ nofun)
      refine agrees_spends_bind spends_typeIsNext fun typed r₃ _ hr₃ => ?_
      cases typed with
      | true =>
        refine (h .declarator r₃ hd hb hn).next fun declaration r₄ (hflat : _ = 0) hr₄ => ?_
        split
        · exact agrees_spends_bind (spends_expect _ _) fun _ r₅ _ hr₅ =>
            agrees_pure ⟨by omega, rfl, by omega⟩
        · exact agrees_fail_bind _ nofun
      | false =>
        refine (h .expression r₃ hd hb (Nat.le_of_succ_le hn)).next fun node r₄ hnode hr₄ => ?_
        exact agrees_spends_bind (spends_expect _ _) fun _ r₅ _ hr₅ =>
          agrees_pure ⟨Nat.le_succ_of_le hnode, rfl, by omega⟩

omit hd in
theorem trailingWith (hn : callsBelow depth + 3 ≤ n) (bound : Nat) {operand : Node} (entered : Nat)
    (hoperand : operand.listDepth ≤ maxNesting - depth + 1) (hdepth : depth + entered ≤ maxNesting)
    (hbound : maxNesting < bound + (depth + entered)) :
    Agrees (depth + entered) input
      (Reader.trailingWith (call .expression) (call .arguments) bound operand entered)
      (Reader.trailingWith (Reader.expression budget) (Reader.arguments (Reader.expression budget)) bound
        operand entered)
      (fun tree d r => tree.1.listDepth ≤ maxNesting - depth + 1 ∧ d = depth + tree.2 ∧
        r.length ≤ input.length) := by
  induction bound generalizing input operand entered with
  | zero => omega
  | succ bound ih =>
    have hcalls := callsBelow_mono (Nat.le_add_right depth (entered + 1))
    have hgoOn {node : Node} {rest : List Token} (hnode : node.listDepth = 0)
        (hlevel : depth + entered < maxNesting) (hrest : rest.length ≤ input.length) :
        Agrees (depth + (entered + 1)) rest
          (Reader.trailingWith (call .expression) (call .arguments) bound node (entered + 1))
          (Reader.trailingWith (Reader.expression budget) (Reader.arguments (Reader.expression budget))
            bound node (entered + 1))
          (fun tree d r => tree.1.listDepth ≤ maxNesting - depth + 1 ∧ d = depth + tree.2 ∧
            r.length ≤ input.length) := by
      refine (ih (entered + 1) (by omega) (by omega) (by omega)).imp ?_
      rintro tree d r ⟨htree, hd, hr⟩
      exact ⟨htree, hd, Nat.le_trans hr hrest⟩
    refine agrees_spends_bind spends_peek fun token r₁ _ hr₁ => ?_
    split
    · refine agrees_descend_bind fun hlevel => ?_
      refine agrees_spends_bind spends_advance fun _ r₂ _ hr₂ => ?_
      exact agrees_spends_bind (spends_stepNode _ _ _) fun node r₃ hnode hr₃ =>
        hgoOn hnode hlevel (by omega)
    · refine agrees_descend_bind fun hlevel => ?_
      refine agrees_spends_bind spends_advance fun _ r₂ _ hr₂ => ?_
      exact agrees_spends_bind (spends_stepNode _ _ _) fun node r₃ hnode hr₃ =>
        hgoOn hnode hlevel (by omega)
    · refine agrees_descend_bind fun hlevel => ?_
      refine agrees_spends_bind spends_advance fun _ r₂ _ hr₂ => ?_
      have hvalue : Agrees (depth + (entered + 1)) r₂ (call .expression) (Reader.expression budget) _ :=
        h .expression r₂ (by omega) (by omega)
          (show callsBelow (depth + (entered + 1)) + 2 ≤ n by omega)
      refine hvalue.next fun position r₃ _ hr₃ => ?_
      exact agrees_spends_bind (spends_expect _ _) fun _ r₄ _ hr₄ => hgoOn rfl hlevel (by omega)
    · refine agrees_descend_bind fun hlevel => ?_
      split
      · refine agrees_spends_bind spends_advance fun _ r₂ _ hr₂ => ?_
        have hargs : Agrees (depth + (entered + 1)) r₂ (call .arguments)
            (Reader.arguments (Reader.expression budget)) _ := h .arguments r₂ (by omega) (by omega)
            (show callsBelow (depth + (entered + 1)) + 3 ≤ n by omega)
        refine hargs.next fun args r₃ _ hr₃ => ?_
        exact agrees_spends_bind (spends_expect _ _) fun _ r₄ _ hr₄ => hgoOn rfl hlevel (by omega)
      · exact agrees_fail _ nofun
    · exact agrees_pure ⟨hoperand, rfl, hr₁⟩

theorem trailing (hn : callsBelow depth + 4 ≤ n) :
    Agrees depth input (Procedure.body call .trailing) (Reader.trailing (Reader.expression budget))
      (Spends 0 (fun node => node.listDepth ≤ maxNesting - depth + 1) depth input) := by
  refine (h .primary input hd hb hn).next fun operand r₁ hoperand hr₁ => ?_
  rw [trailingFrom_eq]
  refine (trailingWith h hb (by omega) (maxNesting + 1) 0 hoperand hd (by omega)).bind ?_
  rintro ⟨node, entered⟩ _ r₂ ⟨hnode, rfl, hr₂⟩
  exact agrees_ascend_bind (agrees_pure ⟨hnode, Nat.add_sub_cancel _ _, by omega⟩)

theorem insideOperand (hn : callsBelow depth + 5 ≤ n) :
    Agrees depth input (Procedure.body call (.inside .operand))
      (Procedure.body (fun p => p.reader budget) (.inside .operand))
      (Spends 0 (fun node => node.listDepth ≤ maxNesting - depth + 1) depth input) := by
  have henter (rest : List Token) := h (.enter .operand) rest hd hb
    (show callsBelow depth + 1 ≤ n by omega)
  have hprefix {f : Node → Node} (hf : ∀ node, (f node).listDepth = 0) {rest : List Token}
      (hrest : rest.length ≤ input.length) :
      Agrees depth rest (do return f (← call (.enter .operand)))
        (do return f (← Reader.unary budget))
        (Spends 0 (fun node => node.listDepth ≤ maxNesting - depth + 1) depth input) :=
    (henter rest).next fun node r _ hr => agrees_pure
      ⟨Nat.le_trans (Nat.le_of_eq (hf node)) (Nat.zero_le _), rfl, by omega⟩
  refine agrees_spends_bind spends_peek fun token r₁ _ hr₁ => ?_
  have hadvance {x y : Reader Node}
      (h : ∀ r, r.length ≤ input.length → Agrees depth r x y
        (Spends 0 (fun node => node.listDepth ≤ maxNesting - depth + 1) depth input)) :
      Agrees depth r₁ (do advance; x) (do advance; y)
        (Spends 0 (fun node => node.listDepth ≤ maxNesting - depth + 1) depth input) :=
    agrees_spends_bind spends_advance fun _ r _ hr => h r (by omega)
  split
  · exact hadvance fun r hr => hprefix (fun _ => rfl) hr
  · exact hadvance fun r hr => hprefix (fun _ => rfl) hr
  · exact hadvance fun r hr => (henter r).last (fun node hnode => Nat.le_succ_of_le hnode) hr
  · refine hadvance fun r hr => (henter r).next fun node r' _ hr' => ?_
    split
    · exact agrees_pure ⟨Nat.zero_le _, rfl, by omega⟩
    · exact agrees_fail_bind _ nofun
  · exact hadvance fun r hr => hprefix (fun _ => rfl) hr
  · exact hadvance fun r hr => (henter r).next fun node r' _ hr' =>
      (agrees_of_leads (spends_stepNode _ _ _)).last
        (fun node (hnode : node.listDepth = 0) => by omega) (by omega)
  · exact hadvance fun r hr => (henter r).next fun node r' _ hr' =>
      (agrees_of_leads (spends_stepNode _ _ _)).last
        (fun node (hnode : node.listDepth = 0) => by omega) (by omega)
  · exact (h .trailing r₁ hd hb hn).last (fun _ hnode => hnode) hr₁

theorem insideValue (hn : callsBelow depth + 14 ≤ n) :
    Agrees depth input (Procedure.body call (.inside .value))
      (Procedure.body (fun p => p.reader budget) (.inside .value))
      (Spends 0 (fun node => node.listDepth ≤ maxNesting - depth + 1) depth input) := by
  refine (h (.binary binaryLevels) input hd hb hn).next fun target r₁ htarget hr₁ => ?_
  refine agrees_spends_bind spends_peek fun token r₂ _ hr₂ => ?_
  split
  · exact agrees_pure ⟨Nat.le_succ_of_le htarget, rfl, by omega⟩
  · rename_i op? _
    refine agrees_spends_bind spends_advance fun _ r₃ _ hr₃ => ?_
    dsimp only
    split
    · refine (h (.enter .value) r₃ hd hb (show callsBelow depth + 1 ≤ n by omega)).next
        fun source r₄ _ hr₄ => agrees_pure ⟨?_, rfl, by omega⟩
      cases op? <;> exact Nat.zero_le _
    · exact agrees_fail_bind _ nofun

theorem binary (levels : List (List (Symbol × BinaryOp)))
    (hn : callsBelow depth + 1 + 2 * levels.length ≤ n) :
    Agrees depth input (Procedure.body call (.binary levels))
      (levels.foldr chain (Reader.unary budget))
      (Spends 0 (fun node => node.listDepth ≤ maxNesting - depth) depth input) := by
  cases levels with
  | nil => exact h (.enter .operand) input hd hb hn
  | cons level levels =>
    rw [List.length_cons] at hn
    exact h (.operators level levels) input hd hb
      (show callsBelow depth + (3 + 2 * levels.length) ≤ n by omega)

theorem operators (level : List (Symbol × BinaryOp)) (levels : List (List (Symbol × BinaryOp)))
    (hn : callsBelow depth + 2 + 2 * levels.length ≤ n) :
    Agrees depth input (Procedure.body call (.operators level levels))
      (chain level (levels.foldr chain (Reader.unary budget)))
      (Spends 0 (fun node => node.listDepth ≤ maxNesting - depth) depth input) := by
  refine agrees_chain level hd (fun d rest hle hd' => ?_) fun _ _ _ _ => Nat.zero_le _
  have hcalls := callsBelow_mono hle
  exact (h (.binary levels) rest hd' (by omega)
    (show callsBelow d + (2 + 2 * levels.length) ≤ n by omega)).last
      (fun node (hnode : node.listDepth ≤ maxNesting - d) => by omega) (Nat.le_refl _)

end Expressions

/-! ### Statements -/

section Statements

variable (h : Faithful n call) (hd : depth ≤ maxNesting) (hb : maxNesting < budget + depth)

include h hd hb

theorem variableDeclaration (hn : callsBelow depth + 3 ≤ n) :
    Agrees depth input (Procedure.body call .variableDeclaration)
      (Reader.variableDeclaration (Reader.expression budget)) (Spends 1 (fun _ => True) depth input) :=
  (h .declarator input hd hb hn).next fun _ r₁ _ hr₁ =>
    agrees_spends_bind (spends_expect _ _) fun _ r₂ _ hr₂ => agrees_pure ⟨trivial, rfl, by omega⟩

theorem valueUnless (hn : callsBelow depth + 2 ≤ n) (s : Symbol) :
    Agrees depth input (Reader.valueUnless (call .expression) s)
      (Reader.valueUnless (Reader.expression budget) s) (Spends 0 (fun _ => True) depth input) := by
  refine agrees_spends_bind (spends_isNext _) fun absent r₁ _ hr₁ => ?_
  cases absent with
  | true => exact agrees_pure ⟨trivial, rfl, hr₁⟩
  | false => exact ((h .expression r₁ hd hb hn).map fun _ _ => trivial).last (fun _ h => h) hr₁

theorem loopBody (hn : callsBelow depth + 1 ≤ n) :
    Agrees depth input (Procedure.body call .loopBody) (Reader.loopBody (Reader.statement budget))
      (Spends 1 (fun _ => True) depth input) :=
  agrees_spends_bind (spends_modify (by intro _; rfl) (by intro _; rfl)) fun _ r₁ _ hr₁ =>
    (h (.enter .statement) r₁ hd hb hn).next fun _ r₂ _ (hr₂ : r₂.length + 1 ≤ r₁.length) =>
    agrees_spends_bind (spends_modify (by intro _; rfl) (by intro _; rfl)) fun _ r₃ _ hr₃ =>
    agrees_pure ⟨trivial, rfl, by omega⟩

theorem returnStatement (place : Location) (hn : callsBelow depth + 2 ≤ n) :
    Agrees depth input (Procedure.body call (.returnStatement place))
      (Reader.returnStatement (Reader.expression budget) place)
      (Spends 1 (fun _ => True) depth input) :=
  (valueUnless h hd hb hn .semicolon).next fun _ r₁ _ hr₁ =>
    agrees_spends_bind (spends_expect _ _) fun _ r₂ _ hr₂ => agrees_pure ⟨trivial, rfl, by omega⟩

theorem ifStatement (place : Location) (hn : callsBelow depth + 2 ≤ n) :
    Agrees depth input (Procedure.body call (.ifStatement place))
      (Reader.ifStatement (Reader.statement budget) (Reader.expression budget) place)
      (Spends 1 (fun _ => True) depth input) := by
  have hstatement (rest : List Token) := h (.enter .statement) rest hd hb
    (show callsBelow depth + 1 ≤ n by omega)
  refine agrees_spends_bind (spends_expect _ _) fun _ r₁ _ hr₁ => ?_
  refine (h .expression r₁ hd hb hn).next fun condition r₂ _ hr₂ => ?_
  refine agrees_spends_bind (spends_expect _ _) fun _ r₃ _ hr₃ => ?_
  refine (hstatement r₃).next fun thenBranch r₄ _ hr₄ => ?_
  refine agrees_spends_bind (spends_acceptKind _) fun more r₅ _ hr₅ => ?_
  cases more with
  | true =>
    have helse : Agrees depth r₅ (some <$> call (.enter .statement))
        (some <$> Reader.statement budget) (Spends 1 (fun _ => True) depth r₅) :=
      (hstatement r₅).map fun _ _ => trivial
    exact helse.next fun _ r₆ _ hr₆ => agrees_pure ⟨trivial, rfl, by omega⟩
  | false => exact agrees_pure ⟨trivial, rfl, by omega⟩

theorem whileStatement (place : Location) (hn : callsBelow depth + 2 ≤ n) :
    Agrees depth input (Procedure.body call (.whileStatement place))
      (Reader.whileStatement (Reader.statement budget) (Reader.expression budget) place)
      (Spends 1 (fun _ => True) depth input) :=
  agrees_spends_bind (spends_expect _ _) fun _ r₁ _ hr₁ =>
    (h .expression r₁ hd hb hn).next fun _ r₂ _ hr₂ =>
    agrees_spends_bind (spends_expect _ _) fun _ r₃ _ hr₃ =>
    (h .loopBody r₃ hd hb hn).next fun _ r₄ _ hr₄ => agrees_pure ⟨trivial, rfl, by omega⟩

theorem forInit (hn : callsBelow depth + 4 ≤ n) :
    Agrees depth input (Procedure.forInit call) (Reader.forInit (Reader.expression budget))
      (Spends 0 (fun _ => True) depth input) := by
  refine agrees_accept_bind .semicolon (fun r₁ hr₁ => agrees_pure ⟨trivial, rfl, by omega⟩) ?_
  refine agrees_spends_bind spends_typeIsNext fun typed r₁ _ hr₁ => ?_
  cases typed with
  | true =>
    exact (h .variableDeclaration r₁ hd hb hn).next fun _ r₂ _ hr₂ =>
      agrees_pure ⟨trivial, rfl, by omega⟩
  | false =>
    exact (h .expression r₁ hd hb (show callsBelow depth + 2 ≤ n by omega)).next fun _ r₂ _ hr₂ =>
      agrees_spends_bind (spends_expect _ _) fun _ r₃ _ hr₃ =>
      agrees_pure ⟨trivial, rfl, by omega⟩

theorem forStatement (place : Location) (hn : callsBelow depth + 4 ≤ n) :
    Agrees depth input (Procedure.body call (.forStatement place))
      (Reader.forStatement (Reader.statement budget) (Reader.expression budget) place)
      (Spends 1 (fun _ => True) depth input) := by
  have hexpression : callsBelow depth + 2 ≤ n := by omega
  refine agrees_spends_bind (spends_expect _ _) fun _ r₁ _ hr₁ => ?_
  refine (forInit h hd hb hn).next fun init r₂ _ hr₂ => ?_
  refine (valueUnless h hd hb hexpression .semicolon).next fun condition r₃ _ hr₃ => ?_
  refine agrees_spends_bind (spends_expect _ _) fun _ r₄ _ hr₄ => ?_
  refine (valueUnless h hd hb hexpression .rightParen).next fun increment r₅ _ hr₅ => ?_
  refine agrees_spends_bind (spends_expect _ _) fun _ r₆ _ hr₆ => ?_
  exact (h .loopBody r₆ hd hb hexpression).next fun _ r₇ _ hr₇ =>
    agrees_pure ⟨trivial, rfl, by omega⟩

theorem insideStatement (hn : callsBelow depth + 5 ≤ n) :
    Agrees depth input (Procedure.body call (.inside .statement))
      (Procedure.body (fun p => p.reader budget) (.inside .statement))
      (Spends 1 (fun _ => True) depth input) := by
  refine agrees_peek_bind fun kind place rest hinput => ?_
  have hadvance {x y : Reader Node}
      (h : ∀ r, r.length ≤ input.length → Agrees depth r x y (Spends 1 (fun _ => True) depth input)) :
      Agrees depth input (do advance; x) (do advance; y) (Spends 1 (fun _ => True) depth input) :=
    agrees_spends_bind spends_advance fun _ r _ hr => h r hr
  dsimp only
  split
  · exact hadvance fun r hr => (h (.returnStatement place) r hd hb
      (show callsBelow depth + 3 ≤ n by omega)).last (fun _ h => h) (Nat.succ_le_succ hr)
  · exact hadvance fun r hr => (h (.ifStatement place) r hd hb
      (show callsBelow depth + 3 ≤ n by omega)).last (fun _ h => h) (Nat.succ_le_succ hr)
  · exact hadvance fun r hr => (h (.whileStatement place) r hd hb
      (show callsBelow depth + 3 ≤ n by omega)).last (fun _ h => h) (Nat.succ_le_succ hr)
  · exact hadvance fun r hr => (h (.forStatement place) r hd hb hn).last (fun _ h => h)
      (Nat.succ_le_succ hr)
  · exact hadvance fun r hr => (agrees_of_leads (spends_jump _ _ _)).last (fun _ h => h)
      (Nat.succ_le_succ hr)
  · exact hadvance fun r hr => (agrees_of_leads (spends_jump _ _ _)).last (fun _ h => h)
      (Nat.succ_le_succ hr)
  · -- the only statement that is known to take a token from its first one
    subst hinput
    refine agrees_spends_bind (spends_advance_of_ne ?_) fun _ r _ hr => ?_
    · exact nofun
    · exact agrees_pure ⟨trivial, rfl, hr⟩
  · exact hadvance fun r hr => (h .statements r hd hb (show callsBelow depth + 2 ≤ n by omega)).next
      fun _ r₁ _ hr₁ => agrees_spends_bind (spends_expect _ _) fun _ r₂ _ hr₂ =>
        agrees_pure ⟨trivial, rfl, by omega⟩
  · split
    · exact h .variableDeclaration input hd hb (show callsBelow depth + 4 ≤ n by omega)
    · exact (h .expression input hd hb (show callsBelow depth + 2 ≤ n by omega)).next fun _ r₁ _ hr₁ =>
        agrees_spends_bind (spends_expect _ _) fun _ r₂ _ hr₂ =>
          agrees_pure ⟨trivial, rfl, by omega⟩

end Statements

/-! ### Programs -/

section Programs

variable (h : Faithful n call) (hd : depth ≤ maxNesting)

include h hd

theorem function (hn : callsBelow depth + 2 ≤ n) :
    Agrees depth input (Procedure.body call .function) functionDefinition
      (Spends 1 (fun _ => True) depth input) := by
  have htypes := typeCalls_le depth
  have hb : maxNesting < maxNesting + 1 + depth := by omega
  refine (h .typeSpecifier input hd hb (show 1 ≤ n by omega)).next fun spec r₁ _ hr₁ => ?_
  refine agrees_spends_bind spends_identifier fun name r₂ _ hr₂ => ?_
  refine agrees_spends_bind (spends_define _ _) fun _ r₃ _ hr₃ => ?_
  refine agrees_spends_bind (spends_expect _ _) fun _ r₄ _ hr₄ => ?_
  refine (h .parameters r₄ hd hb (show maxNesting + 5 ≤ n by omega)).next fun params r₅ _ hr₅ => ?_
  refine agrees_spends_bind (spends_expect _ _) fun _ r₆ _ hr₆ => ?_
  refine agrees_spends_bind (spends_expect _ _) fun _ r₇ _ hr₇ => ?_
  refine (h .statements r₇ hd hb hn).next fun body r₈ _ hr₈ => ?_
  exact agrees_spends_bind (spends_expect _ _) fun _ r₉ _ hr₉ => agrees_pure ⟨trivial, rfl, by omega⟩

theorem functionsWith (hn : callsBelow depth + 3 ≤ n) (bound : Nat) (hbound : input.length ≤ bound) :
    Agrees depth input (Reader.functionsWith (call .function) bound) (functionsUpTo bound)
      (Spends 0 (fun _ => True) depth input) := by
  induction bound generalizing input with
  | zero => exact agrees_of_pos fun hpos => by omega
  | succ bound ih =>
    refine agrees_spends_bind (spends_isNext _) fun ended r₁ _ hr₁ => ?_
    cases ended with
    | true => exact agrees_pure ⟨trivial, rfl, hr₁⟩
    | false =>
      have hfunction : Agrees depth r₁ (call .function) functionDefinition
          (Spends 1 (fun _ => True) depth r₁) :=
        h .function r₁ hd (show maxNesting < maxNesting + 1 + depth by omega) hn
      exact hfunction.next fun _ r₂ _ hr₂ => (ih (by omega)).next fun _ r₃ _ hr₃ =>
        agrees_pure ⟨trivial, rfl, by omega⟩

theorem program (hn : callsBelow depth + 3 ≤ n) :
    Agrees depth input (Procedure.body call .program) (do functionsUpTo ((← itemBound) + 1))
      (Spends 0 (fun _ => True) depth input) :=
  agrees_spends_bind spends_itemBound fun bound r hbound hr =>
    (functionsWith h hd hn _ (by omega)).last (fun _ h => h) hr

end Programs

end Faithful

/-! ## All calls -/

open Reader

variable {n : Nat} {call : (p : Procedure) → Reader p.Result}

/-- One level deeper there are fewer levels left, in exchange for the calls between two levels. -/
theorem Faithful.nested (h : Faithful n call) {depth budget : Nat} {input : List Token}
    (hd : depth ≤ maxNesting) (hb : maxNesting < budget + depth) (level : Level)
    (hn : callsBelow depth ≤ n + 1) :
    Agrees depth input (Procedure.body call (.nested level)) ((Procedure.nested level).reader budget)
      (Spends (Procedure.nested level).taken ((Procedure.nested level).Answers depth) depth input) := by
  obtain ⟨budget, rfl⟩ : ∃ smaller, budget = smaller + 1 := ⟨budget - 1, by omega⟩
  have hinside (hlt : depth < maxNesting) : Agrees (depth + 1) input (call (.inside level))
      ((Procedure.inside level).reader budget) (Spends (Procedure.inside level).taken
        ((Procedure.inside level).Answers (depth + 1)) (depth + 1) input) := by
    have hcalls := callsBelow_succ hlt
    have hrank : (Procedure.inside level).rank ≤ 15 := by cases level <;> decide
    exact h (.inside level) input hlt (by omega)
      (show callsBelow (depth + 1) + (Procedure.inside level).rank ≤ n by omega)
  have hanswer (hlt : depth < maxNesting) (node : Node)
      (hnode : node.listDepth ≤ maxNesting - (depth + 1) + 1) : node.listDepth ≤ maxNesting - depth := by
    omega
  cases level with
  | statement => exact agrees_nested hinside
  | value => exact agrees_nested fun hlt => (hinside hlt).last (hanswer hlt) (Nat.le_refl _)
  | operand => exact agrees_nested fun hlt => (hinside hlt).last (hanswer hlt) (Nat.le_refl _)

/-- What holds of so many calls inside each other holds of one more. -/
theorem faithful_body (h : Faithful n call) : Faithful (n + 1) fun p => p.body call := by
  intro p depth budget input hd hb hn
  cases p with
  | program => exact h.program hd (Nat.le_of_succ_le_succ hn)
  | function => exact h.function hd (Nat.le_of_succ_le_succ hn)
  | parameters => exact h.parameters hd hb (Nat.le_of_succ_le_succ hn)
  | typeSpecifier => exact agrees_of_leads spends_typeSpecifier
  | dimensions => exact agrees_of_leads (spends_dimensionsUpTo _)
  | arrayType base place dims => exact h.arrayType hd hb base place dims (Nat.le_of_succ_le_succ hn)
  | arrayOf element length place =>
    exact h.arrayOf hd hb element length place (Nat.le_of_succ_le_succ hn)
  | inferredLength element init place =>
    exact h.inferredLength hd hb element init place (Nat.le_of_succ_le_succ hn)
  | size t => exact h.size hd hb t (Nat.le_of_succ_le_succ hn)
  | scalarCount t => exact h.scalarCount hd hb t (Nat.le_of_succ_le_succ hn)
  | leafCount elements => exact h.leafCount hd hb elements (Nat.le_of_succ_le_succ hn)
  | variableDeclaration => exact h.variableDeclaration hd hb (Nat.le_of_succ_le_succ hn)
  | declarator => exact h.declarator hd hb (Nat.le_of_succ_le_succ hn)
  | statements =>
    exact agrees_statements fun input => h (.enter .statement) input hd hb (Nat.le_of_succ_le_succ hn)
  | enter level =>
    have hnested := h (.nested level) input hd hb (Nat.le_of_succ_le_succ hn)
    cases level <;> exact hnested
  | nested level => exact h.nested hd hb level hn
  | inside level =>
    cases level with
    | statement => exact h.insideStatement hd hb (Nat.le_of_succ_le_succ hn)
    | value => exact h.insideValue hd hb (Nat.le_of_succ_le_succ hn)
    | operand => exact h.insideOperand hd hb (Nat.le_of_succ_le_succ hn)
  | returnStatement place => exact h.returnStatement hd hb place (Nat.le_of_succ_le_succ hn)
  | ifStatement place => exact h.ifStatement hd hb place (Nat.le_of_succ_le_succ hn)
  | whileStatement place => exact h.whileStatement hd hb place (Nat.le_of_succ_le_succ hn)
  | forStatement place => exact h.forStatement hd hb place (Nat.le_of_succ_le_succ hn)
  | loopBody => exact h.loopBody hd hb (Nat.le_of_succ_le_succ hn)
  | expression => exact h (.enter .value) input hd hb (Nat.le_of_succ_le_succ hn)
  | binary levels =>
    have hn : callsBelow depth + (2 + 2 * levels.length) ≤ n + 1 := hn
    exact h.binary hd hb levels (by omega)
  | operators level levels =>
    have hn : callsBelow depth + (3 + 2 * levels.length) ≤ n + 1 := hn
    exact h.operators hd hb level levels (by omega)
  | trailing => exact h.trailing hd hb (Nat.le_of_succ_le_succ hn)
  | primary => exact h.primary hd hb (Nat.le_of_succ_le_succ hn)
  | arguments => exact h.arguments hd hb (Nat.le_of_succ_le_succ hn)
  | arrayLiteral place => exact h.arrayLiteral hd hb place (Nat.le_of_succ_le_succ hn)

/-- With as many calls as it costs, a procedure does what its reader does. -/
theorem faithful_perform (n : Nat) : Faithful n (perform n) := by
  induction n with
  | zero =>
    intro p depth _ _ _ _ hn
    exact absurd hn (Nat.not_le_of_gt (p.cost_pos depth))
  | succ n ih => exact faithful_body ih

/-- With as many calls as it costs, a program is read as without a budget, and no bound is used up. -/
theorem ofTokensWithin_of_cost {tokens : List Token} (hends : Ends tokens) {calls : Nat}
    (hcalls : Procedure.program.cost 0 ≤ calls) :
    Program.ofTokensWithin calls tokens = Program.ofTokens tokens ∧
      ∀ place, Program.ofTokens tokens ≠ .error ⟨.outOfBudget, place⟩ := by
  have hread : Agrees 0 tokens (perform calls .program)
      (Procedure.program.reader (maxNesting + 1)) _ :=
    faithful_perform calls .program tokens (Nat.zero_le _) (Nat.lt_succ_self _) hcalls
  obtain ⟨token, rest, rfl⟩ : ∃ token rest, tokens = token :: rest := by
    obtain ⟨_, hmem, -⟩ := hends
    exact List.exists_cons_of_ne_nil (List.ne_nil_of_mem hmem)
  have hsame : (perform calls .program).run (.ofTokens (token :: rest)) =
      (functionsUpTo ((token :: rest).length + 1)).run (.ofTokens (token :: rest)) :=
    hread.same (.ofTokens (token :: rest)) rfl rfl hends
  have hlead := hread.leads (.ofTokens (token :: rest)) rfl rfl hends
  refine ⟨?_, fun place herror => ?_⟩
  · unfold Program.ofTokensWithin Program.ofTokens
    rw [hsame]
  · unfold Program.ofTokens at herror
    rw [← hsame, hread.same (.ofTokens (token :: rest)) rfl rfl hends] at herror
    cases hrun : (Procedure.program.reader (maxNesting + 1)).run (.ofTokens (token :: rest)) with
    | error e =>
      rw [hrun] at hlead herror
      cases herror
      exact hlead rfl
    | ok result =>
      rw [hrun] at herror
      cases herror

/-- However long a text is, to read it takes only so many calls inside each other for each level of
nesting that is allowed. With these it is read as without a budget, to a program or to an error, and no
error is about a bound that is used up. -/
theorem ofTokensWithin_levels : ∃ calls, ∀ tokens place,
    Program.ofTokensWithin (calls * maxNesting) (tokens ++ [⟨.endOfFile, place⟩]) =
        Program.ofTokens (tokens ++ [⟨.endOfFile, place⟩]) ∧
      ∀ errorPlace, Program.ofTokensWithin (calls * maxNesting) (tokens ++ [⟨.endOfFile, place⟩]) ≠
        .error ⟨.outOfBudget, errorPlace⟩ := by
  refine ⟨19, fun tokens place => ?_⟩
  have hends : Ends (tokens ++ [⟨.endOfFile, place⟩]) :=
    ⟨⟨.endOfFile, place⟩, List.mem_append_right _ (List.mem_singleton_self _), rfl⟩
  have hcost : Procedure.program.cost 0 ≤ 19 * maxNesting := by decide
  obtain ⟨hsame, hlasting⟩ := ofTokensWithin_of_cost hends hcost
  exact ⟨hsame, fun errorPlace => hsame ▸ hlasting errorPlace⟩

/-- A function whose body is `return 1;`, which takes 29 calls inside each other. -/
example (l : Location) : Program.ofTokensWithin 28 ([.keyword .int, .identifier "f", .symbol .leftParen,
    .symbol .rightParen, .symbol .leftBrace, .keyword .returnWord, .int 1, .symbol .semicolon,
    .symbol .rightBrace, .endOfFile].map (⟨·, l⟩)) = .error ⟨.outOfBudget, l⟩ := rfl

end BoundedC
