import Mathlib.Data.List.Basic
import BoundedC.Proofs.Plain

/-!
# How high trees are

Reading goes at most `maxNesting` levels deep, and an operator of a chain is a level. The levels of a
chain are left where the chain ends, though, and its tree is then an operand of the chain around it,
which may again enter as many levels. So the tree that is read is higher than reading was deep. Its
height is bounded all the same: an operand takes a level away from what is inside it, and there are as
many chains around an operand as there are levels of operators.

* `Node.NoHigher` : how long the paths down from a node are;
* `valueLimit`, `operandLimit`, `statementLimit` : heights by the number of levels that may still be
  entered;
* `Reader.Climbs`, `Reader.ReadsAt` : where a reader leads in terms of the depth;
* `readsAt_statement`, `readsAt_functionDefinition` : statements and functions leave all levels that
  they enter, and keep to the limits;
* `length_le_of_path` : the paths through a function body.
-/

namespace BoundedC

namespace Node

def children : Node → List Node
  | function _ _ _ _ body => body
  | declaration _ _ _ _ init => init.toList
  | block _ statements => statements
  | ifElse _ condition thenBranch elseBranch => condition :: thenBranch :: elseBranch.toList
  | whileLoop _ condition body => [condition, body]
  | forLoop _ init condition increment body =>
    init.toList ++ condition.toList ++ increment.toList ++ [body]
  | returnFrom _ value => value.toList
  | expression _ value => [value]
  | arrayLiteral _ elements => elements
  | binary _ _ left right => [left, right]
  | unary _ _ operand | step _ _ operand | deref _ operand | addressOf _ operand => [operand]
  | assign _ target value | compoundAssign _ _ target value => [target, value]
  | call _ _ args => args
  | .index _ array position => [array, position]
  | breakLoop _ | continueLoop _ | intLiteral .. | charLiteral .. | stringLiteral .. | identifier .. => []

/-- Nodes of which each is right below the one before it. -/
def IsPath (nodes : List Node) : Prop := nodes.IsChain fun parent child => child ∈ parent.children

/-- No path down from the node has more than so many nodes. -/
def NoHigher (limit : Nat) (node : Node) : Prop :=
  ∀ path, IsPath (node :: path) → (node :: path).length ≤ limit

theorem NoHigher.mono {m n : Nat} {node : Node} (h : node.NoHigher m) (hle : m ≤ n) : node.NoHigher n :=
  fun path hpath => Nat.le_trans (h path hpath) hle

theorem noHigher_of_children {n : Nat} {node : Node} (h : ∀ child ∈ node.children, child.NoHigher n) :
    node.NoHigher (n + 1) := by
  intro path hpath
  cases path with
  | nil => exact Nat.succ_le_succ (Nat.zero_le n)
  | cons child path =>
    obtain ⟨hchild, hrest⟩ := List.isChain_cons_cons.1 hpath
    exact Nat.succ_le_succ (h child hchild path hrest)

theorem noHigher_atom {n : Nat} {place : Location} {kind : TokenKind} {node : Node}
    (h : atom? place kind = some node) : node.NoHigher (n + 1) := by
  refine noHigher_of_children ?_
  unfold atom? at h
  split at h <;> cases h <;> exact nofun

end Node

open Node

/-! ## Limits -/

mutual

/-- The height of values by the number of levels that may still be entered: of the level of the value
itself, its operands and the chains around them. -/
def valueLimit : Nat → Nat
  | 0 => 0
  | left + 1 => operandLimit left + binaryLevels.length * left + 1

/-- The height of operands with the operators around them: either one in front, or a primary
expression and as many operators behind it as there are levels. -/
def operandLimit : Nat → Nat
  | 0 => 0
  | left + 1 => valueLimit left + left + 1

end

/-- The height of statements. Two nodes of a statement may stand above a value: a loop and a
declaration in its first clause. -/
def statementLimit : Nat → Nat
  | 0 => 0
  | left + 1 => valueLimit left + 2

theorem length_binaryLevels : binaryLevels.length = 6 := rfl

theorem valueLimit_succ (left : Nat) :
    valueLimit (left + 1) = operandLimit left + binaryLevels.length * left + 1 := by rw [valueLimit]

theorem operandLimit_succ (left : Nat) : operandLimit (left + 1) = valueLimit left + left + 1 := by
  rw [operandLimit]

theorem limit_le_succ (left : Nat) :
    valueLimit left ≤ valueLimit (left + 1) ∧ operandLimit left ≤ operandLimit (left + 1) := by
  induction left with
  | zero => exact ⟨Nat.zero_le _, Nat.zero_le _⟩
  | succ left ih =>
    obtain ⟨hvalue, hoperand⟩ := ih
    refine ⟨?_, ?_⟩
    · rw [valueLimit_succ left, valueLimit_succ (left + 1), length_binaryLevels]
      omega
    · rw [operandLimit_succ left, operandLimit_succ (left + 1)]
      omega

theorem valueLimit_mono {m n : Nat} (h : m ≤ n) : valueLimit m ≤ valueLimit n := by
  induction h with
  | refl => exact Nat.le_refl _
  | step _ ih => exact Nat.le_trans ih (limit_le_succ _).1

theorem operandLimit_mono {m n : Nat} (h : m ≤ n) : operandLimit m ≤ operandLimit n := by
  induction h with
  | refl => exact Nat.le_refl _
  | step _ ih => exact Nat.le_trans ih (limit_le_succ _).2

theorem operandLimit_le (left : Nat) : operandLimit left ≤ valueLimit left + left := by
  cases left with
  | zero => exact Nat.zero_le _
  | succ left =>
    have hle := (limit_le_succ left).1
    rw [operandLimit_succ]
    omega

theorem valueLimit_le (left : Nat) :
    valueLimit left ≤ operandLimit left + binaryLevels.length * left := by
  cases left with
  | zero => exact Nat.zero_le _
  | succ left =>
    have hle := operandLimit_le left
    rw [valueLimit_succ, operandLimit_succ, length_binaryLevels]
    omega

theorem statementLimit_le (left : Nat) : statementLimit left ≤ valueLimit left + 1 := by
  cases left with
  | zero => exact Nat.zero_le _
  | succ left =>
    have hle := valueLimit_le left
    rw [statementLimit, valueLimit_succ]
    omega

/-! ## Readers and the depth -/

namespace Reader

variable {α β : Type} {depth : Nat} {P P' : α → Prop} {Q : α → Nat → Prop} {R : β → Nat → Prop}

/-- Where the reader leads from the given depth: to a value and a depth of which `Q` holds. -/
def Climbs (depth : Nat) (Q : α → Nat → Prop) (x : Reader α) : Prop :=
  ∀ ⦃s a t⦄, s.depth = depth → x.run s = .ok (a, t) → Q a t.depth

/-- From the given depth the reader reads something with the property, and then it is at that depth
again. -/
def ReadsAt (depth : Nat) (P : α → Prop) (x : Reader α) : Prop :=
  Climbs depth (fun a d => P a ∧ d = depth) x

theorem climbs_pure {a : α} (h : Q a depth) : Climbs depth Q (pure a) := by
  rintro s _ _ rfl ⟨⟩
  exact h

theorem climbs_fail (fault : ParseFault) (place : Location) : Climbs depth Q (fail fault place) := by
  rintro s a t - ⟨⟩

theorem Climbs.bind {x : Reader α} {f : α → Reader β} (hx : Climbs depth Q x)
    (hf : ∀ a d, Q a d → Climbs d R (f a)) : Climbs depth R (x >>= f) := by
  intro s b t hs h
  obtain ⟨a, u, hu, ht⟩ := run_bind_eq_ok_iff.1 h
  exact hf a _ (hx hs hu) rfl ht

/-- A reader that stops reads nothing. -/
theorem climbs_fail_bind (fault : ParseFault) (place : Location) (f : α → Reader β) :
    Climbs depth R (fail fault place >>= f) :=
  (climbs_fail (Q := fun _ _ => False) fault place).bind fun _ _ h => h.elim

theorem climbs_get : Climbs depth (fun _ d => d = depth) get := by
  rintro s _ _ hs ⟨⟩
  exact hs

theorem climbs_modify {f : ReaderState → ReaderState} (hf : ∀ s, (f s).depth = s.depth) :
    Climbs depth (fun _ d => d = depth) (modify f) := by
  rintro s _ _ hs ⟨⟩
  exact (hf s).trans hs

theorem Plain.climbs {x : Reader α} (hx : Plain x) : Climbs depth (fun _ d => d = depth) x :=
  fun _ _ _ hs h => (hx.keeps h).2.2.trans hs

/-- Something without importance is read before. -/
theorem Climbs.after {x : Reader α} {f : α → Reader β}
    (hx : Climbs depth (fun _ d => d = depth) x) (hf : ∀ a, Climbs depth R (f a)) :
    Climbs depth R (x >>= f) := by
  refine hx.bind ?_
  rintro a _ rfl
  exact hf a

theorem Plain.after {x : Reader α} {f : α → Reader β} (hx : Plain x)
    (hf : ∀ a, Climbs depth R (f a)) : Climbs depth R (x >>= f) :=
  hx.climbs.after hf

theorem climbs_outOfBudget : Climbs depth Q outOfBudget :=
  Plain.peek.after fun _ => climbs_fail _ _

theorem climbs_itemBound : Climbs depth (fun _ d => d = depth) itemBound :=
  climbs_get.after fun _ => climbs_pure rfl

theorem climbs_voidIsAlone : Climbs depth (fun _ d => d = depth) voidIsAlone :=
  climbs_get.after fun _ => climbs_pure rfl

theorem climbs_descend : Climbs depth (fun _ d => d = depth + 1 ∧ depth < maxNesting) descend := by
  rintro s _ t rfl h
  obtain ⟨s', u, hu, h⟩ := run_bind_eq_ok_iff.1 h
  cases hu
  split at h
  · obtain ⟨_, _, hu, -⟩ := run_bind_eq_ok_iff.1 h
    cases hu
  · rename_i hdepth
    cases h
    exact ⟨rfl, Nat.lt_of_not_le hdepth⟩

theorem climbs_ascend (levels : Nat) : Climbs depth (fun _ d => d = depth - levels) (ascend levels) := by
  rintro s _ _ rfl ⟨⟩
  rfl

/-! ## Readers that leave all levels they enter -/

theorem readsAt_pure {a : α} (h : P a) : ReadsAt depth P (pure a) := climbs_pure ⟨h, rfl⟩

theorem ReadsAt.imp {x : Reader α} (hx : ReadsAt depth P x) (h : ∀ a, P a → P' a) :
    ReadsAt depth P' x := by
  intro s a t hs hrun
  obtain ⟨ha, ht⟩ := hx hs hrun
  exact ⟨h a ha, ht⟩

theorem ReadsAt.bind {x : Reader α} {f : α → Reader β} (hx : ReadsAt depth P x)
    (hf : ∀ a, P a → Climbs depth R (f a)) : Climbs depth R (x >>= f) := by
  refine Climbs.bind hx ?_
  rintro a _ ⟨ha, rfl⟩
  exact hf a ha

theorem ReadsAt.map {x : Reader α} {f : α → β} {P' : β → Prop} (hx : ReadsAt depth P x)
    (h : ∀ a, P a → P' (f a)) : ReadsAt depth P' (f <$> x) := by
  rw [map_eq_pure_bind]
  exact hx.bind fun a ha => readsAt_pure (h a ha)

theorem ReadsAt.some {x : Reader α} (hx : ReadsAt depth P x) :
    ReadsAt depth (fun o : Option α => ∀ a ∈ o.toList, P a) (Option.some <$> x) :=
  hx.map fun _ ha => List.forall_mem_singleton.2 ha

theorem readsAt_none : ReadsAt depth (fun o : Option α => ∀ a ∈ o.toList, P a) (pure none) :=
  readsAt_pure nofun

theorem ReadsAt.nested {x : Reader α} (hx : depth < maxNesting → ReadsAt (depth + 1) P x) :
    ReadsAt depth P (Reader.nested x) := by
  refine climbs_descend.bind ?_
  rintro _ _ ⟨rfl, hlt⟩
  exact (hx hlt).bind fun a ha => (climbs_ascend 1).bind fun _ d hd => climbs_pure ⟨ha, by
    rw [hd, Nat.add_sub_cancel]⟩

theorem ReadsAt.commaSeparated {item : Reader α} (h : ReadsAt depth P item) :
    ReadsAt depth (fun as => ∀ a ∈ as, P a) (Reader.commaSeparated item) := by
  refine climbs_itemBound.after fun bound => ?_
  induction bound with
  | zero => exact climbs_outOfBudget
  | succ bound ih =>
    refine h.bind fun a ha => (plain_accept _).after fun more => ?_
    cases more with
    | true => exact ReadsAt.bind ih fun as has => readsAt_pure (List.forall_mem_cons.2 ⟨ha, has⟩)
    | false => exact readsAt_pure (List.forall_mem_singleton.2 ha)

/-- At the given depth and at every greater one the reader keeps to the limit. -/
def Bounded (depth limit : Nat) (x : Reader Node) : Prop :=
  ∀ d, depth ≤ d → ReadsAt d (NoHigher limit) x

variable {m n : Nat} {value operand statement : Reader Node}

theorem Bounded.readsAt {x : Reader Node} (h : Bounded depth n x) : ReadsAt depth (NoHigher n) x :=
  h depth (Nat.le_refl _)

theorem Bounded.mono {x : Reader Node} (h : Bounded depth m x) (hle : m ≤ n) : Bounded depth n x :=
  fun d hd => (h d hd).imp fun _ hnode => hnode.mono hle

theorem Bounded.of_le {x : Reader Node} {d : Nat} (h : Bounded depth n x) (hd : depth ≤ d) :
    Bounded d n x := fun e he => h e (Nat.le_trans hd he)

/-! ## Declarations -/

theorem readsAt_declarator (hvalue : ReadsAt depth (NoHigher n) value) :
    ReadsAt depth (NoHigher (n + 1)) (declarator value) := by
  refine plain_typeSpecifier.after fun spec => plain_identifier.after fun name =>
    (plain_dimensionsUpTo _).after fun dims => (plain_accept _).after fun equal => ?_
  have hrest {init : Option Node} (hinit : ∀ v ∈ init.toList, v.NoHigher n) :
      ReadsAt depth (NoHigher (n + 1)) (do
        let type ← variableType spec.1 dims init name.2
        if type = .void then fail (.voidVariable name.1) name.2
        return .declaration name.2 name.1 type spec.2 init) := by
    refine (plain_variableType _ _ _ _).after fun type => ?_
    split
    · exact climbs_fail_bind _ _ _
    · exact readsAt_pure (noHigher_of_children hinit)
  cases equal with
  | true => exact hvalue.some.bind fun _ hinit => hrest hinit
  | false => exact readsAt_none.bind fun _ hinit => hrest hinit

theorem readsAt_variableDeclaration (hvalue : ReadsAt depth (NoHigher n) value) :
    ReadsAt depth (NoHigher (n + 1)) (variableDeclaration value) :=
  (readsAt_declarator hvalue).bind fun _ h => (plain_expect _ _).after fun _ => readsAt_pure h

/-! ## Chains of binary operators -/

/-- Each operator of a chain is a level that was entered, and a level of the tree. -/
theorem climbs_chainFrom (level : List (Symbol × BinaryOp)) (hoperand : Bounded depth n operand)
    (bound : Nat) {left : Node} (entered : Nat) (hleft : left.NoHigher (n + entered))
    (hentered : entered ≤ maxNesting - depth) :
    Climbs (depth + entered)
      (fun r d => r.1.NoHigher (n + r.2) ∧ r.2 ≤ maxNesting - depth ∧ d = depth + r.2)
      (chainFrom level operand bound left entered) := by
  induction bound generalizing left entered with
  | zero => exact climbs_outOfBudget
  | succ bound ih =>
    refine Plain.peek.after fun token => ?_
    split
    · exact climbs_pure ⟨hleft, hentered, rfl⟩
    · refine Plain.advance.after fun _ => climbs_descend.bind ?_
      rintro _ _ ⟨rfl, hlt⟩
      rw [Nat.add_assoc]
      refine (hoperand _ (by omega)).bind fun right hright => ih _ (noHigher_of_children ?_) (by omega)
      exact List.forall_mem_cons.2
        ⟨hleft, List.forall_mem_singleton.2 (hright.mono (Nat.le_add_right _ _))⟩

theorem bounded_chain (level : List (Symbol × BinaryOp)) (hoperand : Bounded depth n operand) :
    Bounded depth (n + (maxNesting - depth)) (chain level operand) := by
  intro d hd
  refine (hoperand d hd).bind fun first hfirst =>
    (climbs_chainFrom level (hoperand.of_le hd) _ 0 hfirst (Nat.zero_le _)).bind ?_
  rintro ⟨tree, entered⟩ _ ⟨htree, hentered, rfl⟩
  refine (climbs_ascend entered).bind ?_
  rintro _ _ rfl
  exact climbs_pure ⟨htree.mono (by omega), Nat.add_sub_cancel _ _⟩

theorem bounded_binary (hoperand : Bounded depth n operand) :
    Bounded depth (n + binaryLevels.length * (maxNesting - depth)) (binary operand) := by
  unfold binary
  induction binaryLevels with
  | nil => exact hoperand.mono (Nat.le_add_right _ _)
  | cons level levels ih =>
    refine (bounded_chain level ih).mono (Nat.le_of_eq ?_)
    rw [List.length_cons, Nat.succ_mul, Nat.add_assoc]

theorem bounded_assignment (hoperand : Bounded depth n operand)
    (hvalue : Bounded depth (n + binaryLevels.length * (maxNesting - depth)) value) :
    Bounded depth (n + binaryLevels.length * (maxNesting - depth) + 1) (assignment value operand) := by
  intro d hd
  refine (bounded_binary hoperand d hd).bind fun target htarget => Plain.peek.after fun token => ?_
  split
  · exact readsAt_pure (htarget.mono (Nat.le_succ _))
  · rename_i op? _
    refine Plain.advance.after fun _ => ?_
    dsimp only
    split
    · refine (hvalue d hd).bind fun source hsource => ?_
      cases op? <;> exact readsAt_pure (noHigher_of_children
        (List.forall_mem_cons.2 ⟨htarget, List.forall_mem_singleton.2 hsource⟩))
    · exact climbs_fail_bind _ _ _

/-! ## Operators around an operand -/

theorem readsAt_stepNode (place : Location) (op : StepOp) {node : Node} (h : node.NoHigher n) :
    ReadsAt depth (NoHigher (n + 1)) (stepNode place op node) := by
  unfold stepNode
  split
  · exact readsAt_pure (noHigher_of_children (List.forall_mem_singleton.2 h))
  · exact climbs_fail_bind _ _ _

theorem readsAt_arguments (hvalue : ReadsAt depth (NoHigher n) value) :
    ReadsAt depth (fun args => ∀ a ∈ args, a.NoHigher n) (arguments value) := by
  refine (plain_isNext _).after fun next => ?_
  cases next with
  | true => exact readsAt_pure nofun
  | false => exact hvalue.commaSeparated

theorem climbs_trailingFrom (hvalue : Bounded depth n value) (bound : Nat) {node : Node}
    (entered : Nat) (hnode : node.NoHigher (n + 1 + entered))
    (hentered : entered ≤ maxNesting - depth) :
    Climbs (depth + entered)
      (fun r d => r.1.NoHigher (n + 1 + r.2) ∧ r.2 ≤ maxNesting - depth ∧ d = depth + r.2)
      (trailingFrom value bound node entered) := by
  induction bound generalizing node entered with
  | zero => exact climbs_outOfBudget
  | succ bound ih =>
    have hle : n ≤ n + 1 + entered := by omega
    refine Plain.peek.after fun token => ?_
    split
    · refine climbs_descend.bind ?_
      rintro _ _ ⟨rfl, hlt⟩
      rw [Nat.add_assoc]
      exact Plain.advance.after fun _ => (readsAt_stepNode _ _ hnode).bind fun _ hstep =>
        ih _ hstep (by omega)
    · refine climbs_descend.bind ?_
      rintro _ _ ⟨rfl, hlt⟩
      rw [Nat.add_assoc]
      exact Plain.advance.after fun _ => (readsAt_stepNode _ _ hnode).bind fun _ hstep =>
        ih _ hstep (by omega)
    · refine climbs_descend.bind ?_
      rintro _ _ ⟨rfl, hlt⟩
      rw [Nat.add_assoc]
      refine Plain.advance.after fun _ => (hvalue _ (by omega)).bind fun position hposition =>
        (plain_expect _ _).after fun _ => ih _ (noHigher_of_children ?_) (by omega)
      exact List.forall_mem_cons.2
        ⟨hnode, List.forall_mem_singleton.2 (hposition.mono hle)⟩
    · refine climbs_descend.bind ?_
      rintro _ _ ⟨rfl, hlt⟩
      rw [Nat.add_assoc]
      split
      · refine Plain.advance.after fun _ => (readsAt_arguments (hvalue _ (by omega))).bind
          fun args hargs => (plain_expect _ _).after fun _ => ih _ (noHigher_of_children ?_) (by omega)
        exact fun arg harg => (hargs arg harg).mono hle
      · exact climbs_fail _ _
    · exact climbs_pure ⟨hnode, hentered, rfl⟩

theorem readsAt_elementsUpTo (hvalue : ReadsAt depth (NoHigher n) value) (bound : Nat) :
    ReadsAt depth (fun elements => ∀ e ∈ elements, e.NoHigher n) (elementsUpTo value bound) := by
  induction bound with
  | zero => exact climbs_outOfBudget
  | succ bound ih =>
    refine (plain_isNext _).after fun closed => ?_
    cases closed with
    | true => exact readsAt_pure nofun
    | false =>
      refine hvalue.bind fun e he => (plain_accept _).after fun more => ?_
      cases more with
      | true => exact ReadsAt.bind ih fun es hes => readsAt_pure (List.forall_mem_cons.2 ⟨he, hes⟩)
      | false => exact readsAt_pure (List.forall_mem_singleton.2 he)

theorem readsAt_arrayLiteral (hvalue : ReadsAt depth (NoHigher n) value) (place : Location) :
    ReadsAt depth (NoHigher (n + 1)) (arrayLiteral value place) := by
  refine climbs_itemBound.after fun bound =>
    (readsAt_elementsUpTo hvalue bound).bind fun es hes => (plain_expect _ _).after fun _ => ?_
  split
  · exact climbs_fail_bind _ _ _
  · exact readsAt_pure (noHigher_of_children hes)

theorem readsAt_parenthesized (hvalue : ReadsAt depth (NoHigher n) value) :
    ReadsAt depth (NoHigher (n + 1)) (parenthesized value) := by
  refine plain_typeIsNext.after fun typed => ?_
  cases typed with
  | true =>
    refine (readsAt_declarator hvalue).bind fun node hnode => ?_
    split
    · exact (plain_expect _ _).after fun _ => readsAt_pure hnode
    · exact climbs_fail_bind _ _ _
  | false =>
    exact hvalue.bind fun _ h => (plain_expect _ _).after fun _ =>
      readsAt_pure (h.mono (Nat.le_succ _))

theorem readsAt_primary (hvalue : ReadsAt depth (NoHigher n) value) :
    ReadsAt depth (NoHigher (n + 1)) (primary value) := by
  refine Plain.peek.after fun token => ?_
  split
  · rename_i hatom
    exact Plain.advance.after fun _ => readsAt_pure (noHigher_atom hatom)
  · refine (plain_accept _).after fun brace => ?_
    cases brace with
    | true => exact readsAt_arrayLiteral hvalue _
    | false =>
      refine (plain_accept _).after fun paren => ?_
      cases paren with
      | true => exact readsAt_parenthesized hvalue
      | false => exact climbs_fail _ _

theorem bounded_trailing (hvalue : Bounded depth n value) :
    Bounded depth (n + (maxNesting - depth) + 1) (trailing value) := by
  intro d hd
  refine (readsAt_primary (hvalue d hd)).bind fun operand hoperand =>
    (climbs_trailingFrom (hvalue.of_le hd) _ 0 hoperand (Nat.zero_le _)).bind ?_
  rintro ⟨node, entered⟩ _ ⟨hnode, hentered, rfl⟩
  refine (climbs_ascend entered).bind ?_
  rintro _ _ rfl
  exact climbs_pure ⟨hnode.mono (by omega), Nat.add_sub_cancel _ _⟩

theorem bounded_leading (hvalue : Bounded depth n value)
    (hoperand : Bounded depth (n + (maxNesting - depth)) operand) :
    Bounded depth (n + (maxNesting - depth) + 1) (leading value operand) := by
  intro d hd
  have hprefix {f : Node → Node} (hf : ∀ node, (f node).children = [node]) :
      ReadsAt d (NoHigher (n + (maxNesting - depth) + 1)) (do return f (← operand)) :=
    (hoperand d hd).bind fun node h => readsAt_pure (noHigher_of_children (by
      rw [hf]
      exact List.forall_mem_singleton.2 h))
  refine Plain.peek.after fun token => ?_
  split
  · exact Plain.advance.after fun _ => hprefix fun _ => rfl
  · exact Plain.advance.after fun _ => hprefix fun _ => rfl
  · exact Plain.advance.after fun _ => (hoperand d hd).imp fun _ h => h.mono (Nat.le_succ _)
  · refine Plain.advance.after fun _ => (hoperand d hd).bind fun node h => ?_
    split
    · exact readsAt_pure (noHigher_of_children (List.forall_mem_singleton.2 h))
    · exact climbs_fail_bind _ _ _
  · exact Plain.advance.after fun _ => hprefix fun _ => rfl
  · exact Plain.advance.after fun _ => (hoperand d hd).bind fun _ h => readsAt_stepNode _ _ h
  · exact Plain.advance.after fun _ => (hoperand d hd).bind fun _ h => readsAt_stepNode _ _ h
  · exact bounded_trailing hvalue d hd

/-- Values and operands keep to the limits of their depth. -/
theorem bounded_expression_unary (budget depth : Nat) :
    Bounded depth (valueLimit (maxNesting - depth)) (expression budget) ∧
      Bounded depth (operandLimit (maxNesting - depth)) (unary budget) := by
  induction budget generalizing depth with
  | zero => exact ⟨fun _ _ => climbs_outOfBudget, fun _ _ => climbs_outOfBudget⟩
  | succ budget ih =>
    refine ⟨fun d hd => .nested fun hlt => ?_, fun d hd => .nested fun hlt => ?_⟩
    all_goals
      obtain ⟨hvalue, hoperand⟩ := ih (d + 1)
      obtain ⟨left, hleft⟩ : ∃ left, maxNesting - d = left + 1 := ⟨maxNesting - (d + 1), by omega⟩
      have hinner : maxNesting - (d + 1) = left := by omega
      have hle : left + 1 ≤ maxNesting - depth := by omega
    · refine (bounded_assignment hoperand (hvalue.mono (valueLimit_le _))).readsAt.imp fun _ h => ?_
      rw [hinner, ← valueLimit_succ] at h
      exact h.mono (valueLimit_mono hle)
    · refine (bounded_leading hvalue (hoperand.mono (operandLimit_le _))).readsAt.imp fun _ h => ?_
      rw [hinner, ← operandLimit_succ] at h
      exact h.mono (operandLimit_mono hle)

theorem readsAt_expression (budget depth : Nat) :
    ReadsAt depth (NoHigher (valueLimit (maxNesting - depth))) (expression budget) :=
  (bounded_expression_unary budget depth).1.readsAt

/-! ## Statements -/

theorem readsAt_statements (hstatement : ReadsAt depth (NoHigher n) statement) :
    ReadsAt depth (fun nodes => ∀ s ∈ nodes, s.NoHigher n) (statements statement) := by
  refine climbs_itemBound.after fun bound => ?_
  induction bound with
  | zero => exact climbs_outOfBudget
  | succ bound ih =>
    refine Plain.peek.after fun token => ?_
    split
    · exact readsAt_pure nofun
    · exact hstatement.bind fun first hfirst => ReadsAt.bind ih fun rest hrest =>
        readsAt_pure (List.forall_mem_cons.2 ⟨hfirst, hrest⟩)

theorem readsAt_valueUnless (hvalue : ReadsAt depth (NoHigher n) value) (s : Symbol) :
    ReadsAt depth (fun o => ∀ v ∈ o.toList, v.NoHigher n) (valueUnless value s) := by
  refine (plain_isNext _).after fun next => ?_
  cases next with
  | true => exact readsAt_none
  | false => exact hvalue.some

theorem readsAt_loopBody (hstatement : ReadsAt depth (NoHigher n) statement) :
    ReadsAt depth (NoHigher n) (loopBody statement) :=
  (climbs_modify (by intro _; rfl)).after fun _ => hstatement.bind fun _ h =>
    (climbs_modify (by intro _; rfl)).after fun _ => readsAt_pure h

theorem readsAt_jump (word : Keyword) (place : Location) {node : Node} (h : node.NoHigher n) :
    ReadsAt depth (NoHigher n) (jump word place node) := by
  refine climbs_get.after fun s => ?_
  split
  · exact climbs_fail_bind _ _ _
  · exact (plain_expect _ _).after fun _ => readsAt_pure h

theorem readsAt_returnStatement (hvalue : ReadsAt depth (NoHigher n) value) (place : Location) :
    ReadsAt depth (NoHigher (n + 1)) (returnStatement value place) :=
  (readsAt_valueUnless hvalue _).bind fun _ h => (plain_expect _ _).after fun _ =>
    readsAt_pure (noHigher_of_children h)

theorem readsAt_ifStatement (hstatement : ReadsAt depth (NoHigher n) statement)
    (hvalue : ReadsAt depth (NoHigher n) value) (place : Location) :
    ReadsAt depth (NoHigher (n + 1)) (ifStatement statement value place) := by
  refine (plain_expect _ _).after fun _ => hvalue.bind fun condition hc =>
    (plain_expect _ _).after fun _ => hstatement.bind fun thenBranch ht =>
    (plain_acceptWord _).after fun more => ?_
  have hrest {elseBranch : Option Node} (he : ∀ s ∈ elseBranch.toList, s.NoHigher n) :
      (Node.ifElse place condition thenBranch elseBranch).NoHigher (n + 1) :=
    noHigher_of_children (List.forall_mem_cons.2 ⟨hc, List.forall_mem_cons.2 ⟨ht, he⟩⟩)
  cases more with
  | true => exact hstatement.some.bind fun _ he => readsAt_pure (hrest he)
  | false => exact readsAt_none.bind fun _ he => readsAt_pure (hrest he)

theorem readsAt_whileStatement (hstatement : ReadsAt depth (NoHigher n) statement)
    (hvalue : ReadsAt depth (NoHigher n) value) (place : Location) :
    ReadsAt depth (NoHigher (n + 1)) (whileStatement statement value place) :=
  (plain_expect _ _).after fun _ => hvalue.bind fun _ hc => (plain_expect _ _).after fun _ =>
    (readsAt_loopBody hstatement).bind fun _ hb => readsAt_pure (noHigher_of_children
      (List.forall_mem_cons.2 ⟨hc, List.forall_mem_singleton.2 hb⟩))

theorem readsAt_forInit (hvalue : ReadsAt depth (NoHigher n) value) :
    ReadsAt depth (fun o => ∀ s ∈ o.toList, s.NoHigher (n + 1)) (forInit value) := by
  refine (plain_accept _).after fun empty => ?_
  cases empty with
  | true => exact readsAt_none
  | false =>
    refine plain_typeIsNext.after fun typed => ?_
    cases typed with
    | true =>
      exact (readsAt_variableDeclaration hvalue).bind fun _ h =>
        readsAt_pure (List.forall_mem_singleton.2 h)
    | false =>
      exact hvalue.bind fun _ h => (plain_expect _ _).after fun _ =>
        readsAt_pure (List.forall_mem_singleton.2 (h.mono (Nat.le_succ _)))

theorem readsAt_forStatement (hstatement : ReadsAt depth (NoHigher (n + 1)) statement)
    (hvalue : ReadsAt depth (NoHigher n) value) (place : Location) :
    ReadsAt depth (NoHigher (n + 2)) (forStatement statement value place) := by
  refine (plain_expect _ _).after fun _ => (readsAt_forInit hvalue).bind fun init hinit =>
    (readsAt_valueUnless hvalue _).bind fun condition hc => (plain_expect _ _).after fun _ =>
    (readsAt_valueUnless hvalue _).bind fun increment hi => (plain_expect _ _).after fun _ =>
    (readsAt_loopBody hstatement).bind fun body hb => readsAt_pure (noHigher_of_children ?_)
  intro child hchild
  simp only [children, List.mem_append, List.mem_singleton] at hchild
  rcases hchild with ((h | h) | h) | rfl
  · exact hinit child h
  · exact (hc child h).mono (Nat.le_succ _)
  · exact (hi child h).mono (Nat.le_succ _)
  · exact hb

theorem readsAt_anyStatement (hstatement : ReadsAt depth (NoHigher (n + 1)) statement)
    (hvalue : ReadsAt depth (NoHigher n) value) :
    ReadsAt depth (NoHigher (n + 2)) (anyStatement statement value) := by
  have hvalue' : ReadsAt depth (NoHigher (n + 1)) value := hvalue.imp fun _ h => h.mono (Nat.le_succ _)
  refine Plain.peek.after fun token => ?_
  split
  · exact Plain.advance.after fun _ => readsAt_returnStatement hvalue' _
  · exact Plain.advance.after fun _ => readsAt_ifStatement hstatement hvalue' _
  · exact Plain.advance.after fun _ => readsAt_whileStatement hstatement hvalue' _
  · exact Plain.advance.after fun _ => readsAt_forStatement hstatement hvalue _
  · exact Plain.advance.after fun _ => readsAt_jump _ _ (noHigher_of_children nofun)
  · exact Plain.advance.after fun _ => readsAt_jump _ _ (noHigher_of_children nofun)
  · exact Plain.advance.after fun _ => readsAt_pure (noHigher_of_children nofun)
  · exact Plain.advance.after fun _ => (readsAt_statements hstatement).bind fun _ h =>
      (plain_expect _ _).after fun _ => readsAt_pure (noHigher_of_children h)
  · split
    · exact readsAt_variableDeclaration hvalue'
    · exact hvalue'.bind fun _ h => (plain_expect _ _).after fun _ =>
        readsAt_pure (noHigher_of_children (List.forall_mem_singleton.2 h))

/-- A statement leaves all levels that it enters, and keeps to the limit of its depth. -/
theorem readsAt_statement (budget depth : Nat) :
    ReadsAt depth (NoHigher (statementLimit (maxNesting - depth))) (Reader.statement budget) := by
  induction budget generalizing depth with
  | zero => exact climbs_outOfBudget
  | succ budget ih =>
    refine .nested fun hlt => ?_
    obtain ⟨left, hleft⟩ : ∃ left, maxNesting - depth = left + 1 :=
      ⟨maxNesting - (depth + 1), by omega⟩
    have hinner : maxNesting - (depth + 1) = left := by omega
    have hstatement := ih (depth + 1)
    have hvalue := readsAt_expression budget (depth + 1)
    rw [hinner] at hstatement hvalue
    rw [hleft]
    exact readsAt_anyStatement (hstatement.imp fun _ h => h.mono (statementLimit_le left)) hvalue

/-! ## Programs -/

theorem climbs_define (name : String) (place : Location) :
    Climbs depth (fun _ d => d = depth) (define name place) := by
  refine climbs_get.after fun s => ?_
  split
  · exact climbs_fail_bind _ _ _
  · exact climbs_modify fun _ => rfl

theorem climbs_parameters : Climbs depth (fun _ d => d = depth) parameters := by
  refine (plain_isNext _).after fun next => ?_
  cases next with
  | true => exact climbs_pure rfl
  | false =>
    refine climbs_voidIsAlone.after fun alone => ?_
    cases alone with
    | true => exact Plain.advance.after fun _ => climbs_pure rfl
    | false =>
      have hparameter : ReadsAt depth (fun _ => True) parameter :=
        fun _ _ _ hs h => ⟨trivial, plain_parameter.climbs hs h⟩
      exact fun _ _ _ hs h => (hparameter.commaSeparated hs h).2

/-- A function leaves all levels that it enters, and its statements keep to the limit. -/
theorem readsAt_functionDefinition (depth : Nat) :
    ReadsAt depth (fun node => ∀ child ∈ node.children,
      child.NoHigher (statementLimit (maxNesting - depth))) functionDefinition :=
  plain_typeSpecifier.after fun _ => plain_identifier.after fun _ =>
    (climbs_define _ _).after fun _ => (plain_expect _ _).after fun _ =>
    climbs_parameters.after fun _ => (plain_expect _ _).after fun _ => (plain_expect _ _).after fun _ =>
    (readsAt_statements (readsAt_statement _ _)).bind fun _ h => (plain_expect _ _).after fun _ =>
    readsAt_pure h

theorem readsAt_functionsUpTo (bound : Nat) :
    ReadsAt depth (fun nodes => ∀ node ∈ nodes, ∀ child ∈ node.children,
      child.NoHigher (statementLimit (maxNesting - depth))) (functionsUpTo bound) := by
  induction bound with
  | zero => exact climbs_outOfBudget
  | succ bound ih =>
    refine (plain_isNext _).after fun ended => ?_
    cases ended with
    | true => exact readsAt_pure nofun
    | false =>
      exact (readsAt_functionDefinition _).bind fun first hfirst => ReadsAt.bind ih fun rest hrest =>
        readsAt_pure (List.forall_mem_cons.2 ⟨hfirst, hrest⟩)

end Reader

theorem depth_ofTokens (tokens : List Token) : (ReaderState.ofTokens tokens).depth = 0 := by
  cases tokens <;> rfl

/-- The height of the tree of a function body is bounded, whatever text is accepted. -/
theorem length_le_of_path {text : String} {program : Program} (h : compile text = .ok program)
    {f : Function} (hf : f ∈ program.functions) {node : Node} (hnode : node ∈ f.body)
    {path : List Node} (hpath : IsPath (node :: path)) :
    (node :: path).length ≤ statementLimit maxNesting := by
  obtain ⟨tokens, s, -, hread⟩ := exists_run_of_compile h
  obtain ⟨definition, hdefinition, hdef⟩ := List.mem_filterMap.1 hf
  have hlower := (Reader.readsAt_functionsUpTo _ (depth_ofTokens tokens) hread).1 definition hdefinition
  cases definition <;> cases hdef
  exact hlower node hnode path hpath

example : statementLimit maxNesting = 113922 := by decide +kernel

/-! ## A tree that is higher than reading was deep -/

/-- The way down from a node over first children, so many nodes long at most. -/
def Node.spine : Nat → Node → List Node
  | 0, _ => []
  | count + 1, node =>
    match node.children with
    | [] => []
    | child :: _ => child :: child.spine count

theorem isPath_spine (count : Nat) (node : Node) : IsPath (node :: node.spine count) := by
  induction count generalizing node with
  | zero => exact .singleton node
  | succ count ih =>
    unfold spine
    split
    · exact .singleton node
    · rename_i child _ hchildren
      exact .cons_cons (hchildren ▸ List.mem_cons_self) (ih child)

/-- A sum whose first operand is a product, both of as many operators as a level each allows. -/
def sumOfProduct : List Char :=
  "int main() \x7b return 1".toList ++ (List.replicate 200 ['*', '1']).flatten ++
    (List.replicate 200 ['+', '1']).flatten ++ "; \x7d".toList

theorem exists_spine_sumOfProduct : ∃ program, compile (String.ofList sumOfProduct) = .ok program ∧
    ∃ f ∈ program.functions, ∃ node ∈ f.body, (node.spine maxNesting).length = maxNesting := by
  have h : ∃ program, compile (String.ofList sumOfProduct) = .ok program ∧
      (program.functions.any fun f => f.body.any fun node =>
        (node.spine maxNesting).length = maxNesting) = true :=
    exists_compile_of_any (by decide +kernel)
  simpa only [List.any_eq_true, decide_eq_true_eq] using h

/-- The text is accepted, and its tree has a path of more nodes than there are levels. -/
theorem exists_path_above_maxNesting : ∃ program f node path,
    compile (String.ofList sumOfProduct) = .ok program ∧ f ∈ program.functions ∧ node ∈ f.body ∧
      IsPath (node :: path) ∧ maxNesting < (node :: path).length := by
  obtain ⟨program, hcompile, f, hf, node, hnode, hlength⟩ := exists_spine_sumOfProduct
  refine ⟨program, f, node, _, hcompile, hf, hnode, isPath_spine maxNesting node, ?_⟩
  rw [List.length_cons, hlength]
  exact Nat.lt_succ_self _

/-- The path of that text keeps to the limit. -/
theorem exists_path_within_limit : ∃ program f node,
    compile (String.ofList sumOfProduct) = .ok program ∧ f ∈ program.functions ∧ node ∈ f.body ∧
      (node :: node.spine maxNesting).length ≤ statementLimit maxNesting := by
  obtain ⟨program, hcompile, f, hf, node, hnode, -⟩ := exists_spine_sumOfProduct
  exact ⟨program, f, node, hcompile, hf, hnode,
    length_le_of_path hcompile hf hnode (isPath_spine maxNesting node)⟩

end BoundedC
