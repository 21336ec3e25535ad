import Mathlib.Data.List.Infix
import BoundedC.Proofs.DeclaredTypes
import BoundedC.Proofs.Grammar

/-!
# What is true of every node of a phrase

A property of the nodes of a tree, and of the tokens that the tree is read from, is true of all nodes of
a phrase if the rules of the grammar bring it along: the rules for literals, for steps, for `&` and for
assignments. The other rules make nodes that are `plain`. The property may not be lost with more tokens in
front.

* `Phrase.nodes` : the nodes that the tree of a phrase consists of;
* `Node.Everywhere`, `Phrase.Each` : a property of all nodes of a tree, or of all trees of a phrase;
* `FollowsRules` : what is to be shown of a property;
* `Derives.each`, `Definitions.each` : the induction over derivations, for phrases and for functions.
-/

namespace BoundedC

namespace Node

variable {P : Node → Prop} {root : Node}

/-- It is true of the node and of all nodes below it. -/
def Everywhere (P : Node → Prop) (root : Node) : Prop := ∀ node : Node, node.IsIn root → P node

theorem everywhere_of_children (hroot : P root) (h : ∀ child ∈ root.children, child.Everywhere P) :
    root.Everywhere P := by
  intro node hnode
  cases hnode with
  | root => exact hroot
  | inside hchild hnode => exact h _ hchild node hnode

theorem Everywhere.imp {Q : Node → Prop} (h : root.Everywhere P) (hPQ : ∀ node, P node → Q node) :
    root.Everywhere Q := fun node hnode => hPQ node (h node hnode)

/-- The node is neither a literal nor does it operate on storage. -/
def isPlain : Node → Bool
  | intLiteral .. | charLiteral .. | stringLiteral .. | arrayLiteral .. => false
  | step .. | addressOf .. | assign .. | compoundAssign .. => false
  | _ => true

end Node

open Node

/-- The nodes that the tree of a phrase consists of. -/
def Phrase.nodes : (p : Phrase) → p.Tree → List Node
  | .values, nodes | .arguments, nodes | .elements, nodes | .statements, nodes => nodes
  | .clause, node | .forInit, node => node.toList
  | .value, node | .binary _, node | .unary, node | .trailing, node | .primary, node
  | .initialized, node | .declaration, node | .statement _, node => [node]

/-- The property is true of a node right where a rule of the grammar makes it. -/
structure FollowsRules (P : List Token → Node → Prop) : Prop where
  mono {tokens tokens' : List Token} {node : Node} (hsuffix : tokens <:+ tokens') (h : P tokens node) :
    P tokens' node
  plain {tokens : List Token} {node : Node} (h : node.isPlain = true) : P tokens node
  atom {kind : TokenKind} {l : Location} {rest : List Token} {node : Node} (h : Atom l kind node) :
    P (⟨kind, l⟩ :: rest) node
  arrayLiteral (l : Location) (input : List Token) (elements : List Node) :
    P (⟨.symbol .leftBrace, l⟩ :: input) (.arrayLiteral l elements)
  stepBehind (op : StepOp) {l : Location} {input rest : List Token} {operand : Node}
    (hop : op.yieldsOld = true)
    (h : Derives .trailing input (some operand) (⟨.symbol op.symbol, l⟩ :: rest)) :
    P input (.step l op operand)
  stepBefore (op : StepOp) {l : Location} {input rest : List Token} {operand : Node}
    (hop : op.yieldsOld = false) (h : Derives .unary input (some operand) rest) :
    P (⟨.symbol op.symbol, l⟩ :: input) (.step l op operand)
  addressOf {l : Location} {input rest : List Token} {operand : Node}
    (h : Derives .unary input (some operand) rest) :
    P (⟨.symbol .amp, l⟩ :: input) (.addressOf l operand)
  assign {s : Symbol} {op : Option BinaryOp} {l : Location} {input middle : List Token}
    {target : Node} (source : Node) (hop : AssignmentSign s op)
    (h : Derives (.binary operatorLevels) input (some target) (⟨.symbol s, l⟩ :: middle)) :
    P input (assignmentNode l op target source)

/-- What is behind the phrase ends the input, and the property is true of all nodes of the tree. -/
def Phrase.Each (P : List Token → Node → Prop) (p : Phrase) (input : List Token) (tree : Option p.Tree)
    (rest : List Token) : Prop :=
  rest <:+ input ∧ ∀ t, tree = some t → ∀ root ∈ p.nodes t, root.Everywhere (P input)

theorem exists_of_seq {α β : Type} {f? : Option (α → β)} {a? : Option α} {b : β}
    (h : f? <*> a? = some b) : ∃ f a, f? = some f ∧ a? = some a ∧ f a = b := by
  cases f? with
  | none => cases h
  | some f =>
    obtain ⟨a, ha, hb⟩ := Option.map_eq_some_iff.1 h
    exact ⟨f, a, rfl, ha, hb⟩

namespace FollowsRules

variable {P : List Token → Node → Prop} {tokens tokens' : List Token} {root : Node} {nodes : List Node}

theorem everywhere_mono (hP : FollowsRules P) (h : root.Everywhere (P tokens)) (hsuffix : tokens <:+ tokens') :
    root.Everywhere (P tokens') := h.imp fun _ => hP.mono hsuffix

theorem all_mono (hP : FollowsRules P) (h : ∀ root ∈ nodes, root.Everywhere (P tokens))
    (hsuffix : tokens <:+ tokens') : ∀ root ∈ nodes, root.Everywhere (P tokens') :=
  fun root hroot => hP.everywhere_mono (h root hroot) hsuffix

/-- A plain node on top of others. -/
theorem plain_singleton (hP : FollowsRules P) (hplain : root.isPlain = true)
    (h : ∀ child ∈ root.children, child.Everywhere (P tokens)) :
    ∀ node ∈ [root], node.Everywhere (P tokens) :=
  List.forall_mem_singleton.2 (everywhere_of_children (hP.plain hplain) h)

theorem everywhere_atom (hP : FollowsRules P) {kind : TokenKind} {l : Location} {rest : List Token}
    (h : Atom l kind root) : root.Everywhere (P (⟨kind, l⟩ :: rest)) := by
  refine everywhere_of_children (hP.atom h) ?_
  cases h <;> exact nofun

theorem everywhere_declarationNode? (hP : FollowsRules P) {l : Location} {name : String}
    {spec : CType × Bool} {dims : List Dimension} {init : Option Node}
    (h : declarationNode? l name spec dims init = some root)
    (hinit : ∀ v, init = some v → v.Everywhere (P tokens)) : root.Everywhere (P tokens) := by
  obtain ⟨type, -, rfl⟩ := Option.map_eq_some_iff.1 h
  refine everywhere_of_children (hP.plain rfl) fun child hchild => ?_
  exact hinit child (Option.mem_toList.1 hchild)

end FollowsRules

namespace Phrase.Each

variable {P : List Token → Node → Prop} {p q r : Phrase}
  {input input' middle middle' rest rest' : List Token} {tree : Option p.Tree} {other : Option q.Tree}

/-- There may be more tokens in front of the phrase and behind it. -/
theorem widen (hP : FollowsRules P) (h : p.Each P input tree rest') (hinput : input <:+ input')
    (hrest : rest <:+ rest') : p.Each P input' tree rest :=
  ⟨hrest.trans (h.1.trans hinput), fun t ht => hP.all_mono (h.2 t ht) hinput⟩

theorem behind (hP : FollowsRules P) {token : Token} (h : p.Each P input tree (token :: rest)) :
    p.Each P input tree rest := h.widen hP (List.suffix_refl _) (List.suffix_cons _ _)

theorem cons (hP : FollowsRules P) (token : Token) (h : p.Each P input tree rest) :
    p.Each P (token :: input) tree rest := h.widen hP (List.suffix_cons _ _) (List.suffix_refl _)

/-- A node on top of a phrase. -/
theorem map {f : p.Tree → q.Tree} (h : p.Each P input tree rest)
    (hf : ∀ t, tree = some t → (∀ root ∈ p.nodes t, root.Everywhere (P input)) →
      ∀ root ∈ q.nodes (f t), root.Everywhere (P input)) :
    q.Each P input (tree.map f) rest := by
  refine ⟨h.1, fun t' ht' => ?_⟩
  obtain ⟨t, ht, rfl⟩ := Option.map_eq_some_iff.1 ht'
  exact hf t ht (h.2 t ht)

/-- A node on top of two phrases, one behind the other. -/
theorem map₂ (hP : FollowsRules P) {f : p.Tree → q.Tree → r.Tree} (h : p.Each P input tree middle)
    (h' : q.Each P middle other rest)
    (hf : ∀ t t', tree = some t → (∀ root ∈ p.nodes t ++ q.nodes t', root.Everywhere (P input)) →
      ∀ root ∈ r.nodes (f t t'), root.Everywhere (P input)) :
    r.Each P input (f <$> tree <*> other) rest := by
  refine ⟨h'.1.trans h.1, fun u hu => ?_⟩
  obtain ⟨_, t', hfirst, ht', rfl⟩ := exists_of_seq hu
  obtain ⟨t, ht, rfl⟩ := Option.map_eq_some_iff.1 hfirst
  exact hf t t' ht (List.forall_mem_append.2 ⟨h.2 t ht, hP.all_mono (h'.2 t' ht') h.1⟩)

end Phrase.Each

/-! ## Types -/

theorem Stars.suffix {t u : CType} {input rest : List Token} (h : Stars t input u rest) :
    rest <:+ input := by
  induction h with
  | nil => exact List.suffix_refl _
  | cons _ ih => exact ih.trans (List.suffix_cons _ _)

theorem TypeSpecifier.suffix {spec : CType × Bool} {input rest : List Token}
    (h : TypeSpecifier input spec rest) : rest <:+ input := by
  cases h with
  | plain hstars => exact hstars.suffix.trans (List.suffix_cons _ _)
  | const hstars =>
    exact hstars.suffix.trans ((List.suffix_cons _ _).trans (List.suffix_cons _ _))

theorem Dimensions.suffix {dims : List Dimension} {input rest : List Token}
    (h : Dimensions input dims rest) : rest <:+ input := by
  induction h with
  | nil => exact List.suffix_refl _
  | omitted _ ih => exact ih.trans ((List.suffix_cons _ _).trans (List.suffix_cons _ _))
  | length _ ih =>
    exact ih.trans ((List.suffix_cons _ _).trans
      ((List.suffix_cons _ _).trans (List.suffix_cons _ _)))

/-! ## The induction -/

section

variable {P : List Token → Node → Prop} (hP : FollowsRules P)
include hP

/-- A property that follows the rules is true of all nodes of a phrase. -/
theorem Derives.each {p : Phrase} {input rest : List Token} {tree : Option p.Tree}
    (h : Derives p input tree rest) : p.Each P input tree rest := by
  induction h with
  | atom h =>
    refine ⟨List.suffix_cons _ _, ?_⟩
    rintro _ ⟨⟩
    exact List.forall_mem_singleton.2 (hP.everywhere_atom h)
  | arrayLiteral _ ih =>
    refine ((ih.behind hP).cons hP _).map fun _ _ h => ?_
    exact List.forall_mem_singleton.2 (everywhere_of_children (hP.arrayLiteral ..) h)
  | parentheses _ ih | parenthesizedDeclaration _ ih => exact (ih.behind hP).cons hP _
  | operand _ ih | unsigned _ ih | factor _ ih | tighter _ ih | unassigned _ ih | arguments _ ih
  | withInitializer _ ih => exact ih
  | postInc hd ih =>
    refine (ih.behind hP).map fun t ht h => ?_
    subst ht
    exact List.forall_mem_singleton.2 (everywhere_of_children (hP.stepBehind .postInc rfl hd) h)
  | postDec hd ih =>
    refine (ih.behind hP).map fun t ht h => ?_
    subst ht
    exact List.forall_mem_singleton.2 (everywhere_of_children (hP.stepBehind .postDec rfl hd) h)
  | index _ _ ih ih' => exact (ih.behind hP).map₂ hP (ih'.behind hP) fun _ _ _ h => hP.plain_singleton rfl h
  | call _ _ ih ih' =>
    refine ⟨(ih'.behind hP).1.trans (ih.behind hP).1, fun node hnode => ?_⟩
    unfold callNode? at hnode
    split at hnode
    · cases hnode
      exact hP.plain_singleton rfl (hP.all_mono (ih'.2 _ rfl) (ih.behind hP).1)
    · cases hnode
  | not _ ih | neg _ ih | deref _ ih => exact (ih.cons hP _).map fun _ _ h => hP.plain_singleton rfl h
  | addressOf hd ih =>
    refine (ih.cons hP _).map fun t ht h => ?_
    subst ht
    exact List.forall_mem_singleton.2 (everywhere_of_children (hP.addressOf hd) h)
  | preInc hd ih =>
    refine (ih.cons hP _).map fun t ht h => ?_
    subst ht
    exact List.forall_mem_singleton.2 (everywhere_of_children (hP.stepBefore .preInc rfl hd) h)
  | preDec hd ih =>
    refine (ih.cons hP _).map fun t ht h => ?_
    subst ht
    exact List.forall_mem_singleton.2 (everywhere_of_children (hP.stepBefore .preDec rfl hd) h)
  | plus _ ih => exact ih.cons hP _
  | binary _ _ _ ih ih' => exact (ih.behind hP).map₂ hP ih' fun _ _ _ h => hP.plain_singleton rfl h
  | @assign kind op _ _ _ _ _ _ hd hop _ ih ih' =>
    refine (ih.behind hP).map₂ hP ih' fun t t' ht h => ?_
    subst ht
    have hroot := hP.assign t' hop hd
    cases op with
    | none => exact List.forall_mem_singleton.2 (everywhere_of_children hroot h)
    | some op => exact List.forall_mem_singleton.2 (everywhere_of_children hroot h)
  | lastValue _ ih | lastElement _ ih => exact ih.map fun _ _ h => h
  | lastElementComma _ ih => exact (ih.behind hP).map fun _ _ h => h
  | moreValues _ _ ih ih' | moreElements _ _ ih ih' => exact (ih.behind hP).map₂ hP ih' fun _ _ _ h => h
  | noArguments | noStatements =>
    refine ⟨List.suffix_refl _, ?_⟩
    rintro _ ⟨⟩
    exact nofun
  | initialized hspec hdims _ ih =>
    have hsub := (List.suffix_cons _ _).trans
      (hdims.suffix.trans ((List.suffix_cons _ _).trans hspec.suffix))
    refine ⟨ih.1.trans hsub, fun node hnode => ?_⟩
    obtain ⟨v, hv, hnode⟩ := Option.bind_eq_some_iff.1 hnode
    refine List.forall_mem_singleton.2 (hP.everywhere_declarationNode? hnode ?_)
    rintro _ ⟨⟩
    exact hP.everywhere_mono (ih.2 v hv v List.mem_cons_self) hsub
  | withoutInitializer hspec hdims =>
    refine ⟨hdims.suffix.trans ((List.suffix_cons _ _).trans hspec.suffix), fun node hnode => ?_⟩
    exact List.forall_mem_singleton.2 (hP.everywhere_declarationNode? hnode nofun)
  | noClause =>
    refine ⟨List.suffix_refl _, ?_⟩
    rintro _ ⟨⟩
    exact nofun
  | clause _ ih => exact ih.map fun _ _ h => h
  | noInit =>
    refine ⟨List.suffix_cons _ _, ?_⟩
    rintro _ ⟨⟩
    exact nofun
  | declarationInit _ ih | valueInit _ ih => exact (ih.behind hP).map fun _ _ h => h
  | returnFrom _ ih => exact ((ih.behind hP).cons hP _).map fun _ _ h => hP.plain_singleton rfl h
  | ifThen _ _ ih ih' | whileLoop _ _ ih ih' =>
    exact (((ih.behind hP).cons hP _).cons hP _).map₂ hP ih' fun _ _ _ h => hP.plain_singleton rfl h
  | @ifElse _ l o _ _ _ _ _ _ _ _ _ _ _ _ ih ih' ih'' =>
    have h := ((ih.behind hP).cons hP ⟨.symbol .leftParen, o⟩).cons hP ⟨.keyword .ifWord, l⟩
    refine ⟨ih''.1.trans ((ih'.behind hP).1.trans h.1), fun node hnode => ?_⟩
    obtain ⟨_, o, hcb, ho, rfl⟩ := exists_of_seq hnode
    obtain ⟨_, b, hcondition, hb, rfl⟩ := exists_of_seq hcb
    obtain ⟨c, hc, rfl⟩ := Option.map_eq_some_iff.1 hcondition
    have hbranches := List.forall_mem_append.2 ⟨hP.all_mono (ih'.2 b hb) h.1,
      hP.all_mono (ih''.2 o ho) ((ih'.behind hP).1.trans h.1)⟩
    exact hP.plain_singleton rfl (List.forall_mem_append.2 ⟨h.2 c hc, hbranches⟩)
  | @forLoop _ l o _ _ _ _ _ _ _ _ _ _ _ _ _ _ _ ih ih' ih'' ihBody =>
    have h := (ih.cons hP ⟨.symbol .leftParen, o⟩).cons hP ⟨.keyword .forWord, l⟩
    have h' := (ih'.behind hP).1.trans h.1
    have h'' := (ih''.behind hP).1.trans h'
    refine ⟨ihBody.1.trans h'', fun node hnode => ?_⟩
    obtain ⟨_, b, hclauses, hb, rfl⟩ := exists_of_seq hnode
    obtain ⟨_, n, htwo, hn, rfl⟩ := exists_of_seq hclauses
    obtain ⟨_, c, hfirst, hc, rfl⟩ := exists_of_seq htwo
    obtain ⟨a, ha, rfl⟩ := Option.map_eq_some_iff.1 hfirst
    have htwo := List.forall_mem_append.2 ⟨h.2 a ha, hP.all_mono (ih'.2 c hc) h.1⟩
    have hclauses := List.forall_mem_append.2 ⟨htwo, hP.all_mono (ih''.2 n hn) h'⟩
    exact hP.plain_singleton rfl (List.forall_mem_append.2 ⟨hclauses, hP.all_mono (ihBody.2 b hb) h''⟩)
  | breakLoop | continueLoop =>
    refine ⟨(List.suffix_cons _ _).trans (List.suffix_cons _ _), ?_⟩
    rintro _ ⟨⟩
    exact hP.plain_singleton rfl nofun
  | empty =>
    refine ⟨List.suffix_cons _ _, ?_⟩
    rintro _ ⟨⟩
    exact hP.plain_singleton rfl nofun
  | block _ ih => exact ((ih.behind hP).cons hP _).map fun _ _ h => hP.plain_singleton rfl h
  | declared _ ih => exact ih.behind hP
  | expression _ _ ih => exact (ih.behind hP).map fun _ _ h => hP.plain_singleton rfl h
  | moreStatements _ _ ih ih' => exact ih.map₂ hP ih' fun _ _ _ h => h

end

/-- What is behind a phrase ends the input. -/
theorem Derives.suffix {p : Phrase} {input rest : List Token} {tree : Option p.Tree}
    (h : Derives p input tree rest) : rest <:+ input := by
  have htrivial : FollowsRules fun _ _ => True := by
    constructor <;> intros <;> trivial
  exact (h.each htrivial).1

/-! ## Functions -/

theorem Parameter.suffix {input rest : List Token} {param : Option Param}
    (h : Parameter input param rest) : rest <:+ input := by
  cases h with
  | mk hspec hdims => exact hdims.suffix.trans ((List.suffix_cons _ _).trans hspec.suffix)

theorem Parameters.suffix {input rest : List Token} {params : Option (List Param)}
    (h : Parameters input params rest) : rest <:+ input := by
  induction h with
  | last h => exact h.suffix
  | more h _ ih => exact ih.trans ((List.suffix_cons _ _).trans h.suffix)

theorem ParameterList.suffix {input rest : List Token} {params : Option (List Param)}
    (h : ParameterList input params rest) : rest <:+ input := by
  cases h with
  | empty => exact List.suffix_cons _ _
  | void => exact (List.suffix_cons _ _).trans (List.suffix_cons _ _)
  | some h => exact (List.suffix_cons _ _).trans h.suffix

/-- A property that follows the rules is true of all nodes of a program. -/
theorem Definitions.each {P : List Token → Node → Prop} (hP : FollowsRules P) {input rest : List Token}
    {nodes : Option (List Node)} (h : Definitions input nodes rest) :
    ∀ ns, nodes = some ns → ∀ root ∈ ns, root.Everywhere (P input) := by
  induction h with
  | nil =>
    rintro _ ⟨⟩
    exact nofun
  | cons hspec hparams hbody _ ih =>
    intro ns hns
    obtain ⟨_, fs, hfunction, hfs, rfl⟩ := exists_of_seq hns
    obtain ⟨_, body, hparts, hb, rfl⟩ := exists_of_seq hfunction
    obtain ⟨ps, -, rfl⟩ := Option.map_eq_some_iff.1 hparts
    have hopen := (List.suffix_cons _ _).trans ((List.suffix_cons _ _).trans hspec.suffix)
    have hbrace := (List.suffix_cons _ _).trans (hparams.suffix.trans hopen)
    have hmiddle := (List.suffix_cons _ _).trans (hbody.suffix.trans hbrace)
    refine List.forall_mem_cons.2 ⟨?_, hP.all_mono (ih fs hfs) hmiddle⟩
    exact everywhere_of_children (hP.plain rfl) (hP.all_mono ((hbody.each hP).2 body hb) hbrace)

end BoundedC
