import BoundedC.Proofs.LiteralSites
import BoundedC.Proofs.Reading
import BoundedC.Proofs.Recognition
import BoundedC.Proofs.Subtrees

/-!
# What is modified or pointed at

The target of an assignment and the operand of `++`, `--` or `&` name storage. The reader checks it on
the finished node; here it is told of the tokens that the node was read from. They are an identifier, a
dereference or an index, perhaps in parentheses, and perhaps with plus signs in front: like parentheses, a
plus sign leaves no node, so that the check cannot see it.

* `Node.target?` : the storage that a node operates on;
* `PlaceText` : tokens that name storage, with or without plus signs;
* `TargetText` : the tokens of a target, which stand beside the operator;
* `Derives.placeText` : the tokens of a node that names storage, by induction over derivations;
* `targets_are_places` : the targets of accepted lists of tokens, and the refusal of all others.
-/

namespace BoundedC

/-! ## Targets -/

namespace Node

/-- The storage that the node modifies or points at. -/
def target? : Node → Option Node
  | step _ _ target | addressOf _ target | assign _ target _ | compoundAssign _ _ target _ => some target
  | _ => none

theorem target?_eq_none_of_isPlain {node : Node} (h : node.isPlain = true) : node.target? = none := by
  cases node with
  | step | addressOf | assign | compoundAssign => cases h
  | _ => rfl

theorem target?_assignmentNode (place : Location) (op : Option BinaryOp) (target source : Node) :
    (assignmentNode place op target source).target? = some target := by
  cases op <;> rfl

/-- What is below an expression or a statement is one, too. -/
theorem IsStatement.child {loops : Nat} {node child : Node} (h : node.IsStatement loops)
    (hchild : child ∈ node.children) : ∃ loops, child.IsStatement loops := by
  have hexpression (he : node.IsExpression) : child.IsExpression := by
    cases he <;> simp only [children, Option.toList_some, List.mem_cons, List.not_mem_nil, or_false] at hchild
    all_goals grind
  cases h with
  | value h => exact ⟨0, .value (hexpression h)⟩
  | declaration _ h | returnFrom h => exact ⟨0, .value (h child (Option.mem_toList.1 hchild))⟩
  | block h => exact ⟨loops, h child hchild⟩
  | ifElse hc ht he =>
    rcases List.mem_cons.1 hchild with rfl | hchild
    · exact ⟨0, .value hc⟩
    · rcases List.mem_cons.1 hchild with rfl | hchild
      · exact ⟨loops, ht⟩
      · exact ⟨loops, he child (Option.mem_toList.1 hchild)⟩
  | whileLoop hc hb =>
    rcases List.mem_cons.1 hchild with rfl | hchild
    · exact ⟨0, .value hc⟩
    · obtain rfl := List.mem_singleton.1 hchild
      exact ⟨loops + 1, hb⟩
  | forLoop hinit hc hi hb =>
    simp only [children, List.mem_append, Option.mem_toList, List.mem_singleton] at hchild
    obtain ((h | h) | h) | rfl := hchild
    · exact ⟨0, hinit child h⟩
    · exact ⟨0, .value (hc child h)⟩
    · exact ⟨0, .value (hi child h)⟩
    · exact ⟨loops + 1, hb⟩
  | breakLoop | continueLoop => cases hchild
  | expression h =>
    obtain rfl := List.mem_singleton.1 hchild
    exact ⟨0, .value h⟩

theorem IsIn.isStatement {node root : Node} (h : node.IsIn root) {loops : Nat}
    (hroot : root.IsStatement loops) : ∃ loops, node.IsStatement loops := by
  induction h generalizing loops with
  | root => exact ⟨loops, hroot⟩
  | inside hchild _ ih =>
    obtain ⟨_, hstatement⟩ := hroot.child hchild
    exact ih hstatement

theorem IsStatement.isLvalue_target {loops : Nat} {node target : Node} (h : node.IsStatement loops)
    (htarget : node.target? = some target) : target.isLvalue = true := by
  cases h with
  | value h =>
    cases h with
    | step hplace | addressOf hplace | assign hplace | compoundAssign _ hplace =>
      cases htarget
      exact hplace
    | _ => cases htarget
  | _ => cases htarget

end Node

open Node

/-- The targets of an accepted list of tokens name storage. -/
theorem isLvalue_of_ofTokens {tokens : List Token} {program : Program}
    (h : Program.ofTokens tokens = .ok program) {node target : Node} (hnode : node.Within program.nodes)
    (htarget : node.target? = some target) : target.isLvalue = true := by
  unfold Program.ofTokens at h
  cases hread : (Reader.functionsUpTo (tokens.length + 1)).run (.ofTokens tokens) with
  | error e =>
    rw [hread] at h
    cases h
  | ok r =>
    rw [hread] at h
    cases h
    obtain ⟨root, hroot, hin⟩ := hnode
    obtain ⟨f, hf, hbody⟩ :=
      (Reader.reads_functionsUpTo _ (loops_ofTokens tokens) hread).1 root hroot
    cases hin with
    | root =>
      cases node with
      | function => cases htarget
      | _ => cases hf
    | inside hchild hin =>
      cases root with
      | function =>
        cases hf
        obtain ⟨_, hstatement⟩ := hin.isStatement (hbody _ hchild)
        exact hstatement.isLvalue_target htarget
      | _ => cases hf

/-! ## Texts of targets -/

def Phrase.Reads (p : Phrase) (text : List Token) (tree : p.Tree) : Prop :=
  ∃ rest, Derives p (text ++ rest) (some tree) rest

/-- The tokens name storage: a variable, what is behind a pointer, or an element, perhaps in
parentheses. Plus signs may be allowed in front. -/
inductive PlaceText (signs : Bool) : List Token → Node → Prop
  | identifier (l : Location) (name : String) :
    PlaceText signs [⟨.identifier name, l⟩] (.identifier l name)
  | deref {l : Location} {text : List Token} {operand : Node} (h : Phrase.unary.Reads text operand) :
    PlaceText signs (⟨.symbol .star, l⟩ :: text) (.deref l operand)
  | index {l r : Location} {text inner : List Token} {array position : Node}
    (harray : Phrase.trailing.Reads text array) (hposition : Phrase.value.Reads inner position) :
    PlaceText signs (text ++ ⟨.symbol .leftBracket, l⟩ :: (inner ++ [⟨.symbol .rightBracket, r⟩]))
      (.index l array position)
  | parentheses {l r : Location} {text : List Token} {node : Node} (h : PlaceText signs text node) :
    PlaceText signs (⟨.symbol .leftParen, l⟩ :: (text ++ [⟨.symbol .rightParen, r⟩])) node
  | plus {l : Location} {text : List Token} {node : Node} (hsigns : signs = true)
    (h : PlaceText signs text node) : PlaceText signs (⟨.symbol .plus, l⟩ :: text) node

/-- The node operates on the target, whose text stands among the tokens, right before or behind the
operator at the node's place. -/
inductive TargetText (tokens : List Token) : Node → Node → List Token → Prop
  | assigned {s : Symbol} {op : Option BinaryOp} {l : Location} {text after : List Token}
    {node target source : Node} (hop : AssignmentSign s op)
    (hnode : node = assignmentNode l op target source)
    (h : Derives (.binary operatorLevels) (text ++ ⟨.symbol s, l⟩ :: after) (some target)
      (⟨.symbol s, l⟩ :: after))
    (htokens : text ++ ⟨.symbol s, l⟩ :: after <:+ tokens) : TargetText tokens node target text
  | steppedBehind {op : StepOp} {l : Location} {text after : List Token} {target : Node}
    (hop : op.yieldsOld = true)
    (h : Derives .trailing (text ++ ⟨.symbol op.symbol, l⟩ :: after) (some target)
      (⟨.symbol op.symbol, l⟩ :: after))
    (htokens : text ++ ⟨.symbol op.symbol, l⟩ :: after <:+ tokens) :
    TargetText tokens (.step l op target) target text
  | steppedBefore {op : StepOp} {l : Location} {text after : List Token} {target : Node}
    (hop : op.yieldsOld = false) (h : Derives .unary (text ++ after) (some target) after)
    (htokens : ⟨.symbol op.symbol, l⟩ :: (text ++ after) <:+ tokens) :
    TargetText tokens (.step l op target) target text
  | addressed {l : Location} {text after : List Token} {target : Node}
    (h : Derives .unary (text ++ after) (some target) after)
    (htokens : ⟨.symbol .amp, l⟩ :: (text ++ after) <:+ tokens) :
    TargetText tokens (.addressOf l target) target text

theorem TargetText.mono {tokens tokens' text : List Token} {node target : Node}
    (h : TargetText tokens node target text) (hsuffix : tokens <:+ tokens') :
    TargetText tokens' node target text := by
  cases h with
  | assigned hop hnode h htokens => exact .assigned hop hnode h (htokens.trans hsuffix)
  | steppedBehind hop h htokens => exact .steppedBehind hop h (htokens.trans hsuffix)
  | steppedBefore hop h htokens => exact .steppedBefore hop h (htokens.trans hsuffix)
  | addressed h htokens => exact .addressed h (htokens.trans hsuffix)

/-- The rules for assignments, steps and `&` keep the text of the target. -/
theorem followsRules_targetText :
    FollowsRules fun tokens node => ∀ target, node.target? = some target →
      ∃ text, TargetText tokens node target text where
  mono hsuffix h target htarget := by
    obtain ⟨text, htext⟩ := h target htarget
    exact ⟨text, htext.mono hsuffix⟩
  plain h target htarget := by
    rw [target?_eq_none_of_isPlain h] at htarget
    cases htarget
  atom h target htarget := by
    cases h <;> cases htarget
  arrayLiteral _ _ _ := nofun
  stepBehind op {l input rest operand} hop h target htarget := by
    cases htarget
    obtain ⟨text, rfl⟩ := h.suffix
    exact ⟨text, .steppedBehind hop h (List.suffix_refl _)⟩
  stepBefore op {l input rest operand} hop h target htarget := by
    cases htarget
    obtain ⟨text, rfl⟩ := h.suffix
    exact ⟨text, .steppedBefore hop h (List.suffix_refl _)⟩
  addressOf h target htarget := by
    cases htarget
    obtain ⟨text, rfl⟩ := h.suffix
    exact ⟨text, .addressed h (List.suffix_refl _)⟩
  assign source hop h target htarget := by
    rw [target?_assignmentNode] at htarget
    cases htarget
    obtain ⟨text, rfl⟩ := h.suffix
    exact ⟨text, .assigned hop rfl h (List.suffix_refl _)⟩

/-- Every target among the functions that the tokens spell has a text there. -/
theorem exists_targetText {tokens : List Token} {nodes : List Node} (h : Spells tokens (some nodes))
    {node target : Node} (hnode : node.Within nodes) (htarget : node.target? = some target) :
    ∃ text, TargetText tokens node target text := by
  obtain ⟨_, _, hspells⟩ := h
  obtain ⟨root, hroot, hin⟩ := hnode
  exact hspells.each followsRules_targetText nodes rfl root hroot node hin target htarget

/-! ## Storage is named by its text -/

/-- If the node of a phrase names storage, then so do the tokens of the phrase. A declaration, which may
stand in parentheses, does not. -/
def Phrase.TellsPlace : (p : Phrase) → List Token → Option p.Tree → List Token → Prop
  | .value, input, tree, rest | .binary _, input, tree, rest | .unary, input, tree, rest
  | .trailing, input, tree, rest | .primary, input, tree, rest =>
    ∀ text node, input = text ++ rest → tree = some node → node.isLvalue = true → PlaceText true text node
  | .initialized, _, tree, _ => ∀ node, tree = some node → node.isLvalue = false
  | _, _, _, _ => True

/-- The tokens in front of the last one, where what is left begins behind it. -/
theorem exists_eq_concat_of_suffix {first token : Token} {input rest text : List Token}
    (hsuffix : token :: rest <:+ input) (h : first :: input = text ++ rest) :
    ∃ inner, input = inner ++ token :: rest ∧ text = first :: (inner ++ [token]) := by
  obtain ⟨inner, rfl⟩ := hsuffix
  refine ⟨inner, rfl, List.append_cancel_right (h.symm.trans ?_)⟩
  rw [List.cons_append, List.append_assoc, List.singleton_append]

theorem Derives.tellsPlace {p : Phrase} {input rest : List Token} {tree : Option p.Tree}
    (h : Derives p input tree rest) : p.TellsPlace input tree rest := by
  induction h with
  | @atom kind l _ _ hatom =>
    intro text node htext htree hlvalue
    cases htree
    obtain rfl := List.append_cancel_right (show [⟨kind, l⟩] ++ _ = text ++ _ from htext)
    cases hatom with
    | identifier name => exact .identifier l name
    | _ => cases hlvalue
  | arrayLiteral =>
    intro text node htext htree hlvalue
    obtain ⟨_, -, rfl⟩ := Option.map_eq_some_iff.1 htree
    cases hlvalue
  | parentheses h ih =>
    intro text node htext htree hlvalue
    obtain ⟨inner, hinner, rfl⟩ := exists_eq_concat_of_suffix h.suffix htext
    exact .parentheses (ih inner node hinner htree hlvalue)
  | parenthesizedDeclaration _ ih =>
    intro text node htext htree hlvalue
    rw [ih node htree] at hlvalue
    cases hlvalue
  | operand _ ih | unsigned _ ih | factor _ ih | tighter _ ih | unassigned _ ih => exact ih
  | postInc | postDec | not | neg | addressOf | preInc | preDec =>
    intro text node htext htree hlvalue
    obtain ⟨_, -, rfl⟩ := Option.map_eq_some_iff.1 htree
    cases hlvalue
  | @index l r _ _ rest _ _ harray hposition =>
    intro text node htext htree hlvalue
    obtain ⟨_, position, hfirst, rfl, rfl⟩ := exists_of_seq htree
    obtain ⟨array, rfl, rfl⟩ := Option.map_eq_some_iff.1 hfirst
    obtain ⟨inner, rfl⟩ := hposition.suffix
    obtain ⟨front, rfl⟩ := harray.suffix
    have hparts : front ++ ⟨.symbol .leftBracket, l⟩ :: (inner ++ [⟨.symbol .rightBracket, r⟩]) = text := by
      apply List.append_cancel_right
      rw [← htext, List.append_assoc, List.cons_append, List.append_assoc, List.singleton_append]
    rw [← hparts]
    exact .index ⟨_, harray⟩ ⟨_, hposition⟩
  | call =>
    intro text node htext htree hlvalue
    unfold callNode? at htree
    split at htree <;> cases htree
    cases hlvalue
  | @plus l _ _ _ h ih =>
    intro text node htext htree hlvalue
    obtain ⟨inner, rfl⟩ := h.suffix
    obtain rfl := List.append_cancel_right (show (⟨.symbol .plus, l⟩ :: inner) ++ _ = text ++ _ from htext)
    exact .plus rfl (ih inner node rfl htree hlvalue)
  | @deref l _ _ _ h =>
    intro text node htext htree hlvalue
    obtain ⟨operand, rfl, rfl⟩ := Option.map_eq_some_iff.1 htree
    obtain ⟨inner, rfl⟩ := h.suffix
    obtain rfl := List.append_cancel_right (show (⟨.symbol .star, l⟩ :: inner) ++ _ = text ++ _ from htext)
    exact .deref ⟨_, h⟩
  | binary =>
    intro text node htext htree hlvalue
    obtain ⟨_, _, hfirst, -, rfl⟩ := exists_of_seq htree
    obtain ⟨_, -, rfl⟩ := Option.map_eq_some_iff.1 hfirst
    cases hlvalue
  | @assign _ op =>
    intro text node htext htree hlvalue
    obtain ⟨_, _, hfirst, -, rfl⟩ := exists_of_seq htree
    obtain ⟨_, -, rfl⟩ := Option.map_eq_some_iff.1 hfirst
    cases op <;> cases hlvalue
  | initialized =>
    intro node htree
    obtain ⟨_, -, hnode⟩ := Option.bind_eq_some_iff.1 htree
    obtain ⟨_, -, rfl⟩ := Option.map_eq_some_iff.1 hnode
    rfl
  | _ => trivial

theorem TargetText.placeText {tokens text : List Token} {node target : Node}
    (h : TargetText tokens node target text) (hlvalue : target.isLvalue = true) :
    PlaceText true text target := by
  cases h with
  | assigned _ _ h | steppedBehind _ h | steppedBefore _ h | addressed h =>
    exact h.tellsPlace text target rfl rfl hlvalue

/-- In a list of tokens that is accepted, the text of every target is an identifier, a dereference or an
index, but for parentheses and plus signs. If the grammar makes any other node a target, whatever its
text, a static check refuses the tokens. -/
theorem targets_are_places (tokens : List Token) (place : Location) :
    (∀ program, Program.ofTokens (tokens ++ [⟨.endOfFile, place⟩]) = .ok program →
      ∀ node target : Node, node.Within program.nodes → node.target? = some target →
        (∃ text, TargetText (tokens ++ [⟨.endOfFile, place⟩]) node target text) ∧
        ∀ text, TargetText (tokens ++ [⟨.endOfFile, place⟩]) node target text →
          PlaceText true text target) ∧
    ∀ nodes, Spells (tokens ++ [⟨.endOfFile, place⟩]) (some nodes) →
      ∀ node target : Node, node.Within nodes → node.target? = some target → target.isLvalue = false →
        ∃ e, Program.ofTokens (tokens ++ [⟨.endOfFile, place⟩]) = .error e ∧
          e.fault.isStaticCheck = true := by
  have hends : Ends (tokens ++ [⟨.endOfFile, place⟩]) :=
    ⟨⟨.endOfFile, place⟩, List.mem_append_right _ (List.mem_singleton_self _), rfl⟩
  constructor
  · intro program hread node target hnode htarget
    refine ⟨exists_targetText (spells_of_ofTokens hends hread) hnode htarget, ?_⟩
    intro text htext
    exact htext.placeText (isLvalue_of_ofTokens hread hnode htarget)
  · intro nodes hspells node target hnode htarget hlvalue
    rcases ofTokens_of_spells hends hspells with ⟨ns, hnodes, hread⟩ | hrefused
    · cases hnodes
      rw [isLvalue_of_ofTokens hread hnode htarget] at hlvalue
      cases hlvalue
    · exact hrefused

/-- The tokens of a function with the assignment `+x = 3`. -/
def signedTarget : List Token :=
  [⟨.keyword .int, ⟨1, 1⟩⟩, ⟨.identifier "main", ⟨1, 5⟩⟩, ⟨.symbol .leftParen, ⟨1, 9⟩⟩,
    ⟨.symbol .rightParen, ⟨1, 10⟩⟩, ⟨.symbol .leftBrace, ⟨1, 12⟩⟩, ⟨.keyword .int, ⟨1, 14⟩⟩,
    ⟨.identifier "x", ⟨1, 18⟩⟩, ⟨.symbol .equal, ⟨1, 20⟩⟩, ⟨.int 1, ⟨1, 22⟩⟩, ⟨.symbol .semicolon, ⟨1, 23⟩⟩,
    ⟨.symbol .plus, ⟨1, 25⟩⟩, ⟨.identifier "x", ⟨1, 26⟩⟩, ⟨.symbol .equal, ⟨1, 28⟩⟩, ⟨.int 3, ⟨1, 30⟩⟩,
    ⟨.symbol .semicolon, ⟨1, 31⟩⟩, ⟨.keyword .returnWord, ⟨1, 33⟩⟩, ⟨.identifier "x", ⟨1, 40⟩⟩,
    ⟨.symbol .semicolon, ⟨1, 41⟩⟩, ⟨.symbol .rightBrace, ⟨1, 43⟩⟩, ⟨.endOfFile, ⟨1, 44⟩⟩]

/-- Whether the node is an assignment to a name, with the operator and the name at the given places. -/
def Node.assignsTo (place place' : Location) (name : String) : Node → Bool
  | assign l (identifier l' target) _ => l = place && l' = place' && target = name
  | _ => false

theorem Node.exists_eq_assign {place place' : Location} {name : String} {node : Node}
    (h : node.assignsTo place place' name = true) :
    ∃ source, node = .assign place (.identifier place' name) source := by
  unfold assignsTo at h
  split at h
  · simp only [Bool.and_eq_true, decide_eq_true_eq] at h
    obtain ⟨⟨rfl, rfl⟩, rfl⟩ := h
    exact ⟨_, rfl⟩
  · cases h

/-- The tokens are accepted, and the sign leaves no trace in the program. -/
theorem exists_assign_of_signedTarget : ∃ program source, Program.ofTokens signedTarget = .ok program ∧
    (Node.assign ⟨1, 28⟩ (.identifier ⟨1, 26⟩ "x") source).Within program.nodes := by
  have hcheck : (Program.ofTokens signedTarget).toOption.any (fun program =>
      program.nodes.any fun root => root.children.any fun statement =>
        statement.children.any (assignsTo ⟨1, 28⟩ ⟨1, 26⟩ "x")) = true := by
    decide +kernel
  obtain ⟨program, hprogram, hcheck⟩ := (Option.any_eq_true _ _).1 hcheck
  obtain ⟨root, hroot, hcheck⟩ := List.any_eq_true.1 hcheck
  obtain ⟨statement, hstatement, hcheck⟩ := List.any_eq_true.1 hcheck
  obtain ⟨node, hnode, hassign⟩ := List.any_eq_true.1 hcheck
  obtain ⟨source, rfl⟩ := exists_eq_assign hassign
  exact ⟨program, source, eq_ok_of_toOption hprogram, root, hroot,
    .inside hstatement (.inside hnode (.root _))⟩

/-- The sign in front of a target is not seen: the assignment `+x = 3` is accepted, and its target is the
identifier behind the sign. -/
theorem exists_target_behind_plus : ∃ tokens program node target text,
    tokenize "int main() \x7b int x = 1; +x = 3; return x; \x7d" = .ok tokens ∧
      Program.ofTokens tokens = .ok program ∧ node.Within program.nodes ∧ node.target? = some target ∧
      TargetText tokens node target text ∧ text.map Token.kind = [.symbol .plus, .identifier "x"] ∧
      ¬PlaceText false text target := by
  have htokens : tokenize "int main() \x7b int x = 1; +x = 3; return x; \x7d" = .ok signedTarget := by rfl
  obtain ⟨program, source, hread, hnode⟩ := exists_assign_of_signedTarget
  refine ⟨signedTarget, program, _, _, [⟨.symbol .plus, ⟨1, 25⟩⟩, ⟨.identifier "x", ⟨1, 26⟩⟩], htokens, hread,
    hnode, rfl, ?_, rfl, ?_⟩
  · have hunary (rest : List Token) : Derives .unary
        (⟨.symbol .plus, ⟨1, 25⟩⟩ :: ⟨.identifier "x", ⟨1, 26⟩⟩ :: rest)
        (some (.identifier ⟨1, 26⟩ "x")) rest := .plus (.unsigned (.operand (.atom (.identifier "x"))))
    refine .assigned .plain rfl ?_ (List.drop_suffix 10 signedTarget)
    exact (hunary _).factor.tighter.tighter.tighter.tighter.tighter.tighter
  · intro h
    generalize htext : [_, _] = text at h
    cases h with
    | identifier | parentheses => cases htext
    | plus hsigns => cases hsigns

end BoundedC
