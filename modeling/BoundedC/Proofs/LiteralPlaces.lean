import Mathlib.Data.List.Nodup
import BoundedC.Proofs.Derived
import BoundedC.Proofs.Embedding
import BoundedC.Proofs.LiteralSites
import BoundedC.Proofs.Subtrees

/-!
# Where literals stand

A string or array literal of a tree stands where the token stands that it begins with. No two tokens of
a text stand at the same place. So the place of a literal tells whether it is a string or an array, and
which bytes a string has.

* `Node.Spelled` : the literals in a tree begin with some of the given tokens;
* `Definitions.spelled`, `exists_spelled_of_compile` : the trees of tokens and of accepted texts;
* `eq_stringLiteral_of_stores` : there is no other literal at the place of a string.
-/

namespace BoundedC

namespace Node

variable {tokens tokens' : List Token} {root : Node}

/-- If the node is a literal with storage, the token that it begins with is at its place. -/
def BeginsIn (tokens : List Token) : Node → Prop
  | stringLiteral place bytes =>
    ∃ text : String, ⟨.string text, place⟩ ∈ tokens ∧ text.toUTF8.toList = bytes
  | arrayLiteral place _ => ⟨.symbol .leftBrace, place⟩ ∈ tokens
  | _ => True

/-- The literals in the tree begin with some of the tokens. -/
def Spelled (tokens : List Token) (root : Node) : Prop :=
  ∀ node : Node, node.IsIn root → node.BeginsIn tokens

def AllSpelled (tokens : List Token) (nodes : List Node) : Prop := ∀ node ∈ nodes, node.Spelled tokens

theorem BeginsIn.mono (h : root.BeginsIn tokens) (hsub : tokens ⊆ tokens') : root.BeginsIn tokens' := by
  cases root with
  | stringLiteral place bytes =>
    obtain ⟨text, hmem, hbytes⟩ := h
    exact ⟨text, hsub hmem, hbytes⟩
  | arrayLiteral => exact hsub h
  | _ => trivial

/-- The rules of the grammar for literals keep the token that a literal begins with. -/
theorem followsRules_beginsIn : FollowsRules BeginsIn where
  mono hsuffix h := h.mono hsuffix.subset
  plain {_ node} h := by
    cases node with
    | stringLiteral | arrayLiteral => cases h
    | _ => trivial
  atom h := by
    cases h with
    | string text => exact ⟨text, List.mem_cons_self, rfl⟩
    | _ => trivial
  arrayLiteral _ _ _ := List.mem_cons_self
  stepBehind _ {_ _ _ _} _ _ := trivial
  stepBefore _ {_ _ _ _} _ _ := trivial
  addressOf _ := trivial
  assign {_ op _ _ _ _} _ _ _ := by cases op <;> trivial

end Node

open Node

/-! ## Texts -/

/-- The functions of a program are spelled by its tokens. -/
theorem Definitions.spelled {input rest : List Token} {nodes : Option (List Node)}
    (h : Definitions input nodes rest) : ∀ ns, nodes = some ns → AllSpelled input ns :=
  h.each followsRules_beginsIn

/-- The literals of an accepted text begin with its tokens. -/
theorem exists_spelled_of_compile {text : String} {program : Program}
    (h : compile text = .ok program) :
    ∃ tokens, tokenize text = .ok tokens ∧ AllSpelled tokens program.nodes := by
  unfold compile at h
  cases htokens : tokenize text with
  | error e =>
    rw [htokens] at h
    cases h
  | ok tokens =>
    rw [htokens] at h
    change (Program.ofTokens tokens).mapError CompileError.parse = .ok program at h
    cases hread : Program.ofTokens tokens with
    | error e =>
      rw [hread] at h
      cases h
    | ok p =>
      rw [hread] at h
      cases h
      obtain ⟨before, stop, rfl, -⟩ := tokenizes_of_tokenize htokens
      have hends : Ends (before ++ [⟨.endOfFile, stop⟩]) :=
        ⟨⟨.endOfFile, stop⟩, List.mem_append_right _ (List.mem_singleton_self _), rfl⟩
      obtain ⟨place, rest, hspells⟩ := spells_of_ofTokens hends hread
      exact ⟨_, rfl, hspells.spelled _ rfl⟩

/-- A token has its place for itself. -/
theorem kind_unique {text : String} {tokens : List Token} {place : Location} {kind kind' : TokenKind}
    (htokens : tokenize text = .ok tokens) (h : ⟨kind, place⟩ ∈ tokens) (h' : ⟨kind', place⟩ ∈ tokens) :
    kind = kind' :=
  congrArg Token.kind (List.inj_on_of_nodup_map (nodup_of_tokenize htokens) h h' rfl)

/-- The trees of a function's body are trees of the program. -/
theorem Node.Within.of_body {program : Program} {f : Function} {node : Node}
    (h : node.Within f.body) (hf : f ∈ program.functions) : node.Within program.nodes := by
  obtain ⟨root, hroot, hnode⟩ := h
  obtain ⟨definition, hdefinition, hdef⟩ := List.mem_filterMap.1 hf
  cases definition <;> cases hdef
  exact ⟨_, hdefinition, .inside hroot hnode⟩

/-- Where a string literal stands in an accepted text, there is no other literal with storage. -/
theorem eq_stringLiteral_of_stores {text : String} {program : Program} {place : Location}
    {bytes : List UInt8} {node : Node} {length : Nat} (h : compile text = .ok program)
    (hstring : (Node.stringLiteral place bytes).Within program.nodes)
    (hnode : node.Within program.nodes) (hstores : node.Stores place length) :
    node = .stringLiteral place bytes := by
  obtain ⟨tokens, htokens, hspelled⟩ := exists_spelled_of_compile h
  have hbegins {n : Node} (hn : n.Within program.nodes) : n.BeginsIn tokens := by
    obtain ⟨root, hroot, hin⟩ := hn
    exact hspelled root hroot n hin
  obtain ⟨text, htoken, rfl⟩ := hbegins hstring
  cases node with
  | stringLiteral place' bytes' =>
    obtain ⟨rfl, -⟩ := hstores
    obtain ⟨text', htoken', rfl⟩ := hbegins hnode
    cases kind_unique htokens htoken htoken'
    rfl
  | arrayLiteral place' elements =>
    obtain rfl : place' = place := hstores
    cases kind_unique htokens htoken (hbegins hnode)
  | _ => cases hstores

end BoundedC
