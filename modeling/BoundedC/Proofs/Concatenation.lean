import BoundedC.Proofs.Embedding
import BoundedC.Proofs.Height
import BoundedC.Proofs.Layout

/-!
# Texts one behind the other

Functions are read one by one, and a function is read in the same way wherever it stands. So a text
behind another one spells the program of the one and then the program of the other, as many lines
further down, unless a name is defined in both. The reader comes out of every function as deep and
inside as many loops as it went in; otherwise a long enough text would be refused.

* `functionsUpTo_append`, `functionsUpTo_append_duplicate` : the tokens of two programs;
* `compile_append` : texts.
-/

namespace BoundedC

open Reader

def Program.Defines (p : Program) (name : String) : Prop := ∃ f ∈ p.functions, f.name = name

theorem Program.defines_iff {p : Program} {name : String} : p.Defines name ↔ name ∈ namesOf p.nodes := by
  unfold Defines namesOf
  exact List.mem_map.symm

theorem EndsOnce.relocate {σ : Location → Location} {tokens : List Token} (h : EndsOnce tokens) :
    EndsOnce (relocate σ tokens) := by
  induction tokens with
  | nil => exact h
  | cons token rest ih =>
    cases rest with
    | nil => exact h
    | cons next rest => exact ⟨h.1, ih h.2⟩

theorem namesOf_relocate (σ : Location → Location) (nodes : List Node) :
    namesOf (relocate σ nodes) = namesOf nodes := by
  show (relocate σ (Program.mk nodes)).functions.map Function.name = _
  rw [functions_relocate]
  exact List.map_map

/-- Functions keep their names further down. -/
theorem notMem_namesOf_relocate {σ : Location → Location} {p : Program} {nodes : List Node}
    (h : ∀ f ∈ nodes.filterMap Node.function?, ¬p.Defines f.name) :
    ∀ name ∈ namesOf (relocate σ nodes), name ∉ namesOf p.nodes := by
  intro name hname hmem
  rw [namesOf_relocate] at hname
  obtain ⟨f, hf, rfl⟩ := List.mem_map.1 hname
  exact h f hf (Program.defines_iff.2 hmem)

namespace ReaderState

theorem ended_ofTokens {tokens : List Token} (h : EndsOnce tokens) : (ofTokens tokens).Ended := by
  cases tokens with
  | nil => exact h.elim
  | cons token rest => exact h

theorem defined_ofTokens (tokens : List Token) : (ofTokens tokens).defined = [] := by
  cases tokens <;> rfl

/-- A text within surroundings is a longer text. -/
theorem ofTokens_within (k : Surroundings) (first : List Token) (last : Token) :
    (ofTokens (first ++ [last])).within k =
      { ofTokens (first ++ k.next :: k.more) with defined := k.names } := by
  cases first with
  | nil => rfl
  | cons token rest =>
    rw [within_of_ne_nil]
    · show (⟨token, (rest ++ [last]).dropLast ++ _, _, _, _⟩ : ReaderState) = _
      rw [List.dropLast_concat]
      rfl
    · exact List.append_ne_nil_of_right_ne_nil _ (List.cons_ne_nil _ _)

end ReaderState

open ReaderState

/-- A program does not begin with a closing parenthesis. -/
theorem kind_ne_of_run {bound : Nat} {s t : ReaderState} {nodes : List Node}
    (h : (functionsUpTo bound).run s = .ok (nodes, t)) : s.current.kind ≠ .symbol .rightParen := by
  cases nodes with
  | nil =>
    rw [(functionsUpTo_nil h).1]
    exact nofun
  | cons node nodes =>
    obtain ⟨-, _, _, hfirst, -⟩ := functionsUpTo_cons h
    intro hkind
    obtain ⟨⟨kind, place⟩, rest, loops, defined, depth⟩ := s
    cases hkind
    obtain ⟨_, _, hspec, -⟩ := run_bind_eq_ok_iff.1 hfirst
    cases hspec

section

variable {first second : List Token} {last₁ last₂ : Token} {bound₁ bound₂ : Nat}
  {nodes₁ nodes₂ : List Node} {t₁ t₂ : ReaderState}

/-- Behind a program the reader is at the end of the text. It has left all levels and all loops, and the
functions of the program are defined. -/
theorem within_of_run {k : Surroundings} (hends : EndsOnce (first ++ [last₁]))
    (h : (functionsUpTo bound₁).run (.ofTokens (first ++ [last₁])) = .ok (nodes₁, t₁)) :
    t₁.within k = ⟨k.next, k.more, 0, (namesOf nodes₁).reverse ++ k.names, 0⟩ := by
  obtain ⟨hnil, -, -, hdefined⟩ := functionsUpTo_ends (ended_ofTokens hends) h
  have hdepth := (readsAt_functionsUpTo _ (depth_ofTokens _) h).2
  have hloops := (reads_functionsUpTo _ (loops_ofTokens _) h).2
  rw [within_of_nil hnil, hdefined, hdepth, hloops, defined_ofTokens, List.append_nil]

/-- Behind a program more functions are read, whatever its bounds were. -/
theorem run_functionsUpTo_behind {next : Token} {more : List Token} (hends : EndsOnce (first ++ [last₁]))
    (h : (functionsUpTo bound₁).run (.ofTokens (first ++ [last₁])) = .ok (nodes₁, t₁))
    (hnext : next.kind ≠ .symbol .rightParen) (left : Nat) :
    (functionsUpTo (nodes₁.length + left)).run (.ofTokens (first ++ next :: more)) =
      (functionsUpTo left >>= fun others => pure (nodes₁ ++ others)).run
        ⟨next, more, 0, (namesOf nodes₁).reverse, 0⟩ := by
  have hgoes := functionsUpTo_within (k := ⟨next, more, [], hnext⟩) (ended_ofTokens hends) h
    (fun _ _ => List.not_mem_nil) left
  rw [ofTokens_within, within_of_run hends h, List.append_nil] at hgoes
  have hstart : ({ ReaderState.ofTokens (first ++ next :: more) with defined := [] } : ReaderState) =
      .ofTokens (first ++ next :: more) := by cases first <;> rfl
  rw [hstart] at hgoes
  exact hgoes

/-- What the second of two programs stands in: the end of the text is its own, and the functions of the
first one are defined. -/
def Surroundings.behind (nodes : List Node) (last : Token) (h : last.kind = .endOfFile) : Surroundings where
  next := last
  more := []
  names := (namesOf nodes).reverse
  next_ne := by
    rw [h]
    exact nofun

/-- Behind the first of two programs the reader is where it would begin to read the second one, but for
the functions that are defined. -/
theorem functionsUpTo_behind (hends₁ : EndsOnce (first ++ [last₁])) (hlast : last₂.kind = .endOfFile)
    (h₁ : (functionsUpTo bound₁).run (.ofTokens (first ++ [last₁])) = .ok (nodes₁, t₁))
    (h₂ : (functionsUpTo bound₂).run (.ofTokens (second ++ [last₂])) = .ok (nodes₂, t₂)) (left : Nat) :
    (functionsUpTo (nodes₁.length + left)).run (.ofTokens (first ++ (second ++ [last₂]))) =
      (functionsUpTo left >>= fun more => pure (nodes₁ ++ more)).run
        ((ReaderState.ofTokens (second ++ [last₂])).within (.behind nodes₁ last₂ hlast)) := by
  obtain ⟨next, more, hsecond⟩ : ∃ next more, second ++ [last₂] = next :: more :=
    List.exists_cons_of_ne_nil (List.append_ne_nil_of_right_ne_nil _ (List.cons_ne_nil _ _))
  have hnext : next.kind ≠ .symbol .rightParen := by
    have hkind := kind_ne_of_run h₂
    rw [hsecond] at hkind
    exact hkind
  rw [ofTokens_within, hsecond, run_functionsUpTo_behind hends₁ h₁ hnext]
  congr 1
  show (⟨next, more, 0, (namesOf nodes₁).reverse, 0⟩ : ReaderState) =
    { ReaderState.ofTokens (second ++ [last₂]) with defined := (namesOf nodes₁).reverse }
  rw [hsecond]
  rfl

theorem length_rest_ofTokens (tokens : List Token) (last : Token) :
    (ReaderState.ofTokens (tokens ++ [last])).rest.length = tokens.length := by
  cases tokens with
  | nil => rfl
  | cons token rest => exact List.length_append

/-- Two programs one behind the other, with no name in common. -/
theorem functionsUpTo_append (hends₁ : EndsOnce (first ++ [last₁]))
    (hends₂ : EndsOnce (second ++ [last₂])) (hlast : last₂.kind = .endOfFile)
    (h₁ : (functionsUpTo bound₁).run (.ofTokens (first ++ [last₁])) = .ok (nodes₁, t₁))
    (h₂ : (functionsUpTo bound₂).run (.ofTokens (second ++ [last₂])) = .ok (nodes₂, t₂))
    (hnames : ∀ name ∈ namesOf nodes₂, name ∉ namesOf nodes₁) :
    Program.ofTokens (first ++ (second ++ [last₂])) = .ok ⟨nodes₁ ++ nodes₂⟩ := by
  obtain ⟨-, -, hlength₁, -⟩ := functionsUpTo_ends (ended_ofTokens hends₁) h₁
  obtain ⟨hnil, -, hlength₂, -⟩ := functionsUpTo_ends (ended_ofTokens hends₂) h₂
  rw [length_rest_ofTokens] at hlength₁ hlength₂
  obtain ⟨left, hleft⟩ : ∃ left, (first ++ (second ++ [last₂])).length + 1 =
      nodes₁.length + (nodes₂.length + (left + 1)) := by
    simp only [List.length_append, List.length_singleton]
    exact ⟨first.length - nodes₁.length + (second.length - nodes₂.length) + 1, by omega⟩
  have hend : (functionsUpTo (left + 1)).run (t₂.within (.behind nodes₁ last₂ hlast)) =
      .ok ([], t₂.within (.behind nodes₁ last₂ hlast)) := by
    rw [run_functionsUpTo, if_pos]
    rw [within_of_nil hnil]
    exact hlast
  have hsecond := functionsUpTo_within (k := .behind nodes₁ last₂ hlast) (ended_ofTokens hends₂) h₂
    (fun name hname hmem => hnames name hname (List.mem_reverse.1 hmem)) (left + 1)
  unfold Program.ofTokens
  rw [hleft, functionsUpTo_behind hends₁ hlast h₁ h₂,
    run_bind_of_ok (hsecond.trans (run_bind_of_ok hend)), List.append_nil]
  rfl

/-- Two programs one behind the other, the second of which has a function of a name that is defined in
the first. -/
theorem functionsUpTo_append_duplicate (hends₁ : EndsOnce (first ++ [last₁]))
    (hends₂ : EndsOnce (second ++ [last₂])) (hlast : last₂.kind = .endOfFile)
    {before after : List Node} {node : Node} {f : Function}
    (h₁ : (functionsUpTo bound₁).run (.ofTokens (first ++ [last₁])) = .ok (nodes₁, t₁))
    (h₂ : (functionsUpTo bound₂).run (.ofTokens (second ++ [last₂])) =
      .ok (before ++ node :: after, t₂))
    (hbefore : ∀ name ∈ namesOf before, name ∉ namesOf nodes₁) (hf : node.function? = some f)
    (hname : f.name ∈ namesOf nodes₁) :
    Program.ofTokens (first ++ (second ++ [last₂])) = .error ⟨.duplicateFunction f.name, f.place⟩ := by
  obtain ⟨-, -, hlength₁, -⟩ := functionsUpTo_ends (ended_ofTokens hends₁) h₁
  obtain ⟨-, -, hlength₂, -⟩ := functionsUpTo_ends (ended_ofTokens hends₂) h₂
  rw [length_rest_ofTokens] at hlength₁ hlength₂
  obtain ⟨left, hleft⟩ : ∃ left, (first ++ (second ++ [last₂])).length + 1 =
      nodes₁.length + (before.length + (left + 1)) := by
    simp only [List.length_append, List.length_cons, List.length_nil] at hlength₂ ⊢
    exact ⟨first.length - nodes₁.length + (second.length - before.length) + 1, by omega⟩
  have hrefused := functionsUpTo_duplicate (k := .behind nodes₁ last₂ hlast) (ended_ofTokens hends₂)
    h₂ (fun name hmem hdefined => hbefore name hmem (List.mem_reverse.1 hdefined)) hf
    (List.mem_reverse.2 hname) left
  unfold Program.ofTokens
  rw [hleft, functionsUpTo_behind hends₁ hlast h₁ h₂, StateT.run_bind, hrefused]
  rfl

end

/-- What is read from the tokens of a text is read from them further down as well. -/
theorem run_relocate {σ : Location → Location} {tokens : List Token} {bound : Nat} {nodes : List Node}
    {t : ReaderState} (hne : tokens ≠ [])
    (h : (functionsUpTo bound).run (.ofTokens tokens) = .ok (nodes, t)) :
    (functionsUpTo bound).run (.ofTokens (relocate σ tokens)) =
      .ok (relocate σ nodes, relocate σ t) := by
  obtain ⟨token, rest, rfl⟩ := List.exists_cons_of_ne_nil hne
  have hread := relocates_functionsUpTo (σ := σ) bound (.ofTokens (token :: rest))
  rw [h] at hread
  exact hread

/-- A function is left inside as many loops as it was entered. -/
theorem keeps_functionDefinition : Keeps functionDefinition := fun _ =>
  .after keeps_typeSpecifier fun _ => .after keeps_identifier fun _ => .after (keeps_define _ _) fun _ =>
    .after (keeps_expect _ _) fun _ => .after keeps_parameters fun _ => .after (keeps_expect _ _) fun _ =>
    .after (keeps_expect _ _) fun _ => (reads_statements (reads_statement _)).bind fun _ _ =>
    .after (keeps_expect _ _) fun _ => .pure trivial

/-- The first function of a program that has a name of another one. -/
theorem exists_first_common {p₁ p₂ : Program} (h : ∃ g ∈ p₂.functions, p₁.Defines g.name) :
    ∃ before g after, p₂.functions = before ++ g :: after ∧
      (∀ f ∈ before, ¬p₁.Defines f.name) ∧ p₁.Defines g.name := by
  simp only [Program.defines_iff] at h ⊢
  have hfind : (p₂.functions.find? (·.name ∈ namesOf p₁.nodes)).isSome :=
    List.find?_isSome.2 (by simpa using h)
  obtain ⟨g, hg⟩ := Option.isSome_iff_exists.1 hfind
  obtain ⟨hname, before, after, hsplit, hbefore⟩ := List.find?_eq_some_iff_append.1 hg
  exact ⟨before, g, after, hsplit, fun f hf => by simpa using hbefore f hf, by simpa using hname⟩

/-- The node that a function of a program comes from. -/
theorem exists_node_of_functions {p : Program} {before after : List Function} {g : Function}
    (h : p.functions = before ++ g :: after) : ∃ nodes node rest,
      p.nodes = nodes ++ node :: rest ∧ nodes.filterMap Node.function? = before ∧
        node.function? = some g := by
  obtain ⟨nodes, behind, hnodes, hbefore, hbehind⟩ := List.filterMap_eq_append_iff.1 h
  obtain ⟨skipped, node, rest, rfl, hskipped, hnode, -⟩ := List.filterMap_eq_cons_iff.1 hbehind
  refine ⟨nodes ++ skipped, node, rest, ?_, ?_, hnode⟩
  · rw [hnodes, List.append_assoc]
  · rw [List.filterMap_append, hbefore, List.filterMap_eq_nil_iff.2 hskipped, List.append_nil]

/-- A program behind another one, with a newline between their texts. If no name is defined in both,
the two are one program, in which the second one stands as many lines further down as there are
newlines in front of it. Otherwise the first function of the second one that has a name of the first
one is refused. Reading a statement or a function leaves all levels and all loops that it enters. -/
theorem compile_append {s₁ s₂ : String} {p₁ p₂ : Program} (h₁ : compile s₁ = .ok p₁)
    (h₂ : compile s₂ = .ok p₂) :
    let σ := Location.down (s₁.toList.count '\n' + 1)
    ((∀ g ∈ p₂.functions, ¬p₁.Defines g.name) →
      compile (s₁ ++ "\n" ++ s₂) = .ok ⟨p₁.nodes ++ relocate σ p₂.nodes⟩) ∧
    ((∃ g ∈ p₂.functions, p₁.Defines g.name) →
      ∃ before g after, p₂.functions = before ++ g :: after ∧
        (∀ f ∈ before, ¬p₁.Defines f.name) ∧ p₁.Defines g.name ∧
        compile (s₁ ++ "\n" ++ s₂) = .error (.parse ⟨.duplicateFunction g.name, σ g.place⟩)) ∧
    (∀ budget s node t, (statement budget).run s = .ok (node, t) →
      t.depth = s.depth ∧ t.loops = s.loops) ∧
    ∀ s node t, functionDefinition.run s = .ok (node, t) → t.depth = s.depth ∧ t.loops = s.loops := by
  intro σ
  obtain ⟨all₁, t₁, htokens₁, hread₁⟩ := exists_run_of_compile h₁
  obtain ⟨all₂, t₂, htokens₂, hread₂⟩ := exists_run_of_compile h₂
  obtain ⟨first, stop₁, rfl, hfirst⟩ := tokenizes_of_tokenize htokens₁
  obtain ⟨second, stop₂, rfl, hsecond⟩ := tokenizes_of_tokenize htokens₂
  have hcompile := compile_of_tokenize (tokenize_append htokens₁ htokens₂)
  have hmoved := run_relocate (σ := σ) (List.append_ne_nil_of_right_ne_nil _ (List.cons_ne_nil _ _))
    hread₂
  have hends := hsecond.endsOnce.relocate (σ := σ)
  rw [relocate_append] at hcompile hmoved hends
  refine ⟨fun hfresh => ?_, fun hcommon => ?_, fun budget s node t h => ?_, fun s node t h => ?_⟩
  · have happend := functionsUpTo_append hfirst.endsOnce hends rfl hread₁ hmoved
      (notMem_namesOf_relocate hfresh)
    exact hcompile.trans (congrArg (Except.mapError CompileError.parse) happend)
  · obtain ⟨before, g, after, hsplit, hbefore, hg⟩ := exists_first_common hcommon
    obtain ⟨nodes, node, rest, hnodes, rfl, hnode⟩ := exists_node_of_functions hsplit
    have hfunction : (relocate σ node).function? = some (relocate σ g) := by
      rw [function?_relocate, hnode]
      rfl
    rw [hnodes, relocate_append] at hmoved
    have happend := functionsUpTo_append_duplicate hfirst.endsOnce hends rfl hread₁ hmoved
      (notMem_namesOf_relocate hbefore) hfunction (Program.defines_iff.1 hg)
    exact ⟨_, g, after, hsplit, hbefore, hg,
      hcompile.trans (congrArg (Except.mapError CompileError.parse) happend)⟩
  · exact ⟨(readsAt_statement budget s.depth rfl h).2, (reads_statement budget rfl h).2⟩
  · exact ⟨(readsAt_functionDefinition s.depth rfl h).2, (keeps_functionDefinition s.loops rfl h).2⟩

def namesFunctions (text : String) (names : List String) : Bool :=
  match compile text with
  | .ok p => namesOf p.nodes = names
  | .error _ => false

theorem exists_of_namesFunctions {text : String} {names : List String}
    (h : namesFunctions text names = true) : ∃ p, compile text = .ok p ∧ namesOf p.nodes = names := by
  unfold namesFunctions at h
  split at h
  · exact ⟨_, ‹_›, of_decide_eq_true h⟩
  · cases h

/-- Two functions one behind the other are a program, and one function twice is none. -/
theorem compile_append_f : ∃ f g,
    compile "void f() \x7b\x7d" = .ok f ∧ compile "int g() \x7b return f(); \x7d" = .ok g ∧
    compile ("void f() \x7b\x7d" ++ "\n" ++ "int g() \x7b return f(); \x7d") =
      .ok ⟨f.nodes ++ relocate (.down 1) g.nodes⟩ ∧
    ∃ place, compile ("void f() \x7b\x7d" ++ "\n" ++ "void f() \x7b\x7d") =
      .error (.parse ⟨.duplicateFunction "f", place⟩) := by
  have hf : namesFunctions "void f() \x7b\x7d" ["f"] = true := by decide +kernel
  have hg : namesFunctions "int g() \x7b return f(); \x7d" ["g"] = true := by decide +kernel
  obtain ⟨f, hf, hfs⟩ := exists_of_namesFunctions hf
  obtain ⟨g, hg, hgs⟩ := exists_of_namesFunctions hg
  have hnames {p : Program} {name : String} (h : namesOf p.nodes = [name]) :
      ∀ f ∈ p.functions, f.name = name := fun f hmem =>
    List.mem_singleton.1 (h ▸ List.mem_map_of_mem hmem)
  refine ⟨f, g, hf, hg, (compile_append hf hg).1 fun h hmem hdefines => ?_, ?_⟩
  · rw [Program.defines_iff, hnames hgs h hmem, hfs] at hdefines
    exact absurd hdefines (by decide)
  · obtain ⟨h, hmem⟩ : ∃ h, h ∈ f.functions := by
      cases hfunctions : f.functions with
      | nil =>
        have hnil : namesOf f.nodes = [] := congrArg (List.map Function.name) hfunctions
        cases hfs.symm.trans hnil
      | cons h _ => exact ⟨h, List.mem_cons_self⟩
    obtain ⟨before, h, after, hsplit, -, -, hcompile⟩ := (compile_append hf hf).2.1 ⟨h, hmem, h, hmem, rfl⟩
    rw [hnames hfs h (hsplit ▸ List.mem_append_right _ List.mem_cons_self)] at hcompile
    exact ⟨_, hcompile⟩

end BoundedC
