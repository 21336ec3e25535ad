import Mathlib.Data.Finite.Prod
import Mathlib.Data.Set.Finite.List
import Mathlib.Logic.Equiv.Basic
import BoundedC.Proofs.LexerHistories
import BoundedC.Proofs.LiteralSites
import BoundedC.Proofs.RelocatedReading
import BoundedC.Proofs.RelocatedRuns
import BoundedC.Proofs.Sessions

/-!
# Where errors point

Every error is reported at a place of the source. The lexer has come past the places it reports. For
the reader and for runs the reason is that neither makes up a place: with other places all else stays
the same, so a renaming of places that leaves the tokens, or the nodes of the program, where they are
leaves the error where it is, too. But a place that is no place of theirs can be renamed.

* `Cursor.Reaches`, `Cursor.reaches_of_tokensUpTo` : places that the lexer comes past;
* `Location.mem_of_fixed` : what all renamings leave alone that leave a set alone is in the set;
* `Node.IsIn.place_fixed`, `relocate_node_eq_self` : a tree is left alone if and only if its places are;
* `Session.finish_relocate`, `Session.error_fixed` : runs of a session at other places;
* `places_in_source` : all errors.
-/

namespace BoundedC

/-! ## Places of a text -/

/-- A character of the text stands at the place, or the text ends there. -/
def Location.IsIn (text : List Char) (l : Location) : Prop :=
  ∃ k ≤ text.length, l = .behind (text.take k)

namespace Cursor

variable {c c' : Cursor} {e : LexError} {l : Location}

/-- The cursor comes past the place. -/
def Reaches (c : Cursor) (l : Location) : Prop := ∃ c', c.Passes c' ∧ c'.place = l

theorem reaches_self (c : Cursor) : c.Reaches c.place := ⟨c, .refl c, rfl⟩

theorem Passes.reaches (h : c.Passes c') (hl : c'.Reaches l) : c.Reaches l := by
  obtain ⟨c'', hpasses, hplace⟩ := hl
  exact ⟨c'', h.trans hpasses, hplace⟩

theorem Reaches.cons {first : Char} {cs : List Char} {m : Location}
    (h : Reaches ⟨cs, m.after first⟩ l) : Reaches ⟨first :: cs, m⟩ l :=
  (passes_cons first cs m).reaches h

theorem isIn_of_reaches {text : List Char} (h : (ofList text).Reaches l) : l.IsIn text := by
  obtain ⟨c, ⟨run, htext, hplace⟩, rfl⟩ := h
  have htext : text = run ++ c.rest := htext
  refine ⟨run.length, by simp [htext], ?_⟩
  rw [htext, List.take_left, hplace]
  exact Location.afterAll_start run

/-! ## Errors of the lexer -/

/-- What is wrong with a gap is reported where the comment was opened. -/
theorem reaches_of_skipGapFrom {gap : Gap} {cs : List Char} {m : Location}
    (h : skipGapFrom gap cs m = (.error e, c')) : gap = .block e.place ∨ Reaches ⟨cs, m⟩ e.place := by
  fun_induction skipGapFrom gap cs m with
  | case1 cs m ih =>
    rcases ih h with hgap | hreach
    · cases hgap
    · exact .inr hreach.cons.cons
  | case2 cs m ih =>
    rcases ih h with hgap | hreach
    · cases hgap
      exact .inr (reaches_self _)
    · exact .inr hreach.cons.cons
  | case3 cs m ih =>
    rcases ih h with hgap | hreach
    · cases hgap
    · exact .inr hreach.cons
  | case4 c cs m _ _ _ _ ih =>
    rcases ih h with hgap | hreach
    · cases hgap
    · exact .inr hreach.cons
  | case6 c cs m ih =>
    rcases ih h with hgap | hreach
    · split at hgap <;> cases hgap
    · exact .inr hreach.cons
  | case7 opened cs m ih =>
    rcases ih h with hgap | hreach
    · cases hgap
    · exact .inr hreach.cons.cons
  | case8 opened c cs m _ ih => exact (ih h).imp_right Reaches.cons
  | case9 opened m =>
    cases h
    exact .inl rfl
  | _ => cases h

theorem reaches_of_readStringFrom {start m : Location} {read cs : List Char}
    (h : readStringFrom start read cs m = (.error e, c')) :
    e.place = start ∨ Reaches ⟨cs, m⟩ e.place := by
  fun_induction readStringFrom start read cs m with
  | case1 => cases h
  | case2 | case7 =>
    cases h
    exact .inl rfl
  | case3 read e' cs m value hvalue ih => exact (ih h).imp_right fun hreach => hreach.cons.cons
  | case4 read e' cs m hvalue =>
    cases h
    exact .inr (reaches_self _).cons
  | case5 read m =>
    cases h
    exact .inr (reaches_self _).cons
  | case6 read c cs m _ _ _ _ ih => exact (ih h).imp_right Reaches.cons

theorem place_of_readEscape (h : c.readEscape = (.error e, c')) : e.place = c.place := by
  unfold readEscape at h
  split at h
  · cases h
    rfl
  · dsimp only at h
    split at h <;> cases h
    rfl

theorem place_of_closeChar {start : Location} {value : Char} (h : closeChar start value c = (.error e, c')) :
    e.place = start := by
  unfold closeChar at h
  split at h <;> cases h <;> rfl

theorem reaches_of_readChar {start : Location} (h : readChar start c = (.error e, c')) :
    e.place = start ∨ c.Reaches e.place := by
  unfold readChar at h
  split at h
  · cases h
    exact .inl rfl
  rename_i first cs hrest
  dsimp only at h
  split at h
  · cases h
    exact .inl rfl
  split at h
  · cases h
    exact .inl rfl
  split at h
  · split at h
    · exact .inl (place_of_closeChar h)
    · rename_i hread
      cases h
      rw [place_of_readEscape hread]
      exact .inr ((passes_of_rest_eq hrest).reaches (reaches_self _))
  split at h
  · exact .inl (place_of_closeChar h)
  · cases h
    exact .inl rfl

theorem place_of_integerToken {start : Location} {digits : List Char} {next : Option Char}
    (h : integerToken start digits next = .error e) : e.place = start := by
  unfold integerToken at h
  split at h
  · cases h
    rfl
  · split at h <;> cases h
    rfl

theorem place_of_readSymbol {start : Location} {first : Char}
    (h : readSymbol start first c = (.error e, c')) : e.place = start := by
  have hsingle (h : singleSymbol start first = .error e) : e.place = start := by
    unfold singleSymbol at h
    split at h <;> cases h
    rfl
  unfold readSymbol at h
  split at h
  · exact hsingle (congrArg Prod.fst h)
  · split at h
    · cases h
    · exact hsingle (congrArg Prod.fst h)

/-- What is wrong with a token is reported where it starts, or within it. -/
theorem reaches_of_readKind {start : Location} {first : Char}
    (h : readKind start first c = (.error e, c')) : e.place = start ∨ c.Reaches e.place := by
  unfold readKind at h
  split at h
  · exact reaches_of_readStringFrom h
  split at h
  · exact reaches_of_readChar h
  split at h
  · exact .inl (place_of_integerToken (congrArg Prod.fst h))
  split at h
  · cases h
  · exact .inl (place_of_readSymbol h)

theorem reaches_of_readToken (h : c.readToken = (.error e, c')) : c.Reaches e.place := by
  obtain ⟨rest, m⟩ := c
  cases rest with
  | nil => cases h
  | cons first cs =>
    rw [readToken_cons] at h
    rcases hread : readKind m first ⟨cs, m.after first⟩ with ⟨fault | kind, behind⟩
    · rw [hread] at h
      cases h
      rcases reaches_of_readKind hread with hplace | hreach
      · rw [hplace]
        exact reaches_self _
      · exact hreach.cons
    · rw [hread] at h
      cases h

/-- The cursor comes past the place of the next token, and past the place of the error if there is
none. -/
theorem reaches_of_nextToken (c : Cursor) :
    (∀ e, c.nextToken.1 = .error e → c.Reaches e.place) ∧
      ∀ token, c.nextToken.1 = .ok token → c.Reaches token.place := by
  have hgap := passes_skipGapFrom .blank c.rest c.place
  unfold nextToken skipGap
  rcases hskip : skipGapFrom .blank c.rest c.place with ⟨fault | _, front⟩
  · refine ⟨fun e h => ?_, fun token h => by cases h⟩
    cases h
    exact (reaches_of_skipGapFrom hskip).resolve_left nofun
  · rw [hskip] at hgap
    refine ⟨fun e h => hgap.reaches (reaches_of_readToken (Prod.ext h rfl)), fun token h => ?_⟩
    rw [(place_of_readToken (Prod.ext h rfl)).1]
    exact hgap.reaches (reaches_self front)

theorem reaches_of_tokensUpTo (bound : Nat) (c : Cursor) :
    (∀ e, (c.tokensUpTo bound).1 = .error e → c.Reaches e.place) ∧
      ∀ tokens, (c.tokensUpTo bound).1 = .ok tokens → ∀ token ∈ tokens, c.Reaches token.place := by
  induction bound generalizing c with
  | zero =>
    refine ⟨fun e h => (by cases h), fun tokens h => ?_⟩
    cases h
    exact nofun
  | succ bound ih =>
    obtain ⟨herror, htoken⟩ := reaches_of_nextToken c
    have hpasses := passes_behind_nextToken c
    unfold tokensUpTo
    rcases hread : c.nextToken with ⟨fault | token, behind⟩
    · rw [hread] at herror
      refine ⟨fun e h => ?_, fun tokens h => by cases h⟩
      cases h
      exact herror fault rfl
    · rw [hread] at htoken hpasses
      have hfirst : c.Reaches token.place := htoken token rfl
      obtain ⟨hmoreError, hmoreTokens⟩ := ih behind
      dsimp only
      split
      · refine ⟨fun e h => (by cases h), fun tokens h => ?_⟩
        cases h
        exact List.forall_mem_singleton.2 hfirst
      · rcases hmore : behind.tokensUpTo bound with ⟨fault | more, last⟩
        · rw [hmore] at hmoreError
          refine ⟨fun e h => ?_, fun tokens h => by cases h⟩
          cases h
          exact hpasses.reaches (hmoreError fault rfl)
        · rw [hmore] at hmoreTokens
          refine ⟨fun e h => (by cases h), fun tokens h => ?_⟩
          cases h
          exact List.forall_mem_cons.2
            ⟨hfirst, fun other hother => hpasses.reaches (hmoreTokens more rfl other hother)⟩

end Cursor

/-! ## Renamings of places -/

variable {σ : Location → Location}

instance : Infinite Location :=
  Infinite.of_injective (fun column => ⟨1, column⟩) fun _ _ h => congrArg Location.column h

/-- Some renaming leaves all places of a finite set alone, but not a place outside of it. -/
theorem Location.mem_of_fixed {S : Set Location} (hS : S.Finite) {l : Location}
    (h : ∀ σ : Location → Location, Function.Injective σ → (∀ m ∈ S, σ m = m) → σ l = l) :
    l ∈ S := by
  by_contra hl
  obtain ⟨other, hother⟩ := (hS.insert l).exists_notMem
  rw [Set.mem_insert_iff, not_or] at hother
  have hfixed : Equiv.swap l other l = l := by
    refine h _ (Equiv.swap l other).injective fun m hm => Equiv.swap_apply_of_ne_of_ne ?_ ?_
    · rintro rfl
      exact hl hm
    · rintro rfl
      exact hother.2 hm
  rw [Equiv.swap_apply_left] at hfixed
  exact hother.1 hfixed

theorem relocate_list_eq_self_iff {α : Type} [Located α] {as : List α} :
    relocate σ as = as ↔ ∀ a ∈ as, relocate σ a = a := by
  induction as with
  | nil => exact ⟨fun _ => nofun, fun _ => rfl⟩
  | cons a as ih =>
    rw [relocate_cons, List.cons.injEq, ih, List.forall_mem_cons]

theorem relocate_option_eq_self_iff {α : Type} [Located α] {a? : Option α} :
    relocate σ a? = a? ↔ ∀ a ∈ a?.toList, relocate σ a = a := by
  cases a? <;> simp

theorem relocate_tokens_eq_self {tokens : List Token} (h : ∀ token ∈ tokens, σ token.place = token.place) :
    relocate σ tokens = tokens :=
  relocate_list_eq_self_iff.2 fun token htoken => congrArg (Token.mk token.kind) (h token htoken)

namespace Node

/-- What lies below a node is smaller. -/
theorem sizeOf_lt_of_mem_children {node child : Node} (h : child ∈ node.children) :
    sizeOf child < sizeOf node := by
  cases node with
  | function _ _ _ _ nodes | block _ nodes | arrayLiteral _ nodes | call _ _ nodes =>
    have hlt : sizeOf child < sizeOf nodes := List.sizeOf_lt_of_mem h
    simp
    omega
  | declaration | returnFrom | ifElse | forLoop =>
    simp only [children, List.mem_append, List.mem_cons, Option.mem_toList, List.not_mem_nil, or_false] at h
    simp
    grind [Option.some.sizeOf_spec]
  | _ => grind [children]

/-- What is true of a node if it is true of all nodes right below it is true of all nodes. -/
theorem induction_children {P : Node → Prop} (h : ∀ node, (∀ child ∈ node.children, P child) → P node)
    (node : Node) : P node := by
  induction hn : sizeOf node using Nat.strongRecOn generalizing node with
  | _ n ih =>
    subst hn
    exact h node fun child hchild => ih _ (sizeOf_lt_of_mem_children hchild) child rfl

end Node

theorem relocate_node_eq_self_iff {node : Node} :
    relocate σ node = node ↔
      σ node.place = node.place ∧ ∀ child ∈ node.children, relocate σ child = child := by
  cases node with
  | function | block | arrayLiteral | call =>
    simp [Node.place, Node.children, relocate_list_eq_self_iff]
  | declaration | returnFrom | ifElse =>
    simp [Node.place, Node.children, relocate_option_eq_self_iff]
  | forLoop =>
    simp [Node.place, Node.children, relocate_option_eq_self_iff, or_imp, forall_and]
  | _ => simp [Node.place, Node.children, relocate, Node.relocate]

/-- If a tree is left alone, then so are the places of its nodes. -/
theorem Node.IsIn.place_fixed {node root : Node} (h : node.IsIn root) (hroot : relocate σ root = root) :
    σ node.place = node.place := by
  induction h with
  | root => exact (relocate_node_eq_self_iff.1 hroot).1
  | inside hchild _ ih => exact ih ((relocate_node_eq_self_iff.1 hroot).2 _ hchild)

/-- If the places of its nodes are left alone, then so is the tree. -/
theorem relocate_node_eq_self {root : Node}
    (h : ∀ node : Node, node.IsIn root → σ node.place = node.place) : relocate σ root = root := by
  induction root using Node.induction_children with
  | _ root ih =>
    refine relocate_node_eq_self_iff.2 ⟨h root (.root root), fun child hchild => ih child hchild ?_⟩
    exact fun node hnode => h node (.inside hchild hnode)

/-! ## Sessions at other places -/

instance : Located Session where
  relocate σ s := ⟨relocate σ s.machine, relocate σ s.state, σ s.last, s.exitCode⟩

theorem statement?_relocate (job : Job) : (relocate σ job).statement? = job.statement?.map σ := by
  cases job with
  | execute node => exact congrArg some (place_relocate node)
  | _ => rfl

theorem report_relocate (job : Job) (last : Location) (e : Stop) :
    (relocate σ job).report (σ last) (relocate σ e) = relocate σ (job.report last e) := by
  rcases e with (_ | ⟨fault, own⟩) | _
  · rfl
  · have hplace : (relocate σ job).faultPlace (σ last) (σ own) fault =
        σ (job.faultPlace last own fault) := by
      cases fault with
      | internal fault =>
        cases fault with
        | noActiveCall => cases job <;> rfl
        | _ => rfl
      | _ => rfl
    exact congrArg (Stop.fault fault) hplace
  · rfl

namespace Session

open Effect Interpreter

variable {i : Interpreter} {s : Session} {fuel : Nat} {args : List (List UInt8)}

theorem step_relocate (hσ : Function.Injective σ) (i : Interpreter) (job : Job) (s : Session) :
    (relocate σ s).step (relocate σ i) (relocate σ job) = relocate σ (s.step i job) := by
  have hlast : (relocate σ job).statement?.getD (relocate σ s).last = σ (job.statement?.getD s.last) := by
    rw [statement?_relocate]
    cases job.statement? <;> rfl
  have hjobs : (relocate σ s).machine.pending.jobs.pop = relocate σ s.machine.pending.jobs.pop :=
    Stack.pop_map _ s.machine.pending.jobs
  have hmachine : (relocate σ s).machine = relocate σ s.machine := rfl
  have hstate : (relocate σ s).state = relocate σ s.state := rfl
  unfold step
  dsimp only
  rw [hlast, hjobs, hmachine, hstate, relocates_step i hσ s.machine s.state]
  rcases (i.step s.machine).run s.state with ⟨e | progress, t⟩
  · show (Except.error ((relocate σ job).report _ (relocate σ e)), _) = _
    rw [report_relocate]
    rfl
  · cases progress <;> rfl

theorem finish_relocate (hσ : Function.Injective σ) (i : Interpreter) (fuel : Nat) (s : Session) :
    finish (relocate σ i) fuel (relocate σ s) = relocate σ (finish i fuel s) := by
  have htop : (relocate σ s).machine.pending.jobs.top? = s.machine.pending.jobs.top?.map (relocate σ) :=
    Stack.top?_map _ s.machine.pending.jobs
  cases hjob : s.machine.pending.jobs.top? with
  | none =>
    rw [hjob] at htop
    rw [finish_of_none hjob, finish_of_none htop]
    rfl
  | some job =>
    rw [hjob] at htop
    cases fuel with
    | zero =>
      rw [finish_zero hjob, finish_zero htop]
      rfl
    | succ fuel =>
      rw [finish_succ hjob, finish_succ htop, step_relocate hσ]
      rcases s.step i job with ⟨e | _, t⟩
      · rfl
      · exact finish_relocate hσ i fuel t

/-- A renaming that leaves the interpreter alone leaves the errors of its runs alone. The place of the last
statement of the run before is nothing that they depend on. -/
theorem error_fixed (hσ : Function.Injective σ) (hi : relocate σ i = i) {e : Stop} {t : Session}
    (h : s.run i fuel args = some (.error e, t)) : relocate σ e = e := by
  have hmain := relocates_enterMain (σ := σ) i args s.reset.state
  have hfresh : relocate σ s.reset.state = s.reset.state := rfl
  rw [hi, hfresh] at hmain
  unfold run at h
  dsimp only at h
  rcases hrun : (i.enterMain args).run s.reset.state with ⟨fault | main, u⟩
  · rw [hrun] at h hmain
    cases h
    exact (Except.error.inj (congrArg Prod.fst hmain)).symm
  · rw [hrun] at h hmain
    obtain ⟨a, callers, hcalls⟩ := calls_of_enterMain hrun
    have hmainFixed : relocate σ main = main := (Except.ok.inj (congrArg Prod.fst hmain)).symm
    have hstate : relocate σ u = u := (congrArg Prod.snd hmain).symm
    have hplace : σ main.place = main.place := congrArg Function.place hmainFixed
    -- the run does not see the last statement, so it may as well be the place of `main`
    have hshown := finish_enter (i := i) main hcalls s.last main.place fuel
    have hsession : relocate σ (⟨.enter main .empty [], u, main.place, none⟩ : Session) =
        ⟨.enter main .empty [], u, main.place, none⟩ := by
      show Session.mk (relocate σ (Machine.enter main .empty [])) (relocate σ u) (σ main.place) none = _
      rw [← enter_relocate, hmainFixed, hstate, hplace]
      rfl
    have hfinish := finish_relocate hσ i fuel ⟨.enter main .empty [], u, main.place, none⟩
    rw [hi, hsession] at hfinish
    have hends : (finish i fuel ⟨.enter main .empty [], u, s.last, none⟩) = some (.error e, t) := h
    rw [hends] at hshown
    obtain ⟨⟨result, v⟩, hfound, hsame⟩ := Option.map_eq_some_iff.1 hshown.symm
    obtain rfl : result = .error e := congrArg Prod.fst hsame
    rw [hfound] at hfinish
    exact (Except.error.inj (congrArg Prod.fst (Option.some.inj hfinish))).symm

end Session

/-! ## Errors of the reader and of runs -/

variable {tokens : List Token} {program : Program}

def placesOf (tokens : List Token) : Set Location := {l | l ∈ tokens.map Token.place}

theorem finite_placesOf (tokens : List Token) : (placesOf tokens).Finite := List.finite_toSet _

theorem exists_of_mem_placesOf {l : Location} (h : l ∈ placesOf tokens) :
    ∃ token ∈ tokens, l = token.place := by
  obtain ⟨token, htoken, rfl⟩ := List.mem_map.1 h
  exact ⟨token, htoken, rfl⟩

/-- What is read from tokens that a renaming leaves alone is left alone. -/
theorem ofTokens_fixed (hne : tokens ≠ []) (hσ : ∀ l ∈ placesOf tokens, σ l = l) :
    relocate σ (Program.ofTokens tokens) = Program.ofTokens tokens := by
  have htokens : relocate σ tokens = tokens := relocate_tokens_eq_self fun token htoken =>
    hσ _ (List.mem_map_of_mem htoken)
  rw [← ofTokens_relocate σ hne, htokens]

theorem place_mem_of_ofTokens_error (hne : tokens ≠ []) {e : ParseError}
    (h : Program.ofTokens tokens = .error e) : e.place ∈ placesOf tokens := by
  refine Location.mem_of_fixed (finite_placesOf tokens) fun σ _ hσ => ?_
  have hfixed := ofTokens_fixed hne hσ
  rw [h] at hfixed
  exact congrArg ParseError.place (Except.error.inj hfixed)

theorem place_mem_of_within (hne : tokens ≠ []) (h : Program.ofTokens tokens = .ok program) {node : Node}
    (hnode : node.Within program.nodes) : node.place ∈ placesOf tokens := by
  refine Location.mem_of_fixed (finite_placesOf tokens) fun σ _ hσ => ?_
  have hfixed := ofTokens_fixed hne hσ
  rw [h] at hfixed
  have hnodes : relocate σ program.nodes = program.nodes :=
    congrArg Program.nodes (Except.ok.inj hfixed)
  obtain ⟨root, hroot, hin⟩ := hnode
  exact hin.place_fixed (relocate_list_eq_self_iff.1 hnodes root hroot)

theorem ofProgram_fixed (h : ∀ node : Node, node.Within program.nodes → σ node.place = node.place)
    (limits : Limits) : relocate σ (Interpreter.ofProgram program limits) = .ofProgram program limits := by
  have hnodes : relocate σ program.nodes = program.nodes := relocate_list_eq_self_iff.2 fun root hroot =>
    relocate_node_eq_self fun node hnode => h node ⟨root, hroot, hnode⟩
  rw [← ofProgram_relocate]
  exact congrArg (Interpreter.ofProgram · limits) (congrArg Program.mk hnodes)

/-- An error of a run is at a place of the program, as long as these are finitely many. -/
theorem exists_node_of_run_error
    (hfinite : {l | ∃ node : Node, node.Within program.nodes ∧ node.place = l}.Finite)
    {limits : Limits} {s t : Session} {fuel : Nat} {args : List (List UInt8)} {e : RuntimeError}
    (h : s.run (.ofProgram program limits) fuel args = some (.error (.failure e), t)) :
    e = .missingMain ∨ ∃ fault, ∃ node : Node, node.Within program.nodes ∧ e = .fault fault node.place := by
  cases e with
  | missingMain => exact .inl rfl
  | fault fault place =>
    have hplace : place ∈ {l | ∃ node : Node, node.Within program.nodes ∧ node.place = l} := by
      refine Location.mem_of_fixed hfinite fun σ hinjective hσ => ?_
      have hfixed := Session.error_fixed hinjective
        (ofProgram_fixed (fun node hnode => hσ _ ⟨node, hnode, rfl⟩) limits) h
      injection hfixed with herror
      injection herror
    obtain ⟨node, hnode, rfl⟩ := hplace
    exact .inr ⟨fault, node, hnode, rfl⟩

/-- Errors point into the source. What a lexer cannot read, whatever it was asked before, is reported at a
character of the text or at its end, and so is what keeps a text from being cut into tokens. What the reader
refuses it refuses at the place of a token. All nodes of a program are at places of tokens. And what a run of
a session fails with, whatever the session has gone through, is at the place of a node, unless there is no
function to start with. -/
theorem places_in_source (text : String) :
    (∀ history e, ((Lexer.ofString text).after history).nextToken.1 = .error e → e.place.IsIn text.toList) ∧
    (∀ e, tokenize text = .error e → e.place.IsIn text.toList) ∧
    ∀ tokens, tokenize text = .ok tokens →
      (∀ token ∈ tokens, token.place.IsIn text.toList) ∧
      (∀ e, Program.ofTokens tokens = .error e → ∃ token ∈ tokens, e.place = token.place) ∧
      ∀ program, Program.ofTokens tokens = .ok program →
        (∀ node : Node, node.Within program.nodes → ∃ token ∈ tokens, node.place = token.place) ∧
        ∀ (limits : Limits) (s : Session) fuel args e t,
          s.run (.ofProgram program limits) fuel args = some (.error (.failure e), t) →
          e = .missingMain ∨
            ∃ fault, ∃ node : Node, node.Within program.nodes ∧ e = .fault fault node.place := by
  have hread := Cursor.reaches_of_tokensUpTo (text.toList.length + 1) (.ofList text.toList)
  refine ⟨fun history e h => ?_, fun e h => Cursor.isIn_of_reaches (hread.1 e h), fun tokens htokens => ?_⟩
  · have hnew : (Lexer.ofString text).StandsIn text.toList := ⟨rfl, .refl _⟩
    have hstands := Lexer.standsIn_after hnew history
    exact Cursor.isIn_of_reaches (hstands.2.reaches ((Cursor.reaches_of_nextToken _).1 e h))
  · have hne := ne_nil_of_tokenize htokens
    refine ⟨fun token htoken => Cursor.isIn_of_reaches (hread.2 tokens htokens token htoken),
      fun e h => exists_of_mem_placesOf (place_mem_of_ofTokens_error hne h), fun program h => ⟨?_, ?_⟩⟩
    · intro node hnode
      exact exists_of_mem_placesOf (place_mem_of_within hne h hnode)
    · intro limits s fuel args e t hrun
      refine exists_node_of_run_error ((finite_placesOf tokens).subset ?_) hrun
      rintro _ ⟨node, hnode, rfl⟩
      exact place_mem_of_within hne h hnode

end BoundedC
