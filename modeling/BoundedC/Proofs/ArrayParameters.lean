import Mathlib.Algebra.Order.BigOperators.Group.List
import Mathlib.Logic.Relation
import BoundedC.Proofs.ArrayContents
import BoundedC.Proofs.ParameterForms

/-!
# Array parameters are pointers

A parameter that is written as an array declares a pointer to the element type, as if a star were
written instead of the dimension. So a program may be written in either way, and its runs are the same.
There is one difference: behind `const` and without a star, an array parameter is read-only, and the
pointer is not.

* `Rewritten` : parameters of which one is written in another way, for the kinds of tokens;
* `arrays_are_pointers` : parameters, variables and programs;
* `readOnly_array_parameter` : the difference.
-/

namespace BoundedC

open Reader ReaderState

/-! ## Kinds of tokens -/

/-- The tokens spell functions, with nothing behind them. -/
def IsProgram (kinds : List TokenKind) : Prop :=
  ∃ tokens program, tokens.map Token.kind = kinds ++ [.endOfFile] ∧
    Program.ofTokens tokens = .ok program

/-- A parameter of a function is written in another way, and declares the same. The functions in front
of it are a program, and what stands behind it is not another dimension. -/
inductive Rewritten : List TokenKind → List TokenKind → Prop
  | mk {front more : List TokenKind} {next : TokenKind} (head : WrittenHead) {p p' : WrittenParam}
    (hfront : IsProgram front) (hp : p.Declarable) (hp' : p'.Declarable) (hparam : p'.param = p.param)
    (hnext : next ≠ .symbol .leftBracket) :
    Rewritten (front ++ (head.opening ++ (head.before ++ p.kinds ++ next :: more)))
      (front ++ (head.opening ++ (head.before ++ p'.kinds ++ next :: more)))

/-- Whether tokens are a program is told by their kinds. -/
theorem IsProgram.exists_run {kinds : List TokenKind} {tokens : List Token} (h : IsProgram kinds)
    (hkinds : tokens.map Token.kind = kinds ++ [.endOfFile]) : ∃ bound nodes t,
      (functionsUpTo bound).run (.ofTokens tokens) = .ok (nodes, t) := by
  obtain ⟨others, program, hothers, hprogram⟩ := h
  have hne {ts : List Token} (hts : ts.map Token.kind = kinds ++ [.endOfFile]) : ts ≠ [] := by
    rintro rfl
    exact List.append_ne_nil_of_right_ne_nil _ (List.cons_ne_nil _ _) hts.symm
  have hsame : relocate (fun _ => Location.start) tokens = relocate (fun _ => Location.start) others := by
    have hforget (ts : List Token) : relocate (fun _ => Location.start) ts =
        (ts.map Token.kind).map (⟨·, .start⟩) := by
      rw [List.map_map]
      rfl
    rw [hforget, hforget, hkinds, hothers]
  have hread := ofTokens_relocate (fun _ => Location.start) (hne hkinds)
  rw [hsame, ofTokens_relocate _ (hne hothers), hprogram] at hread
  unfold Program.ofTokens at hread
  cases hrun : (functionsUpTo (tokens.length + 1)).run (.ofTokens tokens) with
  | ok r => exact ⟨_, r.1, r.2, hrun⟩
  | error e =>
    rw [hrun] at hread
    cases hread

theorem WrittenParam.ne_endOfFile (p : WrittenParam) : ∀ kind ∈ p.kinds, kind ≠ .endOfFile := by
  obtain ⟨⟨isConst, base, stars⟩, name, shape⟩ := p
  rintro kind hkind rfl
  cases isConst <;> simp [kinds, WrittenType.kinds, List.mem_replicate] at hkind
  all_goals
    obtain ⟨dim, -, hdim⟩ := hkind
    cases dim <;> simp [dimensionKinds] at hdim

/-- There are places that are not used. -/
theorem exists_fresh (used : List Location) (count : Nat) : ∃ places : List Location,
    places.length = count ∧ places.Nodup ∧ ∀ l ∈ places, l ∉ used := by
  refine ⟨(List.range count).map (⟨(used.map Location.line).sum + 1, ·⟩), ?_, ?_, ?_⟩
  · rw [List.length_map, List.length_range]
  · exact List.nodup_range.map fun _ _ h => congrArg Location.column h
  · intro l hl hused
    obtain ⟨column, -, rfl⟩ := List.mem_map.1 hl
    have hle := List.le_sum_of_mem (List.mem_map_of_mem (f := Location.line) hused)
    exact absurd hle (by simp)

/-- Tokens of these kinds, at places that are not used. -/
theorem exists_fresh_tokens (kinds : List TokenKind) (used : List Location) : ∃ tokens : List Token,
    tokens.map Token.kind = kinds ∧ (tokens.map Token.place).Nodup ∧
      ∀ l ∈ tokens.map Token.place, l ∉ used := by
  obtain ⟨places, hcount, hnodup, hfresh⟩ := exists_fresh used kinds.length
  refine ⟨(kinds.zip places).map fun pair => ⟨pair.1, pair.2⟩, ?_, ?_⟩
  · rw [List.map_map]
    exact List.map_fst_zip (Nat.le_of_eq hcount.symm)
  · have hplaces : ((kinds.zip places).map fun pair => (⟨pair.1, pair.2⟩ : Token)).map Token.place =
        places := by
      rw [List.map_map]
      exact List.map_snd_zip (Nat.le_of_eq hcount)
    rw [hplaces]
    exact ⟨hnodup, hfresh⟩

/-- A part of a list is replaced by something new. -/
theorem nodup_replace {α : Type} {before own own' behind : List α}
    (h : (before ++ own ++ behind).Nodup) (hown : own'.Nodup)
    (hfresh : ∀ a ∈ own', a ∉ before ++ own ++ behind) : (before ++ own' ++ behind).Nodup := by
  have hrest : (before ++ behind).Nodup := by
    refine h.sublist ?_
    rw [List.append_assoc]
    exact (List.Sublist.refl before).append (List.sublist_append_right own behind)
  have hmoved : (before ++ own' ++ behind).Perm (own' ++ (before ++ behind)) := by
    rw [List.append_assoc]
    exact List.perm_append_comm_assoc before own' behind
  refine hmoved.nodup_iff.2 (List.nodup_append.2 ⟨hown, hrest, ?_⟩)
  rintro a ha _ hb rfl
  refine hfresh a ha ?_
  rw [List.append_assoc, List.mem_append, List.mem_append]
  exact (List.mem_append.1 hb).imp_right .inr

/-- The parameter in its other form, and the tokens around it at their places. -/
theorem exists_of_rewritten {kinds kinds' : List TokenKind} {tokens : List Token}
    (h : Rewritten kinds kinds') (hkinds : tokens.map Token.kind = kinds) (hends : EndsOnce tokens)
    (hnodup : (tokens.map Token.place).Nodup) : ∃ tokens', tokens'.map Token.kind = kinds' ∧
      EndsOnce tokens' ∧ (tokens'.map Token.place).Nodup ∧
      Program.ofTokens tokens' = Program.ofTokens tokens := by
  obtain ⟨head, hfront, hp, hp', hparam, hnext⟩ := h
  rename_i front more next p p'
  obtain ⟨first, behind, rfl, hfirst, hbehind⟩ := List.map_eq_append_iff.1 hkinds
  obtain ⟨opening, rest, rfl, hopening, hrest⟩ := List.map_eq_append_iff.1 hbehind
  obtain ⟨written, others, rfl, hwritten, hothers⟩ := List.map_eq_append_iff.1 hrest
  obtain ⟨token, others, rfl, rfl, rfl⟩ := List.map_eq_cons_iff.1 hothers
  obtain ⟨before, own, rfl, hbefore, hown⟩ := List.map_eq_append_iff.1 hwritten
  obtain ⟨own', hown', hnodup', hfresh⟩ := exists_fresh_tokens p'.kinds
    ((first ++ (opening ++ (before ++ own ++ token :: others))).map Token.place)
  have hwritten' : (before ++ own').map Token.kind = head.before ++ p'.kinds := by
    rw [List.map_append, hbefore, hown']
  have hends₀ : EndsOnce (first ++ opening ++ before ++ own ++ token :: others) := by
    simpa only [List.append_assoc] using hends
  obtain ⟨hinner, hlast⟩ := endsOnce_append_iff.1 hends₀
  have hinner' : ∀ t ∈ own', t.kind ≠ .endOfFile := fun t ht =>
    p'.ne_endOfFile _ (hown' ▸ List.mem_map_of_mem ht)
  have hend (ts : List Token) (hts : ∀ t ∈ ts, t ∈ first ++ opening ++ before ++ own ∨ t ∈ own') :
      EndsOnce (ts ++ token :: others) :=
    endsOnce_append_iff.2 ⟨fun t ht => (hts t ht).elim (hinner t) (hinner' t), hlast⟩
  have hall' : EndsOnce (first ++ (opening ++ (before ++ own' ++ token :: others))) := by
    have := hend (first ++ opening ++ before ++ own') (by grind)
    simpa only [List.append_assoc] using this
  refine ⟨_, ?_, hall', ?_, ?_⟩
  · simp only [List.map_append, List.map_cons, hfirst, hopening, hbefore, hown']
  · simp only [List.map_append, ← List.append_assoc] at hnodup hfresh ⊢
    exact nodup_replace hnodup hnodup' hfresh
  · have hfront' : EndsOnce (first ++ [⟨.endOfFile, .start⟩]) :=
      endsOnce_append_iff.2 ⟨fun t ht => hinner t (by grind), rfl⟩
    have hkinds' : (first ++ [(⟨.endOfFile, .start⟩ : Token)]).map Token.kind =
        front ++ [.endOfFile] := by
      rw [List.map_append, hfirst]
      rfl
    obtain ⟨bound, nodes, t, hrun⟩ := hfront.exists_run hkinds'
    have hbehind := hend (opening ++ (before ++ own)) (by grind)
    have hbehind' := hend (opening ++ (before ++ own')) (by grind)
    rw [List.append_assoc] at hbehind hbehind'
    exact ofTokens_rewritten hfront' hrun hopening hp hp' hparam hwritten hwritten' hbehind hbehind' hnext

/-- Any number of parameters, one after the other. -/
theorem exists_of_rewritings {kinds kinds' : List TokenKind} {tokens : List Token}
    (h : Relation.ReflTransGen Rewritten kinds kinds') (hkinds : tokens.map Token.kind = kinds)
    (hends : EndsOnce tokens) (hnodup : (tokens.map Token.place).Nodup) : ∃ tokens',
      tokens'.map Token.kind = kinds' ∧ EndsOnce tokens' ∧ (tokens'.map Token.place).Nodup ∧
      Program.ofTokens tokens' = Program.ofTokens tokens := by
  induction h with
  | refl => exact ⟨tokens, hkinds, hends, hnodup, rfl⟩
  | tail _ hstep ih =>
    obtain ⟨tokens', hkinds', hends', hnodup', hsame⟩ := ih
    obtain ⟨tokens'', hkinds'', hends'', hnodup'', hsame'⟩ :=
      exists_of_rewritten hstep hkinds' hends' hnodup'
    exact ⟨tokens'', hkinds'', hends'', hnodup'', hsame'.trans hsame⟩

/-! ## Array parameters -/

section

variable (spec : WrittenType) (name : String)

def WrittenParam.pointer : WrittenParam := ⟨{ spec with stars := spec.stars + 1 }, name, .plain⟩

def WrittenParam.array (outer : Option Int32) (inner : List Int32) : WrittenParam :=
  ⟨spec, name, .array outer inner⟩

/-- A pointer is never read-only itself. -/
theorem param_pointer :
    (WrittenParam.pointer spec name).param = ⟨name, .pointer spec.type, false⟩ := by
  have hreadOnly : WrittenType.isReadOnly { spec with stars := spec.stars + 1 } = false :=
    Bool.and_false _
  have htype : WrittenType.type { spec with stars := spec.stars + 1 } = .pointer spec.type :=
    CType.starred_succ _ _
  unfold WrittenParam.pointer WrittenParam.param
  rw [hreadOnly]
  exact congrArg (Param.mk name · false) htype

theorem declarable_pointer (hstars : spec.stars < maxNesting) :
    (WrittenParam.pointer spec name).Declarable := by
  have htype : WrittenType.type { spec with stars := spec.stars + 1 } = .pointer spec.type :=
    CType.starred_succ _ _
  refine ⟨hstars, Nat.zero_le _, nofun, ?_, ?_⟩
  · show (WrittenType.type { spec with stars := spec.stars + 1 }).size?.any _ = true
    rw [htype]
    rfl
  · show WrittenType.type { spec with stars := spec.stars + 1 } ≠ .void
    rw [htype]
    exact nofun

end

/-- A variable is read-only if it is declared so and is not a pointer. -/
theorem isConst_of_define {d : Declaration} {values : List Value} {s t : ProgramState} {b : Binding}
    (h : (d.define values).run s = (.ok b, t)) : b.isConst = (d.isConst && !d.type.isPointer) := by
  unfold Declaration.define at h
  split at h
  · obtain ⟨_, _, hu, _⟩ := Effect.run_bind_eq_ok_iff.1 h
    cases hu
  · obtain ⟨id, u, hu, h⟩ := Effect.run_bind_eq_ok_iff.1 h
    obtain ⟨_, v, hv, h⟩ := Effect.run_bind_eq_ok_iff.1 h
    obtain ⟨_, w, hw, h⟩ := Effect.run_bind_eq_ok_iff.1 h
    cases h
    rfl

/-- Texts whose tokens have the same program but for places are both refused, for the same fault, or
their runs come to the same end. -/
theorem same_of_relocate {text text' : String} {read : Except ParseError Program}
    (σ : Equiv.Perm Location) (h : compile text = read.mapError .parse)
    (h' : compile text' = (relocate σ read).mapError .parse) :
    (∃ e e', compile text = .error (.parse e) ∧ compile text' = .error (.parse e') ∧
      e'.fault = e.fault) ∨
    ∃ p p', compile text = .ok p ∧ compile text' = .ok p' ∧ p.SameButPlaces p' ∧
      ∀ limits args sink fuel,
        Option.Rel SameEnd ((Interpreter.ofProgram p limits).run fuel args sink)
          ((Interpreter.ofProgram p' limits).run fuel args sink) := by
  rw [h, h']
  cases read with
  | error e => exact .inl ⟨e, relocate σ e, rfl, rfl, rfl⟩
  | ok p =>
    refine .inr ⟨p, relocate σ p, rfl, rfl, p.sameButPlaces_relocate, fun limits args sink fuel => ?_⟩
    rw [ofProgram_relocate, Interpreter.run_relocate _ σ.injective]
    exact rel_sameEnd_relocate _

/-- Texts that differ in how parameters are written are both refused, for the same fault, or their runs
come to the same end. -/
theorem same_of_rewritings {text text' : String} {tokens tokens' : List Token}
    (htokens : tokenize text = .ok tokens) (htokens' : tokenize text' = .ok tokens')
    (hrewritten : Relation.ReflTransGen Rewritten (tokens.map Token.kind) (tokens'.map Token.kind)) :
    (∃ e e', compile text = .error (.parse e) ∧ compile text' = .error (.parse e') ∧
      e'.fault = e.fault) ∨
    ∃ p p', compile text = .ok p ∧ compile text' = .ok p' ∧ p.SameButPlaces p' ∧
      ∀ limits args sink fuel,
        Option.Rel SameEnd ((Interpreter.ofProgram p limits).run fuel args sink)
          ((Interpreter.ofProgram p' limits).run fuel args sink) := by
  have hends : EndsOnce tokens := by
    obtain ⟨_, _, rfl, hread⟩ := tokenizes_of_tokenize htokens
    exact hread.endsOnce
  obtain ⟨others, hkinds, -, hnodup, hsame⟩ :=
    exists_of_rewritings hrewritten rfl hends (nodup_of_tokenize htokens)
  obtain ⟨σ, rfl⟩ := exists_relocate_eq hkinds.symm hnodup (nodup_of_tokenize htokens')
  have hne : others ≠ [] := by
    rintro rfl
    exact ne_nil_of_tokenize htokens' rfl
  refine same_of_relocate σ (compile_of_tokenize htokens) ?_
  rw [compile_of_tokenize htokens', ofTokens_relocate σ hne, hsame]

/-- A parameter that is written as an array declares a pointer to the element type, whatever the length
of the outermost dimension, and is read-only if `const` is written and no star. A parameter that is
written as a pointer is never read-only, nor is a variable of a pointer type. So both declare the same
if and only if the array parameter is not read-only. Texts that differ in how parameters are written,
and not in what these declare, are both refused, for the same fault, or spell programs that differ in
places only and whose runs come to the same end. -/
theorem arrays_are_pointers {spec : WrittenType} {name : String} {outer : Option Int32}
    {inner : List Int32} (h : (WrittenParam.array spec name outer inner).Declarable) :
    Takes parameter (WrittenParam.array spec name outer inner).kinds
      ⟨name, .pointer (spec.type.arrayed inner), spec.isReadOnly⟩ (· ≠ .symbol .leftBracket) ∧
    (spec.stars < maxNesting → Takes parameter (WrittenParam.pointer spec name).kinds
      ⟨name, .pointer spec.type, false⟩ (· ≠ .symbol .leftBracket)) ∧
    ((WrittenParam.pointer spec name).param = (WrittenParam.array spec name outer []).param ↔
      spec.isReadOnly = false) ∧
    (∀ d values s b t, (Declaration.define d values).run s = (.ok b, t) →
      d.type.isPointer = true → b.isConst = false) ∧
    ∀ text text' tokens tokens', tokenize text = .ok tokens → tokenize text' = .ok tokens' →
      Relation.ReflTransGen Rewritten (tokens.map Token.kind) (tokens'.map Token.kind) →
        (∃ e e', compile text = .error (.parse e) ∧ compile text' = .error (.parse e') ∧
          e'.fault = e.fault) ∨
        ∃ p p', compile text = .ok p ∧ compile text' = .ok p' ∧ p.SameButPlaces p' ∧
          ∀ limits args sink fuel,
            Option.Rel SameEnd ((Interpreter.ofProgram p limits).run fuel args sink)
              ((Interpreter.ofProgram p' limits).run fuel args sink) := by
  refine ⟨takes_parameter h, fun hstars => ?_, ?_, fun d values s b t hdefine hpointer => ?_,
    fun text text' tokens tokens' htokens htokens' hrewritten => ?_⟩
  · rw [← param_pointer]
    exact takes_parameter (declarable_pointer spec name hstars)
  · rw [param_pointer]
    show Param.mk name (.pointer spec.type) false = Param.mk name (.pointer spec.type) spec.isReadOnly ↔ _
    rw [Param.mk.injEq]
    exact ⟨fun hparam => hparam.2.2.symm, fun hreadOnly => ⟨rfl, rfl, hreadOnly.symm⟩⟩
  · rw [isConst_of_define hdefine, hpointer, Bool.not_true, Bool.and_false]
  · exact same_of_rewritings htokens htokens' hrewritten

/-! ## The read-only array parameter -/

/-- A function that moves its parameter, which is written in this way. -/
def movingParameter (param : List Char) : List Char :=
  "int f(".toList ++ param ++ ") \x7b p = p + 1; return p[0]; \x7d ".toList ++
    "int main() \x7b int a[2] = \x7b1, 2\x7d; return f(a); \x7d".toList

/-- The text is accepted, declares this parameter and comes to this end. -/
def MovesParameter (text : List Char) (param : Param) (result : Except (Option String) Int32) : Prop :=
  ∃ program, compile (String.ofList text) = .ok program ∧
    (∃ f ∈ program.functions, f.params = [param]) ∧
    ∃ r s, (Interpreter.ofProgram program .default).run 200 [] .unlimited = some (r, s) ∧
      r.mapError Stop.kind? = result

theorem movesParameter_of_any {text : List Char} {param : Param} {result : Except (Option String) Int32}
    (h : (((Cursor.ofList text).tokens.1.mapError CompileError.lex).bind fun tokens =>
      (Program.ofTokens tokens).mapError .parse).toOption.any (fun program =>
        program.functions.any (·.params = [param]) &&
          decide (((Interpreter.ofProgram program .default).run 200 [] .unlimited).map
            (·.1.mapError Stop.kind?) = some result)) = true) : MovesParameter text param result := by
  obtain ⟨program, hcompile, hcheck⟩ := exists_compile_of_any h
  obtain ⟨hparam, hrun⟩ := Bool.and_eq_true_iff.1 hcheck
  obtain ⟨f, hf, hparams⟩ := List.any_eq_true.1 hparam
  obtain ⟨⟨r, s⟩, hrun, hresult⟩ := Option.map_eq_some_iff.1 (of_decide_eq_true hrun)
  exact ⟨program, hcompile, ⟨f, hf, of_decide_eq_true hparams⟩, r, s, hrun, hresult⟩

/-- Behind `const`, an array parameter cannot be moved, and a pointer can. -/
theorem readOnly_array_parameter :
    MovesParameter (movingParameter "const int p[]".toList) ⟨"p", .pointer .int, true⟩
      (.error (some "ConstModification")) ∧
    MovesParameter (movingParameter "const int *p".toList) ⟨"p", .pointer .int, false⟩ (.ok 2) :=
  ⟨movesParameter_of_any (by decide +kernel), movesParameter_of_any (by decide +kernel)⟩

/-- The function with an array that may be moved, and the same one with a pointer. Both come to the same
end, and this is a value. -/
theorem same_of_star : (WrittenParam.array ⟨false, .int, 0⟩ "p" none []).Declarable ∧
    ∃ p p', compile (String.ofList (movingParameter "int p[]".toList)) = .ok p ∧
      compile (String.ofList (movingParameter "int *p".toList)) = .ok p' ∧ p.SameButPlaces p' ∧
      (∀ limits args sink fuel,
        Option.Rel SameEnd ((Interpreter.ofProgram p limits).run fuel args sink)
          ((Interpreter.ofProgram p' limits).run fuel args sink)) ∧
      ∃ s, (Interpreter.ofProgram p .default).run 200 [] .unlimited = some (.ok 2, s) := by
  let more : List TokenKind := [.symbol .leftBrace, .identifier "p", .symbol .equal, .identifier "p",
    .symbol .plus, .int 1, .symbol .semicolon, .keyword .returnWord, .identifier "p",
    .symbol .leftBracket, .int 0, .symbol .rightBracket, .symbol .semicolon, .symbol .rightBrace,
    .keyword .int, .identifier "main", .symbol .leftParen, .symbol .rightParen, .symbol .leftBrace,
    .keyword .int, .identifier "a", .symbol .leftBracket, .int 2, .symbol .rightBracket, .symbol .equal,
    .symbol .leftBrace, .int 1, .symbol .comma, .int 2, .symbol .rightBrace, .symbol .semicolon,
    .keyword .returnWord, .identifier "f", .symbol .leftParen, .identifier "a", .symbol .rightParen,
    .symbol .semicolon, .symbol .rightBrace, .endOfFile]
  let kinds (param : List TokenKind) : List TokenKind :=
    [.keyword .int, .identifier "f", .symbol .leftParen] ++ (param ++ .symbol .rightParen :: more)
  obtain ⟨tokens, htokens, hkinds⟩ : ∃ tokens,
      tokenize (String.ofList (movingParameter "int p[]".toList)) = .ok tokens ∧ tokens.map Token.kind =
        kinds [.keyword .int, .identifier "p", .symbol .leftBracket, .symbol .rightBracket] :=
    exists_tokenize_of_kinds (by decide +kernel)
  obtain ⟨tokens', htokens', hkinds'⟩ : ∃ tokens,
      tokenize (String.ofList (movingParameter "int *p".toList)) = .ok tokens ∧ tokens.map Token.kind =
        kinds [.keyword .int, .symbol .star, .identifier "p"] :=
    exists_tokenize_of_kinds (by decide +kernel)
  have hfront : IsProgram [] := ⟨[⟨.endOfFile, .start⟩], ⟨[]⟩, rfl, rfl⟩
  have harray : (WrittenParam.array ⟨false, .int, 0⟩ "p" none []).Declarable :=
    ⟨by decide, by decide, by simp [WrittenParam.array, WrittenShape.dims], by decide, by decide⟩
  have hpointer := declarable_pointer ⟨false, .int, 0⟩ "p" (by decide)
  have hrewritten : Rewritten (tokens.map Token.kind) (tokens'.map Token.kind) := by
    rw [hkinds, hkinds']
    exact @Rewritten.mk [] more (.symbol .rightParen) ⟨⟨false, .int, 0⟩, "f", [], by decide, nofun⟩ _ _
      hfront harray hpointer rfl nofun
  obtain ⟨p, hcompile, -, r, s, hrun, hresult⟩ : MovesParameter (movingParameter "int p[]".toList)
      ⟨"p", .pointer .int, false⟩ (.ok 2) := movesParameter_of_any (by decide +kernel)
  obtain rfl : r = .ok 2 := by
    cases r with
    | ok code => exact congrArg Except.ok (Except.ok.inj hresult)
    | error => cases hresult
  rcases (arrays_are_pointers harray).2.2.2.2 _ _ _ _ htokens htokens' (.single hrewritten) with
    ⟨e, e', he, -⟩ | ⟨_, p', hp, hp', hsame, hruns⟩
  · cases hcompile.symm.trans he
  · cases hcompile.symm.trans hp
    exact ⟨harray, p, p', hcompile, hp', hsame, hruns, s, hrun⟩

end BoundedC
