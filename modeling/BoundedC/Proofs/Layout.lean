import Mathlib.Logic.Equiv.Fintype
import BoundedC.Proofs.Places
import BoundedC.Proofs.RelocatedReading
import BoundedC.Proofs.RelocatedRuns

/-!
# Layout does not matter

Two texts whose tokens are of the same kinds, in the same order, differ in blanks, comments, directives
and line breaks only. They spell the same program but for places, and its runs differ in the places of
errors only.

* `exists_relocate_eq` : since the tokens of a text stand at different places, a permutation of all
  places takes the tokens of one text to those of the other;
* `same_of_kinds_eq` : what such a permutation changes in readers and runs is places only.
-/

namespace BoundedC

def Program.SameButPlaces (p p' : Program) : Prop :=
  relocate (fun _ => Location.start) p' = relocate (fun _ => Location.start) p

/-- The runs end with the same exit value or errors of the same kind, and leave the same output, the
same count of statements and the same memory, with its buffers and their owners. -/
structure SameEnd (r r' : Except Stop Int32 × ProgramState) : Prop where
  result : r'.1.mapError Stop.kind? = r.1.mapError Stop.kind?
  output : r'.2.output = r.2.output
  steps : r'.2.steps = r.2.steps
  memory : r'.2.memory = r.2.memory

variable {σ τ : Location → Location}

mutual

theorem relocate_relocate (node : Node) :
    relocate τ (relocate σ node) = relocate (τ ∘ σ) node := by
  cases node with
  | function place name returnType params body =>
    rw [relocate_function, relocate_function, relocate_function, relocateList_relocate body]
    rfl
  | declaration place name type isConst init =>
    rw [relocate_declaration, relocate_declaration, relocate_declaration, relocateOption_relocate init]
    rfl
  | block place statements =>
    rw [relocate_block, relocate_block, relocate_block, relocateList_relocate statements]
    rfl
  | ifElse place condition thenBranch elseBranch =>
    rw [relocate_ifElse, relocate_ifElse, relocate_ifElse, relocate_relocate condition,
      relocate_relocate thenBranch, relocateOption_relocate elseBranch]
    rfl
  | whileLoop place condition body =>
    exact congrArg₂ (Node.whileLoop _) (relocate_relocate condition) (relocate_relocate body)
  | forLoop place init condition increment body =>
    rw [relocate_forLoop, relocate_forLoop, relocate_forLoop, relocateOption_relocate init,
      relocateOption_relocate condition, relocateOption_relocate increment, relocate_relocate body]
    rfl
  | returnFrom place value =>
    rw [relocate_returnFrom, relocate_returnFrom, relocate_returnFrom, relocateOption_relocate value]
    rfl
  | breakLoop | continueLoop | intLiteral | charLiteral | stringLiteral | identifier => rfl
  | expression place value => exact congrArg (Node.expression _) (relocate_relocate value)
  | arrayLiteral place elements =>
    rw [relocate_arrayLiteral, relocate_arrayLiteral, relocate_arrayLiteral,
      relocateList_relocate elements]
    rfl
  | binary place op left right =>
    exact congrArg₂ (Node.binary _ op) (relocate_relocate left) (relocate_relocate right)
  | unary place op operand => exact congrArg (Node.unary _ op) (relocate_relocate operand)
  | step place op operand => exact congrArg (Node.step _ op) (relocate_relocate operand)
  | deref place operand => exact congrArg (Node.deref _) (relocate_relocate operand)
  | addressOf place operand => exact congrArg (Node.addressOf _) (relocate_relocate operand)
  | assign place target value =>
    exact congrArg₂ (Node.assign _) (relocate_relocate target) (relocate_relocate value)
  | compoundAssign place op target value =>
    exact congrArg₂ (Node.compoundAssign _ op) (relocate_relocate target) (relocate_relocate value)
  | call place name args =>
    rw [relocate_call, relocate_call, relocate_call, relocateList_relocate args]
    rfl
  | index place array position =>
    exact congrArg₂ (Node.index _) (relocate_relocate array) (relocate_relocate position)

theorem relocateList_relocate (nodes : List Node) :
    relocate τ (relocate σ nodes) = relocate (τ ∘ σ) nodes := by
  cases nodes with
  | nil => rfl
  | cons node nodes =>
    exact congrArg₂ List.cons (relocate_relocate node) (relocateList_relocate nodes)

theorem relocateOption_relocate (node : Option Node) :
    relocate τ (relocate σ node) = relocate (τ ∘ σ) node := by
  cases node with
  | none => rfl
  | some node => exact congrArg some (relocate_relocate node)

end

theorem Program.sameButPlaces_relocate (p : Program) : p.SameButPlaces (relocate σ p) :=
  congrArg Program.mk (relocateList_relocate p.nodes)

/-- What places an end contains are no part of its value, its kind of error, its output, its count of
statements and its memory. -/
theorem sameEnd_relocate (r : Except Stop Int32 × ProgramState) :
    SameEnd r (relocate σ r) := by
  obtain ⟨result, s⟩ := r
  refine ⟨?_, rfl, rfl, rfl⟩
  cases result with
  | ok code => rfl
  | error e =>
    cases e with
    | failure e => cases e <;> rfl
    | abort => rfl

theorem rel_sameEnd_relocate (r : Option (Except Stop Int32 × ProgramState)) :
    Option.Rel SameEnd r (relocate σ r) := by
  cases r with
  | none => exact .none
  | some r => exact .some (sameEnd_relocate r)

/-- Tokens of the same kinds, at different places each, are taken to each other by a permutation of
places. -/
theorem exists_relocate_eq {tokens tokens' : List Token}
    (hkinds : tokens'.map Token.kind = tokens.map Token.kind)
    (hnodup : (tokens.map Token.place).Nodup) (hnodup' : (tokens'.map Token.place).Nodup) :
    ∃ σ : Equiv.Perm Location, tokens' = relocate σ tokens := by
  have hlength : tokens'.length = tokens.length := by
    simpa using congrArg List.length hkinds
  have hget {ts : List Token} (h : (ts.map Token.place).Nodup) :
      Function.Injective fun k : Fin ts.length => ts[k].place := by
    intro k l hkl
    have hmap : ts.length = (ts.map Token.place).length := (List.length_map _).symm
    have hsame : Fin.cast hmap k = Fin.cast hmap l :=
      List.nodup_iff_injective_get.1 h (by simpa using hkl)
    exact Fin.cast_injective hmap hsame
  obtain ⟨σ, hσ⟩ := Equiv.Perm.exists_extending_pair _ (fun k => tokens'[Fin.cast hlength.symm k].place)
    (hget hnodup) ((hget hnodup').comp (Fin.cast_injective hlength.symm))
  refine ⟨σ, List.ext_getElem (hlength.trans (length_relocate tokens).symm) fun k hk' _ => ?_⟩
  have hk : k < tokens.length := hlength ▸ hk'
  have hkind : tokens'[k].kind = tokens[k].kind := by
    simpa [hk, hk'] using congrArg (·[k]?) hkinds
  have hplace : σ tokens[k].place = tokens'[k].place := hσ ⟨k, hk⟩
  show tokens'[k] = (tokens.map (relocate σ))[k]
  rw [List.getElem_map]
  show tokens'[k] = ⟨tokens[k].kind, σ tokens[k].place⟩
  rw [hplace, ← hkind]

theorem compile_of_tokenize {text : String} {tokens : List Token} (h : tokenize text = .ok tokens) :
    compile text = (Program.ofTokens tokens).mapError .parse := by
  unfold compile
  rw [h]
  rfl

/-- Texts with tokens of the same kinds are both refused, for the same fault, or spell programs that
differ in places only. Whatever the arguments and the ceilings, the runs of these programs come to the
same end after the same number of jobs. -/
theorem same_of_kinds_eq {text text' : String} {tokens tokens' : List Token}
    (htokens : tokenize text = .ok tokens) (htokens' : tokenize text' = .ok tokens')
    (hkinds : tokens'.map Token.kind = tokens.map Token.kind) :
    (∃ e e', compile text = .error (.parse e) ∧ compile text' = .error (.parse e') ∧
      e'.fault = e.fault) ∨
    ∃ p p', compile text = .ok p ∧ compile text' = .ok p' ∧ p.SameButPlaces p' ∧
      ∀ limits args sink fuel,
        Option.Rel SameEnd ((Interpreter.ofProgram p limits).run fuel args sink)
          ((Interpreter.ofProgram p' limits).run fuel args sink) := by
  obtain ⟨σ, rfl⟩ := exists_relocate_eq hkinds (nodup_of_tokenize htokens) (nodup_of_tokenize htokens')
  rw [compile_of_tokenize htokens, compile_of_tokenize htokens',
    ofTokens_relocate σ (ne_nil_of_tokenize htokens)]
  cases Program.ofTokens tokens with
  | error e => exact .inl ⟨e, relocate σ e, rfl, rfl, rfl⟩
  | ok p =>
    refine .inr ⟨p, relocate σ p, rfl, rfl, p.sameButPlaces_relocate, fun limits args sink fuel => ?_⟩
    rw [ofProgram_relocate, Interpreter.run_relocate _ σ.injective]
    exact rel_sameEnd_relocate _

theorem exists_tokenize_of_kinds {chars : List Char} {kinds : List TokenKind}
    (h : (Cursor.ofList chars).tokens.1.toOption.map (List.map Token.kind) = some kinds) :
    ∃ tokens, tokenize (String.ofList chars) = .ok tokens ∧ tokens.map Token.kind = kinds := by
  obtain ⟨tokens, htokens, hkinds⟩ := Option.map_eq_some_iff.1 h
  exact ⟨tokens, (tokenize_ofList chars).trans (eq_ok_of_toOption htokens), hkinds⟩

/-- A string and an array literal on one line. -/
def packed : List Char := "int main()\x7bprint(\"ab\",2);return\x7b3,4\x7d[1];\x7d".toList

/-- The same tokens on several lines, with a comment. -/
def spread : List Char :=
  "int main()\n\x7b\n  print ( \"ab\", 2 ) ; // two bytes\n  return\x7b 3, 4 \x7d [1] ; \x7d".toList

/-- Both texts are accepted, and their runs, which evaluate the literals, come to the same end. -/
theorem same_of_respaced : ∃ p p', compile (String.ofList packed) = .ok p ∧
    compile (String.ofList spread) = .ok p' ∧ p.SameButPlaces p' ∧
    (∀ limits args sink fuel, Option.Rel SameEnd ((Interpreter.ofProgram p limits).run fuel args sink)
      ((Interpreter.ofProgram p' limits).run fuel args sink)) ∧
    ∃ s, (Interpreter.ofProgram p .default).run 40 [] .unlimited = some (.ok 4, s) ∧
      s.output = [97, 98] := by
  let kinds : List TokenKind := [.keyword .int, .identifier "main", .symbol .leftParen,
    .symbol .rightParen, .symbol .leftBrace, .identifier "print", .symbol .leftParen, .string "ab",
    .symbol .comma, .int 2, .symbol .rightParen, .symbol .semicolon, .keyword .returnWord,
    .symbol .leftBrace, .int 3, .symbol .comma, .int 4, .symbol .rightBrace, .symbol .leftBracket,
    .int 1, .symbol .rightBracket, .symbol .semicolon, .symbol .rightBrace, .endOfFile]
  obtain ⟨tokens, htokens, hkinds⟩ : ∃ tokens, tokenize (String.ofList packed) = .ok tokens ∧
      tokens.map Token.kind = kinds := exists_tokenize_of_kinds (by decide +kernel)
  obtain ⟨tokens', htokens', hkinds'⟩ : ∃ tokens, tokenize (String.ofList spread) = .ok tokens ∧
      tokens.map Token.kind = kinds := exists_tokenize_of_kinds (by decide +kernel)
  obtain ⟨program, hcompile, hrun⟩ : ∃ program, compile (String.ofList packed) = .ok program ∧
      decide (((Interpreter.ofProgram program .default).run 40 [] .unlimited).map
        (fun r => (r.1, r.2.output)) = some (.ok 4, [97, 98])) = true :=
    exists_compile_of_any (by decide +kernel)
  obtain ⟨⟨result, s⟩, hrun, hend⟩ := Option.map_eq_some_iff.1 (of_decide_eq_true hrun)
  obtain ⟨rfl, houtput⟩ : result = .ok 4 ∧ s.output = [97, 98] := Prod.mk.inj hend
  rcases same_of_kinds_eq htokens htokens' (hkinds'.trans hkinds.symm) with
    ⟨e, e', he, -⟩ | ⟨p, p', hp, hp', hsame, hruns⟩
  · cases hcompile.symm.trans he
  · cases hcompile.symm.trans hp
    exact ⟨program, p', hcompile, hp', hsame, hruns, s, hrun, houtput⟩

end BoundedC
