import BoundedC.Proofs.Concatenation
import BoundedC.Proofs.WrittenParameters

/-!
# Parameters written in another way

Where a parameter is written in another way that declares the same, the function is the same, and so is
the program, whatever stands behind the parameter. The other tokens stay at their places. The bounds of
the readers, which are told by the number of tokens, do not matter.

* `run_commaSeparatedUpTo_eq`, `run_functionsUpTo_eq` : a bound that suffices may be any other one;
* `WrittenHead` : what is written of a function in front of a parameter;
* `functionDefinition_rewritten`, `ofTokens_rewritten` : functions and programs.
-/

namespace BoundedC

open ReaderState

theorem endsOnce_append_iff {tokens more : List Token} {next : Token} :
    EndsOnce (tokens ++ next :: more) ↔
      (∀ token ∈ tokens, token.kind ≠ .endOfFile) ∧ EndsOnce (next :: more) := by
  induction tokens with
  | nil => simp
  | cons token tokens ih =>
    have hcons : EndsOnce (token :: (tokens ++ next :: more)) ↔
        token.kind ≠ .endOfFile ∧ EndsOnce (tokens ++ next :: more) := by
      cases tokens <;> rfl
    rw [List.cons_append, hcons, ih, List.forall_mem_cons, and_assoc]

/-! ## Bounds -/

namespace Reader

variable {α : Type} {s t u : ReaderState}

theorem run_accept (symbol : Symbol) (s : ReaderState) : (accept symbol).run s =
    if s.current.kind = .symbol symbol then (advance >>= fun _ => pure true).run s else .ok (false, s) := by
  show (if decide (s.current.kind = .symbol symbol) = true then _ else _ : Reader Bool).run s = _
  by_cases h : s.current.kind = .symbol symbol
  · rw [if_pos (decide_eq_true h), if_pos h]
  · rw [if_neg fun hd => h (of_decide_eq_true hd), if_neg h]
    rfl

/-- A token that is accepted is gone. -/
theorem ended_of_accept {symbol : Symbol} (hs : s.Ended)
    (h : (accept symbol).run s = .ok (true, t)) : t.Ended ∧ t.rest.length < s.rest.length := by
  rw [run_accept] at h
  split at h
  · rename_i hkind
    obtain ⟨⟨kind, place⟩, rest, loops, defined, depth⟩ := s
    cases hkind
    cases rest with
    | nil => cases hs
    | cons next more =>
      cases h
      exact ⟨hs.2, Nat.lt_succ_self _⟩
  · cases h

/-- An item leaves no more tokens than it finds. -/
def Shortens (item : Reader α) : Prop :=
  ∀ ⦃s a t⦄, s.Ended → item.run s = .ok (a, t) → t.Ended ∧ t.rest.length ≤ s.rest.length

theorem Plain.shortens {item : Reader α} (h : Plain item) : Shortens item := fun _ _ _ hs hrun =>
  have hfollows := (h.local (k := ⟨⟨.endOfFile, .start⟩, [], [], nofun⟩) hs hrun).1
  ⟨hfollows.ended, hfollows.length_le⟩

/-- Two readers do the same if they begin with the same and do the same behind it. -/
theorem run_bind_congr {β : Type} {x y : Reader α} {f g : α → Reader β} (hbegin : x.run s = y.run t)
    (h : ∀ a u, y.run t = .ok (a, u) → (f a).run u = (g a).run u) :
    (x >>= f).run s = (y >>= g).run t := by
  rw [StateT.run_bind, StateT.run_bind, hbegin]
  cases hrun : y.run t with
  | error e => rfl
  | ok r => exact h r.1 r.2 hrun

/-- A bound on the number of items that is above the number of tokens may be any other one. -/
theorem run_commaSeparatedUpTo_eq {item : Reader α} (hitem : Shortens item) {bound bound' : Nat}
    (hs : s.Ended) (h : s.rest.length < bound) (h' : s.rest.length < bound') :
    (commaSeparatedUpTo item bound).run s = (commaSeparatedUpTo item bound').run s := by
  induction bound generalizing bound' s with
  | zero => exact absurd h (Nat.not_lt_zero _)
  | succ bound ih =>
    obtain ⟨bound', rfl⟩ : ∃ b, bound' = b + 1 := ⟨bound' - 1, by omega⟩
    refine run_bind_congr rfl fun a t ht => run_bind_congr rfl fun another u hu => ?_
    obtain ⟨ht, hle⟩ := hitem hs ht
    cases another with
    | false => rfl
    | true =>
      obtain ⟨hu, hlt⟩ := ended_of_accept ht hu
      exact run_bind_congr (ih hu (by omega) (by omega)) fun _ _ _ => rfl

theorem shortens_functionDefinition {node : Node} (hs : s.Ended)
    (h : functionDefinition.run s = .ok (node, t)) : t.Ended ∧ t.rest.length < s.rest.length := by
  obtain ⟨_, -, ht, hlt, -⟩ :=
    functionDefinition_within ⟨⟨.endOfFile, .start⟩, [], [], nofun⟩ hs h
  exact ⟨ht, hlt⟩

/-- The same for functions. -/
theorem run_functionsUpTo_eq {bound bound' : Nat} (hs : s.Ended) (h : s.rest.length < bound)
    (h' : s.rest.length < bound') : (functionsUpTo bound).run s = (functionsUpTo bound').run s := by
  induction bound generalizing bound' s with
  | zero => exact absurd h (Nat.not_lt_zero _)
  | succ bound ih =>
    obtain ⟨bound', rfl⟩ : ∃ b, bound' = b + 1 := ⟨bound' - 1, by omega⟩
    rw [run_functionsUpTo, run_functionsUpTo]
    split
    · rfl
    · refine run_bind_congr rfl fun node t ht => ?_
      obtain ⟨ht, hlt⟩ := shortens_functionDefinition hs ht
      exact run_bind_congr (ih ht (by omega) (by omega)) fun _ _ _ => rfl

/-! ## Lists of parameters -/

theorem Takes.run_bind {β : Type} {x : Reader α} {kinds : List TokenKind} {a : α}
    {stop : TokenKind → Prop} {tokens more : List Token} {next : Token} (hx : Takes x kinds a stop)
    (htokens : tokens.map Token.kind = kinds) (hnext : stop next.kind) (f : α → Reader β)
    (s : ReaderState) :
    (x >>= f).run (s.facing (tokens ++ next :: more)) = (f a).run (s.facing (next :: more)) :=
  run_bind_of_ok (hx s tokens more next htokens hnext)

end Reader

open Reader

/-- What is written of a function in front of one of its parameters. -/
structure WrittenHead where
  returns : WrittenType
  name : String
  earlier : List WrittenParam
  stars_le : returns.stars ≤ maxNesting
  declarable : ∀ q ∈ earlier, q.Declarable

namespace WrittenHead

def opening (head : WrittenHead) : List TokenKind :=
  head.returns.kinds ++ [.identifier head.name, .symbol .leftParen]

/-- The tokens of the earlier parameters, each with the comma behind it. -/
def before (head : WrittenHead) : List TokenKind :=
  head.earlier.flatMap fun q => q.kinds ++ [.symbol .comma]

def params (head : WrittenHead) : List Param := head.earlier.map WrittenParam.param

end WrittenHead

/-- Neither the first token of a parameter nor the second one is a parenthesis. -/
theorem WrittenParam.exists_kinds_eq (p : WrittenParam) :
    ∃ first second rest, p.kinds = first :: second :: rest ∧
      first ≠ .symbol .rightParen ∧ second ≠ .symbol .rightParen := by
  obtain ⟨⟨isConst, base, stars⟩, name, shape⟩ := p
  cases isConst with
  | true => exact ⟨_, _, _, rfl, nofun, nofun⟩
  | false =>
    cases stars with
    | zero => exact ⟨_, _, _, rfl, nofun, nofun⟩
    | succ stars => exact ⟨_, _, _, rfl, nofun, nofun⟩

namespace WrittenHead

theorem length_earlier_le (head : WrittenHead) : head.earlier.length ≤ head.before.length := by
  unfold before
  induction head.earlier with
  | nil => exact Nat.le_refl _
  | cons q earlier ih =>
    simp only [List.flatMap_cons, List.length_append, List.length_cons, List.length_nil]
    omega

theorem exists_before_eq (head : WrittenHead) (p : WrittenParam) :
    ∃ first second rest, head.before ++ p.kinds = first :: second :: rest ∧
      first ≠ .symbol .rightParen ∧ second ≠ .symbol .rightParen := by
  unfold before
  cases head.earlier with
  | nil => exact p.exists_kinds_eq
  | cons q earlier =>
    obtain ⟨first, second, rest, hkinds, hfirst, hsecond⟩ := q.exists_kinds_eq
    rw [List.flatMap_cons, hkinds]
    exact ⟨first, second, _, rfl, hfirst, hsecond⟩

end WrittenHead

section

variable {head : WrittenHead} {p p' : WrittenParam} {opening tokens tokens' more : List Token}
  {next : Token}

/-- A list of parameters that is neither empty nor a lone `void`. -/
theorem run_parameters (s : ReaderState) (hfirst : s.current.kind ≠ .symbol .rightParen)
    (hsecond : ∀ token ∈ s.rest.head?, token.kind ≠ .symbol .rightParen) :
    parameters.run s = (commaSeparatedUpTo parameter (s.rest.length + 1)).run s := by
  have halone : (decide (s.current.kind = .keyword .void) &&
      s.rest.head?.any (·.kind = .symbol .rightParen)) = false := by
    rw [Bool.and_eq_false_iff]
    right
    cases hhead : s.rest.head? with
    | none => rfl
    | some token => exact decide_eq_false (hsecond token hhead)
  show (if decide (s.current.kind = .symbol .rightParen) = true then _ else _ : Reader _).run s = _
  rw [if_neg fun hd => hfirst (of_decide_eq_true hd)]
  show (if (_ && _) = true then _ else _ : Reader _).run s = _
  rw [halone]
  rfl

/-- Parameters with commas behind them are read one by one. -/
theorem run_commaSeparatedUpTo_earlier {earlier : List WrittenParam}
    (hearlier : ∀ q ∈ earlier, q.Declarable)
    (htokens : tokens.map Token.kind = earlier.flatMap fun q => q.kinds ++ [.symbol .comma])
    (bound : Nat) (s : ReaderState) :
    (commaSeparatedUpTo parameter (earlier.length + bound)).run (s.facing (tokens ++ next :: more)) =
      (commaSeparatedUpTo parameter bound >>= fun params =>
        pure (earlier.map WrittenParam.param ++ params)).run (s.facing (next :: more)) := by
  induction earlier generalizing tokens with
  | nil =>
    rw [List.map_eq_nil_iff.1 htokens, List.length_nil, Nat.zero_add, List.nil_append]
    simp only [List.map_nil, List.nil_append, bind_pure]
  | cons q earlier ih =>
    obtain ⟨hq, hearlier⟩ := List.forall_mem_cons.1 hearlier
    rw [List.flatMap_cons, List.append_assoc] at htokens
    obtain ⟨first, others, rfl, hfirst, hothers⟩ := List.map_eq_append_iff.1 htokens
    obtain ⟨comma, rest, rfl, hcomma, hrest⟩ := List.map_eq_cons_iff.1 hothers
    obtain ⟨token, behind, hbehind⟩ : ∃ token behind, rest ++ next :: more = token :: behind :=
      List.exists_cons_of_ne_nil (List.append_ne_nil_of_right_ne_nil _ (List.cons_ne_nil _ _))
    have hcommas : Takes (accept .comma) [.symbol .comma] true fun _ => True := takes_acceptKind nofun
    have hsingle : [comma].map Token.kind = [.symbol .comma] := congrArg (· :: []) hcomma
    rw [List.length_cons, Nat.add_right_comm, commaSeparatedUpTo, List.append_assoc, List.cons_append,
      (takes_parameter hq).run_bind hfirst (hcomma ▸ nofun), hbehind]
    refine (hcommas.run_bind hsingle trivial _ s).trans ?_
    rw [if_pos rfl, ← hbehind, StateT.run_bind, ih hearlier hrest]
    simp only [StateT.run_bind, bind_assoc]
    rfl

/-- Between the parentheses there are parameters, and neither nothing nor `void` alone. -/
theorem run_parameters_written (htokens : tokens.map Token.kind = head.before ++ p.kinds)
    (s : ReaderState) : parameters.run (s.facing (tokens ++ next :: more)) =
      (commaSeparatedUpTo parameter (tokens.length + more.length + 1)).run
        (s.facing (tokens ++ next :: more)) := by
  obtain ⟨_, _, others, hkinds, hfirst, hsecond⟩ := head.exists_before_eq p
  obtain ⟨token, behind, rfl, rfl, hbehind⟩ := List.map_eq_cons_iff.1 (htokens.trans hkinds)
  obtain ⟨token', rest, rfl, rfl, -⟩ := List.map_eq_cons_iff.1 hbehind
  have hcount : (token :: token' :: rest).length + more.length + 1 =
      (token' :: (rest ++ next :: more)).length + 1 := by
    simp only [List.length_cons, List.length_append]
    omega
  rw [hcount]
  refine run_parameters _ hfirst fun t ht => ?_
  obtain rfl := Option.some.inj ht
  exact hsecond

/-- The last of the parameters that are known declares what it declares, however it is written. -/
theorem exists_run_parameters (hp : p.Declarable)
    (htokens : tokens.map Token.kind = head.before ++ p.kinds)
    (hnext : next.kind ≠ .symbol .leftBracket) (s : ReaderState) :
    ∃ bound, more.length < bound ∧ parameters.run (s.facing (tokens ++ next :: more)) =
      (accept .comma >>= fun another =>
        if another then commaSeparatedUpTo parameter bound >>= fun params =>
          pure (head.params ++ p.param :: params)
        else pure (head.params ++ [p.param])).run (s.facing (next :: more)) := by
  obtain ⟨before, own, rfl, hbefore, hown⟩ := List.map_eq_append_iff.1 htokens
  have hearlier : head.earlier.length ≤ before.length := by
    rw [← List.length_map Token.kind, hbefore]
    exact head.length_earlier_le
  have hne : 0 < own.length := by
    obtain ⟨_, _, _, hkinds, -⟩ := p.exists_kinds_eq
    rw [← List.length_map Token.kind, hown, hkinds]
    exact Nat.succ_pos _
  obtain ⟨bound, hbound⟩ : ∃ bound,
      (before ++ own).length + more.length + 1 = head.earlier.length + (bound + 1) :=
    ⟨(before ++ own).length + more.length - head.earlier.length, by rw [List.length_append]; omega⟩
  rw [List.length_append] at hbound
  refine ⟨bound, by omega, ?_⟩
  obtain ⟨token, behind, hbehind⟩ : ∃ token behind, own ++ next :: more = token :: behind :=
    List.exists_cons_of_ne_nil (List.append_ne_nil_of_right_ne_nil _ (List.cons_ne_nil _ _))
  rw [run_parameters_written htokens, List.length_append, hbound, List.append_assoc, hbehind,
    run_commaSeparatedUpTo_earlier head.declarable hbefore, ← hbehind, commaSeparatedUpTo, bind_assoc,
    (takes_parameter hp).run_bind hown hnext, bind_assoc]
  refine run_bind_congr rfl fun another t ht => ?_
  cases another with
  | true =>
    show ((_ >>= fun params => pure (p.param :: params)) >>= _ : Reader _).run t = _
    rw [bind_assoc]
    rfl
  | false => rfl

/-- How the last of the parameters that are known is written does not matter. -/
theorem run_parameters_rewritten (hp : p.Declarable) (hp' : p'.Declarable) (hparam : p'.param = p.param)
    (htokens : tokens.map Token.kind = head.before ++ p.kinds)
    (htokens' : tokens'.map Token.kind = head.before ++ p'.kinds)
    (hends : EndsOnce (next :: more)) (hnext : next.kind ≠ .symbol .leftBracket) (s : ReaderState) :
    parameters.run (s.facing (tokens' ++ next :: more)) =
      parameters.run (s.facing (tokens ++ next :: more)) := by
  obtain ⟨bound, hbound, hrun⟩ := exists_run_parameters hp htokens hnext s
  obtain ⟨bound', hbound', hrun'⟩ := exists_run_parameters hp' htokens' hnext s
  rw [hrun, hrun', hparam]
  refine run_bind_congr rfl fun another t ht => ?_
  cases another with
  | false => rfl
  | true =>
    have hstart : (s.facing (next :: more)).Ended := hends
    obtain ⟨ht, hlt⟩ := ended_of_accept hstart ht
    have hlt : t.rest.length < more.length := hlt
    have hmore : (commaSeparatedUpTo parameter bound').run t =
        (commaSeparatedUpTo parameter bound).run t :=
      run_commaSeparatedUpTo_eq plain_parameter.shortens ht (by omega) (by omega)
    exact run_bind_congr hmore fun _ _ _ => rfl

/-! ## Functions and programs -/

/-- A function is the same if a parameter of it is written in another way. -/
theorem functionDefinition_rewritten (hopening : opening.map Token.kind = head.opening)
    (hp : p.Declarable) (hp' : p'.Declarable) (hparam : p'.param = p.param)
    (htokens : tokens.map Token.kind = head.before ++ p.kinds)
    (htokens' : tokens'.map Token.kind = head.before ++ p'.kinds)
    (hends : EndsOnce (next :: more)) (hnext : next.kind ≠ .symbol .leftBracket) (s : ReaderState) :
    functionDefinition.run (s.facing (opening ++ (tokens' ++ next :: more))) =
      functionDefinition.run (s.facing (opening ++ (tokens ++ next :: more))) := by
  obtain ⟨spec, others, rfl, hspec, hothers⟩ := List.map_eq_append_iff.1 hopening
  obtain ⟨⟨_, place⟩, last, rfl, rfl, hlast⟩ := List.map_eq_cons_iff.1 hothers
  obtain ⟨paren, _, rfl, hparen, hnil⟩ := List.map_eq_cons_iff.1 hlast
  obtain rfl := List.map_eq_nil_iff.1 hnil
  have hname (behind : List Token) : functionDefinition.run
        (s.facing (spec ++ [⟨.identifier head.name, place⟩, paren] ++ behind)) =
      (define head.name place >>= fun _ =>
        functionBehindName head.returns.type head.name place).run (s.facing (paren :: behind)) := by
    have hstop : TokenKind.identifier head.name ≠ .symbol .star := nofun
    rw [functionDefinition_eq, List.append_assoc]
    exact (takes_typeSpecifier head.stars_le).run_bind hspec hstop _ s
  have hopen (t : ReaderState) {β : Type} (f : Unit → Reader β) (behind : List Token)
      (hbehind : behind ≠ []) : (expect .leftParen "after function name" >>= f).run
        (t.facing (paren :: behind)) = (f ()).run (t.facing behind) := by
    obtain ⟨token, rest, rfl⟩ := List.exists_cons_of_ne_nil hbehind
    have hsingle : [paren].map Token.kind = [.symbol .leftParen] := congrArg (· :: []) hparen
    exact (takes_expect _ _).run_bind hsingle trivial f t
  have hrest (t : ReaderState) : (functionBehindName head.returns.type head.name place).run
        (t.facing (paren :: (tokens' ++ next :: more))) =
      (functionBehindName head.returns.type head.name place).run
        (t.facing (paren :: (tokens ++ next :: more))) := by
    have hne (ts : List Token) : ts ++ next :: more ≠ [] :=
      List.append_ne_nil_of_right_ne_nil _ (List.cons_ne_nil _ _)
    unfold functionBehindName
    rw [hopen t _ _ (hne tokens'), hopen t _ _ (hne tokens)]
    exact run_bind_congr (run_parameters_rewritten hp hp' hparam htokens htokens' hends hnext t)
      fun _ _ _ => rfl
  rw [hname, hname, StateT.run_bind, StateT.run_bind, run_define, run_define]
  show Except.bind (if head.name ∈ s.defined then _ else _) _ =
    Except.bind (if head.name ∈ s.defined then _ else _) _
  split
  · rfl
  · exact hrest { s with defined := head.name :: s.defined }

theorem WrittenHead.exists_opening_eq (head : WrittenHead) : ∃ kind rest,
    head.opening = kind :: rest ∧ kind ≠ .symbol .rightParen ∧ kind ≠ .endOfFile := by
  obtain ⟨⟨isConst, base, stars⟩, name, earlier, stars_le, declarable⟩ := head
  cases isConst <;> exact ⟨_, _, rfl, nofun, nofun⟩

/-- Functions are the same if a parameter of the first one is written in another way. -/
theorem functionsUpTo_rewritten (hopening : opening.map Token.kind = head.opening)
    (hp : p.Declarable) (hp' : p'.Declarable) (hparam : p'.param = p.param)
    (htokens : tokens.map Token.kind = head.before ++ p.kinds)
    (htokens' : tokens'.map Token.kind = head.before ++ p'.kinds)
    (hends : EndsOnce (opening ++ (tokens ++ next :: more)))
    (hends' : EndsOnce (opening ++ (tokens' ++ next :: more)))
    (hnext : next.kind ≠ .symbol .leftBracket) {bound bound' : Nat}
    (hbound : (opening ++ (tokens ++ next :: more)).length < bound)
    (hbound' : (opening ++ (tokens' ++ next :: more)).length < bound') (s : ReaderState) :
    (functionsUpTo bound').run (s.facing (opening ++ (tokens' ++ next :: more))) =
      (functionsUpTo bound).run (s.facing (opening ++ (tokens ++ next :: more))) := by
  have hmore : EndsOnce (next :: more) := by
    rw [← List.append_assoc] at hends
    exact (endsOnce_append_iff.1 hends).2
  have hdefinition := functionDefinition_rewritten hopening hp hp' hparam htokens htokens' hmore hnext s
  obtain ⟨kind, others, hkinds, -, hkind⟩ := head.exists_opening_eq
  obtain ⟨first, behind, rfl, rfl, -⟩ := List.map_eq_cons_iff.1 (hopening.trans hkinds)
  obtain ⟨bound, rfl⟩ : ∃ b, bound = b + 1 := ⟨bound - 1, by omega⟩
  obtain ⟨bound', rfl⟩ : ∃ b, bound' = b + 1 := ⟨bound' - 1, by omega⟩
  have hstart (ts : List Token) :
      (s.facing ((first :: behind) ++ (ts ++ next :: more))).current.kind ≠ .endOfFile := hkind
  rw [run_functionsUpTo, run_functionsUpTo, if_neg (hstart tokens'), if_neg (hstart tokens)]
  refine run_bind_congr hdefinition fun node t ht => ?_
  have hstate : (s.facing ((first :: behind) ++ (tokens ++ next :: more))).Ended := hends
  have hstate' : (s.facing ((first :: behind) ++ (tokens' ++ next :: more))).Ended := hends'
  obtain ⟨hended, hlt⟩ := shortens_functionDefinition hstate ht
  obtain ⟨-, hlt'⟩ := shortens_functionDefinition hstate' (hdefinition.trans ht)
  have hlt : t.rest.length < (behind ++ (tokens ++ next :: more)).length := hlt
  have hlt' : t.rest.length < (behind ++ (tokens' ++ next :: more)).length := hlt'
  rw [List.cons_append, List.length_cons] at hbound hbound'
  have hfunctions : (functionsUpTo bound').run t = (functionsUpTo bound).run t :=
    run_functionsUpTo_eq hended (by omega) (by omega)
  exact run_bind_congr hfunctions fun _ _ _ => rfl

/-- A program is the same if a parameter of one of its functions is written in another way. -/
theorem ofTokens_rewritten {front : List Token} {last : Token} {bound : Nat} {nodes : List Node}
    {t : ReaderState} (hfront : EndsOnce (front ++ [last]))
    (h : (functionsUpTo bound).run (.ofTokens (front ++ [last])) = .ok (nodes, t))
    (hopening : opening.map Token.kind = head.opening)
    (hp : p.Declarable) (hp' : p'.Declarable) (hparam : p'.param = p.param)
    (htokens : tokens.map Token.kind = head.before ++ p.kinds)
    (htokens' : tokens'.map Token.kind = head.before ++ p'.kinds)
    (hends : EndsOnce (opening ++ (tokens ++ next :: more)))
    (hends' : EndsOnce (opening ++ (tokens' ++ next :: more)))
    (hnext : next.kind ≠ .symbol .leftBracket) :
    Program.ofTokens (front ++ (opening ++ (tokens' ++ next :: more))) =
      Program.ofTokens (front ++ (opening ++ (tokens ++ next :: more))) := by
  obtain ⟨-, -, hlength, -⟩ := functionsUpTo_ends (ended_ofTokens hfront) h
  rw [length_rest_ofTokens] at hlength
  have hread (ts : List Token) : ∃ left, (opening ++ (ts ++ next :: more)).length < left ∧
      (functionsUpTo ((front ++ (opening ++ (ts ++ next :: more))).length + 1)).run
        (.ofTokens (front ++ (opening ++ (ts ++ next :: more)))) =
      (functionsUpTo left >>= fun others => pure (nodes ++ others)).run
        ((⟨last, [], 0, (namesOf nodes).reverse, 0⟩ : ReaderState).facing
          (opening ++ (ts ++ next :: more))) := by
    obtain ⟨kind, others, hkinds, hkind, -⟩ := head.exists_opening_eq
    obtain ⟨first, behind, rfl, rfl, -⟩ := List.map_eq_cons_iff.1 (hopening.trans hkinds)
    obtain ⟨left, hleft⟩ := Nat.exists_eq_add_of_le hlength
    refine ⟨left + ((first :: behind) ++ (ts ++ next :: more)).length + 1, by omega, ?_⟩
    rw [List.length_append, hleft, Nat.add_assoc, Nat.add_assoc, ← Nat.add_assoc left]
    exact run_functionsUpTo_behind hfront h hkind _
  obtain ⟨left, hleft, hrun⟩ := hread tokens
  obtain ⟨left', hleft', hrun'⟩ := hread tokens'
  unfold Program.ofTokens
  rw [hrun, hrun', StateT.run_bind, StateT.run_bind,
    functionsUpTo_rewritten hopening hp hp' hparam htokens htokens' hends hends' hnext hleft hleft']

end

end BoundedC
