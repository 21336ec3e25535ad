import BoundedC.Proofs.Grammar

/-!
# Where a reader leads

A judgement about readers, with one rule for each way of putting readers together. `Reader.Leads E
depth input x Q` is about `x` before the tokens `input`, among which there is the end of the text, and
inside so many levels: if it reads a value, then `Q` holds of the value, of the depth behind it and of
the tokens that are left; if it stops, then `E` holds of the fault.

* `Leads.bind`, `leads_peek_bind`, `leads_advance_bind`, … : the rules;
* `Yields` : the postcondition that names the value and what is left.
-/

namespace BoundedC

/-- The end of the text is among the tokens. -/
def Ends (tokens : List Token) : Prop := ∃ token ∈ tokens, token.kind = .endOfFile

theorem Ends.tail {kind : TokenKind} {place : Location} {rest : List Token}
    (h : Ends (⟨kind, place⟩ :: rest)) (hkind : kind ≠ .endOfFile) : Ends rest := by
  obtain ⟨token, hmem, hend⟩ := h
  rcases List.mem_cons.1 hmem with rfl | hmem
  · exact absurd hend hkind
  · exact ⟨token, hmem, hend⟩

namespace ReaderState

/-- What the reader has before it. -/
def tokens (s : ReaderState) : List Token := s.current :: s.rest

end ReaderState

namespace Reader

variable {α β : Type} {E : ParseFault → Prop} {depth : Nat} {input : List Token}
  {Q : α → Nat → List Token → Prop} {R : β → Nat → List Token → Prop}

/-- Where the reader leads from the given depth and tokens: to a value, a depth and tokens of which
`Q` holds, or to a fault of which `E` holds. -/
def Leads (E : ParseFault → Prop) (depth : Nat) (input : List Token) (x : Reader α)
    (Q : α → Nat → List Token → Prop) : Prop :=
  ∀ s : ReaderState, s.depth = depth → s.tokens = input → Ends input →
    match x.run s with
    | .ok (a, t) => Q a t.depth t.tokens ∧ Ends t.tokens
    | .error e => E e.fault

/-- The value, and where the reader goes on. -/
def Yields (value? : Option α) (depth : Nat) (rest : List Token) : α → Nat → List Token → Prop :=
  fun a d r => value? = some a ∧ d = depth ∧ r = rest

theorem yields_some (a : α) (depth : Nat) (rest : List Token) :
    Yields (some a) depth rest a depth rest := ⟨rfl, rfl, rfl⟩

/-! ## Rules -/

theorem leads_pure {a : α} (h : Q a depth input) : Leads E depth input (pure a) Q := by
  rintro s rfl rfl hends
  exact ⟨h, hends⟩

theorem leads_fail {fault : ParseFault} (place : Location) (h : E fault) :
    Leads E depth input (fail fault place) Q := fun _ _ _ _ => h

/-- A reader that stops reads nothing. -/
theorem leads_fail_bind {fault : ParseFault} (place : Location) {f : α → Reader β} (h : E fault) :
    Leads E depth input (fail fault place >>= f) R := fun _ _ _ _ => h

theorem Leads.bind {x : Reader α} {f : α → Reader β} (hx : Leads E depth input x Q)
    (hf : ∀ a d r, Q a d r → Leads E d r (f a) R) : Leads E depth input (x >>= f) R := by
  intro s hdepth htokens hends
  have hfirst := hx s hdepth htokens hends
  rw [StateT.run_bind]
  cases hrun : x.run s with
  | error e =>
    rw [hrun] at hfirst
    exact hfirst
  | ok r =>
    rw [hrun] at hfirst
    exact hf r.1 _ _ hfirst.1 r.2 rfl rfl hfirst.2

/-- A value that is known is read before. -/
theorem Leads.after {x : Reader α} {f : α → Reader β} {value? : Option α} {d : Nat}
    {rest : List Token} (hx : Leads E depth input x (Yields value? d rest))
    (hf : ∀ a, value? = some a → Leads E d rest (f a) R) : Leads E depth input (x >>= f) R := by
  refine hx.bind ?_
  rintro a _ _ ⟨ha, rfl, rfl⟩
  exact hf a ha

theorem Leads.imp {E' : ParseFault → Prop} {Q' : α → Nat → List Token → Prop} {x : Reader α}
    (hx : Leads E depth input x Q) (hE : ∀ fault, E fault → E' fault)
    (hQ : ∀ a d r, Q a d r → Q' a d r) : Leads E' depth input x Q' := by
  intro s hdepth htokens hends
  have h := hx s hdepth htokens hends
  cases hrun : x.run s with
  | error e =>
    rw [hrun] at h
    exact hE _ h
  | ok r =>
    rw [hrun] at h
    exact ⟨hQ _ _ _ h.1, h.2⟩

theorem Leads.map_bind {γ : Type} {x : Reader γ} {g : γ → α} {f : α → Reader β}
    {P : γ → Nat → List Token → Prop} (hx : Leads E depth input x P)
    (hf : ∀ a d r, P a d r → Leads E d r (f (g a)) R) :
    Leads E depth input (g <$> x >>= f) R := by
  rw [bind_map_left]
  exact hx.bind hf

theorem Leads.map {x : Reader α} {f : α → β} (hx : Leads E depth input x Q)
    (hf : ∀ a d r, Q a d r → R (f a) d r) : Leads E depth input (f <$> x) R := by
  rw [map_eq_pure_bind]
  exact hx.bind fun a d r h => leads_pure (hf a d r h)

/-! ## Tokens -/

theorem leads_get_bind {f : ReaderState → Reader α}
    (hf : ∀ s, s.depth = depth → s.tokens = input → Leads E depth input (f s) Q) :
    Leads E depth input (get >>= f) Q :=
  fun s hdepth htokens hends => hf s hdepth htokens s hdepth htokens hends

theorem leads_modify_bind {g : ReaderState → ReaderState} {f : Unit → Reader α}
    (hdepth : ∀ s, (g s).depth = s.depth) (htokens : ∀ s, (g s).tokens = s.tokens)
    (hf : Leads E depth input (f ()) Q) : Leads E depth input (modify g >>= f) Q :=
  fun s hd ht hends => hf (g s) ((hdepth s).trans hd) ((htokens s).trans ht) hends

/-- There is always a next token. -/
theorem leads_of_cons {x : Reader α}
    (hx : ∀ kind place rest, input = ⟨kind, place⟩ :: rest → Leads E depth input x Q) :
    Leads E depth input x Q :=
  fun s hdepth htokens hends =>
    hx s.current.kind s.current.place s.rest htokens.symm s hdepth htokens hends

theorem leads_peek_bind {f : Token → Reader α}
    (hf : ∀ kind place rest, input = ⟨kind, place⟩ :: rest →
      Leads E depth input (f ⟨kind, place⟩) Q) :
    Leads E depth input (peek >>= f) Q :=
  leads_get_bind fun s _ htokens => hf s.current.kind s.current.place s.rest htokens.symm

/-- The next token is known. -/
theorem leads_peek_cons {f : Token → Reader α} {kind : TokenKind} {place : Location}
    {rest : List Token} (hf : Leads E depth (⟨kind, place⟩ :: rest) (f ⟨kind, place⟩) Q) :
    Leads E depth (⟨kind, place⟩ :: rest) (peek >>= f) Q := by
  refine leads_peek_bind ?_
  rintro _ _ _ ⟨⟩
  exact hf

theorem leads_outOfBudget (h : E .outOfBudget) : Leads E depth input outOfBudget Q :=
  leads_peek_bind fun _ place _ _ => leads_fail place h

theorem leads_typeIsNext_bind {f : Bool → Reader α} {kind : TokenKind} {place : Location}
    {rest : List Token} (hf : Leads E depth (⟨kind, place⟩ :: rest) (f (startsType kind)) Q) :
    Leads E depth (⟨kind, place⟩ :: rest) (typeIsNext >>= f) Q := by
  unfold typeIsNext
  rw [bind_assoc]
  exact leads_peek_cons hf

theorem leads_advance_bind {f : Unit → Reader α} {kind : TokenKind} {place : Location}
    {rest : List Token} (hkind : kind ≠ .endOfFile) (hf : Leads E depth rest (f ()) Q) :
    Leads E depth (⟨kind, place⟩ :: rest) (advance >>= f) Q := by
  rintro ⟨current, tokens, loops, defined, d⟩ rfl htokens hends
  cases htokens
  have hrest := hends.tail hkind
  cases tokens with
  | nil =>
    obtain ⟨_, hmem, -⟩ := hrest
    cases hmem
  | cons next tokens =>
    have hmoved : advance.run ⟨⟨kind, place⟩, next :: tokens, loops, defined, d⟩ =
        .ok ((), ⟨next, tokens, loops, defined, d⟩) := by
      show Except.ok ((), if kind = .endOfFile then _ else _) = _
      rw [if_neg hkind]
    rw [StateT.run_bind, hmoved]
    exact hf ⟨next, tokens, loops, defined, d⟩ rfl rfl hrest

/-- The symbol is taken if it is next. -/
theorem leads_symbol_bind {s : Symbol} {f : Token → Reader α} {x : Reader α} {kind : TokenKind}
    {place : Location} {rest : List Token}
    (htrue : kind = .symbol s → Leads E depth rest (f ⟨kind, place⟩) Q)
    (hfalse : kind ≠ .symbol s → Leads E depth (⟨kind, place⟩ :: rest) x Q) :
    Leads E depth (⟨kind, place⟩ :: rest)
      (peek >>= fun token => if token.kind = .symbol s then advance >>= fun _ => f token else x) Q := by
  refine leads_peek_cons ?_
  dsimp only
  split
  · rename_i hkind
    exact leads_advance_bind (hkind ▸ nofun) (htrue hkind)
  · rename_i hkind
    exact hfalse hkind

theorem leads_isNext_bind {kind : TokenKind} {f : Bool → Reader α} {other : TokenKind}
    {place : Location} {rest : List Token}
    (htrue : other = kind → Leads E depth (⟨other, place⟩ :: rest) (f true) Q)
    (hfalse : other ≠ kind → Leads E depth (⟨other, place⟩ :: rest) (f false) Q) :
    Leads E depth (⟨other, place⟩ :: rest) (isNext kind >>= f) Q := by
  unfold isNext
  rw [bind_assoc]
  refine leads_peek_cons ?_
  rw [pure_bind]
  by_cases h : other = kind
  · rw [decide_eq_true h]
    exact htrue h
  · rw [decide_eq_false h]
    exact hfalse h

theorem leads_acceptKind_bind {kind : TokenKind} {f : Bool → Reader α} {other : TokenKind}
    {place : Location} {rest : List Token} (hkind : kind ≠ .endOfFile)
    (htrue : other = kind → Leads E depth rest (f true) Q)
    (hfalse : other ≠ kind → Leads E depth (⟨other, place⟩ :: rest) (f false) Q) :
    Leads E depth (⟨other, place⟩ :: rest) (acceptKind kind >>= f) Q := by
  unfold acceptKind
  rw [bind_assoc]
  refine leads_isNext_bind (fun h => ?_) hfalse
  rw [if_pos rfl, bind_assoc]
  exact leads_advance_bind (h ▸ hkind) (htrue h)

theorem leads_accept_bind {s : Symbol} {f : Bool → Reader α} {kind : TokenKind} {place : Location}
    {rest : List Token} (htrue : kind = .symbol s → Leads E depth rest (f true) Q)
    (hfalse : kind ≠ .symbol s → Leads E depth (⟨kind, place⟩ :: rest) (f false) Q) :
    Leads E depth (⟨kind, place⟩ :: rest) (accept s >>= f) Q :=
  leads_acceptKind_bind nofun htrue hfalse

theorem leads_acceptWord_bind {w : Keyword} {f : Bool → Reader α} {kind : TokenKind}
    {place : Location} {rest : List Token}
    (htrue : kind = .keyword w → Leads E depth rest (f true) Q)
    (hfalse : kind ≠ .keyword w → Leads E depth (⟨kind, place⟩ :: rest) (f false) Q) :
    Leads E depth (⟨kind, place⟩ :: rest) (acceptWord w >>= f) Q :=
  leads_acceptKind_bind nofun htrue hfalse

theorem leads_expect_bind {s : Symbol} {context : String} {f : Unit → Reader α} {kind : TokenKind}
    {place : Location} {rest : List Token}
    (hfound : kind = .symbol s → Leads E depth rest (f ()) Q)
    (hmissing : kind ≠ .symbol s → E (.missingSymbol s context kind)) :
    Leads E depth (⟨kind, place⟩ :: rest) (expect s context >>= f) Q := by
  unfold expect
  rw [bind_assoc]
  refine leads_peek_cons ?_
  dsimp only
  split
  · rename_i hkind
    exact leads_advance_bind (hkind ▸ nofun) (hfound hkind)
  · rename_i hkind
    exact leads_fail_bind place (hmissing hkind)

/-- The symbol is next. -/
theorem leads_expect_cons {s : Symbol} {context : String} {f : Unit → Reader α} {place : Location}
    {rest : List Token} (hf : Leads E depth rest (f ()) Q) :
    Leads E depth (⟨.symbol s, place⟩ :: rest) (expect s context >>= f) Q :=
  leads_expect_bind (fun _ => hf) fun h => absurd rfl h

/-- The identifier is next. -/
theorem leads_identifier_cons {name : String} {f : String × Location → Reader α} {place : Location}
    {rest : List Token} (hf : Leads E depth rest (f (name, place)) Q) :
    Leads E depth (⟨.identifier name, place⟩ :: rest) (identifier >>= f) Q := by
  unfold identifier
  rw [bind_assoc]
  refine leads_peek_cons ?_
  dsimp only
  rw [bind_assoc]
  exact leads_advance_bind nofun hf

theorem leads_itemBound_bind {f : Nat → Reader α} (hf : Leads E depth input (f input.length) Q) :
    Leads E depth input (itemBound >>= f) Q := by
  refine leads_get_bind fun s _ htokens => ?_
  have hlength : s.rest.length + 1 = input.length := congrArg List.length htokens
  rw [hlength]
  exact hf

/-- Whether the parentheses hold nothing but `void` is seen from two tokens. -/
theorem leads_voidIsAlone_bind {f : Bool → Reader α}
    (htrue : ∀ l r rest, input = ⟨.keyword .void, l⟩ :: ⟨.symbol .rightParen, r⟩ :: rest →
      Leads E depth input (f true) Q)
    (hfalse : (∀ l r rest, input ≠ ⟨.keyword .void, l⟩ :: ⟨.symbol .rightParen, r⟩ :: rest) →
      Leads E depth input (f false) Q) :
    Leads E depth input (voidIsAlone >>= f) Q := by
  refine leads_get_bind ?_
  rintro ⟨⟨kind, place⟩, tokens, loops, defined, d⟩ - rfl
  by_cases h : ∃ l r rest, (⟨kind, place⟩ :: tokens : List Token) =
      ⟨.keyword .void, l⟩ :: ⟨.symbol .rightParen, r⟩ :: rest
  · obtain ⟨l, r, rest, heq⟩ := h
    cases heq
    exact htrue place r rest rfl
  · have hanswer : (decide (kind = .keyword .void) &&
        tokens.head?.any (·.kind = .symbol .rightParen)) = false := by
      rw [Bool.eq_false_iff]
      intro hboth
      obtain ⟨hvoid, hclose⟩ := Bool.and_eq_true_iff.1 hboth
      cases tokens with
      | nil => cases hclose
      | cons next rest =>
        have hvoid := of_decide_eq_true hvoid
        have hclose : next.kind = .symbol .rightParen := by simpa using hclose
        refine h ⟨place, next.place, rest, ?_⟩
        rw [hvoid, ← hclose]
    show Leads E depth _ (f (decide (kind = .keyword .void) && _)) Q
    rw [hanswer]
    exact hfalse fun l r rest heq => h ⟨l, r, rest, heq⟩

theorem leads_define_bind {name : String} {place : Location} {f : Unit → Reader α}
    (hdefined : E (.duplicateFunction name)) (hf : Leads E depth input (f ()) Q) :
    Leads E depth input (define name place >>= f) Q := by
  unfold define
  rw [bind_assoc]
  refine leads_get_bind fun s _ _ => ?_
  split
  · exact leads_fail_bind place hdefined
  · exact leads_modify_bind (fun _ => rfl) (fun _ => rfl) hf

/-! ## Types -/

/-- A type in front of a name, behind `const` if there is one. -/
def typeBehindConst (isConst : Bool) : Reader (CType × Bool) := do
  let token ← peek
  match baseType? token.kind with
  | none => fail (.missingType token.kind) token.place
  | some base =>
    advance
    let t ← pointersTo base maxNesting
    return (t, isConst && !t.isPointer)

theorem typeSpecifier_eq : typeSpecifier = acceptWord .const >>= typeBehindConst := rfl

/-! ## Levels -/

/-- A level is entered unless it is one too many. -/
theorem leads_descend_bind {f : Unit → Reader α} (hdeep : E .tooDeep)
    (hf : depth < maxNesting → Leads E (depth + 1) input (f ()) Q) :
    Leads E depth input (descend >>= f) Q := by
  rintro s rfl rfl hends
  have hrun : descend.run s = if s.depth ≥ maxNesting then .error ⟨.tooDeep, s.current.place⟩
      else .ok ((), { s with depth := s.depth + 1 }) := by
    show (if s.depth ≥ maxNesting then _ else _ : Reader Unit).run s = _
    split <;> rfl
  rw [StateT.run_bind, hrun]
  by_cases h : s.depth ≥ maxNesting
  · rw [if_pos h]
    exact hdeep
  · rw [if_neg h]
    exact hf (Nat.lt_of_not_le h) { s with depth := s.depth + 1 } rfl rfl hends

theorem leads_ascend_bind {levels : Nat} {f : Unit → Reader α}
    (hf : Leads E (depth - levels) input (f ()) Q) :
    Leads E depth input (ascend levels >>= f) Q := by
  rintro s rfl rfl hends
  exact hf { s with depth := s.depth - levels } rfl rfl hends

theorem leads_nested {x : Reader α} (hdeep : E .tooDeep)
    (hx : depth < maxNesting → Leads E (depth + 1) input x fun a d r => Q a (d - 1) r) :
    Leads E depth input (nested x) Q :=
  leads_descend_bind hdeep fun hlt => (hx hlt).bind fun _ _ _ h => leads_ascend_bind (leads_pure h)

/-! ## Static checks

The readers that check something and read no token. `hE` says that a reader may stop at any check. -/

section Checks

variable (hE : ∀ fault, fault.isStaticCheck = true → E fault)

include hE

theorem leads_arrayOf (element : CType) (length : Nat) (place : Location) :
    Leads E depth input (arrayOf element length place)
      (Yields (some (.array element length)) depth input) := by
  unfold arrayOf
  dsimp only
  split
  · split
    · exact leads_pure (yields_some _ _ _)
    · exact leads_fail place (hE _ rfl)
  · exact leads_fail place (hE _ rfl)

theorem leads_arrayType (base : CType) (place : Location) (dims : List Dimension) :
    Leads E depth input (arrayType base place dims) (Yields (base.withDimensions? dims) depth input) := by
  induction dims with
  | nil => exact leads_pure (yields_some _ _ _)
  | cons dimension inner ih =>
    refine ih.after fun element helement => ?_
    cases dimension with
    | none => exact leads_fail place (hE _ rfl)
    | some length =>
      have htype : base.withDimensions? (some length :: inner) = some (.array element length) := by
        rw [CType.withDimensions?, helement]
        rfl
      rw [htype]
      exact leads_arrayOf hE element length place

theorem leads_inferredLength (element : CType) (init : Option Node) (place : Location) :
    Leads E depth input (inferredLength element init place)
      (Yields (inferredLength? element init) depth input) := by
  unfold inferredLength
  split
  · exact leads_fail place (hE _ rfl)
  · exact leads_fail place (hE _ rfl)
  · rename_i length hlength
    exact leads_pure ⟨hlength, rfl, rfl⟩

theorem leads_variableType (base : CType) (dims : List Dimension) (init : Option Node)
    (place : Location) :
    Leads E depth input (variableType base dims init place)
      (Yields (base.declared? dims init) depth input) := by
  cases dims with
  | nil => exact leads_pure (yields_some _ _ _)
  | cons outer inner =>
    refine (leads_arrayType hE base place inner).after fun element helement => ?_
    have htype {length : Nat} (h : (outer <|> inferredLength? element init) = some length) :
        base.declared? (outer :: inner) init = some (.array element length) := by
      unfold CType.declared?
      dsimp only
      rw [helement]
      show (do let length ← outer <|> inferredLength? element init; pure (CType.array element length)) = _
      rw [h]
      rfl
    cases outer with
    | some length =>
      rw [htype rfl]
      exact leads_arrayOf hE element length place
    | none =>
      refine (leads_inferredLength hE element init place).after fun length hlength => ?_
      rw [htype hlength]
      exact leads_arrayOf hE element length place

theorem leads_parameterType (base : CType) (dims : List Dimension) (place : Location) :
    Leads E depth input (parameterType base dims place) (Yields (base.parameter? dims) depth input) := by
  cases dims with
  | nil => exact leads_pure (yields_some _ _ _)
  | cons outer inner =>
    refine (leads_arrayType hE base place inner).map ?_
    rintro element _ _ ⟨helement, rfl, rfl⟩
    exact ⟨congrArg (Option.map CType.pointer) helement, rfl, rfl⟩

theorem leads_stepNode (place : Location) (op : StepOp) (node : Node) :
    Leads E depth input (stepNode place op node)
      (Yields (some (.step place op node)) depth input) := by
  unfold stepNode
  split
  · exact leads_pure (yields_some _ _ _)
  · exact leads_fail_bind _ (hE _ rfl)

end Checks

end Reader

end BoundedC
