import BoundedC.Proofs.Callers

/-!
# How a job changes the state

Seen from its buffers and calls, a job either adds to the state (`Gains`) or takes away from it
(`Losses`): it changes the call in progress, opens a scope or begins a call; or it closes scopes or
ends a call.

* `Gains.openScopes`, `Losses.openScopes` : the open scopes of all calls form a stack, of which at
  most the top is changed.
-/

namespace BoundedC

/-- A change that takes nothing away. -/
inductive Gain (s t : ProgramState) : Prop
  | change (h : Change s t)
  | openScope {a : Activation} {callers : List Activation} (hs : s.calls.items = a :: callers)
      (ht : t.calls.items = a.openScope :: callers) (hm : t.memory = s.memory)
  | enterCall {place : Location} {name : String} {type : CType} {site : Option Location}
      {params : List (Param × Value)} {a : Activation} {u : ProgramState}
      (hu : (Effect.bindParams place (.start name type site) params).run s = (.ok a, u))
      (ht : t.calls.items = a :: s.calls.items) (hm : t.memory = u.memory)

abbrev Gains : ProgramState → ProgramState → Prop := Relation.ReflTransGen Gain

/-- A change that adds nothing. -/
inductive Loss (s t : ProgramState) : Prop
  | contents (hm : t.memory.shapes = s.memory.shapes) (hc : t.calls = s.calls)
  | closeScope {a : Activation} {callers : List Activation} (hs : s.calls.items = a :: callers)
      (ht : t.calls.items = a.closeScope :: callers)
      (hm : t.memory = s.memory.releaseAll a.innermost.buffers)
  | leaveCall {a : Activation} (hs : s.calls.items = a :: t.calls.items)
      (hm : t.memory = s.memory.releaseAll a.owned)

abbrev Losses : ProgramState → ProgramState → Prop := Relation.ReflTransGen Loss

theorem Changes.gains {s t : ProgramState} (h : Changes s t) : Gains s t := by
  induction h with
  | refl => exact .refl
  | tail _ hc ih => exact ih.tail (.change hc)

/-! ## Effects -/

namespace Effect

variable {place : Location} {s t : ProgramState} {u : Unit}

theorem gains_openScope (h : (openScope place).run s = (.ok u, t)) : Gains s t := by
  obtain ⟨a, callers, hs, ht, hm⟩ := run_openScope_eq_ok h
  exact .single (.openScope hs ht hm)

theorem gains_enterCall {limits : Limits} {f : Function} {args : List Value}
    {callSite : Option Location} (h : (enterCall limits f args callSite).run s = (.ok u, t)) :
    Gains s t := by
  obtain ⟨-, a, v, hv, rfl⟩ := run_enterCall_eq_ok h
  exact .single (.enterCall hv rfl rfl)

theorem run_countStep_eq_ok {limits : Limits} (h : (countStep limits place).run s = (.ok u, t)) :
    t = { s with steps := s.steps + 1 } := by
  obtain ⟨_, v, hv, h⟩ := run_bind_eq_ok_iff.1 h
  cases hv
  cases hl : limits.maxSteps with
  | none =>
    rw [hl] at h
    cases h
    rfl
  | some limit =>
    rw [hl] at h
    change (if limit < s.steps + 1 then fail place (.stepLimit limit) else pure () :
      Effect Unit).run { s with steps := s.steps + 1 } = _ at h
    split at h
    · cases h
    · cases h
      rfl

theorem losses_countStep {limits : Limits} (h : (countStep limits place).run s = (.ok u, t)) :
    Losses s t := by
  rw [run_countStep_eq_ok h]
  exact .single (.contents rfl rfl)

theorem losses_closeScope (h : (closeScope place).run s = (.ok u, t)) : Losses s t := by
  obtain ⟨a, callers, hs, ht, hm⟩ := run_closeScope_eq_ok h
  exact .single (.closeScope hs ht hm)

theorem losses_leaveCall {value : Option Value} {v : Value}
    (h : (leaveCall place value).run s = (.ok v, t)) : Losses s t := by
  obtain ⟨a, hs, hm⟩ := run_leaveCall_eq_ok h
  exact .single (.leaveCall hs hm)

end Effect

/-! ## Open scopes -/

def ProgramState.openScopes (s : ProgramState) : List Scope := s.calls.items.flatMap Activation.scopes

theorem openScopes_of_cons {s : ProgramState} {a : Activation} {callers : List Activation}
    (h : s.calls.items = a :: callers) :
    s.openScopes = a.scopes ++ callers.flatMap Activation.scopes := by
  rw [ProgramState.openScopes, h, List.flatMap_cons]

/-- What is added comes on top, and below it only the innermost scope is changed. -/
theorem Gain.openScopes {s t : ProgramState} (h : Gain s t) {scope : Scope} {below : List Scope}
    (hs : s.openScopes = scope :: below) : ∃ new scope', t.openScopes = new ++ scope' :: below := by
  cases h with
  | change h =>
    cases h with
    | contents _ hc =>
      refine ⟨[], scope, ?_⟩
      rw [ProgramState.openScopes, hc]
      exact hs
    | adopt hs' _ ht =>
      refine ⟨[], scope, ?_⟩
      rw [openScopes_of_cons hs'] at hs
      rw [openScopes_of_cons ht]
      exact hs
    | @declare a callers name b hs' _ _ ht =>
      rw [openScopes_of_cons hs'] at hs
      rw [openScopes_of_cons ht]
      cases ha : a.scopes with
      | nil =>
        rw [ha, List.nil_append] at hs
        refine ⟨[[(name, b)]], scope, ?_⟩
        simp [Activation.declare, Activation.innermost, ha, hs]
      | cons inner scopes =>
        rw [ha, List.cons_append] at hs
        injection hs with hinner hbelow
        refine ⟨[], (name, b) :: inner, ?_⟩
        simp [Activation.declare, Activation.innermost, ha, hbelow]
  | openScope hs' ht _ =>
    refine ⟨[[]], scope, ?_⟩
    rw [openScopes_of_cons ht]
    rw [openScopes_of_cons hs'] at hs
    exact congrArg ([] :: ·) hs
  | @enterCall _ _ _ _ _ a _ _ ht _ =>
    refine ⟨a.scopes, scope, ?_⟩
    rw [openScopes_of_cons ht]
    exact congrArg (a.scopes ++ ·) hs

theorem Gains.openScopes {s t : ProgramState} (h : Gains s t) {scope : Scope} {below : List Scope}
    (hs : s.openScopes = scope :: below) : ∃ new scope', t.openScopes = new ++ scope' :: below := by
  induction h with
  | refl => exact ⟨[], scope, hs⟩
  | tail _ hgain ih =>
    obtain ⟨new, scope', ih⟩ := ih
    cases new with
    | nil => exact hgain.openScopes ih
    | cons top new =>
      obtain ⟨new', top', h⟩ := hgain.openScopes ih
      exact ⟨new' ++ top' :: new, scope', by simp [h]⟩

/-- Scopes are closed from the innermost one on. -/
theorem Losses.openScopes {s t : ProgramState} (h : Losses s t) : t.openScopes <:+ s.openScopes := by
  induction h with
  | refl => exact List.suffix_refl _
  | tail _ hloss ih =>
    refine List.IsSuffix.trans ?_ ih
    cases hloss with
    | contents _ hc =>
      rw [ProgramState.openScopes, hc]
      exact List.suffix_refl _
    | @closeScope a callers hs ht _ =>
      rw [openScopes_of_cons hs, openScopes_of_cons ht]
      obtain ⟨closed, hclosed⟩ := List.tail_suffix a.scopes
      refine ⟨closed, ?_⟩
      rw [Activation.closeScope, ← List.append_assoc, hclosed]
    | leaveCall hs _ =>
      rw [openScopes_of_cons hs]
      exact List.suffix_append _ _

end BoundedC
