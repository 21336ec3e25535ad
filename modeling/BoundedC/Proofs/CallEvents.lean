import BoundedC.Activation

/-!
# The events of calls and scopes

Calls begin and end, scopes are opened and closed, variables are declared and buffers are kept for
literals. From the events alone it can be told what is still open: each event moves the calls and the
scopes that there were (`CallEvent.moveRecord`, `CallEvent.moveScope`), and what has become of one is
found by following it through the events behind.

* `CallEvent.collected_concat` : what one more event does to what is left;
* `CallEvent.declaredAt`, `CallEvent.adoptedAt` : the variables of a scope and the literals of a call;
* `IsOpenVariable`, `IsOpenLiteral` : the buffers of what is still open;
* `IsInSight` : the variable that a name stands for.
-/

namespace BoundedC

inductive CallEvent where
  | called
  | left
  | opened
  | closed
  | declared (name : String) (b : Binding)
  | adopted (site : Location) (id : BufferId)

/-! ## What is still open -/

namespace CallEvent

/-- What becomes of a call with so many calls above it. -/
def moveRecord : CallEvent → Nat → Option Nat
  | called, calls => some (calls + 1)
  | left, 0 => none
  | left, calls + 1 => some calls
  | _, calls => some calls

/-- What becomes of a scope with so many calls above its own, and so many scopes within it. -/
def moveScope : CallEvent → Nat × Nat → Option (Nat × Nat)
  | called, (calls, scopes) => some (calls + 1, scopes)
  | left, (0, _) => none
  | left, (calls + 1, scopes) => some (calls, scopes)
  | opened, (0, scopes) => some (0, scopes + 1)
  | closed, (0, 0) => none
  | closed, (0, scopes + 1) => some (0, scopes)
  | _, position => some position

/-- Where some events lead, as long as there is something left to follow. -/
def follow {α : Type} (move : CallEvent → α → Option α) (start : α) (events : List CallEvent) :
    Option α := events.foldlM (fun position e => move e position) start

/-- What has become of the call in progress after some events: the number of calls above it. -/
abbrev recordAfter : List CallEvent → Option Nat := follow moveRecord 0

/-- What has become of its innermost scope after some events: the number of calls above its own, and
the number of scopes within it. -/
abbrev scopeAfter : List CallEvent → Option (Nat × Nat) := follow moveScope (0, 0)

/-! ## Collecting what is left -/

section Collected

variable {α β : Type} (move : CallEvent → α → Option α) (start : α) (noted? : CallEvent → Option β)

theorem follow_concat (events : List CallEvent) (e : CallEvent) :
    follow move start (events ++ [e]) = (follow move start events).bind (move e) := by
  simp [follow, List.foldlM_append]

variable [DecidableEq α]

/-- The entries made by events, as far as what has become of them is at a position; the latest
first. -/
def collected : List CallEvent → α → List β
  | [], _ => []
  | e :: events, position =>
    collected events position ++
      if follow move start events = some position then (noted? e).toList else []

variable {move start noted?}

theorem mem_collected {x : β} {log : List CallEvent} {position : α} :
    x ∈ collected move start noted? log position ↔
      ∃ before e events, log = before ++ e :: events ∧ noted? e = some x ∧
        follow move start events = some position := by
  induction log with
  | nil => simp [collected]
  | cons d log ih =>
    rw [collected, List.mem_append, ih]
    constructor
    · rintro (⟨before, e, events, rfl, hx⟩ | hx)
      · exact ⟨d :: before, e, events, rfl, hx⟩
      · split at hx
        · exact ⟨[], d, log, rfl, Option.mem_toList.1 hx, ‹_›⟩
        · cases hx
    · rintro ⟨_ | ⟨_, before⟩, e, events, heq, hx, hevents⟩
      · cases heq
        refine .inr ?_
        rw [if_pos hevents]
        exact Option.mem_toList.2 hx
      · cases heq
        exact .inl ⟨before, e, events, rfl, hx, hevents⟩

/-- One more event: what is at a position was where the event moves it from. -/
theorem collected_concat (log : List CallEvent) {e : CallEvent} {position : α} {origin : Option α}
    (horigin : ∀ p, move e p = some position ↔ origin = some p) :
    collected move start noted? (log ++ [e]) position =
      (if start = position then (noted? e).toList else []) ++
        origin.elim [] (collected move start noted? log) := by
  induction log with
  | nil => cases origin <;> simp [collected, follow]
  | cons d log ih =>
    rw [List.cons_append, collected, ih, List.append_assoc, follow_concat]
    congr 1
    cases origin with
    | none =>
      have hnone : ¬ (follow move start log).bind (move e) = some position := by
        rw [Option.bind_eq_some_iff]
        rintro ⟨p, -, hp⟩
        exact absurd ((horigin p).1 hp) nofun
      rw [if_neg hnone]
      rfl
    | some p =>
      have hiff : (follow move start log).bind (move e) = some position ↔
          follow move start log = some p := by
        rw [Option.bind_eq_some_iff]
        constructor
        · rintro ⟨q, hq, hmove⟩
          rw [hq, (horigin q).1 hmove]
        · exact fun hp => ⟨p, hp, (horigin p).2 rfl⟩
      simp only [hiff]
      rfl

end Collected

/-! ## Scopes and literals by the events -/

def declaration? : CallEvent → Option (String × Binding)
  | declared name b => some (name, b)
  | _ => none

def adoption? : CallEvent → Option (Location × BufferId)
  | adopted site id => some (site, id)
  | _ => none

def declaredAt (log : List CallEvent) (position : Nat × Nat) : Scope :=
  collected moveScope (0, 0) declaration? log position

def adoptedAt (log : List CallEvent) (calls : Nat) : List (Location × BufferId) :=
  collected moveRecord 0 adoption? log calls

/-- The call that an event moves to a position. -/
def recordOrigin : CallEvent → Nat → Option Nat
  | called, 0 => none
  | called, calls + 1 => some calls
  | left, calls => some (calls + 1)
  | _, calls => some calls

/-- The scope that an event moves to a position. -/
def scopeOrigin : CallEvent → Nat × Nat → Option (Nat × Nat)
  | called, (0, _) => none
  | called, (calls + 1, scopes) => some (calls, scopes)
  | left, (calls, scopes) => some (calls + 1, scopes)
  | opened, (0, 0) => none
  | opened, (0, scopes + 1) => some (0, scopes)
  | closed, (0, scopes) => some (0, scopes + 1)
  | _, position => some position

theorem moveRecord_eq_some_iff (e : CallEvent) (calls calls' : Nat) :
    e.moveRecord calls = some calls' ↔ e.recordOrigin calls' = some calls := by
  cases e <;> cases calls <;> cases calls' <;> simp [moveRecord, recordOrigin] <;> omega

theorem moveScope_eq_some_iff (e : CallEvent) (position position' : Nat × Nat) :
    e.moveScope position = some position' ↔ e.scopeOrigin position' = some position := by
  obtain ⟨_ | calls, _ | scopes⟩ := position <;> obtain ⟨_ | calls', _ | scopes'⟩ := position' <;>
    cases e <;> simp [moveScope, scopeOrigin] <;> omega

theorem declaredAt_concat (log : List CallEvent) (e : CallEvent) (position : Nat × Nat) :
    declaredAt (log ++ [e]) position =
      (if (0, 0) = position then e.declaration?.toList else []) ++
        (e.scopeOrigin position).elim [] (declaredAt log) :=
  collected_concat log fun p => e.moveScope_eq_some_iff p position

theorem adoptedAt_concat (log : List CallEvent) (e : CallEvent) (calls : Nat) :
    adoptedAt (log ++ [e]) calls =
      (if 0 = calls then e.adoption?.toList else []) ++
        (e.recordOrigin calls).elim [] (adoptedAt log) :=
  collected_concat log fun p => e.moveRecord_eq_some_iff p calls

variable {log : List CallEvent} {position : Nat × Nat} {name : String} {b : Binding}

theorem mem_declaredAt {x : String × Binding} :
    x ∈ declaredAt log position ↔
      ∃ before events, log = before ++ .declared x.1 x.2 :: events ∧
        scopeAfter events = some position := by
  unfold declaredAt
  rw [mem_collected]
  constructor
  · rintro ⟨before, e, events, rfl, hx, hevents⟩
    cases e <;> cases hx
    exact ⟨before, events, rfl, hevents⟩
  · rintro ⟨before, events, rfl, hevents⟩
    exact ⟨before, _, events, rfl, rfl, hevents⟩

theorem mem_adoptedAt {x : Location × BufferId} {calls : Nat} :
    x ∈ adoptedAt log calls ↔
      ∃ before events, log = before ++ .adopted x.1 x.2 :: events ∧
        recordAfter events = some calls := by
  unfold adoptedAt
  rw [mem_collected]
  constructor
  · rintro ⟨before, e, events, rfl, hx, hevents⟩
    cases e <;> cases hx
    exact ⟨before, events, rfl, hevents⟩
  · rintro ⟨before, events, rfl, hevents⟩
    exact ⟨before, _, events, rfl, rfl, hevents⟩

theorem lookup_declaredAt_eq_none_iff :
    (declaredAt log position).lookup name = none ↔
      ∀ before b events, log = before ++ .declared name b :: events →
        scopeAfter events ≠ some position := by
  rw [List.lookup_eq_none_iff]
  constructor
  · intro h before b events hlog hevents
    simpa using h (name, b) (mem_declaredAt.2 ⟨before, events, hlog, hevents⟩)
  · rintro h ⟨other, b⟩ hx
    obtain ⟨before, events, hlog, hevents⟩ := mem_declaredAt.1 hx
    rw [bne_iff_ne]
    rintro rfl
    exact h before b events hlog hevents

/-- The latest declaration of a name in a scope. -/
theorem lookup_declaredAt_eq_some_iff :
    (declaredAt log position).lookup name = some b ↔
      ∃ before events, log = before ++ .declared name b :: events ∧
        scopeAfter events = some position ∧ (declaredAt events position).lookup name = none := by
  induction log with
  | nil => simp [declaredAt, collected]
  | cons e log ih =>
    have hcons : declaredAt (e :: log) position = declaredAt log position ++
        if scopeAfter log = some position then e.declaration?.toList else [] := rfl
    rw [hcons, List.lookup_append, Option.or_eq_some_iff, ih]
    constructor
    · rintro (⟨before, events, rfl, h⟩ | ⟨hnone, h⟩)
      · exact ⟨e :: before, events, rfl, h⟩
      · split at h
        · rename_i hlog
          cases e with
          | declared other b' =>
            obtain ⟨rfl, rfl⟩ : name = other ∧ b' = b := by
              by_cases hname : name = other
              · subst hname
                simpa [declaration?] using h
              · simp [declaration?, List.lookup_cons, beq_false_of_ne hname] at h
            exact ⟨[], log, rfl, hlog, hnone⟩
          | _ => cases h
        · cases h
    · rintro ⟨_ | ⟨_, before⟩, events, heq, hevents, hnone⟩
      · cases heq
        refine .inr ⟨hnone, ?_⟩
        rw [if_pos hevents]
        simp [declaration?]
      · cases heq
        exact .inl ⟨before, events, rfl, hevents, hnone⟩

end CallEvent

/-! ## Buffers and names -/

/-- Whether a buffer is that of a variable in a scope that is still open. -/
def IsOpenVariable (log : List CallEvent) (id : BufferId) : Prop :=
  ∃ before name b events, log = before ++ .declared name b :: events ∧ b.buffer = id ∧
    (CallEvent.scopeAfter events).isSome

/-- Whether a buffer is that of a literal of a call that is still in progress. -/
def IsOpenLiteral (log : List CallEvent) (id : BufferId) : Prop :=
  ∃ before site events, log = before ++ .adopted site id :: events ∧
    (CallEvent.recordAfter events).isSome

/-- Whether a name is declared in an open scope of the call in progress, with so many scopes within
it. -/
def IsDeclared (log : List CallEvent) (name : String) (scopes : Nat) : Prop :=
  ∃ before b events, log = before ++ .declared name b :: events ∧
    CallEvent.scopeAfter events = some (0, scopes)

/-- Whether a variable is what a name stands for: the latest declaration of the name in the innermost
of the open scopes of the call in progress that declare it. -/
def IsInSight (log : List CallEvent) (name : String) (b : Binding) : Prop :=
  ∃ before events scopes, log = before ++ .declared name b :: events ∧
    CallEvent.scopeAfter events = some (0, scopes) ∧ ¬ IsDeclared events name scopes ∧
    ∀ outer, IsDeclared log name outer → scopes ≤ outer

theorem lookup_declaredAt_eq_none_iff {log : List CallEvent} {name : String} {scopes : Nat} :
    (CallEvent.declaredAt log (0, scopes)).lookup name = none ↔ ¬ IsDeclared log name scopes := by
  rw [CallEvent.lookup_declaredAt_eq_none_iff]
  simp only [IsDeclared, not_exists, not_and, ne_eq]

end BoundedC
