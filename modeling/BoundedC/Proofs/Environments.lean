import BoundedC.Proofs.CallEvents
import BoundedC.Proofs.Callers
import BoundedC.Proofs.History
import BoundedC.Proofs.Ownership

/-!
# Calls and scopes as environments

However calls and scopes are used (`CallOp`), they are a stack of environments: what the calls in
progress hold, which buffers are live and what a name stands for follow from the events so far.

* `CallOp.exists_happens`, `Happens` : what an operation does, once and for all;
* `Happens.keeps_others` : it leaves the other calls alone;
* `Represents` : the calls in progress hold the variables and literals that the events say;
* `environments` : what follows for live buffers, names and other calls.
-/

namespace BoundedC

/-! ## Operations -/

/-- The contents of a new buffer. -/
inductive Contents where
  | zeros (length : Nat)
  | bytes (bytes : List UInt8)

def Contents.allocate (place : Location) (owner : Owner) : Contents → Effect BufferId
  | .zeros length => Effect.allocate place length owner
  | .bytes bs => Effect.allocateWith place bs owner

/-- An operation on the calls in progress. -/
inductive CallOp where
  | call (function : String) (returnType : CType) (callSite : Option Location)
  | leave
  | openScope
  | closeScope
  | declare (name : String) (type : CType) (isConst : Bool) (contents : Contents) (owner : Owner)
  | adopt (site : Location) (contents : Contents) (owner : Owner)

/-- Perform an operation. But for a call it needs a call in progress. -/
def CallOp.effect (place : Location) : CallOp → Effect CallEvent
  | call function returnType callSite => do
    modify fun s => { s with calls := s.calls.push (.start function returnType callSite) }
    return .called
  | leave => do
    Effect.releaseAll (← Effect.popCall place).owned
    return .left
  | openScope => do
    Effect.openScope place
    return .opened
  | closeScope => do
    Effect.closeScope place
    return .closed
  | declare name type isConst contents owner => do
    discard <| Effect.current place
    let id ← contents.allocate place owner
    Effect.modifyCurrent place (·.declare name ⟨id, type, isConst⟩)
    return .declared name ⟨id, type, isConst⟩
  | adopt site contents owner => do
    discard <| Effect.current place
    let id ← contents.allocate place owner
    Effect.modifyCurrent place (·.adopt site id)
    return .adopted site id

/-- The calls that an operation is not about. -/
def CallOp.others : CallOp → List Activation → List Activation
  | call .., calls => calls
  | _, calls => calls.tail

theorem CallOp.exists_top (op : CallOp) (calls : List Activation) :
    ∃ top, calls = top ++ op.others calls ∧ top.length ≤ 1 := by
  cases op with
  | call => exact ⟨[], rfl, Nat.zero_le 1⟩
  | _ =>
    cases calls with
    | nil => exact ⟨[], rfl, Nat.zero_le 1⟩
    | cons a callers => exact ⟨[a], rfl, Nat.le_refl 1⟩

/-- A state and the events that have led to it. -/
structure CallHistory where
  state : ProgramState
  log : List CallEvent

namespace CallHistory

def fresh (sink : Sink) : CallHistory := ⟨.fresh sink, []⟩

/-- Perform an operation. One that fails is no event. -/
def perform (h : CallHistory) (op : CallOp) : CallHistory :=
  match (op.effect .start).run h.state with
  | (.ok e, s) => ⟨s, h.log ++ [e]⟩
  | (.error _, s) => ⟨s, h.log⟩

def after (sink : Sink) (ops : List CallOp) : CallHistory := ops.foldl perform (fresh sink)

end CallHistory

/-! ## What an operation does -/

/-- An operation with its event, on the arena and the calls in progress. -/
inductive Happens : CallOp → CallEvent → Arena → List Activation → Arena → List Activation → Prop
  | call (function : String) (returnType : CType) (callSite : Option Location) (memory : Arena)
    (calls : List Activation) :
    Happens (.call function returnType callSite) .called memory calls memory
      (.start function returnType callSite :: calls)
  | leave (memory : Arena) (a : Activation) (callers : List Activation) :
    Happens .leave .left memory (a :: callers) (memory.releaseAll a.owned) callers
  | openScope (memory : Arena) (a : Activation) (callers : List Activation) :
    Happens .openScope .opened memory (a :: callers) memory (a.openScope :: callers)
  | closeScope (memory : Arena) (a : Activation) (callers : List Activation) :
    Happens .closeScope .closed memory (a :: callers) (memory.releaseAll a.innermost.buffers)
      (a.closeScope :: callers)
  | declare {memory memory' : Arena} {name : String} {type : CType} {isConst : Bool}
    {contents : Contents} {owner : Owner} {id : BufferId} {shape : Owner × Nat} (a : Activation)
    (callers : List Activation) (hadds : memory.Adds memory' id shape)
    (hget : ∀ other, other ≠ id → memory'.get? other = memory.get? other) :
    Happens (.declare name type isConst contents owner) (.declared name ⟨id, type, isConst⟩)
      memory (a :: callers) memory' (a.declare name ⟨id, type, isConst⟩ :: callers)
  | adopt {memory memory' : Arena} {site : Location} {contents : Contents} {owner : Owner}
    {id : BufferId} {shape : Owner × Nat} (a : Activation) (callers : List Activation)
    (hadds : memory.Adds memory' id shape)
    (hget : ∀ other, other ≠ id → memory'.get? other = memory.get? other) :
    Happens (.adopt site contents owner) (.adopted site id) memory (a :: callers) memory'
      (a.adopt site id :: callers)

/-- A buffer is allocated, or the state is left as it was. -/
theorem Contents.exists_allocate (place : Location) (owner : Owner) (contents : Contents)
    (s : ProgramState) :
    (∃ id memory shape, (contents.allocate place owner).run s = (.ok id, { s with memory }) ∧
        s.memory.Adds memory id shape ∧
        ∀ other, other ≠ id → memory.get? other = s.memory.get? other) ∨
      ∃ error, (contents.allocate place owner).run s = (.error error, s) := by
  have hfailed {f : Arena → Except MemoryFault BufferId × Arena} {fault : MemoryFault} {memory : Arena}
      (hf : (f s.memory).1 = .error fault → (f s.memory).2 = s.memory)
      (h : f s.memory = (.error fault, memory)) :
      (Effect.onMemory place f).run s = (.error (.fault (.memory fault) place), s) := by
    have hmemory : memory = s.memory := by
      rw [h] at hf
      exact hf rfl
    rw [Effect.run_onMemory_of_error h, hmemory]
  cases contents with
  | zeros length =>
    let f := (Arena.allocate · length owner)
    rcases h : f s.memory with ⟨fault | id, memory⟩
    · exact .inr ⟨_, hfailed (f := f) Arena.allocate_of_error h⟩
    · exact .inl ⟨id, memory, _, Effect.run_onMemory_of_ok (f := f) h, Arena.adds_of_allocate h,
        (Arena.get?_of_allocateWith (Arena.allocateWith_of_allocate h)).2.2.2.2⟩
  | bytes bytes =>
    let f := (Arena.allocateWith · bytes.toArray owner)
    rcases h : f s.memory with ⟨fault | id, memory⟩
    · exact .inr ⟨_, hfailed (f := f) Arena.allocateWith_of_error h⟩
    · exact .inl ⟨id, memory, _, Effect.run_onMemory_of_ok (f := f) h, Arena.adds_of_allocateWith h,
        (Arena.get?_of_allocateWith h).2.2.2.2⟩

namespace CallOp

theorem run_effect_of_nil (op : CallOp) (place : Location) {s : ProgramState}
    (hs : s.calls.items = []) :
    (∃ function returnType callSite, op = .call function returnType callSite) ∨
      ∃ error, (op.effect place).run s = (.error error, s) := by
  have hcurrent : (Effect.current place).run s =
      (.error (.fault (.internal .noActiveCall) place), s) := by
    have htop : s.calls.top? = none := by rw [Stack.top?, hs, List.head?_nil]
    rw [Effect.current, Effect.run_bind_of_ok (Effect.run_get _), htop]
    rfl
  have hdiscard : (discard (Effect.current place) : Effect Unit).run s = _ :=
    Effect.run_bind_of_error hcurrent _
  cases op with
  | call => exact .inl ⟨_, _, _, rfl⟩
  | leave =>
    have hpop : (Effect.popCall place).run s = _ := Effect.run_bind_of_error hcurrent _
    exact .inr ⟨_, Effect.run_bind_of_error hpop _⟩
  | openScope =>
    have hopen : (Effect.openScope place).run s = _ := Effect.run_bind_of_error hdiscard _
    exact .inr ⟨_, Effect.run_bind_of_error hopen _⟩
  | closeScope =>
    have hclose : (Effect.closeScope place).run s = _ := Effect.run_bind_of_error hcurrent _
    exact .inr ⟨_, Effect.run_bind_of_error hclose _⟩
  | declare => exact .inr ⟨_, Effect.run_bind_of_error hdiscard _⟩
  | adopt => exact .inr ⟨_, Effect.run_bind_of_error hdiscard _⟩

/-- An operation has an event, or it fails and leaves the state as it was. -/
theorem exists_happens (op : CallOp) (place : Location) (s : ProgramState) :
    (∃ e t, (op.effect place).run s = (.ok e, t) ∧
        Happens op e s.memory s.calls.items t.memory t.calls.items) ∨
      ∃ error, (op.effect place).run s = (.error error, s) := by
  cases hs : s.calls.items with
  | nil =>
    rcases run_effect_of_nil op place hs with ⟨function, returnType, callSite, rfl⟩ | hfailed
    · refine .inl ⟨_, _, rfl, ?_⟩
      rw [← hs]
      exact .call ..
    · exact .inr hfailed
  | cons a callers =>
    have hmodify (f : Activation → Activation) : (s.calls.modifyTop f).items = f a :: callers :=
      Stack.items_modifyTop_of_cons hs f
    have hdiscard := Effect.run_discard_current_of_cons place hs
    cases op with
    | call =>
      refine .inl ⟨_, _, rfl, ?_⟩
      rw [← hs]
      exact .call ..
    | leave =>
      refine .inl ⟨_, _, Effect.run_bind_of_ok (Effect.run_popCall_of_cons place hs) _, ?_⟩
      simpa [hs] using Happens.leave s.memory a callers
    | openScope =>
      refine .inl ⟨_, _, Effect.run_bind_of_ok
        (Effect.run_modifyCurrent_of_cons place Activation.openScope hs) _, ?_⟩
      simpa [hmodify] using Happens.openScope s.memory a callers
    | closeScope =>
      refine .inl ⟨_, _, Effect.run_bind_of_ok (Effect.run_closeScope_of_cons place hs) _, ?_⟩
      simpa [hmodify] using Happens.closeScope s.memory a callers
    | declare name type isConst contents owner =>
      rcases contents.exists_allocate place owner s with
        ⟨id, memory, shape, hallocate, hadds, hget⟩ | ⟨error, hfailed⟩
      · let f := (Activation.declare · name ⟨id, type, isConst⟩)
        have hrun := Effect.run_modifyCurrent_of_cons place f (s := { s with memory }) hs
        refine .inl ⟨_, _, (Effect.run_bind_of_ok hdiscard _).trans
          ((Effect.run_bind_of_ok hallocate _).trans (Effect.run_bind_of_ok hrun _)), ?_⟩
        simpa [hmodify] using Happens.declare a callers hadds hget
      · exact .inr ⟨error, (Effect.run_bind_of_ok hdiscard _).trans
          (Effect.run_bind_of_error hfailed _)⟩
    | adopt site contents owner =>
      rcases contents.exists_allocate place owner s with
        ⟨id, memory, shape, hallocate, hadds, hget⟩ | ⟨error, hfailed⟩
      · let f := (Activation.adopt · site id)
        have hrun := Effect.run_modifyCurrent_of_cons place f (s := { s with memory }) hs
        refine .inl ⟨_, _, (Effect.run_bind_of_ok hdiscard _).trans
          ((Effect.run_bind_of_ok hallocate _).trans (Effect.run_bind_of_ok hrun _)), ?_⟩
        simpa [hmodify] using Happens.adopt a callers hadds hget
      · exact .inr ⟨error, (Effect.run_bind_of_ok hdiscard _).trans
          (Effect.run_bind_of_error hfailed _)⟩

end CallOp

/-! ## What an operation changes -/

/-- The scope at a position: so many calls below the one in progress, and so many scopes out of the
innermost one of that call. -/
def scopeAt (calls : List Activation) (position : Nat × Nat) : Scope :=
  ((calls[position.1]?.elim [] Activation.scopes)[position.2]?).getD []

/-- The literals of the call so many calls below the one in progress. -/
def literalsAt (calls : List Activation) (index : Nat) : List (Location × BufferId) :=
  calls[index]?.elim [] Activation.literals

namespace Happens

variable {op : CallOp} {e : CallEvent} {memory memory' : Arena} {calls calls' : List Activation}

theorem scopeAt_eq (h : Happens op e memory calls memory' calls') (position : Nat × Nat) :
    scopeAt calls' position =
      (if (0, 0) = position then e.declaration?.toList else []) ++
        (e.scopeOrigin position).elim [] (scopeAt calls) := by
  obtain ⟨_ | index, _ | scopes⟩ := position <;> cases h <;>
    simp [scopeAt, CallEvent.declaration?, CallEvent.scopeOrigin, Activation.start,
      Activation.openScope, Activation.closeScope, Activation.declare, Activation.adopt,
      Activation.innermost, List.head?_eq_getElem?, List.headD_eq_head?_getD]

theorem literalsAt_eq (h : Happens op e memory calls memory' calls') (index : Nat) :
    literalsAt calls' index =
      (if 0 = index then e.adoption?.toList else []) ++
        (e.recordOrigin index).elim [] (literalsAt calls) := by
  cases index <;> cases h <;>
    simp [literalsAt, CallEvent.adoption?, CallEvent.recordOrigin, Activation.start,
      Activation.openScope, Activation.closeScope, Activation.declare, Activation.adopt]

theorem holds (h : Happens op e memory calls memory' calls')
    (hm : memory.Holds (calls.flatMap Activation.owned)) :
    memory'.Holds (calls'.flatMap Activation.owned) := by
  cases h with
  | call => exact hm
  | leave _ a callers => exact hm.releaseAll (.refl _)
  | openScope _ a callers =>
    have howned : a.openScope.owned = a.owned := by
      rw [Activation.owned, Activation.scopeBuffers_openScope]
      rfl
    rwa [List.flatMap_cons, howned]
  | closeScope _ a callers =>
    refine hm.releaseAll ?_
    rw [List.flatMap_cons, a.owned_closeScope, List.append_assoc]
    exact .refl _
  | declare a callers hadds =>
    refine hm.of_adds hadds ?_
    rw [List.flatMap_cons, Activation.owned, Activation.scopeBuffers_declare]
    exact .refl _
  | adopt a callers hadds =>
    refine hm.of_adds hadds ?_
    simp only [List.flatMap_cons, Activation.owned, Activation.adopt, List.map_cons]
    exact (List.perm_middle.append_right _).trans (.refl _)

/-- The calls that an operation is not about stay as they are, with all bytes of their buffers. -/
theorem keeps_others (h : Happens op e memory calls memory' calls')
    (hm : memory.Holds (calls.flatMap Activation.owned)) :
    (∃ top, calls' = top ++ op.others calls ∧ top.length ≤ 1) ∧
      ∀ a ∈ op.others calls, ∀ id ∈ a.owned, memory'.get? id = memory.get? id := by
  have hothers : ∃ top, calls' = top ++ op.others calls ∧ top.length ≤ 1 := by
    cases h with
    | call => exact ⟨[_], rfl, Nat.le_refl 1⟩
    | leave => exact ⟨[], rfl, Nat.zero_le 1⟩
    | _ => exact ⟨[_], rfl, Nat.le_refl 1⟩
  refine ⟨hothers, fun b hb id hid => ?_⟩
  have howned : id ∈ (op.others calls).flatMap Activation.owned := List.mem_flatMap.2 ⟨b, hb, hid⟩
  cases h with
  | call => rfl
  | leave _ a callers =>
    exact memory.get?_releaseAll_of_notMem (hm.notMem_of_perm (.refl _) howned)
  | openScope => rfl
  | closeScope _ a callers =>
    have hperm : (List.flatMap Activation.owned (a :: callers)).Perm
        (a.innermost.buffers ++ (a.closeScope.owned ++ callers.flatMap Activation.owned)) := by
      rw [List.flatMap_cons, a.owned_closeScope, List.append_assoc]
    exact memory.get?_releaseAll_of_notMem
      (hm.notMem_of_perm hperm (List.mem_append_right _ howned))
  | declare a callers hadds hget | adopt a callers hadds hget =>
    refine hget id ?_
    rintro rfl
    exact hm.notMem_of_adds hadds (List.mem_append_right _ howned)

end Happens

/-! ## Whole histories -/

/-- The calls in progress hold what the events say, and the live buffers are those that they own. -/
structure Represents (memory : Arena) (calls : List Activation) (log : List CallEvent) : Prop where
  scopes : ∀ position, scopeAt calls position = CallEvent.declaredAt log position
  literals : ∀ index, literalsAt calls index = CallEvent.adoptedAt log index
  holds : memory.Holds (calls.flatMap Activation.owned)

namespace Represents

variable {memory memory' : Arena} {calls calls' : List Activation} {log : List CallEvent}

theorem empty : Represents .empty [] [] :=
  ⟨fun _ => rfl, fun _ => rfl, .nil, fun id => by
    cases hid : Arena.slot? id <;> simp [Arena.shape?, hid, Arena.shapes, Arena.empty]⟩

theorem step {op : CallOp} {e : CallEvent} (h : Represents memory calls log)
    (hop : Happens op e memory calls memory' calls') : Represents memory' calls' (log ++ [e]) where
  scopes position := by
    rw [hop.scopeAt_eq, CallEvent.declaredAt_concat, funext h.scopes]
  literals index := by
    rw [hop.literalsAt_eq, CallEvent.adoptedAt_concat, funext h.literals]
  holds := hop.holds h.holds

end Represents

namespace CallHistory

/-- Whether the state is what the events say. -/
def Sound (h : CallHistory) : Prop := Represents h.state.memory h.state.calls.items h.log

theorem perform_cases (h : CallHistory) (op : CallOp) :
    (∃ e, (h.perform op).log = h.log ++ [e] ∧ Happens op e h.state.memory h.state.calls.items
        (h.perform op).state.memory (h.perform op).state.calls.items) ∨
      h.perform op = h := by
  rcases op.exists_happens .start h.state with ⟨e, t, hrun, hop⟩ | ⟨error, hrun⟩
  · have hperform : h.perform op = ⟨t, h.log ++ [e]⟩ := by rw [perform, hrun]
    rw [hperform]
    exact .inl ⟨e, rfl, hop⟩
  · exact .inr (by rw [perform, hrun])

theorem Sound.perform {h : CallHistory} (hsound : h.Sound) (op : CallOp) : (h.perform op).Sound := by
  rcases h.perform_cases op with ⟨e, hlog, hop⟩ | hsame
  · rw [Sound, hlog]
    exact Represents.step hsound hop
  · rwa [hsame]

theorem Sound.performAll {h : CallHistory} (hsound : h.Sound) (ops : List CallOp) :
    (ops.foldl CallHistory.perform h).Sound := by
  induction ops generalizing h with
  | nil => exact hsound
  | cons op ops ih => exact ih (hsound.perform op)

theorem sound_after (sink : Sink) (ops : List CallOp) : (after sink ops).Sound := by
  have hfresh : (fresh sink).Sound := .empty
  exact hfresh.performAll ops

end CallHistory

/-! ## Live buffers and variables in sight -/

theorem mem_owned_iff {calls : List Activation} {id : BufferId} :
    id ∈ calls.flatMap Activation.owned ↔
      (∃ position, ∃ x ∈ scopeAt calls position, x.2.buffer = id) ∨
        ∃ index, ∃ x ∈ literalsAt calls index, x.2 = id := by
  constructor
  · intro h
    obtain ⟨a, ha, h⟩ := List.mem_flatMap.1 h
    obtain ⟨index, hindex⟩ := List.mem_iff_getElem?.1 ha
    rcases List.mem_append.1 h with h | h
    · obtain ⟨scope, hscope, h⟩ := List.mem_flatMap.1 h
      obtain ⟨scopes, hscopes⟩ := List.mem_iff_getElem?.1 hscope
      obtain ⟨x, hx, rfl⟩ := List.mem_map.1 h
      refine .inl ⟨(index, scopes), x, ?_, rfl⟩
      simpa [scopeAt, hindex, hscopes] using hx
    · obtain ⟨x, hx, rfl⟩ := List.mem_map.1 h
      refine .inr ⟨index, x, ?_, rfl⟩
      simpa [literalsAt, hindex] using hx
  · rintro (⟨⟨index, scopes⟩, x, hx, rfl⟩ | ⟨index, x, hx, rfl⟩)
    · cases hindex : calls[index]? with
      | none => simp [scopeAt, hindex] at hx
      | some a =>
        cases hscopes : a.scopes[scopes]? with
        | none => simp [scopeAt, hindex, hscopes] at hx
        | some scope =>
          have hmem : x ∈ scope := by simpa [scopeAt, hindex, hscopes] using hx
          refine List.mem_flatMap.2 ⟨a, List.mem_of_getElem? hindex, List.mem_append_left _ ?_⟩
          exact List.mem_flatMap.2 ⟨scope, List.mem_of_getElem? hscopes, List.mem_map_of_mem hmem⟩
    · cases hindex : calls[index]? with
      | none => simp [literalsAt, hindex] at hx
      | some a =>
        have hmem : x ∈ a.literals := by simpa [literalsAt, hindex] using hx
        exact List.mem_flatMap.2 ⟨a, List.mem_of_getElem? hindex,
          List.mem_append_right _ (List.mem_map_of_mem hmem)⟩

/-- A name is looked up from the innermost scope outwards. -/
theorem findSome?_lookup_eq_some_iff {scopes : List Scope} {name : String} {b : Binding} :
    scopes.findSome? (·.lookup name) = some b ↔
      ∃ n : Nat, (scopes[n]?.getD []).lookup name = some b ∧
        ∀ m < n, (scopes[m]?.getD []).lookup name = none := by
  induction scopes with
  | nil => simp
  | cons scope scopes ih =>
    rw [List.findSome?_cons]
    cases hscope : scope.lookup name with
    | some b' =>
      constructor
      · intro h
        exact ⟨0, hscope.trans h, nofun⟩
      · rintro ⟨_ | n, hn, hbefore⟩
        · exact hscope.symm.trans hn
        · exact absurd (hscope.symm.trans (hbefore 0 n.succ_pos)) nofun
    | none =>
      rw [ih]
      constructor
      · rintro ⟨n, hn, hbefore⟩
        refine ⟨n + 1, hn, ?_⟩
        rintro (_ | m) hm
        · exact hscope
        · exact hbefore m (Nat.lt_of_succ_lt_succ hm)
      · rintro ⟨_ | n, hn, hbefore⟩
        · exact absurd (hscope.symm.trans hn) nofun
        · exact ⟨n, hn, fun m hm => hbefore (m + 1) (Nat.succ_lt_succ hm)⟩

theorem lookup_eq_some_iff {calls : Stack Activation} {name : String} {b : Binding} :
    calls.top?.bind (·.lookup? name) = some b ↔
      ∃ n, (scopeAt calls.items (0, n)).lookup name = some b ∧
        ∀ m < n, (scopeAt calls.items (0, m)).lookup name = none := by
  rw [Stack.top?]
  cases calls.items with
  | nil => simp [scopeAt]
  | cons a callers => exact findSome?_lookup_eq_some_iff

theorem lookup_eq_none_iff {calls : Stack Activation} {name : String} :
    calls.top?.bind (·.lookup? name) = none ↔
      ∀ n, (scopeAt calls.items (0, n)).lookup name = none := by
  rw [Stack.top?]
  cases calls.items with
  | nil => simp [scopeAt]
  | cons a callers =>
    refine List.findSome?_eq_none_iff.trans ⟨fun h n => ?_, fun h scope hscope => ?_⟩
    · change ((a.scopes[n]?).getD []).lookup name = none
      cases hscope : a.scopes[n]? with
      | none => rfl
      | some scope => exact h scope (List.mem_of_getElem? hscope)
    · obtain ⟨n, hn⟩ := List.mem_iff_getElem?.1 hscope
      have hnone : ((a.scopes[n]?).getD []).lookup name = none := h n
      rwa [hn] at hnone

namespace Represents

variable {memory : Arena} {calls : List Activation} {log : List CallEvent}

theorem live_iff (h : Represents memory calls log) (id : BufferId) :
    id ≠ .null ∧ (memory.get? id).isSome ↔ IsOpenVariable log id ∨ IsOpenLiteral log id := by
  rw [← Arena.isSome_shape?_iff, h.holds.live_iff, mem_owned_iff]
  simp only [h.scopes, h.literals]
  refine or_congr ⟨?_, ?_⟩ ⟨?_, ?_⟩
  · rintro ⟨position, x, hx, hid⟩
    obtain ⟨before, events, hlog, hevents⟩ := CallEvent.mem_declaredAt.1 hx
    exact ⟨before, x.1, x.2, events, hlog, hid, Option.isSome_of_eq_some hevents⟩
  · rintro ⟨before, name, b, events, hlog, hid, hevents⟩
    obtain ⟨position, hposition⟩ := Option.isSome_iff_exists.1 hevents
    exact ⟨position, (name, b), CallEvent.mem_declaredAt.2 ⟨before, events, hlog, hposition⟩, hid⟩
  · rintro ⟨index, x, hx, rfl⟩
    obtain ⟨before, events, hlog, hevents⟩ := CallEvent.mem_adoptedAt.1 hx
    exact ⟨before, x.1, events, hlog, Option.isSome_of_eq_some hevents⟩
  · rintro ⟨before, site, events, hlog, hevents⟩
    obtain ⟨index, hindex⟩ := Option.isSome_iff_exists.1 hevents
    exact ⟨index, (site, id), CallEvent.mem_adoptedAt.2 ⟨before, events, hlog, hindex⟩, rfl⟩

theorem lookup_eq_some_iff {calls : Stack Activation} (h : Represents memory calls.items log)
    (name : String) (b : Binding) :
    calls.top?.bind (·.lookup? name) = some b ↔ IsInSight log name b := by
  rw [BoundedC.lookup_eq_some_iff]
  simp only [h.scopes, CallEvent.lookup_declaredAt_eq_some_iff, lookup_declaredAt_eq_none_iff]
  constructor
  · rintro ⟨n, ⟨before, events, hlog, hevents, hlatest⟩, hinner⟩
    exact ⟨before, events, n, hlog, hevents, hlatest, fun outer houter =>
      Nat.le_of_not_lt fun hlt => hinner outer hlt houter⟩
  · rintro ⟨before, events, n, hlog, hevents, hlatest, hinner⟩
    exact ⟨n, ⟨before, events, hlog, hevents, hlatest⟩, fun m hm hdeclared =>
      absurd (hinner m hdeclared) (Nat.not_le_of_lt hm)⟩

theorem lookup_eq_none_iff {calls : Stack Activation} (h : Represents memory calls.items log)
    (name : String) :
    calls.top?.bind (·.lookup? name) = none ↔ ∀ scopes, ¬ IsDeclared log name scopes := by
  rw [BoundedC.lookup_eq_none_iff]
  simp only [h.scopes, lookup_declaredAt_eq_none_iff]

end Represents

/-- Whatever calls begin and end, scopes open and close, variables are declared and literals are kept:
the live buffers are those of the variables in open scopes and of the literals of calls in progress; a
name stands for its latest declaration in the innermost open scope of the call in progress that
declares it; and an operation leaves the other calls as they are, with all bytes of their buffers. -/
theorem environments (sink : Sink) (ops : List CallOp) :
    let h := CallHistory.after sink ops
    (∀ id, id ≠ .null ∧ (h.state.memory.get? id).isSome ↔
      IsOpenVariable h.log id ∨ IsOpenLiteral h.log id) ∧
    (∀ name b, h.state.calls.top?.bind (·.lookup? name) = some b ↔ IsInSight h.log name b) ∧
    (∀ name, h.state.calls.top?.bind (·.lookup? name) = none ↔
      ∀ scopes, ¬ IsDeclared h.log name scopes) ∧
    ∀ op, (∃ top, (h.perform op).state.calls.items = top ++ op.others h.state.calls.items ∧
        top.length ≤ 1) ∧
      ∀ a ∈ op.others h.state.calls.items, ∀ id ∈ a.owned,
        (h.perform op).state.memory.get? id = h.state.memory.get? id := by
  intro h
  have hsound : h.Sound := CallHistory.sound_after sink ops
  refine ⟨hsound.live_iff, hsound.lookup_eq_some_iff, hsound.lookup_eq_none_iff, fun op => ?_⟩
  rcases h.perform_cases op with ⟨e, -, hop⟩ | hsame
  · exact hop.keeps_others hsound.holds
  · rw [hsame]
    exact ⟨op.exists_top _, fun _ _ _ _ => rfl⟩

/-- A variable is in sight again when the scope ends that declares another one of its name. -/
example :
    let h := CallHistory.after .unlimited [.call "main" .int none,
      .declare "x" .int false (.zeros 4) .scoped, .openScope,
      .declare "x" .char false (.zeros 1) .scoped, .closeScope]
    h.state.calls.top?.bind (·.lookup? "x") = some ⟨⟨1⟩, .int, false⟩ := by
  decide

end BoundedC
