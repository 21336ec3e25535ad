import Mathlib.Data.List.Nodup
import BoundedC.Proofs.Release

/-!
# What a buffer is for

A live buffer belongs to the arguments, to a variable of a call or to a literal of a call, and that
stays so: as no number is given twice, a buffer that is live at two moments of a run has served the
same purpose all the time between them.

* `Purpose`, `ProgramState.Uses` : what a buffer is the storage of;
* `Arena.Precedes` : what is released stays released;
* `KeepsPurposes`, `KeepsLiterals` : a job changes the purpose of no buffer that it leaves live, and a
  call that goes on keeps its literals;
* `Interpreter.purpose_unique`, `Interpreter.keepsLiterals_of_lasts` : two moments of a run.
-/

namespace BoundedC

open Effect Interpreter

/-- What a buffer is the storage of. The number of a call says how many calls were in progress when it
began. -/
inductive Purpose where
  /-- an argument of the program, or the table of them -/
  | argument
  /-- a variable or a parameter of a call -/
  | binding (call : Nat)
  /-- a string or an array literal that a call has evaluated -/
  | literal (call : Nat) (site : Location)

/-- The call in progress with the given number. -/
def callAt (calls : List Activation) (number : Nat) : Option Activation := calls.reverse[number]?

theorem callAt_cons (a : Activation) (callers : List Activation) (number : Nat) :
    callAt (a :: callers) number = if number = callers.length then some a else callAt callers number := by
  unfold callAt
  rw [List.reverse_cons]
  split
  · rename_i h
    rw [h, List.getElem?_append_right (Nat.le_of_eq List.length_reverse)]
    simp
  · rename_i h
    rcases Nat.lt_or_ge number callers.length with hlt | hge
    · exact List.getElem?_append_left (by rwa [List.length_reverse])
    · rw [List.getElem?_eq_none (by simp; omega), List.getElem?_eq_none (by simpa using hge)]

theorem callAt_length (a : Activation) (callers : List Activation) :
    callAt (a :: callers) callers.length = some a := by
  rw [callAt_cons, if_pos rfl]

theorem lt_of_callAt {calls : List Activation} {number : Nat} {a : Activation}
    (h : callAt calls number = some a) : number < calls.length := by
  obtain ⟨hlt, -⟩ := List.getElem?_eq_some_iff.1 h
  rwa [List.length_reverse] at hlt

theorem mem_of_callAt {calls : List Activation} {number : Nat} {a : Activation}
    (h : callAt calls number = some a) : a ∈ calls := List.mem_reverse.1 (List.mem_of_getElem? h)

/-- Calls that own a buffer in common are the same. -/
theorem number_unique {calls : List Activation} {m n : Nat} {a b : Activation} {id : BufferId}
    (hnodup : (calls.flatMap Activation.owned).Nodup) (ha : callAt calls m = some a)
    (hb : callAt calls n = some b) (hida : id ∈ a.owned) (hidb : id ∈ b.owned) : m = n := by
  induction calls with
  | nil => cases ha
  | cons c callers ih =>
    rw [List.flatMap_cons] at hnodup
    obtain ⟨-, hrest, hdisjoint⟩ := List.nodup_append.1 hnodup
    have hbelow {d : Activation} {k : Nat} (hd : callAt callers k = some d) (hid : id ∈ d.owned) :
        id ∉ c.owned := fun hc =>
      hdisjoint id hc id (List.mem_flatMap.2 ⟨d, mem_of_callAt hd, hid⟩) rfl
    rw [callAt_cons] at ha hb
    split at ha <;> split at hb
    · exact ‹m = _›.trans ‹n = _›.symm
    · cases ha
      exact absurd hida (hbelow hb hidb)
    · cases hb
      exact absurd hidb (hbelow ha hida)
    · exact ih hrest ha hb

namespace ProgramState

/-- In this state the buffer serves the purpose. -/
def Uses (s : ProgramState) (id : BufferId) : Purpose → Prop
  | .argument => ∃ length, s.memory.shape? id = some (.argument, length)
  | .binding call => ∃ a, callAt s.calls.items call = some a ∧ id ∈ a.scopeBuffers
  | .literal call site => ∃ a, callAt s.calls.items call = some a ∧ (site, id) ∈ a.literals

end ProgramState

section Moments

variable {s t : ProgramState} {id : BufferId} {x y : Purpose} {arguments : List (BufferId × Nat)}
  {a b : Activation} {callers : List Activation}

theorem mem_owned_of_literals {site : Location} (h : (site, id) ∈ a.literals) : id ∈ a.owned :=
  List.mem_append_right _ (List.mem_map.2 ⟨(site, id), h, rfl⟩)

theorem mem_owned_of_scopeBuffers (h : id ∈ a.scopeBuffers) : id ∈ a.owned := List.mem_append_left _ h

/-- What a buffer is created for, as its purpose says. -/
def Purpose.owner : Purpose → Owner
  | argument => .argument
  | binding _ => .scoped
  | literal .. => .literal

theorem ProgramState.Uses.exists_shape (h : s.Uses id x)
    (hacc : Accounted arguments s.memory s.calls.items) :
    ∃ length, s.memory.shape? id = some (x.owner, length) := by
  cases x with
  | argument => exact h
  | binding call =>
    obtain ⟨a, ha, hid⟩ := h
    obtain ⟨scope, hscope, hid⟩ := List.mem_flatMap.1 hid
    obtain ⟨v, hv, rfl⟩ := List.mem_map.1 hid
    exact ⟨_, ((hacc.fits a (mem_of_callAt ha)).scopes scope hscope v hv).2⟩
  | literal call site =>
    obtain ⟨a, ha, hid⟩ := h
    exact (hacc.fits a (mem_of_callAt ha)).literals _ hid

theorem ProgramState.Uses.live (h : s.Uses id x) (hacc : Accounted arguments s.memory s.calls.items) :
    (s.memory.shape? id).isSome := by
  obtain ⟨length, hshape⟩ := h.exists_shape hacc
  exact Option.isSome_of_eq_some hshape

/-- At one moment a buffer serves one purpose. -/
theorem ProgramState.Uses.unique (hx : s.Uses id x) (hy : s.Uses id y)
    (hacc : Accounted arguments s.memory s.calls.items) : x = y := by
  have howner : x.owner = y.owner := by
    obtain ⟨m, hm⟩ := hx.exists_shape hacc
    obtain ⟨n, hn⟩ := hy.exists_shape hacc
    exact congrArg Prod.fst (Option.some.inj (hm.symm.trans hn))
  have hnodup := (List.nodup_append.1 hacc.nodup).2.1
  cases x with
  | argument =>
    cases y with
    | argument => rfl
    | _ => cases howner
  | binding call =>
    cases y with
    | binding call' =>
      obtain ⟨a, ha, hida⟩ := hx
      obtain ⟨b, hb, hidb⟩ := hy
      rw [number_unique hnodup ha hb (mem_owned_of_scopeBuffers hida) (mem_owned_of_scopeBuffers hidb)]
    | _ => cases howner
  | literal call site =>
    cases y with
    | literal call' site' =>
      obtain ⟨a, ha, hida⟩ := hx
      obtain ⟨b, hb, hidb⟩ := hy
      obtain rfl := number_unique hnodup ha hb (mem_owned_of_literals hida) (mem_owned_of_literals hidb)
      cases ha.symm.trans hb
      have howned : a.owned.Nodup := (List.nodup_flatMap.1 hnodup).1 a (mem_of_callAt ha)
      have hliterals := (List.nodup_append.1 howned).2.1
      cases List.inj_on_of_nodup_map hliterals hida hidb rfl
      rfl
    | _ => cases howner

end Moments

/-! ## Memory in the course of time -/

namespace Arena

variable {a b c : Arena} {id : BufferId}

/-- What is live in `b` and had a number in `a` was the same in `a`. -/
def Precedes (a b : Arena) : Prop :=
  ∀ n < a.shapes.size, n < b.shapes.size ∧ (b.shapes[n]? = a.shapes[n]? ∨ b.shapes[n]? = some none)

theorem precedes_of_shapes (h : b.shapes = a.shapes) : a.Precedes b := by
  intro n hn
  rw [h]
  exact ⟨hn, .inl rfl⟩

theorem Precedes.trans (h : a.Precedes b) (h' : b.Precedes c) : a.Precedes c := by
  intro n hn
  obtain ⟨hb, hab⟩ := h n hn
  obtain ⟨hc, hbc⟩ := h' n hb
  refine ⟨hc, ?_⟩
  rcases hbc with hbc | hbc
  · rwa [hbc]
  · exact .inr hbc

theorem precedes_allocateWith {bytes : Array UInt8} {owner : Owner}
    (h : a.allocateWith bytes owner = (.ok id, b)) : a.Precedes b := by
  unfold allocateWith at h
  dsimp only at h
  split at h
  · cases h
    intro n hn
    have hshapes : (Arena.mk (a.slots.push (some ⟨bytes, owner⟩))).shapes =
        a.shapes.push (some (owner, bytes.size)) := by
      simp [shapes, Buffer.shape, Buffer.size]
    rw [hshapes, Array.size_push, Array.getElem?_push, if_neg (Nat.ne_of_lt hn)]
    exact ⟨Nat.lt_succ_of_lt hn, .inl rfl⟩
  · cases h

theorem precedes_allocate {length : Nat} {owner : Owner} (h : a.allocate length owner = (.ok id, b)) :
    a.Precedes b := by
  unfold allocate at h
  split at h
  · exact precedes_allocateWith h
  · cases h

theorem precedes_release (a : Arena) (id : BufferId) : a.Precedes (a.release id) := by
  unfold release
  cases slot? id with
  | none => exact precedes_of_shapes rfl
  | some i =>
    intro n hn
    simp only [shapes, Array.size_map, Array.size_setIfInBounds, Array.getElem?_map,
      Array.getElem?_setIfInBounds] at hn ⊢
    refine ⟨hn, ?_⟩
    split
    · rw [if_pos (by omega)]
      exact .inr rfl
    · exact .inl rfl

theorem precedes_releaseAll (a : Arena) (ids : List BufferId) : a.Precedes (a.releaseAll ids) := by
  induction ids generalizing a with
  | nil => exact precedes_of_shapes rfl
  | cons id ids ih => exact (a.precedes_release id).trans (ih _)

theorem exists_slot_of_live (h : (a.shape? id).isSome) :
    ∃ n < a.shapes.size, ∀ b : Arena, b.shape? id = b.shapes[n]?.join := by
  unfold shape? at h
  cases hslot : slot? id with
  | none =>
    rw [hslot] at h
    cases h
  | some n =>
    refine ⟨n, Nat.lt_of_not_le fun hge => ?_, fun b => by rw [shape?, hslot]; rfl⟩
    rw [hslot, Option.bind_eq_bind, Option.bind_some, Array.getElem?_eq_none hge] at h
    cases h

theorem Precedes.shape?_eq (h : a.Precedes b) (ha : (a.shape? id).isSome)
    (hb : (b.shape? id).isSome) : b.shape? id = a.shape? id := by
  obtain ⟨n, hn, hshape⟩ := exists_slot_of_live ha
  rw [hshape] at hb
  rw [hshape, hshape]
  rcases (h n hn).2 with hab | hab
  · rw [hab]
  · rw [hab] at hb
    cases hb

/-- What is live at two moments is live between them. -/
theorem Precedes.live (h : a.Precedes b) (h' : b.Precedes c) (ha : (a.shape? id).isSome)
    (hc : (c.shape? id).isSome) : (b.shape? id).isSome := by
  obtain ⟨n, hn, hshape⟩ := exists_slot_of_live ha
  obtain ⟨hnb, hab⟩ := h n hn
  rcases hab with hab | hab
  · rwa [hshape, hab, ← hshape]
  · rw [hshape] at hc
    rcases (h' n hnb).2 with hbc | hbc
    · rw [hbc, hab] at hc
      cases hc
    · rw [hbc] at hc
      cases hc

end Arena

/-! ## One job -/

section Jobs

variable {s t : ProgramState} {id : BufferId} {x : Purpose} {arguments : List (BufferId × Nat)}
  {jobs jobs' : List Job}

theorem precedes_bindParams {place : Location} {params : List (Param × Value)} {a b : Activation}
    (h : (bindParams place a params).run s = (.ok b, t)) : s.memory.Precedes t.memory := by
  induction params generalizing a s with
  | nil =>
    cases h
    exact Arena.precedes_of_shapes rfl
  | cons head rest ih =>
    obtain ⟨id, u, hu, h⟩ := run_bind_eq_ok_iff.1 h
    obtain ⟨_, v, hv, h⟩ := run_bind_eq_ok_iff.1 h
    obtain ⟨stored, hv⟩ := run_discard_eq_ok hv
    have hallocate := Arena.precedes_allocate (run_onMemory_eq_ok hu).1
    have hstore := Arena.precedes_of_shapes (run_store_eq_ok hv).2
    exact (hallocate.trans hstore).trans (ih h)

/-- The one call has the buffer for whatever the other one has it for. -/
structure Activation.Inherits (id : BufferId) (a b : Activation) : Prop where
  scopes : id ∈ a.scopeBuffers → id ∈ b.scopeBuffers
  literals : ∀ site, (site, id) ∈ a.literals → (site, id) ∈ b.literals

theorem Activation.Inherits.refl (id : BufferId) (a : Activation) : Inherits id a a :=
  ⟨fun h => h, fun _ h => h⟩

theorem exists_inherits {a b c : Activation} {callers : List Activation} {number : Nat}
    (h : a.Inherits id b) (hc : callAt (a :: callers) number = some c) :
    ∃ d, callAt (b :: callers) number = some d ∧ c.Inherits id d := by
  rw [callAt_cons] at hc ⊢
  split at hc
  · rename_i hnumber
    cases hc
    exact ⟨b, if_pos hnumber, h⟩
  · rename_i hnumber
    exact ⟨c, by rw [if_neg hnumber, hc], .refl id c⟩

theorem ProgramState.Uses.imp (h : s.Uses id x) (hshape : t.memory.shape? id = s.memory.shape? id)
    (hcalls : ∀ number c, callAt s.calls.items number = some c → id ∈ c.owned →
      ∃ d, callAt t.calls.items number = some d ∧ c.Inherits id d) : t.Uses id x := by
  cases x with
  | argument =>
    obtain ⟨length, h⟩ := h
    exact ⟨length, hshape.trans h⟩
  | binding call =>
    obtain ⟨a, ha, hid⟩ := h
    obtain ⟨b, hb, hinherits⟩ := hcalls call a ha (mem_owned_of_scopeBuffers hid)
    exact ⟨b, hb, hinherits.scopes hid⟩
  | literal call site =>
    obtain ⟨a, ha, hid⟩ := h
    obtain ⟨b, hb, hinherits⟩ := hcalls call a ha (mem_owned_of_literals hid)
    exact ⟨b, hb, hinherits.literals site hid⟩

/-- From `s` to `t` no buffer that stays live changes its purpose. -/
structure KeepsPurposes (s t : ProgramState) : Prop where
  precedes : s.memory.Precedes t.memory
  uses : ∀ id x, (s.memory.shape? id).isSome → (t.memory.shape? id).isSome → s.Uses id x → t.Uses id x

theorem KeepsPurposes.refl (s : ProgramState) : KeepsPurposes s s :=
  ⟨Arena.precedes_of_shapes rfl, fun _ _ _ _ h => h⟩

theorem KeepsPurposes.trans {u : ProgramState} (h : KeepsPurposes s t) (h' : KeepsPurposes t u) :
    KeepsPurposes s u := by
  refine ⟨h.precedes.trans h'.precedes, fun id x hs hu hx => ?_⟩
  have ht := h.precedes.live h'.precedes hs hu
  exact h'.uses id x ht hu (h.uses id x hs ht hx)

theorem keepsPurposes_of_calls (hmemory : s.memory.Precedes t.memory)
    (hcalls : ∀ id, (t.memory.shape? id).isSome → ∀ number c, callAt s.calls.items number = some c →
      id ∈ c.owned → ∃ d, callAt t.calls.items number = some d ∧ c.Inherits id d) : KeepsPurposes s t :=
  ⟨hmemory, fun id _ hs ht hx => hx.imp (hmemory.shape?_eq hs ht) (hcalls id ht)⟩

/-- A change of the call in progress. -/
theorem keepsPurposes_of_top {a b : Activation} {callers : List Activation}
    (hmemory : s.memory.Precedes t.memory) (hs : s.calls.items = a :: callers)
    (ht : t.calls.items = b :: callers)
    (hinherits : ∀ id, (t.memory.shape? id).isSome → a.Inherits id b) : KeepsPurposes s t := by
  refine keepsPurposes_of_calls hmemory fun id hlive number c hc _ => ?_
  rw [hs] at hc
  rw [ht]
  exact exists_inherits (hinherits id hlive) hc

theorem keepsPurposes_of_calls_eq (hmemory : s.memory.Precedes t.memory) (hcalls : t.calls = s.calls) :
    KeepsPurposes s t :=
  keepsPurposes_of_calls hmemory fun id _ _ c hc _ => ⟨c, hcalls ▸ hc, .refl id c⟩

theorem Gain.keepsPurposes (h : Gain s t) : KeepsPurposes s t := by
  cases h with
  | change h =>
    cases h with
    | contents hm hc => exact keepsPurposes_of_calls_eq (Arena.precedes_of_shapes hm) hc
    | adopt hs hm ht =>
      exact keepsPurposes_of_top (Arena.precedes_allocate hm) hs ht fun _ _ =>
        ⟨fun h => h, fun _ h => List.mem_cons_of_mem _ h⟩
    | @declare a _ name b hs _ hm ht =>
      refine keepsPurposes_of_top (Arena.precedes_allocate hm) hs ht fun _ _ => ⟨fun h => ?_, fun _ h => h⟩
      rw [a.scopeBuffers_declare]
      exact List.mem_cons_of_mem _ h
  | @openScope a _ hs ht hm =>
    refine keepsPurposes_of_top (hm ▸ Arena.precedes_of_shapes rfl) hs ht fun _ _ => ⟨fun h => ?_, fun _ h => h⟩
    rwa [a.scopeBuffers_openScope]
  | enterCall hu ht hm =>
    refine keepsPurposes_of_calls (hm ▸ precedes_bindParams hu) fun id _ number c hc _ => ⟨c, ?_, .refl id c⟩
    rw [ht, callAt_cons, if_neg (Nat.ne_of_lt (lt_of_callAt hc)), hc]

theorem Loss.keepsPurposes (h : Loss s t) : KeepsPurposes s t := by
  cases h with
  | contents hm hc => exact keepsPurposes_of_calls_eq (Arena.precedes_of_shapes hm) hc
  | @closeScope a _ hs ht hm =>
    refine keepsPurposes_of_top (hm ▸ s.memory.precedes_releaseAll _) hs ht fun id hlive =>
      ⟨fun h => ?_, fun _ h => h⟩
    rw [a.scopeBuffers_closeScope] at h
    refine (List.mem_append.1 h).resolve_left fun hinner => ?_
    rw [hm, Arena.shape?_releaseAll, if_pos hinner] at hlive
    cases hlive
  | @leaveCall a hs hm =>
    refine keepsPurposes_of_calls (hm ▸ s.memory.precedes_releaseAll _) fun id hlive number c hc hid => ?_
    rw [hs, callAt_cons] at hc
    split at hc
    · cases hc
      rw [hm, Arena.shape?_releaseAll, if_pos hid] at hlive
      cases hlive
    · exact ⟨c, hc, .refl id c⟩

theorem Gains.keepsPurposes (h : Gains s t) : KeepsPurposes s t := by
  induction h with
  | refl => exact .refl s
  | tail _ h ih => exact ih.trans h.keepsPurposes

theorem Losses.keepsPurposes (h : Losses s t) : KeepsPurposes s t := by
  induction h with
  | refl => exact .refl s
  | tail _ h ih => exact ih.trans h.keepsPurposes

theorem Reworks.keepsPurposes (h : Reworks jobs s jobs' t) : KeepsPurposes s t := by
  cases h with
  | adds _ _ hstate => exact hstate.keepsPurposes
  | drops _ hstate => exact hstate.keepsPurposes

/-- The call with the number goes on, and has the literals that it had. -/
def KeepsLiterals (call : Nat) (s t : ProgramState) : Prop :=
  ∀ a, callAt s.calls.items call = some a →
    ∃ b, callAt t.calls.items call = some b ∧ a.literals ⊆ b.literals

namespace KeepsLiterals

variable {call : Nat}

theorem refl (call : Nat) (s : ProgramState) : KeepsLiterals call s s :=
  fun a ha => ⟨a, ha, List.Subset.refl _⟩

theorem trans {u : ProgramState} (h : KeepsLiterals call s t) (h' : KeepsLiterals call t u) :
    KeepsLiterals call s u := by
  intro a ha
  obtain ⟨b, hb, hab⟩ := h a ha
  obtain ⟨c, hc, hbc⟩ := h' b hb
  exact ⟨c, hc, List.Subset.trans hab hbc⟩

theorem uses {site : Location} (h : KeepsLiterals call s t) (hx : s.Uses id (.literal call site)) :
    t.Uses id (.literal call site) := by
  obtain ⟨a, ha, hid⟩ := hx
  obtain ⟨b, hb, hab⟩ := h a ha
  exact ⟨b, hb, hab hid⟩

theorem of_calls_eq (hcalls : t.calls = s.calls) : KeepsLiterals call s t :=
  fun a ha => ⟨a, hcalls ▸ ha, List.Subset.refl _⟩

theorem of_top {a b : Activation} {callers : List Activation} (hs : s.calls.items = a :: callers)
    (ht : t.calls.items = b :: callers) (hliterals : a.literals ⊆ b.literals) :
    KeepsLiterals call s t := by
  intro c hc
  rw [hs, callAt_cons] at hc
  rw [ht, callAt_cons]
  split at hc
  · cases hc
    exact ⟨b, if_pos ‹_›, hliterals⟩
  · exact ⟨c, by rwa [if_neg ‹_›], List.Subset.refl _⟩

end KeepsLiterals

theorem Gain.keepsLiterals (h : Gain s t) (call : Nat) : KeepsLiterals call s t := by
  cases h with
  | change h =>
    cases h with
    | contents _ hc => exact .of_calls_eq hc
    | adopt hs _ ht => exact .of_top hs ht (List.subset_cons_self _ _)
    | declare hs _ _ ht => exact .of_top hs ht (List.Subset.refl _)
  | openScope hs ht => exact .of_top hs ht (List.Subset.refl _)
  | enterCall _ ht =>
    intro c hc
    refine ⟨c, ?_, List.Subset.refl _⟩
    rw [ht, callAt_cons, if_neg (Nat.ne_of_lt (lt_of_callAt hc)), hc]

theorem Loss.keepsLiterals {call : Nat} (h : Loss s t) (hcall : call < t.calls.items.length) :
    KeepsLiterals call s t := by
  cases h with
  | contents _ hc => exact .of_calls_eq hc
  | closeScope hs ht => exact .of_top hs ht (List.Subset.refl _)
  | leaveCall hs =>
    intro c hc
    rw [hs, callAt_cons, if_neg (Nat.ne_of_lt hcall)] at hc
    exact ⟨c, hc, List.Subset.refl _⟩

theorem Loss.length_calls_le (h : Loss s t) : t.calls.items.length ≤ s.calls.items.length := by
  cases h with
  | contents _ hc => exact Nat.le_of_eq (by rw [hc])
  | closeScope hs ht => exact Nat.le_of_eq (by rw [hs, ht, List.length_cons, List.length_cons])
  | leaveCall hs =>
    rw [hs, List.length_cons]
    exact Nat.le_succ _

theorem Gains.keepsLiterals (h : Gains s t) (call : Nat) : KeepsLiterals call s t := by
  induction h with
  | refl => exact .refl call s
  | tail _ h ih => exact ih.trans (h.keepsLiterals call)

theorem Losses.keepsLiterals {call : Nat} (h : Losses s t) (hcall : call < t.calls.items.length) :
    KeepsLiterals call s t := by
  induction h with
  | refl => exact .refl call s
  | tail _ h ih => exact (ih (Nat.lt_of_lt_of_le hcall h.length_calls_le)).trans (h.keepsLiterals hcall)

theorem Reworks.keepsLiterals {call : Nat} (h : Reworks jobs s jobs' t)
    (hcall : call < t.calls.items.length) : KeepsLiterals call s t := by
  cases h with
  | adds _ _ hstate => exact hstate.keepsLiterals call
  | drops _ hstate => exact hstate.keepsLiterals hcall

end Jobs

/-! ## Runs -/

namespace Interpreter

/-- The call with the number is in progress from one moment of a run to another. -/
def Lasts (i : Interpreter) (r : Run) (call j k : Nat) : Prop :=
  ∀ l, j ≤ l → l ≤ k → ∀ m s, i.advance l r = .underWay m s → call < s.calls.items.length

variable {i : Interpreter} {args : List (List UInt8)} {sink : Sink} {m m' : Machine}
  {s t : ProgramState} {id : BufferId} {x y : Purpose} {j k : Nat}

theorem advance_sub (hjk : j ≤ k) (r : Run) : i.advance k r = i.advance (k - j) (i.advance j r) := by
  rw [← advance_add, Nat.add_sub_cancel' hjk]

theorem keepsPurposes_of_advance (hjk : j ≤ k) (hj : i.advance j (i.begin args sink) = .underWay m s)
    (hk : i.advance k (i.begin args sink) = .underWay m' t) : KeepsPurposes s t := by
  rw [advance_sub hjk, hj] at hk
  refine invariant_of_advance (P := fun _ u => KeepsPurposes s u) ?_ ?_ hk
  · rintro _ _ ⟨⟩
    exact .refl s
  · intro l _ m₁ s₁ m₂ s₂ h₁ _ hstep hkeeps
    have hreaches : i.Reaches args sink m₁ s₁ := ⟨j + l, by rw [advance_add, hj, h₁]⟩
    exact hkeeps.trans ((above_of_reaches hreaches).reworks hstep).keepsPurposes

/-- A call keeps its literals as long as it goes on. -/
theorem keepsLiterals_of_lasts {call : Nat} (hjk : j ≤ k)
    (hj : i.advance j (i.begin args sink) = .underWay m s)
    (hk : i.advance k (i.begin args sink) = .underWay m' t)
    (hlasts : i.Lasts (i.begin args sink) call j k) : KeepsLiterals call s t := by
  rw [advance_sub hjk, hj] at hk
  refine invariant_of_advance (P := fun _ u => KeepsLiterals call s u) ?_ ?_ hk
  · rintro _ _ ⟨⟩
    exact .refl call s
  · intro l hl m₁ s₁ m₂ s₂ h₁ h₂ hstep hkeeps
    have hreaches : i.Reaches args sink m₁ s₁ := ⟨j + l, by rw [advance_add, hj, h₁]⟩
    have hrun : i.advance (j + (l + 1)) (i.begin args sink) = .underWay m₂ s₂ := by
      rw [advance_add, hj, h₂]
    have hcall := hlasts (j + (l + 1)) (Nat.le_add_right _ _) (by omega) m₂ s₂ hrun
    exact hkeeps.trans (((above_of_reaches hreaches).reworks hstep).keepsLiterals hcall)

theorem exists_accounted (i : Interpreter) (args : List (List UInt8)) (sink : Sink) :
    ∃ arguments, ∀ n m s, i.advance n (i.begin args sink) = .underWay m s →
      Accounted arguments s.memory s.calls.items := by
  obtain ⟨arguments, -, hbegin⟩ := i.exists_arguments args sink
  exact ⟨arguments, fun n _ _ h => accounted_of_reaches hbegin ⟨n, h⟩⟩

/-- A buffer that is live at two moments of a run serves one purpose from the one to the other. -/
theorem purpose_unique (hjk : j ≤ k) (hj : i.advance j (i.begin args sink) = .underWay m s)
    (hk : i.advance k (i.begin args sink) = .underWay m' t) (hx : s.Uses id x) (hy : t.Uses id y) :
    x = y ∧ ∀ l, j ≤ l → l ≤ k → ∀ m'' u, i.advance l (i.begin args sink) = .underWay m'' u →
      u.Uses id x := by
  obtain ⟨arguments, hacc⟩ := i.exists_accounted args sink
  have hs := hx.live (hacc j m s hj)
  have ht := hy.live (hacc k m' t hk)
  have hxt := (keepsPurposes_of_advance hjk hj hk).uses id x hs ht hx
  refine ⟨hxt.unique hy (hacc k m' t hk), fun l hjl hlk m'' u hl => ?_⟩
  have hfirst := keepsPurposes_of_advance hjl hj hl
  have hrest := keepsPurposes_of_advance hlk hl hk
  exact hfirst.uses id x hs (hfirst.precedes.live hrest.precedes hs ht) hx

/-- While the buffer of a literal is in use, the call goes on that has evaluated the literal. -/
theorem lasts_of_uses {r : Run} {call : Nat} {site : Location}
    (h : ∀ l, j ≤ l → l ≤ k → ∀ m s, i.advance l r = .underWay m s → s.Uses id (.literal call site)) :
    i.Lasts r call j k := by
  intro l hjl hlk m s hl
  obtain ⟨a, ha, -⟩ := h l hjl hlk m s hl
  exact lt_of_callAt ha

/-- The buffer of a literal serves no other purpose at any moment of a run, and at none at which the call
that has evaluated the literal is not in progress. -/
theorem literal_unique {call : Nat} {site : Location}
    (hj : i.advance j (i.begin args sink) = .underWay m s)
    (hk : i.advance k (i.begin args sink) = .underWay m' t) (hx : s.Uses id (.literal call site))
    (hy : t.Uses id y) :
    y = .literal call site ∧ i.Lasts (i.begin args sink) call (min j k) (max j k) := by
  rcases Nat.le_total j k with hjk | hkj
  · obtain ⟨rfl, huses⟩ := purpose_unique hjk hj hk hx hy
    rw [Nat.min_eq_left hjk, Nat.max_eq_right hjk]
    exact ⟨rfl, lasts_of_uses huses⟩
  · obtain ⟨rfl, huses⟩ := purpose_unique hkj hk hj hy hx
    rw [Nat.min_eq_right hkj, Nat.max_eq_left hkj]
    exact ⟨rfl, lasts_of_uses huses⟩

end Interpreter

end BoundedC
