import Mathlib.Data.List.Dedup
import Mathlib.Data.List.Perm.Subperm
import BoundedC.Proofs.Composition
import BoundedC.Proofs.LiteralSites
import BoundedC.Proofs.Release

/-!
# The buffers of literals

A call keeps one buffer for a literal as long as the literal has the same length at each evaluation. A
buffer of another length is taken in addition to the last one, which ends with the call.

* `Activation.literalBuffers` : the live buffers of literals that a call owns;
* `Arena.lengthChanges` : how often a literal had another length than at its evaluation before;
* `Activation.Frugal` : a literal of the function takes another buffer only if its length has changed;
  `Activation.Frugal.length_le` : how many buffers that makes;
* `KeepsFrugal`, `Effect.Thrifty` : effects within a call, whether they succeed or fail;
* `Interpreter.Frugal` : all calls in progress; it lasts when scopes are closed and calls begin and end.
-/

namespace BoundedC

open Effect Interpreter

/-! ## Literals that change their length -/

def Arena.size? (memory : Arena) (id : BufferId) : Option Nat := (memory.get? id).map Buffer.size

/-- How many of these buffers, the latest first, have another length than the one that the same
literal had before. -/
def Arena.lengthChanges (memory : Arena) : List (Location × BufferId) → Nat
  | [] => 0
  | (site, id) :: older =>
    match older.lookup site with
    | some last =>
      (if memory.size? last = memory.size? id then 0 else 1) + memory.lengthChanges older
    | none => memory.lengthChanges older

namespace Activation

/-- The live buffers of literals that the call owns. -/
def literalBuffers (a : Activation) (memory : Arena) : List BufferId :=
  a.owned.filter fun id => (memory.get? id).any (·.owner = .literal)

/-- A buffer for a literal that had one before has another length than that one. -/
def Spread (memory : Arena) : List (Location × BufferId) → Prop
  | [] => True
  | (site, id) :: older =>
    (∀ last, older.lookup site = some last → memory.shape? last ≠ memory.shape? id) ∧
      Spread memory older

/-- The buffers of a call are as they should be, its literals are in the given trees, and each of them
has taken another buffer only if its length had changed. -/
structure Frugal (memory : Arena) (trees : List Node) (a : Activation) : Prop where
  fits : a.Fits memory
  sites : ∀ x ∈ a.literals, ∃ node : Node, node.Within trees ∧
    ∃ length, node.Stores x.1 length ∧ memory.shape? x.2 = some (.literal, length)
  spread : Spread memory a.literals

theorem mem_of_lookup {literals : List (Location × BufferId)} {site : Location} {id : BufferId}
    (h : literals.lookup site = some id) : (site, id) ∈ literals := by
  obtain ⟨before, after, rfl, -⟩ := List.lookup_eq_some_iff.1 h
  exact List.mem_append_right _ List.mem_cons_self

theorem Spread.mono {memory memory' : Arena} {literals : List (Location × BufferId)}
    (h : Spread memory literals)
    (hsame : ∀ x ∈ literals, memory'.shape? x.2 = memory.shape? x.2) : Spread memory' literals := by
  induction literals with
  | nil => trivial
  | cons x older ih =>
    refine ⟨fun last hlast => ?_, ih h.2 fun y hy => hsame y (List.mem_cons_of_mem _ hy)⟩
    rw [hsame _ List.mem_cons_self, hsame _ (List.mem_cons_of_mem _ (mem_of_lookup hlast))]
    exact h.1 last hlast

namespace Frugal

variable {memory memory' : Arena} {trees : List Node} {a : Activation}

theorem of_same (h : a.Frugal memory trees)
    (hsame : ∀ id ∈ a.owned, memory'.shape? id = memory.shape? id) : a.Frugal memory' trees := by
  have hliteral : ∀ x ∈ a.literals, memory'.shape? x.2 = memory.shape? x.2 := fun x hx =>
    hsame x.2 (List.mem_append_right _ (List.mem_map_of_mem hx))
  refine ⟨h.fits.mono hsame, fun x hx => ?_, h.spread.mono hliteral⟩
  rw [hliteral x hx]
  exact h.sites x hx

theorem exists_shape (h : a.Frugal memory trees) {id : BufferId} (hid : id ∈ a.owned) :
    ∃ shape, memory.shape? id = some shape := by
  rcases List.mem_append.1 hid with hid | hid
  · obtain ⟨scope, hscope, hid⟩ := List.mem_flatMap.1 hid
    obtain ⟨x, hx, rfl⟩ := List.mem_map.1 hid
    exact ⟨_, (h.fits.scopes scope hscope x hx).2⟩
  · obtain ⟨x, hx, rfl⟩ := List.mem_map.1 hid
    obtain ⟨length, hlength⟩ := h.fits.literals x hx
    exact ⟨_, hlength⟩

theorem of_retains (h : a.Frugal memory trees) (hmemory : memory.Retains memory') :
    a.Frugal memory' trees := by
  refine h.of_same fun id hid => ?_
  obtain ⟨shape, hshape⟩ := h.exists_shape hid
  rw [hshape, hmemory id shape hshape]

/-- What is released belongs to others. -/
theorem of_releaseAll (h : a.Frugal memory trees) {ids : List BufferId}
    (hids : ∀ id ∈ a.owned, id ∉ ids) : a.Frugal (memory.releaseAll ids) trees :=
  h.of_same fun id hid => by rw [Arena.shape?_releaseAll, if_neg (hids id hid)]

theorem declare {name : String} {b : Binding} (h : a.Frugal memory trees) (hb : b.type ≠ .void)
    (hm : memory.Adds memory' b.buffer (.scoped, b.type.size)) :
    (a.declare name b).Frugal memory' trees := by
  obtain ⟨hfits, hsites, hspread⟩ := h.of_retains hm.retains
  exact ⟨hfits.declare hb hm.added, hsites, hspread⟩

theorem adopt {site : Location} {id : BufferId} {length : Nat} {node : Node}
    (h : a.Frugal memory trees) (hnode : node.Within trees) (hstores : node.Stores site length)
    (hm : memory.Adds memory' id (.literal, length))
    (hnew : ∀ last, a.literal? site = some last → memory.shape? last ≠ some (.literal, length)) :
    (a.adopt site id).Frugal memory' trees := by
  obtain ⟨hfits, hsites, hspread⟩ := h.of_retains hm.retains
  refine ⟨hfits.adopt hm.added, ?_, ?_, hspread⟩
  · rintro x hx
    rcases List.mem_cons.1 hx with rfl | hx
    · exact ⟨node, hnode, length, hstores, hm.added⟩
    · exact hsites x hx
  · intro last hlast hsame
    obtain ⟨shape, hshape⟩ := h.exists_shape
      (List.mem_append_right _ (List.mem_map_of_mem (mem_of_lookup hlast)))
    rw [hm.added, hm.retains last shape hshape, ← hshape] at hsame
    exact hnew last hlast hsame

theorem openScope (h : a.Frugal memory trees) : a.openScope.Frugal memory trees :=
  ⟨h.fits.openScope, h.sites, h.spread⟩

theorem closeScope (h : a.Frugal memory trees) : a.closeScope.Frugal memory trees :=
  ⟨h.fits.closeScope, h.sites, h.spread⟩

end Frugal

/-! ## Counting -/

variable {memory : Arena} {a : Activation}

/-- Each buffer is the first one of its literal, or the literal has changed its length. -/
theorem length_le_of_spread {literals : List (Location × BufferId)} (h : Spread memory literals)
    (hfits : ∀ x ∈ literals, ∃ length, memory.shape? x.2 = some (.literal, length)) :
    literals.length ≤ (literals.map (·.1)).dedup.length + memory.lengthChanges literals := by
  induction literals with
  | nil => exact Nat.zero_le _
  | cons x older ih =>
    obtain ⟨site, id⟩ := x
    have holder := ih h.2 fun y hy => hfits y (List.mem_cons_of_mem _ hy)
    rw [List.map_cons, List.length_cons, Arena.lengthChanges]
    cases hlast : older.lookup site with
    | some last =>
      have hmem : site ∈ older.map (·.1) := List.mem_map_of_mem (mem_of_lookup hlast)
      obtain ⟨m, hm⟩ := hfits _ (List.mem_cons_of_mem _ (mem_of_lookup hlast))
      obtain ⟨n, hn⟩ := hfits _ List.mem_cons_self
      obtain ⟨b, hb, -, hbsize⟩ := Arena.get?_of_shape? hm
      obtain ⟨c, hc, -, hcsize⟩ := Arena.get?_of_shape? hn
      have hne : memory.size? last ≠ memory.size? id := by
        intro hsize
        refine h.1 last hlast ?_
        rw [Arena.size?, Arena.size?, hb, hc] at hsize
        rw [hm, hn, ← hbsize, ← hcsize, Option.some.inj hsize]
      rw [List.dedup_cons_of_mem hmem]
      simp only [if_neg hne]
      omega
    | none =>
      have hmem : site ∉ older.map (·.1) := by
        intro hmem
        obtain ⟨y, hy, rfl⟩ := List.mem_map.1 hmem
        simpa using List.lookup_eq_none_iff.1 hlast y hy
      rw [List.dedup_cons_of_notMem hmem, List.length_cons]
      simp only
      omega

/-- Of what a call owns, the buffers of its literals are for literals. -/
theorem literalBuffers_eq (h : a.Fits memory) : a.literalBuffers memory = a.literals.map (·.2) := by
  rw [literalBuffers, owned, List.filter_append, List.filter_eq_nil_iff.2, List.nil_append,
    List.filter_eq_self.2]
  · intro id hid
    obtain ⟨x, hx, rfl⟩ := List.mem_map.1 hid
    obtain ⟨length, hlength⟩ := h.literals x hx
    obtain ⟨b, hb, howner, -⟩ := Arena.get?_of_shape? hlength
    simp [hb, howner]
  · intro id hid
    obtain ⟨scope, hscope, hid⟩ := List.mem_flatMap.1 hid
    obtain ⟨x, hx, rfl⟩ := List.mem_map.1 hid
    obtain ⟨b, hb, howner, -⟩ := Arena.get?_of_shape? (h.scopes scope hscope x hx).2
    simp [hb, howner]

theorem Frugal.length_le {trees : List Node} (h : a.Frugal memory trees) :
    (a.literalBuffers memory).length ≤
      (Node.literalSitesOf trees).length + memory.lengthChanges a.literals := by
  rw [literalBuffers_eq h.fits, List.length_map]
  have hsites : (a.literals.map (·.1)).dedup ⊆ Node.literalSitesOf trees := by
    intro site hsite
    obtain ⟨x, hx, rfl⟩ := List.mem_map.1 (List.mem_dedup.1 hsite)
    obtain ⟨node, hnode, length, hstores, -⟩ := h.sites x hx
    exact hnode.mem_literalSitesOf hstores
  have hle := (List.subperm_of_subset (List.nodup_dedup _) hsites).length_le
  exact Nat.le_trans (length_le_of_spread h.spread h.fits.literals) (Nat.add_le_add_right hle _)

end Activation

/-! ## Buffers of other owners -/

namespace Accounted

variable {arguments : List (BufferId × Nat)} {memory : Arena} {a : Activation}
  {callers : List Activation}

/-- What ends with a scope belongs to nothing that goes on. -/
theorem notMem_innermost (h : Accounted arguments memory (a :: callers)) :
    ∀ b ∈ a.closeScope :: callers, ∀ id ∈ b.owned, id ∉ a.innermost.buffers := by
  have hnodup := (List.nodup_append.1 h.nodup).2.1
  rw [List.flatMap_cons, a.owned_closeScope, List.append_assoc, ← List.flatMap_cons] at hnodup
  intro b hb id hid hinner
  exact (List.nodup_append.1 hnodup).2.2 id hinner id (List.mem_flatMap.2 ⟨b, hb, hid⟩) rfl

/-- What ends with a call belongs to no caller. -/
theorem notMem_owned (h : Accounted arguments memory (a :: callers)) :
    ∀ b ∈ callers, ∀ id ∈ b.owned, id ∉ a.owned := by
  have hnodup := (List.nodup_append.1 h.nodup).2.1
  rw [List.flatMap_cons] at hnodup
  intro b hb id hid howned
  exact (List.nodup_append.1 hnodup).2.2 id howned id (List.mem_flatMap.2 ⟨b, hb, hid⟩) rfl

end Accounted

/-! ## Effects within a call -/

/-- From `s` to `t` no buffer ends and the callers stay as they are. If the call in progress is frugal
with the literals in the given trees, it stays like that. -/
structure KeepsFrugal (trees : List Node) (s t : ProgramState) : Prop where
  memory : s.memory.Retains t.memory
  calls : ∀ a callers, s.calls.items = a :: callers → ∃ b, t.calls.items = b :: callers ∧
    b.function = a.function ∧ (a.Frugal s.memory trees → b.Frugal t.memory trees)

theorem KeepsFrugal.refl (trees : List Node) (s : ProgramState) : KeepsFrugal trees s s :=
  ⟨.refl _, fun a _ hs => ⟨a, hs, rfl, id⟩⟩

theorem KeepsFrugal.trans {trees : List Node} {s t u : ProgramState} (h : KeepsFrugal trees s t)
    (h' : KeepsFrugal trees t u) : KeepsFrugal trees s u := by
  refine ⟨h.memory.trans h'.memory, fun a callers hs => ?_⟩
  obtain ⟨b, ht, hb, hkeep⟩ := h.calls a callers hs
  obtain ⟨c, hu, hc, hkeep'⟩ := h'.calls b callers ht
  exact ⟨c, hu, hc.trans hb, hkeep' ∘ hkeep⟩

namespace Effect

variable {α β : Type} {trees : List Node} {node : Node} {s : ProgramState}

/-- Whether it succeeds or fails, the effect keeps a call frugal. -/
def Thrifty (trees : List Node) (x : Effect α) : Prop := ∀ s, KeepsFrugal trees s (x.run s).2

/-- What holds after the first effect, if that fails, and else after the second one. -/
theorem after_bind {P : ProgramState → Prop} {x : Effect α} {f : α → Effect β} (hx : P (x.run s).2)
    (hf : ∀ a t, x.run s = (.ok a, t) → P ((f a).run t).2) : P ((x >>= f).run s).2 := by
  rw [run_bind]
  rcases h : x.run s with ⟨e | a, t⟩
  · rwa [h] at hx
  · exact hf a t h

theorem snd_run_bind_pure (x : Effect α) (f : α → β) (s : ProgramState) :
    ((x >>= fun a => (pure (f a) : Effect β)).run s).2 = (x.run s).2 := by
  rw [run_bind]
  rcases x.run s with ⟨_ | _, _⟩ <;> rfl

theorem after_bind_pure {P : ProgramState → Prop} {x : Effect α} (hx : P (x.run s).2) (f : α → β) :
    P ((x >>= fun a => (pure (f a) : Effect β)).run s).2 := by
  rwa [snd_run_bind_pure]

theorem keepsFrugal_of_calls_eq {t : ProgramState} (hcalls : t.calls = s.calls)
    (hmemory : s.memory.Retains t.memory) : KeepsFrugal trees s t :=
  ⟨hmemory, fun a _ hs => ⟨a, hcalls ▸ hs, rfl, fun ha => ha.of_retains hmemory⟩⟩

theorem thrifty_of_composed {x : Effect α} (h : Composed True false x) : Thrifty trees x :=
  fun s => keepsFrugal_of_calls_eq (h.calls_eq s) (h.retains s)

theorem Thrifty.bind {x : Effect α} {f : α → Effect β} (hx : Thrifty trees x)
    (hf : ∀ a, Thrifty trees (f a)) : Thrifty trees (x >>= f) := by
  refine fun s => after_bind (hx s) fun a t h => ?_
  have hx' := hx s
  rw [h] at hx'
  exact hx'.trans (hf a t)

/-- A change of the call in progress, once memory is ready for it. -/
theorem keepsFrugal_modifyCurrent {t : ProgramState} {f : Activation → Activation}
    (place : Location) (hcalls : t.calls = s.calls) (hmemory : s.memory.Retains t.memory)
    (hf : ∀ a callers, s.calls.items = a :: callers → (f a).function = a.function ∧
      (a.Frugal s.memory trees → (f a).Frugal t.memory trees)) :
    KeepsFrugal trees s ((modifyCurrent place f).run t).2 := by
  have hcurrent : KeepsFrugal trees t ((discard (current place) : Effect Unit).run t).2 :=
    thrifty_of_composed (composed_discard (composed_current place)) t
  refine after_bind ((keepsFrugal_of_calls_eq hcalls hmemory).trans hcurrent) fun _ u hu => ?_
  obtain ⟨a, ha⟩ := run_discard_eq_ok hu
  obtain ⟨rfl, callers, ht⟩ := run_current_eq_ok ha
  have hs : s.calls.items = a :: callers := hcalls ▸ ht
  refine ⟨hmemory, fun b callers' hb => ?_⟩
  cases hs.symm.trans hb
  exact ⟨f a, Stack.items_modifyTop_of_cons ht f, hf a callers hs⟩

theorem thrifty_openScope (place : Location) : Thrifty trees (openScope place) := fun _ =>
  keepsFrugal_modifyCurrent place rfl (.refl _) fun _ _ _ => ⟨rfl, fun h => h.openScope⟩

theorem keepsFrugal_fresh {site : Location} {length : Nat} {a : Activation} {callers : List Activation}
    (hs : s.calls.items = a :: callers) (hnode : node.Within trees) (hstores : node.Stores site length)
    (hnew : ∀ last, a.literal? site = some last → s.memory.shape? last ≠ some (.literal, length)) :
    KeepsFrugal trees s ((literalStorage.fresh site length).run s).2 := by
  refine after_bind (thrifty_of_composed (composed_allocate ..) s) fun id t ht => ?_
  obtain ⟨hm, hcalls⟩ := run_onMemory_eq_ok ht
  have hadds := Arena.adds_of_allocate hm
  have hadopt : KeepsFrugal trees s ((modifyCurrent site (·.adopt site id)).run t).2 := by
    refine keepsFrugal_modifyCurrent site hcalls hadds.retains fun b callers' hb => ⟨rfl, fun h => ?_⟩
    cases hs.symm.trans hb
    exact h.adopt hnode hstores hadds hnew
  exact after_bind_pure hadopt fun _ => id

/-- A buffer of the right length is used again. -/
theorem thrifty_literalStorage {site : Location} {length : Nat} (hnode : node.Within trees)
    (hstores : node.Stores site length) : Thrifty trees (literalStorage site length) := by
  intro s
  refine after_bind (thrifty_of_composed (composed_current site) s) fun a t ht => ?_
  obtain ⟨rfl, callers, hs⟩ := run_current_eq_ok ht
  dsimp only
  split
  · rename_i last hlast
    change KeepsFrugal trees t ((if (t.memory.get? last).any (·.size = length) then
      (pure last : Effect BufferId) else literalStorage.fresh site length).run t).2
    split
    · exact .refl trees t
    · rename_i hfits
      refine keepsFrugal_fresh hs hnode hstores fun last' hlast' hshape => ?_
      cases hlast.symm.trans hlast'
      obtain ⟨b, hb, -, hsize⟩ := Arena.get?_of_shape? hshape
      simp [hb, hsize] at hfits
  · rename_i hnone
    refine keepsFrugal_fresh hs hnode hstores fun last hlast => ?_
    rw [hnone] at hlast
    cases hlast

theorem thrifty_stringLiteral {site : Location} {bytes : List UInt8}
    (h : (Node.stringLiteral site bytes).Within trees) : Thrifty trees (stringLiteral site bytes) := by
  have hstores : (Node.stringLiteral site bytes).Stores site (bytes ++ [0]).length :=
    ⟨rfl, List.length_append⟩
  exact (thrifty_literalStorage h hstores).bind fun _ => thrifty_of_composed
    ((composed_write ..).bind fun _ => .pure _)

theorem thrifty_filledLiteral {site : Location} {elements : List Node}
    (h : (Node.arrayLiteral site elements).Within trees) (element : CType) (values : List Value) :
    Thrifty trees (filledLiteral site element values) := by
  have hstores : (Node.arrayLiteral site elements).Stores site (values.length * element.size) := rfl
  exact (thrifty_literalStorage h hstores).bind fun _ => thrifty_of_composed
    ((composed_storeSlots ..).bind fun _ => .pure _)

theorem thrifty_arrayLiteral {site : Location} {elements : List Node}
    (h : (Node.arrayLiteral site elements).Within trees) (values : List Value) :
    Thrifty trees (arrayLiteral site values) :=
  (thrifty_filledLiteral h _ values).bind fun _ => thrifty_of_composed (.pure _)

theorem thrifty_fill {d : Declaration} (hd : ∀ node ∈ d.init, node.Within trees) (b : Binding)
    (values : List Value) : Thrifty trees (d.fill b values) := by
  have quiet {x : Effect Unit} (h : Composed True false x) : Thrifty trees x := thrifty_of_composed h
  unfold Declaration.fill
  dsimp only
  split
  · exact quiet (.pure ())
  · split
    · exact quiet (composed_write ..)
    · exact quiet (composed_fail _ _)
  · split
    · exact quiet (composed_storeSlots ..)
    · exact quiet (composed_fail _ _)
    · exact quiet (.breakOff trivial)
  · exact quiet (composed_fail _ _)
  · rename_i pointee site elements _ hinit
    split
    · exact quiet (composed_fail _ _)
    · exact (thrifty_filledLiteral (hd _ hinit) pointee values).bind fun _ =>
        quiet (composed_discard (composed_store ..))
  · split
    · exact quiet (composed_discard (composed_store ..))
    · exact quiet (composed_fail _ _)

theorem thrifty_define {d : Declaration} (hd : ∀ node ∈ d.init, node.Within trees)
    (values : List Value) : Thrifty trees (d.define values) := by
  intro s
  unfold Declaration.define
  split
  · exact .refl trees s
  · rename_i hvoid
    refine after_bind (thrifty_of_composed (composed_allocate ..) s) fun id t ht => ?_
    obtain ⟨hm, hcalls⟩ := run_onMemory_eq_ok ht
    have hadds := Arena.adds_of_allocate hm
    let b : Binding := ⟨id, d.type, d.isConst && !d.type.isPointer⟩
    have hdeclare : KeepsFrugal trees s ((modifyCurrent d.place (·.declare d.name b)).run t).2 :=
      keepsFrugal_modifyCurrent d.place hcalls hadds.retains fun _ _ _ =>
        ⟨rfl, fun h => h.declare (b := b) hvoid hadds⟩
    refine after_bind hdeclare fun _ u hu => ?_
    rw [hu] at hdeclare
    exact hdeclare.trans (((thrifty_fill hd b values).bind fun _ => thrifty_of_composed (.pure b)) u)

end Effect

/-! ## Jobs within a call -/

namespace Interpreter

variable {i : Interpreter} {trees : List Node} {s t : ProgramState} {a : Activation}
  {callers : List Activation}

theorem thrifty_perform {job : Job} (hlocal : isLocal job) (h : job.Within i trees) (p : Pending)
    (bases : List Heights) : Thrifty trees (i.perform job p bases) := by
  have quiet (hjob : job.changesCalls = false) : Thrifty trees (i.perform job p bases) :=
    thrifty_of_composed ((composed_perform i job p bases).weaken (fun _ => trivial) (hjob ▸ id))
  have push {p : Pending} {x : Effect Value} (hx : Thrifty trees x) :
      Thrifty trees (do return Progress.running ⟨← (do return p.push (← x)), bases⟩) :=
    (hx.bind fun _ => thrifty_of_composed (.pure _)).bind fun _ => thrifty_of_composed (.pure _)
  cases job with
  | execute | closeScope | call | giveBack | bodyEnd => cases hlocal
  | evaluate node =>
    cases node with
    | stringLiteral place bytes => exact push (thrifty_stringLiteral h)
    | _ => exact quiet rfl
  | arrayLiteral count place =>
    refine Thrifty.bind (.bind (thrifty_of_composed (Pending.composed_popMany place p count)) fun r => ?_)
      fun _ => thrifty_of_composed (.pure _)
    obtain ⟨elements, helements⟩ := h
    exact (thrifty_arrayLiteral helements r.1).bind fun _ => thrifty_of_composed (.pure _)
  | declare d asValue =>
    refine Thrifty.bind (.bind (thrifty_of_composed (Pending.composed_popMany d.place p _)) fun r => ?_)
      fun _ => thrifty_of_composed (.pure _)
    refine (thrifty_define (fun _ => d.within_of_mem_init h) r.1).bind fun b => thrifty_of_composed ?_
    split
    · exact (composed_load ..).bind fun _ => .pure _
    · exact .pure _
  | _ => exact quiet rfl

theorem thrifty_execute {node : Node} (hcontrol : isLoopControl node = false) (p : Pending) :
    Thrifty trees (i.execute node p) := by
  rw [execute_eq]
  refine (thrifty_of_composed (composed_countStep ..)).bind fun _ => ?_
  cases node with
  | block place | forLoop place =>
    exact (thrifty_openScope place).bind fun _ => thrifty_of_composed (.pure _)
  | breakLoop | continueLoop => cases hcontrol
  | function => exact thrifty_of_composed (composed_fail _ _)
  | _ => exact thrifty_of_composed (.pure _)

/-! ## Calls and scopes -/

/-- Each call in progress is one of a function of the program, and frugal with the literals of its
source. -/
def Frugal (i : Interpreter) (s : ProgramState) : Prop :=
  ∀ a ∈ s.calls.items, ∃ f, i.function? a.function = some f ∧ a.Frugal s.memory f.body

theorem Frugal.of_composed {α : Type} {x : Effect α} (h : i.Frugal s) (hx : Composed True false x) :
    i.Frugal (x.run s).2 := by
  obtain ⟨hcalls, hmemory⟩ := hx.calls_eq_and_retains s
  intro a ha
  obtain ⟨f, hf, hfrugal⟩ := h a (hcalls ▸ ha)
  exact ⟨f, hf, hfrugal.of_retains hmemory⟩

theorem Frugal.of_keeps {f : Function} (h : i.Frugal s) (hs : s.calls.items = a :: callers)
    (hf : i.function? a.function = some f) (hkeeps : KeepsFrugal f.body s t) : i.Frugal t := by
  obtain ⟨b, ht, hname, hb⟩ := hkeeps.calls a callers hs
  intro c hc
  rw [ht] at hc
  rcases List.mem_cons.1 hc with rfl | hc
  · obtain ⟨g, hg, ha⟩ := h a (hs ▸ List.mem_cons_self)
    cases hf.symm.trans hg
    exact ⟨f, hname ▸ hf, hb ha⟩
  · obtain ⟨g, hg, hfrugal⟩ := h c (hs ▸ List.mem_cons_of_mem _ hc)
    exact ⟨g, hg, hfrugal.of_retains hkeeps.memory⟩

/-- The end of some buffers that no call in progress owns. -/
theorem Frugal.of_releaseAll {ids : List BufferId} (h : i.Frugal s)
    (hcalls : ∀ b ∈ t.calls.items, ∃ a ∈ s.calls.items, b.function = a.function ∧
      ∀ trees, a.Frugal s.memory trees → b.Frugal s.memory trees)
    (hmemory : t.memory = s.memory.releaseAll ids)
    (hids : ∀ b ∈ t.calls.items, ∀ id ∈ b.owned, id ∉ ids) : i.Frugal t := by
  intro b hb
  obtain ⟨a, ha, hname, hkeep⟩ := hcalls b hb
  obtain ⟨f, hf, hfrugal⟩ := h a ha
  rw [hmemory]
  exact ⟨f, hname ▸ hf, (hkeep _ hfrugal).of_releaseAll (hids b hb)⟩

theorem frugal_closeScope {arguments : List (BufferId × Nat)} (h : i.Frugal s)
    (hacc : Accounted arguments s.memory s.calls.items) (place : Location) :
    i.Frugal ((closeScope place).run s).2 := by
  cases hs : s.calls.items with
  | nil =>
    refine after_bind (h.of_composed (composed_current place)) fun a t ht => ?_
    obtain ⟨-, callers, hcalls⟩ := run_current_eq_ok ht
    cases hs.symm.trans hcalls
  | cons a callers =>
    rw [hs] at hacc
    rw [run_closeScope_of_cons place hs]
    have hitems := Stack.items_modifyTop_of_cons hs Activation.closeScope
    refine h.of_releaseAll (fun b hb => ?_) rfl fun b hb => ?_
    · rw [hitems] at hb
      rcases List.mem_cons.1 hb with rfl | hb
      · exact ⟨a, hs ▸ List.mem_cons_self, rfl, fun _ ha => ha.closeScope⟩
      · exact ⟨b, hs ▸ List.mem_cons_of_mem _ hb, rfl, fun _ => id⟩
    · rw [hitems] at hb
      exact hacc.notMem_innermost b hb

theorem frugal_unwind {arguments : List (BufferId × Nat)} (place : Location) (isTarget : Job → Bool)
    (jobs : List Job) (stack : Stack Job) (h : i.Frugal s)
    (hacc : Accounted arguments s.memory s.calls.items) :
    i.Frugal ((Pending.unwind place isTarget jobs stack).run s).2 := by
  fun_induction Pending.unwind place isTarget jobs stack generalizing s with
  | case1 stack => exact h
  | case2 stack end_ rest => exact h
  | case3 stack scope rest ih =>
    have hclose := frugal_closeScope h hacc place
    refine after_bind hclose fun _ t ht => ?_
    rw [ht] at hclose
    exact ih hclose (hacc.losses (losses_closeScope ht))
  | case4 stack job rest hend hscope htarget => exact h
  | case5 stack job rest hend hscope htarget ih => exact ih h hacc

/-- Loop control stays within its call. -/
theorem exists_calls_of_unwind {place : Location} {isTarget : Job → Bool} {list : List Job}
    {stack stack' : Stack Job} (hrun : (Pending.unwind place isTarget list stack).run s = (.ok stack', t))
    (hs : s.calls.items = a :: callers) :
    ∃ b, t.calls.items = b :: callers ∧ b.function = a.function := by
  fun_induction Pending.unwind place isTarget list stack generalizing s a with
  | case1 stack => cases hrun
  | case2 stack end_ rest => cases hrun
  | case3 stack scope rest ih =>
    obtain ⟨_, u, hu, hrun⟩ := run_bind_eq_ok_iff.1 hrun
    obtain ⟨a', callers', hs', hc, -⟩ := run_closeScope_eq_ok hu
    cases hs.symm.trans hs'
    obtain ⟨b, ht, hname⟩ := ih hrun hc
    exact ⟨b, ht, hname⟩
  | case4 stack job rest hend hscope htarget =>
    cases hrun
    exact ⟨a, hs, rfl⟩
  | case5 stack job rest hend hscope htarget ih => exact ih hrun hs

theorem frugal_leaveCall {arguments : List (BufferId × Nat)} (h : i.Frugal s)
    (hacc : Accounted arguments s.memory s.calls.items) (place : Location) (value : Option Value) :
    i.Frugal ((leaveCall place value).run s).2 := by
  have hpop : i.Frugal ((popCall place).run s).2 := by
    refine after_bind (h.of_composed (composed_current place)) fun a t ht => ?_
    obtain ⟨rfl, -⟩ := run_current_eq_ok ht
    exact fun b hb => h b (List.mem_of_mem_tail hb)
  refine after_bind hpop fun a t ht => ?_
  rw [ht] at hpop
  obtain ⟨hcalls, hmemory⟩ := run_popCall_eq_ok ht
  rw [hcalls] at hacc
  refine after_bind (hpop.of_composed (composed_callResult ..)) fun result u hu => ?_
  obtain ⟨r, hr⟩ := run_callResult place a.returnType value
  cases (hr t).symm.trans hu
  exact hpop.of_releaseAll (fun b hb => ⟨b, hb, rfl, fun _ => id⟩) rfl hacc.notMem_owned

theorem frugal_giveBack {arguments : List (BufferId × Nat)} (h : i.Frugal s)
    (hacc : Accounted arguments s.memory s.calls.items) (value : Option Value) (place : Location)
    (p : Pending) (bases : List Heights) : i.Frugal ((giveBack value place p bases).run s).2 := by
  have hleave := frugal_leaveCall h hacc place value
  refine after_bind hleave fun v t ht => ?_
  rw [ht] at hleave
  exact hleave.of_composed (composed_resume v place p bases)

/-- A call begins without literals. -/
theorem frugal_bindParams {place : Location} {params : List (Param × Value)} {trees : List Node}
    {b : Activation} (h : a.Frugal s.memory trees)
    (hrun : (bindParams place a params).run s = (.ok b, t)) :
    b.function = a.function ∧ b.Frugal t.memory trees := by
  induction params generalizing a s with
  | nil =>
    cases hrun
    exact ⟨rfl, h⟩
  | cons head rest ih =>
    obtain ⟨id, u, hu, hrun⟩ := run_bind_eq_ok_iff.1 hrun
    obtain ⟨_, v, hv, hrun⟩ := run_bind_eq_ok_iff.1 hrun
    obtain ⟨stored, hv⟩ := run_discard_eq_ok hv
    have hadds := Arena.adds_of_allocate (run_onMemory_eq_ok hu).1
    obtain ⟨hvoid, hshapes⟩ := run_store_eq_ok hv
    let x : Binding := ⟨id, head.1.type, head.1.isConst⟩
    have ha : (a.declare head.1.name x).Frugal u.memory trees := h.declare hvoid hadds
    obtain ⟨hname, hb⟩ := ih (ha.of_retains (Arena.retains_of_shapes hshapes)) hrun
    exact ⟨hname, hb⟩

theorem frugal_start (memory : Arena) (trees : List Node) (name : String) (type : CType)
    (callSite : Option Location) : (Activation.start name type callSite).Frugal memory trees :=
  ⟨⟨by simp [Activation.start], by simp [Activation.start]⟩, by simp [Activation.start], trivial⟩

theorem frugal_enterCall {f : Function} (hf : i.function? f.name = some f) (h : i.Frugal s)
    (limits : Limits) (args : List Value) (callSite : Option Location) :
    i.Frugal ((enterCall limits f args callSite).run s).2 := by
  refine after_bind (x := get) h fun s' u hu => ?_
  cases hu
  split
  · exact h
  · have hbind := h.of_composed (composed_bindParams (callSite.getD f.place)
      (.start f.name f.returnType callSite) (f.params.zip args))
    refine after_bind hbind fun a t ht => ?_
    rw [ht] at hbind
    obtain ⟨hname, ha⟩ := frugal_bindParams (frugal_start s.memory f.body ..) ht
    intro b hb
    rcases List.mem_cons.1 hb with rfl | hb
    · exact ⟨f, hname ▸ hf, ha⟩
    · exact hbind b hb

end Interpreter

end BoundedC
