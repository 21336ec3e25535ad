import BoundedC.Proofs.Turn

/-!
# Who owns the buffers

Each live buffer has one owner: the arguments of the run, the scope of a variable or the literals of
a call (`Accounted`). All changes of the state keep the account: what is allocated is entered in it,
and what leaves it is released.

* `Accounted.adds`, `Accounted.releases` : one more buffer, and some buffers less;
* `Accounted.exists_load` : variables in scope can be read;
* `Accounted.live_eq` : how many buffers are live when no call is in progress.
-/

namespace BoundedC

/-- Bytes of the right number stand for a value of a scalar type. -/
theorem Value.exists_decode {t : CType} {bytes : List UInt8} (h : bytes.length = t.size)
    (harray : t.isArray = false) (hvoid : t ≠ .void) : ∃ v, Value.decode t bytes = .ok v := by
  cases t with
  | void => exact absurd rfl hvoid
  | array => cases harray
  | int =>
    match bytes, h with
    | [_, _, _, _], _ => exact ⟨_, rfl⟩
  | char =>
    match bytes, h with
    | [_], _ => exact ⟨_, rfl⟩
  | pointer t =>
    match bytes, h with
    | [_, _, _, _, _, _, _, _], _ => exact ⟨_, rfl⟩

/-! ## Shapes of buffers -/

namespace Arena

/-- What a buffer was created for, and its length, if it is live. The null buffer never is. -/
def shape? (a : Arena) (id : BufferId) : Option (Owner × Nat) := do
  (a.shapes[← slot? id]?).join

theorem live_eq_countP (a : Arena) : a.live = a.shapes.toList.countP Option.isSome := by
  rw [live, shapes, Array.toList_map, List.countP_map]
  congr 1
  funext slot
  cases slot <;> rfl

theorem get?_of_shape? {a : Arena} {id : BufferId} {owner : Owner} {length : Nat}
    (h : a.shape? id = some (owner, length)) :
    ∃ b, a.get? id = some b ∧ b.owner = owner ∧ b.size = length := by
  unfold shape? at h
  unfold get?
  cases hi : slot? id with
  | none =>
    rw [hi] at h
    cases h
  | some i =>
    rw [hi] at h
    simp only [shapes, Option.bind_eq_bind, Option.bind_some, Array.getElem?_map] at h
    cases hs : a.slots[i]? with
    | none => simp [hs] at h
    | some slot =>
      cases slot with
      | none => simp [hs] at h
      | some b =>
        simp only [hs, Option.map_some, Option.join_some, Option.some.injEq] at h
        exact ⟨b, by simp [hs], congrArg Prod.fst h, congrArg Prod.snd h⟩

theorem isSome_shape?_iff {a : Arena} {id : BufferId} :
    (a.shape? id).isSome ↔ id ≠ .null ∧ (a.get? id).isSome := by
  unfold shape? get?
  by_cases h : id = .null
  · simp [h, slot?]
  · simp only [slot?_of_ne_null h, shapes, Option.bind_eq_bind, Option.bind_some,
      Array.getElem?_map, ne_eq, h, not_false_eq_true, true_and]
    rcases a.slots[id.index.toNat - 1]? with _ | _ | _ <;> rfl

/-- The arena `b` has one more buffer than `a`. -/
structure Adds (a b : Arena) (id : BufferId) (shape : Owner × Nat) : Prop where
  fresh : a.shape? id = none
  added : b.shape? id = some shape
  others : ∀ other, other ≠ id → b.shape? other = a.shape? other
  live : b.live = a.live + 1

theorem adds_of_shapes {a b : Arena} {id : BufferId} {shape : Owner × Nat}
    (hid : slot? id = some a.shapes.size) (h : b.shapes = a.shapes.push (some shape)) :
    Adds a b id shape := by
  refine ⟨?_, ?_, ?_, ?_⟩
  · simp [shape?, hid]
  · simp [shape?, hid, h]
  · intro other hne
    unfold shape?
    cases ho : slot? other with
    | none => rfl
    | some i =>
      have hi : i ≠ a.shapes.size := fun hi => hne (slot?_inj (hi ▸ ho) hid)
      simp only [h, Option.bind_eq_bind, Option.bind_some, Array.getElem?_push, if_neg hi]
  · rw [live_eq_countP, live_eq_countP, h, Array.toList_push, List.countP_append]
    rfl

theorem slot?_ofNat {n : Nat} (h : n + 1 < 0xffffffff) : slot? ⟨UInt32.ofNat (n + 1)⟩ = some n := by
  have hn : (UInt32.ofNat (n + 1)).toNat = n + 1 := by
    rw [UInt32.toNat_ofNat']
    omega
  have hne : (⟨UInt32.ofNat (n + 1)⟩ : BufferId) ≠ .null := by
    intro h
    have := congrArg (fun id : BufferId => id.index.toNat) h
    simp only [hn] at this
    cases this
  rw [slot?_of_ne_null hne, hn]
  rfl

theorem adds_of_allocateWith {a b : Arena} {bytes : Array UInt8} {owner : Owner} {id : BufferId}
    (h : a.allocateWith bytes owner = (.ok id, b)) : Adds a b id (owner, bytes.size) := by
  unfold allocateWith at h
  dsimp only at h
  split at h
  · rename_i hlt
    cases h
    refine adds_of_shapes ?_ ?_
    · rw [slot?_ofNat hlt, shapes, Array.size_map]
    · simp [shapes, Buffer.shape, Buffer.size]
  · cases h

theorem adds_of_allocate {a b : Arena} {length : Nat} {owner : Owner} {id : BufferId}
    (h : a.allocate length owner = (.ok id, b)) : Adds a b id (owner, length) := by
  unfold allocate at h
  split at h
  · have := adds_of_allocateWith h
    rwa [Array.size_replicate] at this
  · cases h

theorem shape?_release_self (a : Arena) (id : BufferId) : (a.release id).shape? id = none := by
  unfold shape? release
  cases hi : slot? id with
  | none => rfl
  | some i =>
    simp only [shapes, Option.bind_eq_bind, Option.bind_some, Array.getElem?_map,
      Array.getElem?_setIfInBounds_self]
    split <;> rfl

theorem shape?_release_of_ne (a : Arena) {id other : BufferId} (h : other ≠ id) :
    (a.release id).shape? other = a.shape? other := by
  unfold shape? release
  cases hi : slot? id with
  | none => rfl
  | some i =>
    cases ho : slot? other with
    | none => rfl
    | some j =>
      have hne : i ≠ j := fun e => h (slot?_inj ho (e ▸ hi))
      simp only [shapes, Option.bind_eq_bind, Option.bind_some, Array.getElem?_map,
        Array.getElem?_setIfInBounds_ne hne]

theorem live_release {a : Arena} {id : BufferId} (h : (a.shape? id).isSome) :
    (a.release id).live + 1 = a.live := by
  obtain ⟨⟨owner, length⟩, hshape⟩ := Option.isSome_iff_exists.1 h
  unfold shape? at hshape
  unfold release live
  cases hi : slot? id with
  | none =>
    rw [hi] at hshape
    cases hshape
  | some i =>
    rw [hi] at hshape
    simp only [shapes, Option.bind_eq_bind, Option.bind_some, Array.getElem?_map] at hshape
    have hsize : i < a.slots.size := by
      refine Nat.lt_of_not_le fun hge => ?_
      rw [Array.getElem?_eq_none hge] at hshape
      cases hshape
    have hlt : i < a.slots.toList.length := by rwa [Array.length_toList]
    have hslot : a.slots.toList[i].isSome := by
      rw [Array.getElem?_eq_getElem hsize] at hshape
      rw [Array.getElem_toList]
      cases hs : a.slots[i] with
      | none => simp [hs] at hshape
      | some b => rfl
    have hpos := List.boole_getElem_le_countP (p := Option.isSome) hlt
    rw [if_pos hslot] at hpos
    simp only [Array.toList_setIfInBounds, List.countP_set hlt, if_pos hslot, Option.isSome_none]
    simp only [Bool.false_eq_true, if_false]
    omega

/-- After a release none of the buffers is live; the others stay as they were. -/
theorem shape?_releaseAll (a : Arena) (ids : List BufferId) (id : BufferId) :
    (a.releaseAll ids).shape? id = if id ∈ ids then none else a.shape? id := by
  induction ids generalizing a with
  | nil => rfl
  | cons head ids ih =>
    change ((a.release head).releaseAll ids).shape? id = _
    rw [ih]
    by_cases hmem : id ∈ ids
    · simp [hmem]
    · by_cases hid : id = head
      · simp [hid, shape?_release_self]
      · simp [hmem, hid, shape?_release_of_ne a hid]

theorem get?_releaseAll_of_notMem (a : Arena) {ids : List BufferId} {id : BufferId} (h : id ∉ ids) :
    (a.releaseAll ids).get? id = a.get? id := by
  induction ids generalizing a with
  | nil => rfl
  | cons head ids ih =>
    rw [List.mem_cons, not_or] at h
    obtain ⟨hne, hmem⟩ := h
    change ((a.release head).releaseAll ids).get? id = _
    rw [ih _ hmem, get?_release_of_ne a hne]

theorem live_releaseAll {a : Arena} {ids : List BufferId} (hnodup : ids.Nodup)
    (h : ∀ id ∈ ids, (a.shape? id).isSome) : (a.releaseAll ids).live + ids.length = a.live := by
  induction ids generalizing a with
  | nil => rfl
  | cons head ids ih =>
    obtain ⟨hhead, hnodup⟩ := List.nodup_cons.1 hnodup
    have hids : ∀ id ∈ ids, ((a.release head).shape? id).isSome := by
      intro id hid
      have hne : id ≠ head := by
        rintro rfl
        exact hhead hid
      rw [shape?_release_of_ne a hne]
      exact h id (List.mem_cons_of_mem _ hid)
    have := live_release (h head List.mem_cons_self)
    have := ih hnodup hids
    change ((a.release head).releaseAll ids).live + (ids.length + 1) = _
    omega

/-- The live buffers are the given ones, each of them given once. -/
structure Holds (a : Arena) (ids : List BufferId) : Prop where
  nodup : ids.Nodup
  live_iff : ∀ id, (a.shape? id).isSome ↔ id ∈ ids

namespace Holds

variable {a b : Arena} {ids ids' gone rest : List BufferId} {id : BufferId} {shape : Owner × Nat}

theorem notMem_of_adds (h : a.Holds ids) (hadds : Adds a b id shape) : id ∉ ids := by
  rw [← h.live_iff, hadds.fresh]
  simp

theorem of_adds (h : a.Holds ids) (hadds : Adds a b id shape) (hperm : ids'.Perm (id :: ids)) :
    b.Holds ids' := by
  refine ⟨?_, fun other => ?_⟩
  · rw [hperm.nodup_iff, List.nodup_cons]
    exact ⟨h.notMem_of_adds hadds, h.nodup⟩
  · rw [hperm.mem_iff, List.mem_cons, ← h.live_iff]
    by_cases hother : other = id
    · simp [hother, hadds.added]
    · simp [hother, hadds.others other hother]

/-- What is kept is not among what is released. -/
theorem notMem_of_perm (h : a.Holds ids) (hperm : ids.Perm (gone ++ rest)) (hid : id ∈ rest) :
    id ∉ gone := by
  obtain ⟨-, -, hdisjoint⟩ := List.nodup_append.1 (hperm.nodup_iff.1 h.nodup)
  exact fun hgone => hdisjoint id hgone id hid rfl

theorem releaseAll (h : a.Holds ids) (hperm : ids.Perm (gone ++ rest)) :
    (a.releaseAll gone).Holds rest := by
  refine ⟨(List.nodup_append.1 (hperm.nodup_iff.1 h.nodup)).2.1, fun other => ?_⟩
  rw [shape?_releaseAll]
  split
  · rename_i hgone
    simp only [Option.isSome_none, Bool.false_eq_true, false_iff]
    exact fun hrest => h.notMem_of_perm hperm hrest hgone
  · rename_i hgone
    rw [h.live_iff, hperm.mem_iff, List.mem_append]
    exact or_iff_right hgone

end Holds

/-- Nothing is stored as an object without a size. -/
theorem ne_void_of_store {a b : Arena} {p : Pointer} {v stored : Value}
    (h : a.store p v = (.ok stored, b)) : p.pointee ≠ .void := by
  intro hvoid
  unfold store at h
  rw [hvoid] at h
  cases v <;> cases h

/-- A buffer that is as long as an object can be read as the object. -/
theorem exists_load {a : Arena} {id : BufferId} {type : CType} {owner : Owner}
    (h : a.shape? id = some (owner, type.size)) (hvoid : type ≠ .void) :
    ∃ v, a.load ⟨id, 0, type⟩ = .ok v := by
  obtain ⟨b, hget, -, hsize⟩ := get?_of_shape? h
  have hstart : a.start id 0 type.size = .ok 0 := by
    have hget' : a.get id = .ok b := by rw [get, hget]
    have hfits : (0 : Int) ≤ 0 ∧ 0 + (type.size : Int) ≤ b.size := by omega
    rw [start, hget']
    change (if _ then _ else _) = _
    rw [if_pos hfits]
    rfl
  have hread : a.read id 0 type.size = .ok b.bytes.toList := by
    have hget' : a.get id = .ok b := by rw [get, hget]
    rw [read, hstart, hget']
    change Except.ok (b.bytes.extract 0 (0 + type.size)).toList = _
    rw [Nat.zero_add, ← hsize, Buffer.size, Array.extract_size]
  have hlen : b.bytes.toList.length = type.size := by rw [Array.length_toList, ← hsize, Buffer.size]
  cases type with
  | void => exact absurd rfl hvoid
  | array element n =>
    refine ⟨.pointer ⟨id, 0, element⟩, ?_⟩
    simp only [load, hstart]
    rfl
  | int | char | pointer =>
    obtain ⟨v, hv⟩ := Value.exists_decode hlen rfl hvoid
    refine ⟨v, ?_⟩
    simp only [load, hread]
    exact hv

end Arena

/-! ## The account -/

/-- The buffers of the variables and the literals of an activation are live, and as long as they
should be. -/
structure Activation.Fits (a : Activation) (memory : Arena) : Prop where
  scopes : ∀ scope ∈ a.scopes, ∀ x ∈ scope,
    x.2.type ≠ .void ∧ memory.shape? x.2.buffer = some (.scoped, x.2.type.size)
  literals : ∀ x ∈ a.literals, ∃ length, memory.shape? x.2 = some (.literal, length)

/-- The buffers of the arguments and those of the calls in progress. -/
def ownedBuffers (arguments : List (BufferId × Nat)) (calls : List Activation) : List BufferId :=
  arguments.map (·.1) ++ calls.flatMap Activation.owned

/-- The live buffers are those of the arguments, which are given with their lengths, of the open
scopes and of the literals of the calls in progress, and each of them is counted once. -/
structure Accounted (arguments : List (BufferId × Nat)) (memory : Arena) (calls : List Activation) : Prop where
  nodup : (ownedBuffers arguments calls).Nodup
  live_iff : ∀ id, (memory.shape? id).isSome ↔ id ∈ ownedBuffers arguments calls
  count : memory.live = (ownedBuffers arguments calls).length
  arguments : ∀ x ∈ arguments, memory.shape? x.1 = some (.argument, x.2)
  fits : ∀ a ∈ calls, a.Fits memory

namespace Activation

theorem Fits.mono {a : Activation} {memory memory' : Arena} (h : a.Fits memory)
    (hsame : ∀ id ∈ a.owned, memory'.shape? id = memory.shape? id) : a.Fits memory' := by
  refine ⟨fun scope hscope x hx => ?_, fun x hx => ?_⟩
  · have hmem : x.2.buffer ∈ a.owned := by
      refine List.mem_append_left _ (List.mem_flatMap.2 ⟨scope, hscope, ?_⟩)
      exact List.mem_map.2 ⟨x, hx, rfl⟩
    rw [hsame _ hmem]
    exact h.scopes scope hscope x hx
  · have hmem : x.2 ∈ a.owned := List.mem_append_right _ (List.mem_map.2 ⟨x, hx, rfl⟩)
    rw [hsame _ hmem]
    exact h.literals x hx

theorem exists_scope_of_mem_innermost {a : Activation} {x : String × Binding} (h : x ∈ a.innermost) :
    ∃ scope ∈ a.scopes, x ∈ scope := by
  unfold innermost at h
  cases hs : a.scopes with
  | nil =>
    rw [hs] at h
    cases h
  | cons scope scopes =>
    rw [hs] at h
    exact ⟨scope, List.mem_cons_self, h⟩

theorem Fits.declare {a : Activation} {memory : Arena} {name : String} {b : Binding} (h : a.Fits memory)
    (hb : b.type ≠ .void) (hshape : memory.shape? b.buffer = some (.scoped, b.type.size)) :
    (a.declare name b).Fits memory := by
  refine ⟨fun scope hscope x hx => ?_, h.literals⟩
  rcases List.mem_cons.1 hscope with rfl | hscope
  · rcases List.mem_cons.1 hx with rfl | hx
    · exact ⟨hb, hshape⟩
    · obtain ⟨scope, hscope, hx⟩ := exists_scope_of_mem_innermost hx
      exact h.scopes scope hscope x hx
  · exact h.scopes scope (List.mem_of_mem_tail hscope) x hx

theorem Fits.adopt {a : Activation} {memory : Arena} {site : Location} {id : BufferId} {length : Nat}
    (h : a.Fits memory) (hshape : memory.shape? id = some (.literal, length)) :
    (a.adopt site id).Fits memory := by
  refine ⟨h.scopes, fun x hx => ?_⟩
  rcases List.mem_cons.1 hx with rfl | hx
  · exact ⟨length, hshape⟩
  · exact h.literals x hx

theorem Fits.openScope {a : Activation} {memory : Arena} (h : a.Fits memory) :
    a.openScope.Fits memory := by
  refine ⟨fun scope hscope x hx => ?_, h.literals⟩
  rcases List.mem_cons.1 hscope with rfl | hscope
  · exact (List.not_mem_nil hx).elim
  · exact h.scopes scope hscope x hx

theorem Fits.closeScope {a : Activation} {memory : Arena} (h : a.Fits memory) :
    a.closeScope.Fits memory :=
  ⟨fun scope hscope => h.scopes scope (List.mem_of_mem_tail hscope), h.literals⟩

end Activation

namespace Accounted

variable {arguments : List (BufferId × Nat)} {memory memory' : Arena} {a b : Activation}
  {calls : List Activation} {id : BufferId} {owner : Owner} {length : Nat}

theorem holds (h : Accounted arguments memory calls) : memory.Holds (ownedBuffers arguments calls) :=
  ⟨h.nodup, h.live_iff⟩

/-- Contents do not matter. -/
theorem of_shapes (h : Accounted arguments memory calls) (hm : memory'.shapes = memory.shapes) :
    Accounted arguments memory' calls := by
  have hshape (id : BufferId) : memory'.shape? id = memory.shape? id := by
    unfold Arena.shape?
    rw [hm]
  refine ⟨h.nodup, fun id => ?_, ?_, fun x hx => ?_, fun a ha => ?_⟩
  · rw [hshape, h.live_iff]
  · rw [Arena.live_eq_countP, hm, ← Arena.live_eq_countP, h.count]
  · rw [hshape]
    exact h.arguments x hx
  · exact (h.fits a ha).mono fun id _ => hshape id

/-- A new buffer with its owner. The buffers there were stay as they were. -/
theorem of_adds {arguments' : List (BufferId × Nat)} {calls' : List Activation}
    (h : Accounted arguments memory calls) (hm : memory.Adds memory' id (owner, length))
    (hperm : (ownedBuffers arguments' calls').Perm (id :: ownedBuffers arguments calls))
    (hrest : (∀ other ∈ ownedBuffers arguments calls, memory'.shape? other = memory.shape? other) →
      (∀ x ∈ arguments', memory'.shape? x.1 = some (.argument, x.2)) ∧
        ∀ a ∈ calls', a.Fits memory') :
    Accounted arguments' memory' calls' := by
  have hsame (other : BufferId) (hother : other ∈ ownedBuffers arguments calls) :
      memory'.shape? other = memory.shape? other := by
    refine hm.others other ?_
    rintro rfl
    exact h.holds.notMem_of_adds hm hother
  obtain ⟨harguments, hfits⟩ := hrest hsame
  obtain ⟨hnodup, hlive⟩ := h.holds.of_adds hm hperm
  refine ⟨hnodup, hlive, ?_, harguments, hfits⟩
  rw [hm.live, h.count, hperm.length_eq, List.length_cons]

theorem mem_ownedBuffers {other : BufferId} (ha : a ∈ calls) (hother : other ∈ a.owned) :
    other ∈ ownedBuffers arguments calls :=
  List.mem_append_right _ (List.mem_flatMap.2 ⟨a, ha, hother⟩)

theorem mem_ownedBuffers_of_argument {x : BufferId × Nat} (hx : x ∈ arguments) :
    x.1 ∈ ownedBuffers arguments calls :=
  List.mem_append_left _ (List.mem_map_of_mem hx)

/-- A new buffer of the call in progress. -/
theorem adds (h : Accounted arguments memory (a :: calls))
    (hm : memory.Adds memory' id (owner, length)) (howned : b.owned.Perm (id :: a.owned))
    (hfits : a.Fits memory' → b.Fits memory') : Accounted arguments memory' (b :: calls) := by
  refine h.of_adds hm ?_ fun hsame => ⟨fun x hx => ?_, fun c hc => ?_⟩
  · simp only [ownedBuffers, List.flatMap_cons]
    refine ((howned.append_right _).append_left _).trans ?_
    exact List.perm_middle
  · rw [hsame x.1 (mem_ownedBuffers_of_argument hx)]
    exact h.arguments x hx
  · rcases List.mem_cons.1 hc with rfl | hc
    · exact hfits ((h.fits a List.mem_cons_self).mono fun other hother =>
        hsame other (mem_ownedBuffers List.mem_cons_self hother))
    · exact (h.fits c (List.mem_cons_of_mem _ hc)).mono fun other hother =>
        hsame other (mem_ownedBuffers (List.mem_cons_of_mem _ hc) hother)

/-- A new buffer for an argument. -/
theorem addsArgument (h : Accounted arguments memory calls)
    (hm : memory.Adds memory' id (.argument, length)) :
    Accounted (arguments ++ [(id, length)]) memory' calls := by
  refine h.of_adds hm ?_ fun hsame => ⟨fun x hx => ?_, fun c hc => ?_⟩
  · simp only [ownedBuffers, List.map_append, List.append_assoc]
    exact List.perm_middle
  · rcases List.mem_append.1 hx with hx | hx
    · rw [hsame x.1 (mem_ownedBuffers_of_argument hx)]
      exact h.arguments x hx
    · rw [List.mem_singleton.1 hx]
      exact hm.added
  · exact (h.fits c hc).mono fun other hother => hsame other (mem_ownedBuffers hc hother)

/-- The call in progress gives up some buffers. -/
theorem releases {ids : List BufferId} (h : Accounted arguments memory (a :: calls))
    (howned : a.owned = ids ++ b.owned) (hfits : a.Fits memory → b.Fits memory) :
    Accounted arguments (memory.releaseAll ids) (b :: calls) := by
  have hperm : (ownedBuffers arguments (a :: calls)).Perm
      (ids ++ ownedBuffers arguments (b :: calls)) := by
    simp only [ownedBuffers, List.flatMap_cons, howned, List.append_assoc]
    exact List.perm_append_comm_assoc ..
  have hsame (other : BufferId) (hother : other ∈ ownedBuffers arguments (b :: calls)) :
      (memory.releaseAll ids).shape? other = memory.shape? other := by
    rw [Arena.shape?_releaseAll, if_neg (h.holds.notMem_of_perm hperm hother)]
  obtain ⟨hnodup, hlive⟩ := h.holds.releaseAll hperm
  refine ⟨hnodup, hlive, ?_, fun x hx => ?_, ?_⟩
  · have hids : ∀ id ∈ ids, (memory.shape? id).isSome := by
      intro id hid
      rw [h.live_iff, hperm.mem_iff]
      exact List.mem_append_left _ hid
    have := Arena.live_releaseAll (List.nodup_append.1 (hperm.nodup_iff.1 h.nodup)).1 hids
    have hlen := hperm.length_eq
    rw [List.length_append] at hlen
    have := h.count
    omega
  · rw [hsame x.1 (mem_ownedBuffers_of_argument hx)]
    exact h.arguments x hx
  · intro c hc
    rcases List.mem_cons.1 hc with rfl | hc
    · refine (hfits (h.fits a List.mem_cons_self)).mono fun other hother => hsame other ?_
      exact mem_ownedBuffers List.mem_cons_self hother
    · refine (h.fits c (List.mem_cons_of_mem _ hc)).mono fun other hother => hsame other ?_
      exact mem_ownedBuffers (List.mem_cons_of_mem _ hc) hother

/-- A call with nothing of its own. -/
theorem cons_iff (howned : a.owned = []) :
    Accounted arguments memory (a :: calls) ↔ Accounted arguments memory calls := by
  have hbuffers : ownedBuffers arguments (a :: calls) = ownedBuffers arguments calls := by
    simp [ownedBuffers, howned]
  have hfits : a.Fits memory := by
    rw [Activation.owned, List.append_eq_nil_iff] at howned
    refine ⟨fun scope hscope x hx => ?_, fun x hx => ?_⟩
    · have : x.2.buffer ∈ a.scopeBuffers :=
        List.mem_flatMap.2 ⟨scope, hscope, List.mem_map.2 ⟨x, hx, rfl⟩⟩
      rw [howned.1] at this
      cases this
    · have : x.2 ∈ a.literals.map (·.2) := List.mem_map.2 ⟨x, hx, rfl⟩
      rw [howned.2] at this
      cases this
  constructor
  · rintro ⟨hnodup, hlive, hcount, harguments, hcalls⟩
    rw [hbuffers] at hnodup hcount
    refine ⟨hnodup, fun id => ?_, hcount, harguments, fun c hc => hcalls c (List.mem_cons_of_mem _ hc)⟩
    rw [hlive, hbuffers]
  · rintro ⟨hnodup, hlive, hcount, harguments, hcalls⟩
    refine ⟨hbuffers ▸ hnodup, fun id => ?_, hbuffers ▸ hcount, harguments, fun c hc => ?_⟩
    · rw [hlive, hbuffers]
    · rcases List.mem_cons.1 hc with rfl | hc
      · exact hfits
      · exact hcalls c hc

/-- A new variable of the call in progress. -/
theorem declare {name : String} {x : Binding} (h : Accounted arguments memory (a :: calls))
    (hx : x.type ≠ .void) (hm : memory.Adds memory' x.buffer (.scoped, x.type.size)) :
    Accounted arguments memory' (a.declare name x :: calls) := by
  refine h.adds hm ?_ fun hfits => hfits.declare hx hm.added
  rw [Activation.owned, Activation.scopeBuffers_declare]
  rfl

/-- The end of a call, with all that was its own. -/
theorem leave (h : Accounted arguments memory (a :: calls)) :
    Accounted arguments (memory.releaseAll a.owned) calls := by
  let b : Activation := { a with scopes := [], literals := [] }
  have hb : b.owned = [] := rfl
  refine (cons_iff hb).1 (h.releases (by rw [hb, List.append_nil]) fun _ => ?_)
  exact ⟨fun _ h => (List.not_mem_nil h).elim, fun _ h => (List.not_mem_nil h).elim⟩

/-- A scope without variables. -/
theorem openScope (h : Accounted arguments memory (a :: calls)) :
    Accounted arguments memory (a.openScope :: calls) := by
  have howned : a.owned = [] ++ a.openScope.owned := by
    simp [Activation.owned, Activation.openScope, Activation.scopeBuffers, Scope.buffers]
  exact h.releases howned fun hfits => hfits.openScope

/-- The end of a scope, with the buffers of its variables. -/
theorem closeScope (h : Accounted arguments memory (a :: calls)) :
    Accounted arguments (memory.releaseAll a.innermost.buffers) (a.closeScope :: calls) :=
  h.releases a.owned_closeScope fun hfits => hfits.closeScope

/-- A variable in scope can be read. -/
theorem exists_load (h : Accounted arguments memory (a :: calls)) {name : String} {x : Binding}
    (hx : a.lookup? name = some x) : ∃ v, memory.load x.pointer = .ok v := by
  obtain ⟨scope, hscope, hlookup⟩ := List.exists_of_findSome?_eq_some hx
  obtain ⟨before, after, hsplit, -⟩ := List.lookup_eq_some_iff.1 hlookup
  have hmem : (name, x) ∈ scope := by
    rw [hsplit]
    exact List.mem_append_right _ List.mem_cons_self
  obtain ⟨hvoid, hshape⟩ := (h.fits a List.mem_cons_self).scopes scope hscope _ hmem
  exact Arena.exists_load hshape hvoid

/-- Without a call in progress only the arguments are left. -/
theorem live_eq (h : Accounted arguments memory []) : memory.live = arguments.length := by
  rw [h.count, ownedBuffers, List.flatMap_nil, List.append_nil, List.length_map]

theorem change {s t : ProgramState} (hc : Change s t)
    (h : Accounted arguments s.memory s.calls.items) : Accounted arguments t.memory t.calls.items := by
  cases hc with
  | contents hm hc =>
    rw [hc]
    exact h.of_shapes hm
  | @adopt a callers site id length hs hm ht =>
    rw [ht]
    rw [hs] at h
    have hadds := Arena.adds_of_allocate hm
    exact h.adds hadds List.perm_middle fun hfits => hfits.adopt hadds.added
  | @declare a callers name b hs hb hm ht =>
    rw [ht]
    rw [hs] at h
    exact h.declare hb (Arena.adds_of_allocate hm)

end Accounted

end BoundedC
