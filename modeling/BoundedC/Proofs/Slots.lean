import BoundedC.Initializer
import Mathlib.Data.List.Nodup
import Mathlib.Algebra.Order.Floor.Div

/-!
# The slots of an array literal

Where the scalars of an array literal go. They keep their order, no slot is used twice, and a nested
list has one whole element of the array for itself.

* `CType.Counted` : the types whose scalars can be counted;
* `Node.slotsFrom_cons_iff` : what the next element of a literal takes;
* `Node.spread_of_slots` : the slots of a literal, and of the lists in it.
-/

namespace BoundedC

/-! ## Counts -/

namespace CType

/-- The dimensions of an array are positive, and its scalars are no more than the bytes that an object
may have. -/
structure Counted (t : CType) : Prop where
  pos : 0 < t.scalarCount
  le : t.scalarCount ≤ maxObjectBytes

variable {t : CType} {length : Nat}

theorem Counted.slotCount_eq (h : t.Counted) : t.slotCount = t.scalarCount :=
  wrapCount_of_le (Nat.le_trans h.le (by decide))

theorem Counted.element (h : (array t length).Counted) : t.Counted := by
  obtain ⟨hpos, hle⟩ := h
  rw [scalarCount] at hpos hle
  have hlength : 0 < length := Nat.pos_of_mul_pos_right hpos
  exact ⟨Nat.pos_of_mul_pos_left hpos, Nat.le_trans (Nat.le_mul_of_pos_left _ hlength) hle⟩

end CType

theorem nextMultiple_eq {width : Nat} (hw : 0 < width) (n : Nat) :
    nextMultiple n width = .ok (n ⌈/⌉ width * width) := by
  rw [nextMultiple, if_neg (Nat.ne_of_gt hw), Nat.ceilDiv_eq_add_pred_div]

/-- The next whole element begins within the array as long as the array is not exceeded. -/
theorem ceilDiv_le_of_le_mul {n width length : Nat} (hw : 0 < width) (h : n ≤ length * width) :
    n ⌈/⌉ width ≤ length := by
  rwa [ceilDiv_le_iff_le_mul hw, Nat.mul_comm]

theorem le_ceilDiv_mul {n width : Nat} (hw : 0 < width) : n ≤ n ⌈/⌉ width * width := by
  rw [Nat.mul_comm]
  exact (ceilDiv_le_iff_le_mul hw).1 (Nat.le_refl _)

theorem mul_ceilDiv_self {width : Nat} (hw : 0 < width) (n : Nat) : n * width ⌈/⌉ width = n := by
  rw [Nat.mul_comm, ← smul_eq_mul]
  exact smul_ceilDiv hw n

theorem ok_bind {ε α β : Type} (a : α) (f : α → Except ε β) : (.ok a >>= f) = f a := rfl

theorem bind_eq_ok_iff {ε α β : Type} {x : Except ε α} {f : α → Except ε β} {b : β} :
    (do let a ← x; f a) = .ok b ↔ ∃ a, x = .ok a ∧ f a = .ok b := by
  cases x with
  | ok a => exact ⟨fun h => ⟨a, rfl, h⟩, fun ⟨_, ha, h⟩ => by cases ha; exact h⟩
  | error => exact ⟨nofun, nofun⟩

/-! ## The next element -/

namespace Node

/-- The first slot behind the next element of a literal, if `filled` slots are passed. A list takes a
whole element of the array, which has `width` scalars. -/
def behind (width filled : Nat) (node : Node) : Nat :=
  if node.isArrayLiteral then (filled ⌈/⌉ width + 1) * width else filled + 1

/-- The slots of the next element of a literal. -/
def part (base : Nat) (element : CType) (filled : Nat) (node : Node) : Except SlotFault (List Nat) :=
  if node.isArrayLiteral then
    node.slots (base + filled ⌈/⌉ element.scalarCount * element.scalarCount) element
  else .ok [base + filled]

variable {base filled length : Nat} {element : CType} {node : Node} {rest : List Node}
  {slots : List Nat}

theorem le_behind {width : Nat} (hw : 0 < width) : filled ≤ behind width filled node := by
  rw [behind]
  split
  · have := le_ceilDiv_mul (n := filled) hw
    rw [Nat.succ_mul]
    omega
  · exact Nat.le_succ _

/-- The next element has to stay within the array; the others follow behind it. -/
theorem slotsFrom_cons_eq (ht : (CType.array element length).Counted)
    (hfilled : filled ≤ length * element.scalarCount) :
    slotsFrom base (.array element length) element filled (node :: rest) =
      if behind element.scalarCount filled node ≤ length * element.scalarCount then do
        let inner ← part base element filled node
        let outer ← slotsFrom base (.array element length) element
          (behind element.scalarCount filled node) rest
        return inner ++ outer
      else .error (.mismatch (.tooManyInitializers (CType.array element length).slotCount
        (.array element length))) := by
  have hwle := ht.element.le
  have htotal := ht.le
  rw [CType.scalarCount] at htotal
  have hrow := Nat.mul_le_mul_right element.scalarCount (ceilDiv_le_of_le_mul ht.element.pos hfilled)
  have hmax : maxObjectBytes + maxObjectBytes ≤ maxSize := by decide
  have hmultiple : nextMultiple filled element.slotCount =
      .ok (filled ⌈/⌉ element.scalarCount * element.scalarCount) := by
    rw [ht.element.slotCount_eq, nextMultiple_eq ht.element.pos]
  have hstart : wrapCount (filled ⌈/⌉ element.scalarCount * element.scalarCount) =
      filled ⌈/⌉ element.scalarCount * element.scalarCount := wrapCount_of_le (by omega)
  have hstop : wrapCount (filled ⌈/⌉ element.scalarCount * element.scalarCount + element.slotCount) =
      (filled ⌈/⌉ element.scalarCount + 1) * element.scalarCount := by
    rw [ht.element.slotCount_eq, Nat.succ_mul]
    exact wrapCount_of_le (by omega)
  rw [slotsFrom, behind, part]
  simp only [hmultiple, ok_bind, hstart, hstop, ht.slotCount_eq, CType.scalarCount]
  cases node.isArrayLiteral with
  | true => simp only [if_true, gt_iff_lt, ← Nat.not_le, ite_not]
  | false =>
    have hroom : filled ≥ length * element.scalarCount ↔ ¬filled + 1 ≤ length * element.scalarCount := by
      omega
    simp only [Bool.false_eq_true, if_false, hroom, ite_not]
    rfl

theorem slotsFrom_cons_iff (ht : (CType.array element length).Counted)
    (hfilled : filled ≤ length * element.scalarCount) :
    slotsFrom base (.array element length) element filled (node :: rest) = .ok slots ↔
      behind element.scalarCount filled node ≤ length * element.scalarCount ∧
        ∃ inner outer, part base element filled node = .ok inner ∧
          slotsFrom base (.array element length) element (behind element.scalarCount filled node) rest =
            .ok outer ∧ inner ++ outer = slots := by
  rw [slotsFrom_cons_eq ht hfilled]
  split
  · rename_i hroom
    simp [bind_eq_ok_iff, pure, Except.pure, hroom]
  · simp [*]

/-! ## All elements -/

/-- Slots that increase from `start` and stay before `stop`. -/
structure Ascending (start stop : Nat) (slots : List Nat) : Prop where
  increasing : slots.Pairwise (· < ·)
  within : ∀ slot ∈ slots, start ≤ slot ∧ slot < stop

namespace Ascending

variable {start middle stop : Nat} {earlier later : List Nat}

theorem append (hle : start ≤ middle) (hle' : middle ≤ stop) (h : Ascending start middle earlier)
    (h' : Ascending middle stop later) : Ascending start stop (earlier ++ later) := by
  refine ⟨List.pairwise_append.2 ⟨h.increasing, h'.increasing, fun x hx y hy => ?_⟩,
    fun slot hslot => ?_⟩
  · exact Nat.lt_of_lt_of_le (h.within x hx).2 (h'.within y hy).1
  · rcases List.mem_append.1 hslot with hslot | hslot
    · have := h.within slot hslot
      omega
    · have := h'.within slot hslot
      omega

theorem length_le (h : Ascending start stop slots) : slots.length ≤ stop - start := by
  have hnodup : slots.Nodup := h.increasing.imp Nat.ne_of_lt
  have hsub : slots ⊆ List.range' start (stop - start) := fun slot hslot => by
    have := h.within slot hslot
    exact List.mem_range'_1.2 (by omega)
  simpa using (List.subperm_of_subset hnodup hsub).length_le

end Ascending

/-- What the slots of one element look like: as many as it has scalars, and for a list those that it has
as an initializer of one whole element of the array, behind the first `filled` slots. No other slot lies
in that element. -/
structure IsPart (base filled : Nat) (element : CType) (length : Nat) (slots : List Nat) (node : Node)
    (inner : List Nat) : Prop where
  count : inner.length = node.leaves.length
  row : node.isArrayLiteral = true → ∃ row < length, filled ≤ row * element.scalarCount ∧
    node.slots (base + row * element.scalarCount) element = .ok inner ∧
    ∀ slot ∈ slots, base + row * element.scalarCount ≤ slot →
      slot < base + (row + 1) * element.scalarCount → slot ∈ inner

/-- The slots of the elements of a literal, behind the first `filled` slots of an array that begins at
`base`: they increase, stay within the array, and each element has its part of them. -/
structure Spread (base filled : Nat) (element : CType) (length : Nat) (elements : List Node)
    (slots : List Nat) : Prop
    extends Ascending (base + filled) (base + length * element.scalarCount) slots where
  count : slots.length = (leavesOf elements).length
  parts : ∃ parts, slots = parts.flatten ∧
    List.Forall₂ (IsPart base filled element length slots) elements parts

theorem length_leaves_of_scalar (h : node.isArrayLiteral = false) : node.leaves.length = 1 := by
  cases node with
  | arrayLiteral => cases h
  | _ => rfl

/-- The slots of the next element, if lists keep to the element they are given. -/
theorem ascending_of_part (hw : 0 < element.scalarCount) {inner : List Nat}
    (hnode : ∀ {start}, node.slots start element = .ok inner →
      Ascending start (start + element.scalarCount) inner ∧ inner.length = node.leaves.length)
    (h : part base element filled node = .ok inner) :
    Ascending (base + filled) (base + behind element.scalarCount filled node) inner ∧
      inner.length = node.leaves.length := by
  cases hkind : node.isArrayLiteral with
  | true =>
    rw [part, if_pos hkind] at h
    rw [behind, if_pos hkind, Nat.succ_mul]
    obtain ⟨⟨hincreasing, hwithin⟩, hcount⟩ := hnode h
    refine ⟨⟨hincreasing, fun slot hslot => ?_⟩, hcount⟩
    have := hwithin slot hslot
    have := le_ceilDiv_mul (n := filled) hw
    omega
  | false =>
    rw [part, hkind, if_neg Bool.false_ne_true] at h
    rw [behind, hkind, if_neg Bool.false_ne_true]
    cases h
    refine ⟨⟨List.pairwise_singleton .., fun slot hslot => ?_⟩, (length_leaves_of_scalar hkind).symm⟩
    rw [List.mem_singleton.1 hslot]
    omega

/-- The next element has a part of all slots, as the others behind it do not come back to it. -/
theorem isPart_of_part (hw : 0 < element.scalarCount) {inner outer : List Nat}
    (hroom : behind element.scalarCount filled node ≤ length * element.scalarCount)
    (hcount : inner.length = node.leaves.length)
    (houter : Ascending (base + behind element.scalarCount filled node)
      (base + length * element.scalarCount) outer)
    (h : part base element filled node = .ok inner) :
    IsPart base filled element length (inner ++ outer) node inner := by
  refine ⟨hcount, fun hkind => ?_⟩
  rw [part, if_pos hkind] at h
  rw [behind, if_pos hkind] at hroom houter
  refine ⟨filled ⌈/⌉ element.scalarCount, Nat.le_of_mul_le_mul_right hroom hw, le_ceilDiv_mul hw, h,
    fun slot hslot _ hto => ?_⟩
  rcases List.mem_append.1 hslot with hslot | hslot
  · exact hslot
  · have := houter.within slot hslot
    omega

/-- Slots in front of an element do not change what the element has. -/
theorem IsPart.behind {stop : Nat} {earlier inner : List Nat} (hle : filled ≤ stop)
    (hearlier : ∀ slot ∈ earlier, slot < base + stop)
    (h : IsPart base stop element length slots node inner) :
    IsPart base filled element length (earlier ++ slots) node inner := by
  refine ⟨h.count, fun hnode => ?_⟩
  obtain ⟨row, hrow, hstop, hslots, halone⟩ := h.row hnode
  refine ⟨row, hrow, Nat.le_trans hle hstop, hslots, fun slot hslot hfrom hto => ?_⟩
  rcases List.mem_append.1 hslot with hslot | hslot
  · have := hearlier slot hslot
    omega
  · exact halone slot hslot hfrom hto

mutual

/-- The slots of a literal lie in its object, in order, one for each scalar. -/
theorem ascending_of_slots {t : CType} (ht : t.Counted) (base : Nat) (node : Node) {slots : List Nat}
    (h : node.slots base t = .ok slots) :
    Ascending base (base + t.scalarCount) slots ∧ slots.length = node.leaves.length := by
  cases node with
  | arrayLiteral place elements =>
    cases t with
    | array element length =>
      rw [Node.slots] at h
      have hspread := spread_of_slotsFrom ht base 0 (Nat.zero_le _) elements h
      exact ⟨hspread.toAscending, by rw [leaves, hspread.count]⟩
    | _ => cases h
  | _ => cases h

theorem spread_of_slotsFrom {element : CType} {length : Nat} (ht : (CType.array element length).Counted)
    (base filled : Nat) (hfilled : filled ≤ length * element.scalarCount) (nodes : List Node)
    {slots : List Nat} (h : slotsFrom base (.array element length) element filled nodes = .ok slots) :
    Spread base filled element length nodes slots := by
  cases nodes with
  | nil =>
    cases h
    exact ⟨⟨.nil, nofun⟩, rfl, [], rfl, .nil⟩
  | cons node rest =>
    have hw := ht.element.pos
    obtain ⟨hroom, inner, outer, hinner, houter, rfl⟩ := (slotsFrom_cons_iff ht hfilled).1 h
    obtain ⟨hascending, hcount⟩ := ascending_of_part hw
      (fun h => ascending_of_slots ht.element _ node h) hinner
    have hspread := spread_of_slotsFrom ht base _ hroom rest houter
    obtain ⟨parts, hparts, hforall⟩ := hspread.parts
    have hle : filled ≤ behind element.scalarCount filled node := le_behind hw
    refine ⟨hascending.append (by omega) (by omega) hspread.toAscending, ?_,
      inner :: parts, by rw [List.flatten_cons, ← hparts],
      .cons (isPart_of_part hw hroom hcount hspread.toAscending hinner) ?_⟩
    · rw [leavesOf, List.length_append, List.length_append, hcount, hspread.count]
    · exact hforall.imp fun _ _ => IsPart.behind hle fun slot hslot => (hascending.within slot hslot).2

end

theorem spread_of_slots {place : Location} {elements : List Node}
    (ht : (CType.array element length).Counted)
    (h : (Node.arrayLiteral place elements).slots base (.array element length) = .ok slots) :
    Spread base 0 element length elements slots := by
  rw [Node.slots] at h
  exact spread_of_slotsFrom ht base 0 (Nat.zero_le _) elements h

end Node

end BoundedC
