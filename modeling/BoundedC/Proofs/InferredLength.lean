import BoundedC.Proofs.Slots
import BoundedC.Reader.Shape

/-!
# Lengths taken from initializers

An array without a length takes it from its array literal. The least length that has room for the
literal depends on how far its elements reach: a list begins with the next whole element of the array,
and the slots that no scalar has taken are passed over. Unless there are lists only, the inferred length
counts the scalars alone. So it is never too large, but too small where a literal passes over slots that
an element more would have to make up for.

* `Node.reach` : the number of slots that are taken or passed over;
* `Node.exists_slots_iff` : the lengths that have room for a literal;
* `inferredLength_of_slots` : the inferred length against the least one that has room;
* `exists_inferredLength_without_room` : a literal for which it is too small.
-/

namespace BoundedC

namespace Node

/-- How far the elements of a literal reach in an array with `width` scalars to an element, behind the
first `filled` slots. -/
def reach (width filled : Nat) (elements : List Node) : Nat := elements.foldl (behind width) filled

/-- The least length of an array that has room for the elements. -/
def leastLength (element : CType) (elements : List Node) : Nat :=
  reach element.scalarCount 0 elements ⌈/⌉ element.scalarCount

variable {base filled length : Nat} {element : CType} {nodes : List Node} {slots : List Nat}

theorem le_reach {width : Nat} (hw : 0 < width) (filled : Nat) (nodes : List Node) :
    filled ≤ reach width filled nodes := by
  induction nodes generalizing filled with
  | nil => exact Nat.le_refl _
  | cons node rest ih => exact Nat.le_trans (le_behind hw) (ih _)

/-- Lists alone take one element each. -/
theorem reach_of_lists {width : Nat} (hw : 0 < width) (h : nodes.all isArrayLiteral = true) (row : Nat) :
    reach width (row * width) nodes = (row + nodes.length) * width := by
  induction nodes generalizing row with
  | nil => rfl
  | cons node rest ih =>
    rw [List.all_cons, Bool.and_eq_true] at h
    have hbehind : behind width (row * width) node = (row + 1) * width := by
      rw [behind, if_pos h.1, mul_ceilDiv_self hw]
    rw [reach, List.foldl_cons, hbehind, ← reach, ih h.2, List.length_cons, Nat.add_assoc, Nat.add_comm 1]

/-! ## Room for a literal -/

/-- A literal that an array has room for does not reach beyond it. -/
theorem reach_le_of_slotsFrom (ht : (CType.array element length).Counted)
    (hfilled : filled ≤ length * element.scalarCount)
    (h : slotsFrom base (.array element length) element filled nodes = .ok slots) :
    reach element.scalarCount filled nodes ≤ length * element.scalarCount := by
  induction nodes generalizing filled slots with
  | nil => exact hfilled
  | cons node rest ih =>
    obtain ⟨hroom, _, _, -, houter, -⟩ := (slotsFrom_cons_iff ht hfilled).1 h
    exact ih hroom houter

/-- An array of another length that the literal does not reach beyond has room for it as well. -/
theorem slotsFrom_of_reach_le {other : Nat} (ht : (CType.array element length).Counted)
    (hother : (CType.array element other).Counted) (hfilled : filled ≤ length * element.scalarCount)
    (h : slotsFrom base (.array element length) element filled nodes = .ok slots)
    (hreach : reach element.scalarCount filled nodes ≤ other * element.scalarCount) :
    slotsFrom base (.array element other) element filled nodes = .ok slots := by
  induction nodes generalizing filled slots with
  | nil => exact h
  | cons node rest ih =>
    have hw := ht.element.pos
    obtain ⟨hroom, inner, outer, hinner, houter, hslots⟩ := (slotsFrom_cons_iff ht hfilled).1 h
    have hbehind := Nat.le_trans (le_reach hw _ rest) hreach
    exact (slotsFrom_cons_iff hother (Nat.le_trans (le_behind hw) hbehind)).2
      ⟨hbehind, inner, outer, hinner, ih hroom houter hreach, hslots⟩

/-- Each scalar takes a slot. -/
theorem length_leavesOf_le_reach (ht : (CType.array element length).Counted)
    (hfilled : filled ≤ length * element.scalarCount)
    (h : slotsFrom base (.array element length) element filled nodes = .ok slots) :
    filled + (leavesOf nodes).length ≤ reach element.scalarCount filled nodes := by
  induction nodes generalizing filled slots with
  | nil => exact Nat.le_refl _
  | cons node rest ih =>
    have hw := ht.element.pos
    obtain ⟨hroom, inner, outer, hinner, houter, -⟩ := (slotsFrom_cons_iff ht hfilled).1 h
    obtain ⟨hascending, hcount⟩ := ascending_of_part hw (ascending_of_slots ht.element _ node) hinner
    have hpart := hascending.length_le
    have hrest := ih hroom houter
    have hle : filled ≤ behind element.scalarCount filled node := le_behind hw
    rw [leavesOf, List.length_append, reach, List.foldl_cons, ← reach]
    omega

/-- The lengths that have room for a literal are those from the least one on. -/
theorem exists_slots_iff {place : Location} {elements : List Node} {other : Nat}
    (ht : (CType.array element length).Counted)
    (h : (Node.arrayLiteral place elements).slots 0 (.array element length) = .ok slots)
    (hother : (CType.array element other).Counted) :
    (∃ slots, (Node.arrayLiteral place elements).slots 0 (.array element other) = .ok slots) ↔
      leastLength element elements ≤ other := by
  rw [leastLength, ceilDiv_le_iff_le_mul ht.element.pos, Nat.mul_comm]
  simp only [Node.slots] at h ⊢
  exact ⟨fun ⟨_, h'⟩ => reach_le_of_slotsFrom hother (Nat.zero_le _) h',
    fun hreach => ⟨slots, slotsFrom_of_reach_le ht hother (Nat.zero_le _) h hreach⟩⟩

end Node

/-! ## The inferred length -/

open Node

variable {element : CType} {elements : List Node} {place site : Location} {length : Nat}
  {slots : List Nat}

theorem inferredLength?_of_lists (h : elements.all isArrayLiteral = true) :
    inferredLength? element (some (.arrayLiteral site elements)) = some elements.length := by
  rw [inferredLength?, if_pos h]

theorem inferredLength?_of_scalars (h : elements.all isArrayLiteral = false) :
    inferredLength? element (some (.arrayLiteral site elements)) =
      some ((leavesOf elements).length ⌈/⌉ element.scalarCount) := by
  rw [inferredLength?, h, if_neg Bool.false_ne_true, Nat.ceilDiv_eq_add_pred_div]

theorem length_leavesOf_pos (h : elements.all isArrayLiteral = false) :
    0 < (leavesOf elements).length := by
  induction elements with
  | nil => cases h
  | cons node rest ih =>
    rw [leavesOf, List.length_append]
    cases hnode : node.isArrayLiteral with
    | true =>
      rw [List.all_cons, hnode, Bool.true_and] at h
      exact Nat.add_pos_right _ (ih h)
    | false =>
      rw [length_leaves_of_scalar hnode]
      exact Nat.add_pos_left Nat.one_pos _

theorem leastLength_of_lists (hw : 0 < element.scalarCount) (h : elements.all isArrayLiteral = true) :
    leastLength element elements = elements.length := by
  have hreach := reach_of_lists hw h 0
  rw [Nat.zero_mul, Nat.zero_add] at hreach
  rw [leastLength, hreach, mul_ceilDiv_self hw]

/-- An inferred length, which is not zero, is what the reader goes on with. -/
theorem run_inferredLength {k : Nat} {init : Option Node} (hk : 0 < k)
    (h : inferredLength? element init = some k) (s : ReaderState) :
    (Reader.inferredLength element init place).run s = .ok (k, s) := by
  rw [Reader.inferredLength, h]
  cases k with
  | zero => exact absurd hk (Nat.lt_irrefl 0)
  | succ k => rfl

/-- A literal that some array has room for gets a length, which is no more than the least one that has
room. It is that one if there are lists only, or else if the scalars would not fit an array that is one
element shorter. -/
theorem inferredLength_of_slots (ht : (CType.array element length).Counted) (hne : elements ≠ [])
    (h : (Node.arrayLiteral site elements).slots 0 (.array element length) = .ok slots)
    (s : ReaderState) :
    (∀ other, (CType.array element other).Counted →
      ((∃ slots, (Node.arrayLiteral site elements).slots 0 (.array element other) = .ok slots) ↔
        leastLength element elements ≤ other)) ∧
    ∃ k, (Reader.inferredLength element (some (.arrayLiteral site elements)) place).run s = .ok (k, s) ∧
      k ≤ leastLength element elements ∧
      (k = leastLength element elements ↔ elements.all isArrayLiteral = true ∨
        (leastLength element elements - 1) * element.scalarCount < (leavesOf elements).length) := by
  refine ⟨fun other => exists_slots_iff ht h, ?_⟩
  have hw := ht.element.pos
  cases hall : elements.all isArrayLiteral with
  | true =>
    have hleast := leastLength_of_lists hw hall
    exact ⟨elements.length, run_inferredLength (List.length_pos_of_ne_nil hne)
      (inferredLength?_of_lists hall) s, Nat.le_of_eq hleast.symm, by simp [hleast]⟩
  | false =>
    have hpos := length_leavesOf_pos hall
    have hscalars : (leavesOf elements).length ≤ reach element.scalarCount 0 elements := by
      rw [Node.slots] at h
      have := length_leavesOf_le_reach ht (Nat.zero_le _) h
      omega
    set k := (leavesOf elements).length ⌈/⌉ element.scalarCount with hk
    have hle : k ≤ leastLength element elements := by
      rw [hk, ceilDiv_le_iff_le_mul hw, Nat.mul_comm]
      exact Nat.le_trans hscalars (le_ceilDiv_mul hw)
    have hshorter : k ≤ leastLength element elements - 1 ↔
        (leavesOf elements).length ≤ (leastLength element elements - 1) * element.scalarCount := by
      rw [hk, ceilDiv_le_iff_le_mul hw, Nat.mul_comm]
    have hkpos : 0 < k := by
      by_contra hzero
      have := le_ceilDiv_mul (n := (leavesOf elements).length) hw
      rw [← hk, Nat.eq_zero_of_not_pos hzero, Nat.zero_mul] at this
      omega
    refine ⟨k, run_inferredLength hkpos (inferredLength?_of_scalars hall) s, hle, ?_⟩
    simp only [Bool.false_eq_true, false_or]
    omega

/-- In `int a[][2] = {1, 2, {3}}` the list fills up the second row, so two rows are inferred. -/
theorem exists_inferredLength_of_slots :
    let place := Location.start
    let elements := [Node.intLiteral place 1, .intLiteral place 2, .arrayLiteral place [.intLiteral place 3]]
    ∃ k, (Reader.inferredLength (.array .int 2) (some (.arrayLiteral place elements)) place).run
        (.ofTokens []) = .ok (k, .ofTokens []) ∧ k = leastLength (.array .int 2) elements := by
  intro place elements
  have h : (Node.arrayLiteral place elements).slots 0 (.array (.array .int 2) 4) = .ok [0, 1, 2] := rfl
  have ht : (CType.array (.array .int 2) 4).Counted := ⟨by decide, by decide⟩
  have hne : elements ≠ [] := by decide
  obtain ⟨-, k, hk, -, hiff⟩ := inferredLength_of_slots ht hne h (.ofTokens [])
  exact ⟨k, hk, hiff.2 (.inr (by decide))⟩

/-- In `int a[][3] = {1, {2}}` the list begins with the second row, but one row is inferred, which has
no room for it. -/
theorem exists_inferredLength_without_room :
    let place := Location.start
    let literal := Node.arrayLiteral place [.intLiteral place 1, .arrayLiteral place [.intLiteral place 2]]
    literal.slots 0 (.array (.array .int 3) 2) = .ok [0, 3] ∧
      (∀ s, (Reader.inferredLength (.array .int 3) (some literal) place).run s = .ok (1, s)) ∧
      literal.slots 0 (.array (.array .int 3) 1) =
        .error (.mismatch (.tooManyInitializers 3 (.array (.array .int 3) 1))) :=
  ⟨rfl, fun _ => rfl, rfl⟩

end BoundedC
