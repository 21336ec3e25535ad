import Mathlib.Order.Basic
import BoundedC.Arithmetic
import BoundedC.Proofs.TypedStorage

/-!
# Pointers of one buffer

Sum, difference and order of pointers are computed apart from each other, but they are about the same
line of elements: `Pointer.moved p k` is the element `k` places behind `p`, for any integer `k`.

* `Pointer.add_eq` : a sum is the element it names, if its offset fits;
* `Pointer.difference_moved`, `Pointer.order_moved` : differences and comparisons of elements are those
  of their numbers;
* `Pointer.exists_eq_moved` : what lies a whole number of elements from `p` is an element;
* `pointer_arithmetic` : the laws of `+`, `-`, `<`, `==` and `>` that follow.
-/

namespace BoundedC

namespace Pointer

/-- The element `k` places behind `p`. -/
def moved (p : Pointer) (k : Int) : Pointer := { p with offset := p.offset + k * p.pointee.stride }

@[simp] theorem buffer_moved (p : Pointer) (k : Int) : (p.moved k).buffer = p.buffer := rfl

@[simp] theorem pointee_moved (p : Pointer) (k : Int) : (p.moved k).pointee = p.pointee := rfl

theorem offset_moved (p : Pointer) (k : Int) :
    (p.moved k).offset = p.offset + k * p.pointee.stride := rfl

theorem moved_moved (p : Pointer) (j k : Int) : (p.moved j).moved k = p.moved (j + k) := by
  simp only [moved, Pointer.mk.injEq, true_and, and_true]
  rw [Int.add_mul, Int.add_assoc]

variable {p q : Pointer} {m n : Int32}

theorem add_eq (p : Pointer) (n : Int32) :
    p.add n = if fitsOffset (p.moved n.toInt).offset then .ok (p.moved n.toInt)
      else .error (.offsetOverflow (p.moved n.toInt).offset) := rfl

theorem eq_moved_of_add (h : p.add n = .ok q) : q = p.moved n.toInt := (add_eq_ok_iff.1 h).2

/-- The elements between an element and `p` are counted exactly, whatever the stride. -/
theorem difference_moved (hstride : 1 ≤ p.pointee.stride) (k : Int) :
    (p.moved k).difference p =
      if fitsOffset k then .ok (Int32.ofInt k) else .error (.offsetOverflow k) := by
  have hmax : max (p.pointee.stride : Int) 1 = p.pointee.stride := by omega
  have hdistance : (p.moved k).offset - p.offset = k * p.pointee.stride := by
    rw [offset_moved]
    omega
  have helements : ((p.moved k).offset - p.offset).tdiv (max (p.pointee.stride : Int) 1) = k := by
    rw [hmax, hdistance, Int.mul_tdiv_cancel _ (by omega)]
  unfold difference
  rw [buffer_moved, if_pos rfl, pointee_moved, helements]

theorem order_moved (hstride : 1 ≤ p.pointee.stride) (j k : Int) :
    (p.moved j).order (p.moved k) = compare j k := by
  have hpos : (0 : Int) < p.pointee.stride := by omega
  have hlt {j k : Int} (h : j < k) : (p.moved j).offset < (p.moved k).offset := by
    have := Int.mul_lt_mul_of_pos_right h hpos
    simp only [offset_moved]
    omega
  rw [order, buffer_moved, buffer_moved, Std.compare_self, Ordering.eq_then]
  rcases Int.lt_trichotomy j k with h | rfl | h
  · rw [Int.compare_eq_lt.2 h, Int.compare_eq_lt.2 (hlt h)]
  · rw [Std.compare_self, Std.compare_self]
  · rw [Int.compare_eq_gt.2 h, Int.compare_eq_gt.2 (hlt h)]

/-- What lies a whole number of elements from `p` is one of the elements. -/
theorem exists_eq_moved (hbuffer : q.buffer = p.buffer) (hpointee : q.pointee = p.pointee)
    (hdvd : (p.pointee.stride : Int) ∣ q.offset - p.offset) : ∃ k, q = p.moved k := by
  obtain ⟨k, hk⟩ := hdvd
  obtain ⟨buffer, offset, pointee⟩ := q
  refine ⟨k, ?_⟩
  simp only at hbuffer hpointee hk
  simp only [moved, Pointer.mk.injEq, hbuffer, hpointee, true_and, and_true]
  rw [Int.mul_comm k]
  omega

/-- Where the elements can be counted, the count leads back. -/
theorem eq_moved_of_difference (hstride : 1 ≤ p.pointee.stride) {k : Int}
    (h : (p.moved k).difference p = .ok n) : k = n.toInt := by
  rw [difference_moved hstride] at h
  split at h
  · rename_i hfits
    cases h
    rw [toInt_ofInt_of_fits hfits]
  · cases h

theorem add_add (hm : p.add m = .ok q) (hsum : (m + n).toInt = m.toInt + n.toInt) :
    q.add n = p.add (m + n) := by
  rw [eq_moved_of_add hm, add_eq, add_eq p, moved_moved, hsum]

end Pointer

/-! ## The operators -/

section Operators

variable {p q : Pointer} {m n : Int32}

theorem apply_add_pointer (p : Pointer) (n : Int32) :
    BinaryOp.add.apply (.pointer p) (.int n) = BinaryOp.ofMemory .pointer (p.add n) := rfl

theorem apply_add_pointer_eq_ok_iff :
    BinaryOp.add.apply (.pointer p) (.int n) = .ok (.pointer q) ↔ p.add n = .ok q := by
  rw [apply_add_pointer]
  cases p.add n <;> simp [BinaryOp.ofMemory]

theorem apply_sub_pointers_eq_ok_iff :
    BinaryOp.sub.apply (.pointer q) (.pointer p) = .ok (.int n) ↔ q.difference p = .ok n := by
  change BinaryOp.ofMemory .int (q.difference p) = _ ↔ _
  cases q.difference p <;> simp [BinaryOp.ofMemory]

/-- Elements are compared like their numbers. -/
theorem apply_compare_moved {op : BinaryOp} {holds : Bool} (hstride : 1 ≤ p.pointee.stride)
    (hop : op ≠ .sub) (hholds : op.holds? (compare m.toInt n.toInt) = some holds) :
    op.apply (.pointer (p.moved m.toInt)) (.pointer (p.moved n.toInt)) = .ok (.ofBool holds) := by
  cases op with
  | sub => exact absurd rfl hop
  | _ =>
    unfold BinaryOp.apply
    simp only [Pointer.order_moved hstride, hholds]

theorem isLT_compare_toInt (m n : Int32) : (compare m.toInt n.toInt).isLT = decide (m < n) := by
  rw [Bool.eq_iff_iff, Ordering.isLT_iff_eq_lt, Int.compare_eq_lt, decide_eq_true_iff,
    Int32.lt_iff_toInt_lt]

theorem isEq_compare_toInt (m n : Int32) : (compare m.toInt n.toInt).isEq = decide (m = n) := by
  rw [Bool.eq_iff_iff, Ordering.isEq_iff_eq_eq, Int.compare_eq_eq, decide_eq_true_iff,
    Int32.toInt_inj]

theorem isGT_compare_toInt (m n : Int32) : (compare m.toInt n.toInt).isGT = decide (n < m) := by
  rw [Bool.eq_iff_iff, Ordering.isGT_iff_eq_gt, Int.compare_eq_gt, decide_eq_true_iff,
    Int32.lt_iff_toInt_lt]

end Operators

/-- Sums, differences and comparisons of a pointer's elements go together. A sum is there if its
offset fits, and is then told from its pointer and from other sums by the numbers that were added; sums
add up; and a difference that is exact leads from the one pointer to the other, unless the offset of
the other one does not fit. -/
theorem pointer_arithmetic (p : Pointer) (hstride : 1 ≤ p.pointee.stride) (m n : Int32) :
    ((∃ q, BinaryOp.add.apply (.pointer p) (.int n) = .ok (.pointer q)) ↔
      fitsOffset (p.offset + n.toInt * p.pointee.stride) = true) ∧
    (∀ q, BinaryOp.add.apply (.pointer p) (.int n) = .ok (.pointer q) →
      BinaryOp.sub.apply (.pointer q) (.pointer p) = .ok (.int n)) ∧
    (∀ q r, BinaryOp.add.apply (.pointer p) (.int m) = .ok (.pointer q) →
      BinaryOp.add.apply (.pointer p) (.int n) = .ok (.pointer r) →
      BinaryOp.lt.apply (.pointer q) (.pointer r) = .ok (.ofBool (m < n)) ∧
      BinaryOp.eq.apply (.pointer q) (.pointer r) = .ok (.ofBool (m = n)) ∧
      BinaryOp.gt.apply (.pointer q) (.pointer r) = .ok (.ofBool (m > n))) ∧
    (∀ q r, BinaryOp.add.apply (.pointer p) (.int m) = .ok (.pointer q) →
      BinaryOp.add.apply (.pointer q) (.int n) = .ok (.pointer r) →
      (m + n).toInt = m.toInt + n.toInt →
      BinaryOp.add.apply (.pointer p) (.int (m + n)) = .ok (.pointer r)) ∧
    ∀ q : Pointer, q.buffer = p.buffer → q.pointee = p.pointee →
      (p.pointee.stride : Int) ∣ q.offset - p.offset →
      BinaryOp.sub.apply (.pointer q) (.pointer p) = .ok (.int n) →
      BinaryOp.add.apply (.pointer p) (.int n) =
        if fitsOffset q.offset then .ok (.pointer q) else .error (.memory (.offsetOverflow q.offset)) := by
  refine ⟨?_, fun q hq => ?_, fun q r hq hr => ?_, fun q r hq hr hsum => ?_,
    fun q hbuffer hpointee hdvd hdifference => ?_⟩
  · simp only [apply_add_pointer_eq_ok_iff, Pointer.add_eq_ok_iff]
    exact ⟨fun ⟨_, hfits, _⟩ => hfits, fun hfits => ⟨_, hfits, rfl⟩⟩
  · rw [apply_add_pointer_eq_ok_iff] at hq
    rw [apply_sub_pointers_eq_ok_iff, Pointer.eq_moved_of_add hq, Pointer.difference_moved hstride,
      if_pos (fitsOffset_toInt n), Int32.ofInt_toInt]
  · rw [apply_add_pointer_eq_ok_iff] at hq hr
    obtain rfl := Pointer.eq_moved_of_add hq
    obtain rfl := Pointer.eq_moved_of_add hr
    refine ⟨apply_compare_moved hstride nofun ?_, apply_compare_moved hstride nofun ?_,
      apply_compare_moved hstride nofun ?_⟩
    · exact congrArg some (isLT_compare_toInt m n)
    · exact congrArg some (isEq_compare_toInt m n)
    · exact congrArg some (isGT_compare_toInt m n)
  · rw [apply_add_pointer_eq_ok_iff] at hq hr ⊢
    rwa [← Pointer.add_add hq hsum]
  · rw [apply_sub_pointers_eq_ok_iff] at hdifference
    obtain ⟨k, rfl⟩ := Pointer.exists_eq_moved hbuffer hpointee hdvd
    obtain rfl := Pointer.eq_moved_of_difference hstride hdifference
    rw [apply_add_pointer, Pointer.add_eq]
    split <;> rfl

/-- The third and the fourth element of an array of integers, from the second one. -/
theorem pointer_arithmetic_array :
    let p : Pointer := ⟨⟨1⟩, 4, .int⟩
    let q : Pointer := ⟨⟨1⟩, 8, .int⟩
    let r : Pointer := ⟨⟨1⟩, 12, .int⟩
    1 ≤ p.pointee.stride ∧
      BinaryOp.sub.apply (.pointer r) (.pointer p) = .ok (.int 2) ∧
      BinaryOp.lt.apply (.pointer q) (.pointer r) = .ok (.ofBool true) ∧
      BinaryOp.add.apply (.pointer p) (.int (1 + 2)) = .ok (.pointer ⟨⟨1⟩, 16, .int⟩) := by
  intro p q r
  obtain ⟨-, hdifference, hcompare, hsum, -⟩ := pointer_arithmetic p (by decide) 1 2
  exact ⟨by decide, hdifference r (by decide), (hcompare q r (by decide) (by decide)).1,
    hsum q _ (by decide) (by decide) (by decide)⟩

/-- A pointer whose own offset does not fit can be told by its difference from another one, but is not
reached from there. -/
theorem difference_of_far_pointer :
    let p : Pointer := ⟨⟨1⟩, 1, .char⟩
    let q : Pointer := ⟨⟨1⟩, 2147483648, .char⟩
    fitsOffset p.offset = true ∧ 1 ≤ p.pointee.stride ∧ q.buffer = p.buffer ∧
      q.pointee = p.pointee ∧ (p.pointee.stride : Int) ∣ q.offset - p.offset ∧
      BinaryOp.sub.apply (.pointer q) (.pointer p) = .ok (.int 2147483647) ∧
      BinaryOp.add.apply (.pointer p) (.int 2147483647) =
        .error (.memory (.offsetOverflow 2147483648)) :=
  ⟨by decide, by decide, rfl, rfl, ⟨2147483647, rfl⟩, by decide, by decide⟩

end BoundedC
