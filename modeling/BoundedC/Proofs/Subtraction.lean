import BoundedC.Proofs.Release
import BoundedC.Proofs.TypedStorage

/-!
# Subtracting an integer from a pointer

`p - n` moves `p` by `-n` elements, where `-n` is computed in 32 bits: the least integer is its own
negation, and every other one is negated exactly. But for that integer, the offset is the exact one or
the subtraction is refused.

* `Pointer.back` : what the subtraction has to yield, in unbounded integers;
* `Pointer.add_neg` : it is what moving by the negated integer yields;
* `Arena.exists_store_pointer` : a pointer that was stored is read back;
* `sub_exact` : `p - n`, `p -= n` and `(p + n) - n` in any run.
-/

namespace BoundedC

/-- Integers are negated exactly but for the least one. -/
theorem toInt_neg_of_ne_minValue {n : Int32} (hn : n ≠ Int32.minValue) : (-n).toInt = -n.toInt := by
  have hmin : n.toInt ≠ -2 ^ 31 := fun h => hn (Int32.toInt_inj.1 (h.trans Int32.toInt_minValue.symm))
  have hlow := n.le_toInt
  have hhigh := n.toInt_lt
  rw [Int32.toInt_neg, Int.bmod_def]
  omega

namespace Pointer

/-- The pointer `n` elements in front of `p`. -/
def back (p : Pointer) (n : Int32) : Except MemoryFault Pointer :=
  let offset := p.offset - n.toInt * p.pointee.stride
  if fitsOffset offset then .ok { p with offset } else .error (.offsetOverflow offset)

/-- Moving by the negated integer goes back, for the least one too where there is no way to go. -/
theorem add_neg {p : Pointer} {n : Int32} (hn : n ≠ Int32.minValue ∨ p.pointee.stride = 0) :
    p.add (-n) = p.back n := by
  have hoffset : p.offset + (-n).toInt * p.pointee.stride = p.offset - n.toInt * p.pointee.stride := by
    rcases hn with hn | hstride
    · rw [toInt_neg_of_ne_minValue hn, Int.neg_mul, Int.sub_eq_add_neg]
    · simp [hstride]
  unfold add back
  rw [hoffset]

theorem fits_of_back {p q : Pointer} {n : Int32} (h : p.back n = .ok q) :
    fitsOffset q.offset = true ∧ q.pointee = p.pointee := by
  unfold back at h
  dsimp only at h
  split at h
  · cases h
    exact ⟨‹_›, rfl⟩
  · cases h

theorem back_of_add {p q : Pointer} {n : Int32} (hp : fitsOffset p.offset = true)
    (h : p.add n = .ok q) : q.back n = .ok p := by
  obtain ⟨-, rfl⟩ := add_eq_ok_iff.1 h
  have hoffset : p.offset + n.toInt * p.pointee.stride - n.toInt * p.pointee.stride = p.offset := by
    omega
  unfold back
  dsimp only
  rw [hoffset, if_pos hp]

end Pointer

/-! ## Pointers in storage -/

namespace Arena

variable {a : Arena}

/-- A pointer can be stored where one was loaded, and is read back. -/
theorem exists_store_pointer {target p q : Pointer} {t : CType} (htarget : target.pointee = .pointer t)
    (hload : a.load target = .ok (.pointer p)) (hq : fitsOffset q.offset = true) :
    ∃ b, a.store target (.pointer q) = (.ok (.pointer (q.retyped t)), b) ∧
      b.load target = .ok (.pointer (q.retyped t)) := by
  have hscalar : target.pointee.isScalar = true := by rw [htarget]; rfl
  have hconvert : (Value.pointer q).convert target.pointee = .ok (.pointer (q.retyped t)) := by
    rw [htarget]
    rfl
  obtain ⟨_, hread, -⟩ := exists_read_of_load hscalar hload
  obtain ⟨start, hstart⟩ := exists_start_of_read hread
  obtain ⟨b, hstore⟩ := exists_store_of_start (Value.isStorable_pointer hq) hconvert hstart
  exact ⟨b, hstore, load_of_store hstore⟩

end Arena

/-! ## Subtraction in a run -/

/-- Reading a pointer through a pointer to pointers gives it that pointee. -/
theorem pointee_of_load {a : Arena} {target p : Pointer} {t : CType}
    (htarget : target.pointee = .pointer t) (hload : a.load target = .ok (.pointer p)) :
    p.pointee = t := by
  obtain ⟨bytes, -, hdecode⟩ := Arena.exists_read_of_load (by rw [htarget]; rfl) hload
  rw [htarget] at hdecode
  have hsame : Value.pointer (p.retyped t) = .pointer p :=
    Except.ok.inj (Value.convert_of_decode hdecode)
  injection hsame with hsame
  rw [← hsame, Pointer.retyped]

theorem sub_apply {p : Pointer} {n : Int32} (hn : n ≠ Int32.minValue ∨ p.pointee.stride = 0) :
    BinaryOp.sub.apply (.pointer p) (.int n) = BinaryOp.ofMemory .pointer (p.back n) := by
  rw [← Pointer.add_neg hn]
  rfl

/-- The run that goes on with a pointer as its latest operand, or ends for lack of it. -/
def Run.afterPointer (place : Location) (p : Pending) (bases : List Heights) (s : ProgramState) :
    Except MemoryFault Pointer → Run
  | .ok q => .underWay ⟨p.push (.pointer q), bases⟩ s
  | .error fault => .ended (.error (.fault (.memory fault) place)) s

section Steps

variable (i : Interpreter) (place : Location) (jobs : Stack Job) (operands : Stack Value)
  (bases : List Heights) (s : ProgramState) {p : Pointer} {n : Int32}

open Effect

theorem next_sub (hn : n ≠ Int32.minValue ∨ p.pointee.stride = 0) :
    i.next (.underWay
        ⟨⟨jobs.push (.binary .sub place), (operands.push (.pointer p)).push (.int n)⟩, bases⟩ s) =
      .afterPointer place ⟨jobs, operands⟩ bases s (p.back n) := by
  have hstep : (i.step ⟨⟨jobs.push (.binary .sub place),
      (operands.push (.pointer p)).push (.int n)⟩, bases⟩) =
      (do return .running ⟨← (do
        return (⟨jobs, operands⟩ : Pending).push
          (← ofExcept place (BinaryOp.sub.apply (.pointer p) (.int n)))), bases⟩) := by
    simp [Interpreter.step, Interpreter.perform, Pending.binary, Stack.top?_push, Stack.pop_push]
  rw [Interpreter.next, hstep, sub_apply hn]
  cases p.back n with
  | ok q => rfl
  | error fault => rfl

/-- `p -= n` leaves the exact pointer in `p`, or `p` as it was. -/
theorem exists_next_sub_assign (hn : n ≠ Int32.minValue ∨ p.pointee.stride = 0) {target : Pointer}
    {t : CType} (htarget : target.pointee = .pointer t)
    (hload : s.memory.load target = .ok (.pointer p)) :
    ∃ memory, i.next (.underWay
        ⟨⟨jobs.push (.compoundAssign .sub place), (operands.push (.pointer target)).push (.int n)⟩,
          bases⟩ s) =
        .afterPointer place ⟨jobs, operands⟩ bases { s with memory } (p.back n) ∧
      (∀ q, p.back n = .ok q → memory.load target = .ok (.pointer q)) ∧
      ∀ fault, p.back n = .error fault → memory = s.memory := by
  have hstep : i.step ⟨⟨jobs.push (.compoundAssign .sub place),
      (operands.push (.pointer target)).push (.int n)⟩, bases⟩ =
      (do return .running ⟨← (do
        return (⟨jobs, operands⟩ : Pending).push (← Effect.compoundAssign .sub place target (.int n))),
        bases⟩) := by
    simp [Interpreter.step, Interpreter.perform, Pending.compoundAssign, Stack.top?_push,
      Stack.pop_push]
  have hassign : Effect.compoundAssign .sub place target (.int n) = (do
      let old ← load place target
      let new ← ofExcept place (BinaryOp.sub.apply old (.int n))
      store place target new) := by
    unfold Effect.compoundAssign Effect.assign
    rw [htarget]
    rfl
  have hread : (load place target).run s = (.ok (.pointer p), s) := run_readMemory_of_ok place hload
  rw [Interpreter.next, hstep, hassign, run_bind, run_bind, run_bind_of_ok hread, sub_apply hn]
  cases hback : p.back n with
  | error fault =>
    refine ⟨s.memory, rfl, ?_, fun _ _ => rfl⟩
    rintro _ ⟨⟩
  | ok q =>
    obtain ⟨hfits, hpointee⟩ := Pointer.fits_of_back hback
    obtain ⟨memory, hstore, hstored⟩ := Arena.exists_store_pointer htarget hload hfits
    have hq : q.retyped t = q := by
      rw [← pointee_of_load htarget hload, ← hpointee]
      rfl
    rw [hq] at hstore hstored
    have hrun : (store place target (.pointer q)).run s = (.ok (.pointer q), { s with memory }) :=
      run_onMemory_of_ok hstore
    refine ⟨memory, ?_, ?_, ?_⟩
    · have hnew : (ofExcept place (BinaryOp.ofMemory Value.pointer (.ok q))).run s =
          (.ok (.pointer q), s) := rfl
      rw [run_bind_of_ok hnew, hrun]
      rfl
    · rintro _ ⟨⟩
      exact hstored
    · rintro _ ⟨⟩

end Steps

/-- Subtracting `n` from a pointer, in any run: `p - n` and `p -= n` go on with the pointer whose
offset is the exact one, or end the run with a bounds error if 32 bits cannot hold it, and `n` can be
subtracted again wherever it was added. Of the least integer, which has no negation, this holds where
elements have no width. -/
theorem sub_exact (i : Interpreter) (p : Pointer) (n : Int32) (hp : fitsOffset p.offset = true)
    (hn : n ≠ Int32.minValue ∨ p.pointee.stride = 0) :
    (∀ place jobs operands bases s, i.next (.underWay
        ⟨⟨jobs.push (.binary .sub place), (operands.push (.pointer p)).push (.int n)⟩, bases⟩ s) =
      .afterPointer place ⟨jobs, operands⟩ bases s (p.back n)) ∧
    (∀ place jobs operands bases s target t, target.pointee = .pointer t →
      s.memory.load target = .ok (.pointer p) → ∃ memory, i.next (.underWay
          ⟨⟨jobs.push (.compoundAssign .sub place), (operands.push (.pointer target)).push (.int n)⟩,
            bases⟩ s) =
          .afterPointer place ⟨jobs, operands⟩ bases { s with memory } (p.back n) ∧
        (∀ q, p.back n = .ok q → memory.load target = .ok (.pointer q)) ∧
        ∀ fault, p.back n = .error fault → memory = s.memory) ∧
    (∀ fault, p.back n = .error fault → RuntimeFault.kind (.memory fault) = "BoundsError") ∧
    ∀ q, BinaryOp.add.apply (.pointer p) (.int n) = .ok (.pointer q) →
      BinaryOp.sub.apply (.pointer q) (.int n) = .ok (.pointer p) := by
  refine ⟨fun place jobs operands bases s => next_sub i place jobs operands bases s hn,
    fun place jobs operands bases s target t htarget hload =>
      exists_next_sub_assign i place jobs operands bases s hn htarget hload, ?_, ?_⟩
  · intro fault h
    unfold Pointer.back at h
    dsimp only at h
    split at h
    · cases h
    · cases h
      rfl
  · intro q h
    have hadd : p.add n = .ok q := by
      change BinaryOp.ofMemory .pointer (p.add n) = _ at h
      cases hadd : p.add n with
      | error fault =>
        rw [hadd] at h
        cases h
      | ok r =>
        rw [hadd] at h
        cases h
        rfl
    have hq : q.pointee = p.pointee := by
      obtain ⟨-, rfl⟩ := Pointer.add_eq_ok_iff.1 hadd
      rfl
    rw [sub_apply (by rwa [hq]), Pointer.back_of_add hp hadd]
    rfl

/-- Two elements back from the third element of an array. -/
theorem sub_exact_two :
    let p : Pointer := ⟨⟨1⟩, 8, .int⟩
    fitsOffset p.offset = true ∧ (2 : Int32) ≠ Int32.minValue ∧
      (Interpreter.ofProgram ⟨[]⟩ .default).next (.underWay
          ⟨⟨Stack.empty.push (.binary .sub ⟨1, 1⟩), (Stack.empty.push (.pointer p)).push (.int 2)⟩, []⟩
          (.fresh .unlimited)) =
        .underWay ⟨⟨.empty, Stack.empty.push (.pointer ⟨⟨1⟩, 0, .int⟩)⟩, []⟩ (.fresh .unlimited) :=
  ⟨by decide, by decide, (sub_exact _ ⟨⟨1⟩, 8, .int⟩ 2 (by decide) (.inl (by decide))).1 ..⟩

/-- The least integer is added where it should be subtracted: a displacement that no pointer can have
comes out as one on the other side. -/
theorem sub_minValue :
    let p : Pointer := ⟨⟨1⟩, 0, .char⟩
    p.back Int32.minValue = .error (.offsetOverflow 2147483648) ∧
      BinaryOp.sub.apply (.pointer p) (.int Int32.minValue) =
        .ok (.pointer ⟨⟨1⟩, -2147483648, .char⟩) := by
  decide

end BoundedC
