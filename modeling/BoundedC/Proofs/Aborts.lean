import BoundedC.Declaration

/-!
# Where a run is broken off

The slots of an array literal are found by a division by the number of scalars of an element. It is a
division by zero in one case only: the elements of the array count for no scalars, and the first value
of the literal is a list. A list further behind is not looked at, since the array has no room for what
stands in front of it; and where the elements count for some scalars, so do the elements of these.

* `Node.slots_eq_divisionByZero_iff` : the literals whose scalars are not given slots for that reason;
* `Declaration.BreaksOff`, `breaksOff_of_slots`, `BreaksOff.run_fill` : the declarations that break off a
  run, which are those where the division fails, and all of them.
-/

namespace BoundedC

theorem CType.slotCount_ne_zero_of_array {t : CType} {length : Nat}
    (h : (array t length).slotCount ≠ 0) : t.slotCount ≠ 0 := by
  intro hzero
  rw [slotCount_array, hzero] at h
  exact h rfl

theorem bind_ne_error {ε α β : Type} {x : Except ε α} {f : α → Except ε β} {e : ε}
    (hx : x ≠ .error e) (hf : ∀ a, f a ≠ .error e) : (do let a ← x; f a) ≠ .error e := by
  cases x with
  | ok a => exact hf a
  | error fault =>
    intro h
    cases h
    exact hx rfl

namespace Node

mutual

theorem slots_ne_divisionByZero {t : CType} (ht : t.slotCount ≠ 0) (base : Nat) (node : Node) :
    node.slots base t ≠ .error .divisionByZero := by
  cases node with
  | arrayLiteral place elements =>
    cases t with
    | array element length =>
      rw [slots]
      exact slotsFrom_ne_divisionByZero (CType.slotCount_ne_zero_of_array ht) base _ 0 elements
    | _ => nofun
  | _ => nofun

/-- If the elements count for some scalars, none of the divisions is by zero. -/
theorem slotsFrom_ne_divisionByZero {element : CType} (hw : element.slotCount ≠ 0) (base : Nat)
    (type : CType) (filled : Nat) (nodes : List Node) :
    slotsFrom base type element filled nodes ≠ .error .divisionByZero := by
  cases nodes with
  | nil => nofun
  | cons node rest =>
    have hrest (filled : Nat) := slotsFrom_ne_divisionByZero hw base type filled rest
    have hmultiple : nextMultiple filled element.slotCount ≠ .error .divisionByZero := by
      rw [nextMultiple, if_neg hw]
      nofun
    rw [slotsFrom]
    dsimp only
    split
    · refine bind_ne_error hmultiple fun start => ?_
      split
      · nofun
      · refine bind_ne_error (slots_ne_divisionByZero hw _ node) fun inner => ?_
        exact bind_ne_error (hrest _) fun outer => nofun
    · split
      · nofun
      · exact bind_ne_error (hrest _) fun outer => nofun

end

/-- The first value that is a list is what divides by zero, if there is no room for anything else. -/
theorem slots_eq_divisionByZero_iff {site : Location} {elements : List Node} {base : Nat} {t : CType} :
    (arrayLiteral site elements).slots base t = .error .divisionByZero ↔
      ∃ element length first rest, t = .array element length ∧ element.slotCount = 0 ∧
        elements = first :: rest ∧ first.isArrayLiteral = true := by
  constructor
  · intro h
    cases t with
    | array element length =>
      rw [slots] at h
      have hw : element.slotCount = 0 :=
        Decidable.byContradiction fun hw => slotsFrom_ne_divisionByZero hw base _ 0 elements h
      cases elements with
      | nil => cases h
      | cons first rest =>
        refine ⟨element, length, first, rest, rfl, hw, rfl, ?_⟩
        cases hkind : first.isArrayLiteral with
        | true => rfl
        | false =>
          have htotal : (CType.array element length).slotCount = 0 := by
            rw [slotCount_array, hw]
            rfl
          rw [slotsFrom, hkind, htotal] at h
          cases h
    | _ => cases h
  · rintro ⟨element, length, first, rest, rfl, hw, rfl, hfirst⟩
    rw [slots, slotsFrom, if_pos hfirst, nextMultiple, if_pos hw]
    rfl

end Node

namespace Declaration

def node (d : Declaration) : Node := .declaration d.place d.name d.type d.isConst d.init

/-- An array is declared whose elements count for no scalars, and its first value is a list. -/
def BreaksOff (d : Declaration) : Prop :=
  ∃ element length site first rest, d.type = .array element length ∧ element.slotCount = 0 ∧
    d.init = some (.arrayLiteral site (first :: rest)) ∧ first.isArrayLiteral = true

theorem breaksOff_of_slots {d : Declaration} {site : Location} {elements : List Node}
    (hinit : d.init = some (.arrayLiteral site elements))
    (h : (Node.arrayLiteral site elements).slots 0 d.type = .error .divisionByZero) : d.BreaksOff := by
  obtain ⟨element, length, first, rest, htype, hw, rfl, hfirst⟩ := Node.slots_eq_divisionByZero_iff.1 h
  exact ⟨element, length, site, first, rest, htype, hw, hinit, hfirst⟩

/-- Such a declaration has no other outcome, whatever its values are. -/
theorem BreaksOff.run_fill {d : Declaration} (h : d.BreaksOff) (b : Binding) (values : List Value)
    (s : ProgramState) : (d.fill b values).run s = (.error .abort, s) := by
  obtain ⟨place, name, type, isConst, init⟩ := d
  obtain ⟨element, length, site, first, rest, rfl, hw, rfl, hfirst⟩ := h
  have hslots : (Node.arrayLiteral site (first :: rest)).slots 0 (.array element length) =
      .error .divisionByZero :=
    Node.slots_eq_divisionByZero_iff.2 ⟨element, length, first, rest, rfl, hw, rfl, hfirst⟩
  simp only [fill, hslots]
  rfl

end Declaration

end BoundedC
