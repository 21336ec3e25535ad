/-!
# Sets of numbers as lists of ranges

A property of code points is kept as the list of its ranges, both ends included.
`covers_iff` says that membership is membership in one of them.
-/

namespace BoundedC.Text

/-- A set of numbers, as ranges with both ends included. -/
abbrev Ranges := List (Nat × Nat)

def Ranges.covers (rs : Ranges) (n : Nat) : Bool :=
  rs.any fun r => decide (r.1 ≤ n ∧ n ≤ r.2)

theorem Ranges.covers_iff (rs : Ranges) (n : Nat) :
    rs.covers n = true ↔ ∃ r ∈ rs, r.1 ≤ n ∧ n ≤ r.2 := by
  simp [Ranges.covers]

end BoundedC.Text
