/-!
# Places in a source text

`Location` is a line and a column, both counted from 1; columns count characters. `Location.after`
is the place behind one character, `Location.afterAll` the place behind several.
-/

namespace BoundedC

/-- A place in a source text. -/
structure Location where
  line : Nat
  column : Nat
  deriving DecidableEq, Repr, Inhabited

namespace Location

/-- The place of the first character of a text. -/
def start : Location := ⟨1, 1⟩

/-- The place behind the character `c`, which stands at `l`: a newline opens the next line. -/
def after (l : Location) (c : Char) : Location :=
  if c = '\n' then ⟨l.line + 1, 1⟩ else ⟨l.line, l.column + 1⟩

/-- The place behind the characters `cs`, the first of which stands at `l`. -/
def afterAll (l : Location) (cs : List Char) : Location := cs.foldl after l

def describe (l : Location) : String := s!"line {l.line}, column {l.column}"

@[simp] theorem afterAll_nil (l : Location) : l.afterAll [] = l := rfl

@[simp] theorem afterAll_cons (l : Location) (c : Char) (cs : List Char) :
    l.afterAll (c :: cs) = (l.after c).afterAll cs := rfl

theorem afterAll_append (l : Location) (cs ds : List Char) :
    l.afterAll (cs ++ ds) = (l.afterAll cs).afterAll ds := by
  simp [afterAll, List.foldl_append]

end Location

end BoundedC
