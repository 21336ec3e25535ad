/-!
# Counted stacks

A `Stack` is a list whose first element is the top, with its length at hand, so that a ceiling on
the number of elements costs nothing to test and a height costs nothing to note.

* `push`, `pushAll`, `pop`, `drop`, `top?`, `modifyTop` : as on lists, read through `items`;
* `height` : the number of elements;
* `cutTo` : the part of a stack up to a height.
-/

namespace BoundedC

/-- A list of elements, the top first, with its length. -/
structure Stack (α : Type) where
  items : List α
  height : Nat
  height_eq : height = items.length

namespace Stack

variable {α : Type}

@[ext] theorem ext {s t : Stack α} (h : s.items = t.items) : s = t := by
  obtain ⟨items, _, hs⟩ := s
  obtain ⟨items', _, ht⟩ := t
  subst hs ht
  cases h
  rfl

def empty : Stack α := ⟨[], 0, rfl⟩

def isEmpty (s : Stack α) : Bool := s.items.isEmpty

def top? (s : Stack α) : Option α := s.items.head?

def push (s : Stack α) (a : α) : Stack α := ⟨a :: s.items, s.height + 1, by simp [s.height_eq]⟩

/-- Push several elements, the first of which becomes the top. -/
def pushAll (s : Stack α) (as : List α) : Stack α :=
  ⟨as ++ s.items, s.height + as.length, by simp [s.height_eq, Nat.add_comm]⟩

def pop (s : Stack α) : Stack α := ⟨s.items.tail, s.height - 1, by simp [s.height_eq]⟩

/-- The stack below the `count` topmost elements. -/
def drop (s : Stack α) (count : Nat) : Stack α :=
  ⟨s.items.drop count, s.height - count, by simp [s.height_eq]⟩

/-- The part of a stack that is at most so high. -/
def cutTo (s : Stack α) (height : Nat) : Stack α := s.drop (s.height - height)

def modifyTop (s : Stack α) (f : α → α) : Stack α :=
  match h : s.items with
  | [] => s
  | a :: items => ⟨f a :: items, s.height, by simp [s.height_eq, h]⟩

@[simp] theorem items_empty : (empty : Stack α).items = [] := rfl

@[simp] theorem items_push (s : Stack α) (a : α) : (s.push a).items = a :: s.items := rfl

@[simp] theorem height_push (s : Stack α) (a : α) : (s.push a).height = s.height + 1 := rfl

@[simp] theorem items_pushAll (s : Stack α) (as : List α) : (s.pushAll as).items = as ++ s.items := rfl

@[simp] theorem items_drop (s : Stack α) (count : Nat) :
    (s.drop count).items = s.items.drop count := rfl

@[simp] theorem items_pop (s : Stack α) : s.pop.items = s.items.tail := rfl

theorem items_modifyTop_of_cons {s : Stack α} {a : α} {items : List α} (h : s.items = a :: items)
    (f : α → α) : (s.modifyTop f).items = f a :: items := by
  unfold modifyTop
  split <;> simp_all

theorem top?_push (s : Stack α) (a : α) : (s.push a).top? = some a := rfl

theorem pop_push (s : Stack α) (a : α) : (s.push a).pop = s := by
  ext1
  simp

theorem push_inj {s t : Stack α} {a b : α} (h : s.push a = t.push b) : a = b ∧ s = t := by
  have hitems : a :: s.items = b :: t.items := congrArg items h
  injection hitems with ha hs
  exact ⟨ha, ext hs⟩

@[simp] theorem pushAll_nil (s : Stack α) : s.pushAll [] = s := by
  ext1
  simp

theorem pushAll_cons (s : Stack α) (a : α) (as : List α) :
    s.pushAll (a :: as) = (s.pushAll as).push a := by
  ext1
  simp

theorem pushAll_append (s : Stack α) (as bs : List α) :
    s.pushAll (as ++ bs) = (s.pushAll bs).pushAll as := by
  ext1
  simp

theorem pushAll_inj {s : Stack α} {as bs : List α} (h : s.pushAll as = s.pushAll bs) : as = bs :=
  List.append_cancel_right (congrArg items h)

theorem drop_pushAll (s : Stack α) (as : List α) : (s.pushAll as).drop as.length = s := by
  ext1
  simp

/-- What was pushed above a height is gone when the stack is cut to that height. -/
theorem cutTo_pushAll (s : Stack α) (as : List α) : (s.pushAll as).cutTo s.height = s := by
  ext1
  simp [cutTo, pushAll]

theorem cutTo_height (s : Stack α) : s.cutTo s.height = s := by
  ext1
  simp [cutTo]

theorem cutTo_push {s : Stack α} {height : Nat} (h : height ≤ s.height) (a : α) :
    (s.push a).cutTo height = s.cutTo height := by
  ext1
  simp [cutTo, push, Nat.succ_sub h]

theorem pop_modifyTop (s : Stack α) (f : α → α) : (s.modifyTop f).pop = s.pop := by
  ext1
  unfold modifyTop
  split <;> simp_all

end Stack

end BoundedC
