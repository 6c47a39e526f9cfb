/-!
Lists with their length at hand.  The length is no content of its own: two of them are equal as soon
as their lists are.
-/

namespace TinyLisp

/-- A list and how long it is. -/
structure Counted (α : Type) where
  toList : List α
  length : Nat
  length_eq : length = toList.length
  deriving DecidableEq, Repr

namespace Counted

variable {α : Type}

/-- Counts a list. -/
def ofList (l : List α) : Counted α :=
  ⟨l, l.length, rfl⟩

/-- The list without its first member. -/
def tail (c : Counted α) : Counted α :=
  ⟨c.toList.tail, c.length - 1, by rw [c.length_eq, List.length_tail]⟩

/-- The list with others after it. -/
def append (c : Counted α) (l : List α) : Counted α :=
  ⟨c.toList ++ l, c.length + l.length, by rw [c.length_eq, List.length_append]⟩

theorem eq_of_toList {c d : Counted α} (h : c.toList = d.toList) : c = d := by
  obtain ⟨l, n, hn⟩ := c
  obtain ⟨l', n', hn'⟩ := d
  simp only at h
  subst h hn hn'
  rfl

@[simp] theorem toList_ofList (l : List α) : (ofList l).toList = l := rfl

@[simp] theorem toList_tail (c : Counted α) : c.tail.toList = c.toList.tail := rfl

@[simp] theorem toList_append (c : Counted α) (l : List α) :
    (c.append l).toList = c.toList ++ l := rfl

theorem ofList_toList (c : Counted α) : ofList c.toList = c :=
  eq_of_toList rfl

end Counted

end TinyLisp
