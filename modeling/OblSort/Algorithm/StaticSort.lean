import OblSort.Lib.Network

/-!
# Static sort

The Bose-Nelson network of `StaticSort` (`algorithm/static_sort.hpp`). `PB` merges two sorted runs
and `PS` sorts; both count positions from 1, as the templates do.
-/

namespace EM.Algorithm.StaticSort

open Net

variable {α : Type}

/-- `Swap(a, i0, i1)`. -/
def swap (i0 i1 : Nat) : Comparator := ⟨true, i0, i1⟩

/-- `PB<I, J, X, Y>`. -/
def pb (i j x y : Nat) : List Comparator :=
  -- the templates are instantiated with `x, y ≥ 1` only
  if x = 0 ∨ y = 0 then []
  else if x = 1 ∧ y = 1 then [swap (i - 1) (j - 1)]
  else if x = 1 ∧ y = 2 then [swap (i - 1) j, swap (i - 1) (j - 1)]
  else if x = 2 ∧ y = 1 then [swap (i - 1) (j - 1), swap i (j - 1)]
  else
    let l := x / 2
    let m := (if x % 2 = 1 then y else y + 1) / 2
    pb i j l m ++ pb (i + l) (j + m) (x - l) (y - m) ++ pb (i + l) j (x - l) m
termination_by x + y
decreasing_by all_goals (try split) <;> omega

/-- `PS<I, M>`. -/
def ps (i m : Nat) : List Comparator :=
  if m ≤ 1 then []
  else
    let l := m / 2
    ps i l ++ ps (i + l) (m - l) ++ pb i (i + l) l (m - l)
termination_by m

/-- `StaticSort<n>` on pairs of an element and its mark: a larger mark in front is swapped, with its
element. -/
def sortMarks (n : Nat) (xs : List (Nat × α)) : List (Nat × α) :=
  run (listExch fun a b => decide (a.1 ≤ b.1)) (ps 1 n) xs

/-- `StaticSort<n, Compare>` on an array: `Swap` exchanges two elements when `Compare` holds for
them in the order they stand in. -/
def sortCompare (lt : α → α → Bool) (n : Nat) (xs : List α) : List α :=
  run (fun _ i0 i1 => condSwap lt i0 i1) (ps 1 n) xs

end EM.Algorithm.StaticSort
