import Mathlib.Data.List.Sort
import OblSort.Algorithm.Bitonic

/-!
# Sorts of the applications

The applications (`apps/`) sort from a reader into a writer, by `KWayButterflySort` or by
`BitonicSortRW` (`apps/apps_common.hpp`). What they rely on is a sorted permutation; `Sorter` is any
sort that gives one, with its own choice between equivalent elements.
-/

namespace Apps

variable {α κ : Type}

/-- `ys` is a permutation of `xs` in the order of `operator<`. -/
structure SortedPerm (lt : α → α → Bool) (xs ys : List α) : Prop where
  perm : List.Perm ys xs
  sorted : List.Pairwise (fun a b => lt b a = false) ys

/-- A sort from a reader into a writer. -/
structure Sorter (lt : α → α → Bool) where
  run : List α → List α
  spec : ∀ xs, SortedPerm lt xs (run xs)

/-- Sort by a key that refines the order. -/
def Sorter.byKey [LinearOrder κ] (key : α → κ) (lt : α → α → Bool)
    (h : ∀ a b, lt a b = true → key a < key b) : Sorter lt where
  run xs := xs.insertionSort fun a b => key a ≤ key b
  spec xs :=
    haveI : Std.Total fun a b : α => key a ≤ key b := ⟨fun a b => le_total (key a) (key b)⟩
    haveI : IsTrans α fun a b => key a ≤ key b := ⟨fun _ _ _ => le_trans⟩
    { perm := List.perm_insertionSort _ xs
      sorted := (List.pairwise_insertionSort _ xs).imp fun {a b} hab =>
        Bool.eq_false_iff.2 fun hlt => (h b a hlt).not_ge hab }

/-- `BitonicSortRW` with the vector in memory. -/
def bitonicSortRW (lt : α → α → Bool) (xs : List α) : List α :=
  EM.Algorithm.bitonicSortList lt xs

end Apps
