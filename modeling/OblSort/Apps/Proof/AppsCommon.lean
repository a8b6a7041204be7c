import OblSort.Algorithm.Proof.Bitonic
import OblSort.Apps.AppsCommon

/-!
# Sorts of the applications

`BitonicSortRW` gives a sorted permutation for every strict weak order. Facts about sorted
permutations that the applications share.
-/

namespace Apps

variable {α : Type} {lt : α → α → Bool}

/-- **`BitonicSortRW`** does what the applications rely on. -/
theorem bitonicSortRW_sortedPerm (hasymm : ∀ a b, lt a b = true → lt b a = false)
    (htrans : ∀ a b c, lt b a = false → lt c b = false → lt c a = false) {xs : List α}
    (hlen : xs.length ≤ 2 ^ 63) : SortedPerm lt xs (bitonicSortRW lt xs) where
  perm := EM.Algorithm.bitonicSortList_perm lt xs
  sorted := EM.Algorithm.bitonicSortList_sorted
    { trans := htrans
      le_of_cmp := hasymm
      le_of_not := fun _ _ h => h } hlen

theorem SortedPerm.length_eq {xs ys : List α} (h : SortedPerm lt xs ys) : ys.length = xs.length :=
  h.perm.length_eq

/-- A sort by a key leaves its list in the order of the key. -/
theorem Sorter.byKey_pairwise {κ : Type} [LinearOrder κ] {key : α → κ}
    {h : ∀ a b, lt a b = true → key a < key b} (xs : List α) :
    ((Sorter.byKey key lt h).run xs).Pairwise fun a b => key a ≤ key b := by
  have : Std.Total fun a b : α => key a ≤ key b := ⟨fun a b => le_total (key a) (key b)⟩
  have : IsTrans α fun a b => key a ≤ key b := ⟨fun _ _ _ => le_trans⟩
  exact List.pairwise_insertionSort _ xs

end Apps
