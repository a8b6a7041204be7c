import OblSort.Algorithm.Bitonic
import OblSort.Algorithm.OrCompact
import OblSort.Common.Proof.Utils
import OblSort.Lib.Compaction

/-!
# Oblivious compaction is tight

`orOffCompactSeparateMark_cyclic`: of `2 ^ k` elements the `j`-th marked one goes to the place
`z + j`, modulo `2 ^ k`. Both halves have been compacted to their own offsets, so a marked element
is at its place in one of them, and the swaps only choose the half. `orCompactSeparateMark_spec`
follows for any length. Prefix sums that do not wrap around give the same result
(`orCompactPrefix_eq`).
-/

namespace EM.Algorithm

open Compact

variable {α : Type}

/-! ## Conditional swaps of two ranges -/

theorem length_condSwapAll (b : Nat → Bool) (i : Nat) (xs ys : List α) :
    (condSwapAll b i xs ys).1.length = xs.length ∧ (condSwapAll b i xs ys).2.length =
      ys.length := by
  induction xs generalizing i ys with
  | nil => exact ⟨rfl, rfl⟩
  | cons x xs ih =>
    cases ys with
    | nil => exact ⟨rfl, rfl⟩
    | cons y ys => cases hb : b i <;> simp [condSwapAll, hb, ih (i + 1) ys]

theorem condSwapAll_perm (b : Nat → Bool) (i : Nat) (xs ys : List α) :
    List.Perm ((condSwapAll b i xs ys).1 ++ (condSwapAll b i xs ys).2) (xs ++ ys) := by
  induction xs generalizing i ys with
  | nil => exact .refl _
  | cons x xs ih =>
    cases ys with
    | nil => exact .refl _
    | cons y ys =>
      have htail := ih (i + 1) ys
      cases hb : b i with
      | false =>
        simp only [condSwapAll, hb, Bool.false_eq_true, if_false, List.cons_append]
        refine .cons x ?_
        exact List.perm_middle.trans ((htail.cons y).trans List.perm_middle.symm)
      | true =>
        simp only [condSwapAll, hb, if_true, List.cons_append]
        refine List.Perm.trans (.cons y (List.perm_middle.trans (htail.cons x))) ?_
        exact (List.Perm.swap x y _).trans (.cons x List.perm_middle.symm)

theorem getElem?_condSwapAll {b : Nat → Bool} {xs ys : List α} (hlen : xs.length = ys.length)
    (i p : Nat) :
    (condSwapAll b i xs ys).1[p]? = (if b (i + p) then ys[p]? else xs[p]?) ∧
      (condSwapAll b i xs ys).2[p]? = if b (i + p) then xs[p]? else ys[p]? := by
  induction xs generalizing i p ys with
  | nil =>
    obtain rfl := List.length_eq_zero_iff.1 hlen.symm
    simp [condSwapAll]
  | cons x xs ih =>
    cases ys with
    | nil => cases hlen
    | cons y ys =>
      cases p with
      | zero => cases hb : b i <;> simp [condSwapAll, hb]
      | succ p =>
        have htail := ih (Nat.succ.inj hlen) (i + 1) p
        rw [show i + 1 + p = i + (p + 1) by omega] at htail
        cases hb : b i <;> simpa [condSwapAll, hb] using htail

/-- The two ranges one after the other: in each pair of places one holds either of the elements. -/
theorem getElem?_condSwapAll_append {b : Nat → Bool} {xs ys : List α} {h : Nat} (hx : xs.length = h)
    (hy : ys.length = h) {p : Nat} (hp : p < h) :
    ((condSwapAll b 0 xs ys).1 ++ (condSwapAll b 0 xs ys).2)[p]? =
      (if b p then ys[p]? else xs[p]?) ∧
      ((condSwapAll b 0 xs ys).1 ++ (condSwapAll b 0 xs ys).2)[h + p]? =
        if b p then xs[p]? else ys[p]? := by
  have hlen := length_condSwapAll b 0 xs ys
  obtain ⟨h1, h2⟩ := getElem?_condSwapAll (b := b) (hx.trans hy.symm) 0 p
  rw [Nat.zero_add] at h1 h2
  rw [List.getElem?_append_left (by omega), List.getElem?_append_right (by omega), h1,
    show h + p - (condSwapAll b 0 xs ys).1.length = p by omega, h2]
  exact ⟨rfl, rfl⟩

/-! ## A power of two -/

/-- Two halves that are permuted and swapped. -/
theorem condSwapAll_halves_perm (b : Nat → Bool) {n : Nat} {xs ys zs : List α}
    (hy : List.Perm ys (xs.take n)) (hz : List.Perm zs (xs.drop n)) :
    List.Perm ((condSwapAll b 0 ys zs).1 ++ (condSwapAll b 0 ys zs).2) xs := by
  refine (condSwapAll_perm _ _ _ _).trans ((hy.append hz).trans (.of_eq ?_))
  exact List.take_append_drop n xs

theorem orOffCompactSeparateMark_perm (k z : Nat) (marks : List Bool) (xs : List α) :
    List.Perm (orOffCompactSeparateMark k z marks xs) xs := by
  induction k generalizing z marks xs with
  | zero => exact .refl _
  | succ k ih =>
    cases k with
    | zero => exact condSwapAll_halves_perm _ (.refl _) (.refl _)
    | succ k => exact condSwapAll_halves_perm _ (ih _ _ _) (ih _ _ _)

/-- `x % n` for `x` below `2 * n`. -/
theorem mod_of_lt_two {x n : Nat} (h : x < n + n) : x % n = if x < n then x else x - n := by
  split
  · exact Nat.mod_eq_of_lt ‹_›
  · rw [Nat.mod_eq_sub_mod (by omega), Nat.mod_eq_of_lt (by omega)]

theorem mod_of_lt_three {x n : Nat} (h : x < n + n + n) :
    x % n = if x < n then x else if x < n + n then x - n else x - n - n := by
  split
  · exact Nat.mod_eq_of_lt ‹_›
  · rw [Nat.mod_eq_sub_mod (by omega), mod_of_lt_two (by omega)]
    split <;> split <;> omega

/-- The elements of `front` stand in `ys` from the place `z` on, modulo `n`. -/
def Rotated (z n : Nat) (front ys : List α) : Prop :=
  ∀ j < front.length, ys[(z + j) % n]? = front[j]?

/-- **The swaps of two halves** that are rotated each on its own. -/
theorem Rotated.merge {h z : Nat} (hz : z < h + h) {front front' left right : List α}
    (hf : front.length ≤ h) (hf' : front'.length ≤ h) (hl : left.length = h) (hr : right.length = h)
    (hleft : Rotated (z % h) h front left)
    (hright : Rotated ((z + front.length) % h) h front' right)
    {b : Nat → Bool} (hb : ∀ i, b i = ((decide (h ≤ z % h + front.length) != decide (h ≤ z)) !=
      decide ((z + front.length) % h ≤ i))) :
    Rotated z (h + h) (front ++ front')
      ((condSwapAll b 0 left right).1 ++ (condSwapAll b 0 left right).2) := by
  intro j hj
  rw [List.length_append] at hj
  have hzl := mod_of_lt_two hz
  have hzr := mod_of_lt_three (show z + front.length < h + h + h by omega)
  by_cases hjm : j < front.length
  · have hir := mod_of_lt_two (show z % h + j < h + h by split at hzl <;> omega)
    have hi : (z % h + j) % h < h := Nat.mod_lt _ (by omega)
    have hget := hleft j hjm
    generalize (z % h + j) % h = i at hir hi hget
    obtain ⟨h1, h2⟩ := getElem?_condSwapAll_append (b := b) hl hr hi
    -- the place is in the right half exactly when the two elements are swapped
    have hplace : (z + j) % (h + h) = if b i then h + i else i := by
      rw [hb, mod_of_lt_two (show z + j < h + h + (h + h) by omega)]
      generalize z % h = zLeft at *
      generalize (z + front.length) % h = zRight at *
      grind
    rw [List.getElem?_append_left hjm, ← hget, hplace]
    cases hbi : b i with
    | false => rwa [hbi] at h1
    | true => rwa [hbi] at h2
  · obtain ⟨j', rfl⟩ := Nat.exists_eq_add_of_le (Nat.le_of_not_lt hjm)
    have hlt : (z + front.length) % h < h := Nat.mod_lt _ (by omega)
    have hir := mod_of_lt_two (show (z + front.length) % h + j' < h + h by omega)
    have hi : ((z + front.length) % h + j') % h < h := Nat.mod_lt _ (by omega)
    have hget := hright j' (by omega)
    generalize ((z + front.length) % h + j') % h = i at hir hi hget
    obtain ⟨h1, h2⟩ := getElem?_condSwapAll_append (b := b) hl hr hi
    have hplace : (z + (front.length + j')) % (h + h) = if b i then i else h + i := by
      rw [hb, mod_of_lt_two (show z + (front.length + j') < h + h + (h + h) by omega)]
      generalize z % h = zLeft at *
      generalize (z + front.length) % h = zRight at *
      grind
    have hfront : (front ++ front')[front.length + j']? = front'[j']? := by
      rw [List.getElem?_append_right (Nat.le_add_right _ _), Nat.add_sub_cancel_left]
    rw [hfront, ← hget, hplace]
    cases hbi : b i with
    | false => rwa [hbi] at h2
    | true => rwa [hbi] at h1

/-- **`OrOffCompactSeparateMark`** brings the `j`-th marked element to the place `z + j`, modulo the
length. -/
theorem orOffCompactSeparateMark_cyclic {k z : Nat} (hz : z < 2 ^ k) {marks : List Bool}
    {xs : List α} (hmarks : marks.length = 2 ^ k) (hxs : xs.length = 2 ^ k) :
    Rotated z (2 ^ k) (selected marks xs) (orOffCompactSeparateMark k z marks xs) := by
  induction k generalizing z marks xs with
  | zero =>
    obtain ⟨mark, rfl⟩ := List.length_eq_one_iff.1 hmarks
    obtain ⟨x, rfl⟩ := List.length_eq_one_iff.1 hxs
    intro j hj
    cases mark with
    | false => cases hj
    | true =>
      obtain rfl : j = 0 := by simpa [selected] using hj
      rw [Nat.pow_zero, Nat.mod_one]
      rfl
  | succ k ih =>
    cases k with
    | zero =>
      obtain ⟨mark, mark', rfl⟩ := List.length_eq_two.1 hmarks
      obtain ⟨x, y, rfl⟩ := List.length_eq_two.1 hxs
      intro j hj
      have hj2 : (selected [mark, mark'] [x, y]).length ≤ 2 := by
        cases mark <;> cases mark' <;> simp [selected]
      obtain rfl | rfl : z = 0 ∨ z = 1 := by omega
      all_goals
        obtain rfl | rfl : j = 0 ∨ j = 1 := by omega
        all_goals cases mark <;> cases mark' <;> first | rfl | simp [selected] at hj
    | succ k =>
      have hpow : 2 ^ (k + 1 + 1) = 2 ^ (k + 1) + 2 ^ (k + 1) := by omega
      have hpos := Nat.two_pow_pos (k + 1)
      rw [hpow] at hz hmarks hxs ⊢
      have hmarksl : (marks.take (2 ^ (k + 1))).length = 2 ^ (k + 1) := by
        rw [List.length_take]
        omega
      have hmarksr : (marks.drop (2 ^ (k + 1))).length = 2 ^ (k + 1) := by
        rw [List.length_drop]
        omega
      have hxsl : (xs.take (2 ^ (k + 1))).length = 2 ^ (k + 1) := by
        rw [List.length_take]
        omega
      have hxsr : (xs.drop (2 ^ (k + 1))).length = 2 ^ (k + 1) := by
        rw [List.length_drop]
        omega
      have hlen := length_selected (hmarksl.trans hxsl.symm)
      have hlen' := length_selected (hmarksr.trans hxsr.symm)
      have hle := List.count_le_length (a := true) (l := marks.take (2 ^ (k + 1)))
      have hle' := List.count_le_length (a := true) (l := marks.drop (2 ^ (k + 1)))
      rw [selected_split (2 ^ (k + 1))]
      have hmerge := Rotated.merge hz (b := fun i =>
          (decide (2 ^ (k + 1) ≤ z % 2 ^ (k + 1) + (marks.take (2 ^ (k + 1))).count true) !=
            decide (2 ^ (k + 1) ≤ z)) !=
            decide ((z + (marks.take (2 ^ (k + 1))).count true) % 2 ^ (k + 1) ≤ i))
              (by omega) (by omega)
        ((orOffCompactSeparateMark_perm _ _ _ _).length_eq.trans hxsl)
        ((orOffCompactSeparateMark_perm _ _ _ _).length_eq.trans hxsr)
        (ih (Nat.mod_lt z hpos) hmarksl hxsl) (ih (Nat.mod_lt _ hpos) hmarksr hxsr)
        fun i => by rw [hlen]
      rw [hlen] at hmerge
      exact hmerge

/-! ## Any length -/

/-- Swaps that leave the first `n` places of the second range alone. -/
theorem condSwapAll_drop_perm (b : Nat → Bool) (n : Nat) (xs ys : List α) :
    List.Perm ((condSwapAll b 0 xs (ys.drop n)).1 ++ ys.take n ++
      (condSwapAll b 0 xs (ys.drop n)).2) (xs ++ ys) := by
  have hswap := condSwapAll_perm b 0 xs (ys.drop n)
  generalize condSwapAll b 0 xs (ys.drop n) = c at *
  calc
    List.Perm (c.1 ++ ys.take n ++ c.2) (ys.take n ++ (c.1 ++ c.2)) := by
      rw [← List.append_assoc]
      exact List.perm_append_comm.append_right c.2
    List.Perm _ (ys.take n ++ (xs ++ ys.drop n)) := hswap.append_left _
    List.Perm _ (xs ++ (ys.take n ++ ys.drop n)) := List.perm_append_comm_assoc ..
    _ = xs ++ ys := by rw [List.take_append_drop]

theorem orCompactSeparateMark_perm (fuel : Nat) (marks : List Bool) (xs : List α) :
    List.Perm (orCompactSeparateMark fuel marks xs) xs := by
  induction fuel generalizing marks xs with
  | zero => exact .refl _
  | succ fuel ih =>
    simp only [orCompactSeparateMark]
    split
    · exact .refl _
    · split
      · exact orOffCompactSeparateMark_perm _ _ _ _
      · refine (condSwapAll_drop_perm _ _ _ _).trans
          (((ih _ _).append (orOffCompactSeparateMark_perm _ _ _ _)).trans (.of_eq ?_))
        exact List.take_append_drop _ xs

/-- The swaps after the front of a range has been compacted, and the rest rotated to where it
ends. -/
theorem front_merge {n₁ n₂ : Nat} (hn : n₂ < n₁) {front front' left right : List α}
    (hf : front.length ≤ n₂) (hf' : front'.length ≤ n₁) (hl : left.length = n₂)
    (hr : right.length = n₁) (hleft : ∀ j < front.length, left[j]? = front[j]?)
    (hright : Rotated ((n₁ - n₂ + front.length) % n₁) n₁ front' right) {j : Nat}
    (hj : j < (front ++ front').length) :
    ((condSwapAll (fun i => decide (front.length ≤ i)) 0 left (right.drop (n₁ - n₂))).1 ++
      right.take (n₁ - n₂) ++
      (condSwapAll (fun i => decide (front.length ≤ i)) 0 left (right.drop (n₁ - n₂))).2)[j]? =
      (front ++ front')[j]? := by
  have hdrop : left.length = (right.drop (n₁ - n₂)).length := by
    rw [List.length_drop]
    omega
  have htake : (right.take (n₁ - n₂)).length = n₁ - n₂ := by
    rw [List.length_take]
    omega
  have hlen := length_condSwapAll (fun i => decide (front.length ≤ i)) 0 left (right.drop (n₁ - n₂))
  have hget := fun p => getElem?_condSwapAll (b := fun i => decide (front.length ≤ i)) hdrop 0 p
  simp only [Nat.zero_add, decide_eq_true_eq, List.getElem?_drop] at hget
  generalize condSwapAll (fun i => decide (front.length ≤ i)) 0 left (right.drop (n₁ - n₂)) = c at *
  -- the elements of the rest, by their places in the whole range
  have hrest : ∀ j', j' < front'.length →
      right[if n₂ ≤ front.length + j' then front.length + j' - n₂ else
        n₁ - n₂ + (front.length + j')]? = front'[j']? := fun j' hj' => by
    rw [← hright j' hj']
    congr 1
    have := mod_of_lt_two (show n₁ - n₂ + front.length < n₁ + n₁ by omega)
    rw [mod_of_lt_two (by split at this <;> omega)]
    grind
  rw [List.length_append] at hj
  by_cases hjm : j < front.length
  · rw [List.append_assoc, List.getElem?_append_left (by omega), (hget j).1, if_neg (by omega),
      List.getElem?_append_left hjm, hleft j hjm]
  · obtain ⟨j', rfl⟩ := Nat.exists_eq_add_of_le (Nat.le_of_not_lt hjm)
    have hfront : (front ++ front')[front.length + j']? = front'[j']? := by
      rw [List.getElem?_append_right (Nat.le_add_right _ _), Nat.add_sub_cancel_left]
    rw [hfront, ← hrest j' (by omega)]
    by_cases h1 : front.length + j' < n₂
    · rw [List.append_assoc, List.getElem?_append_left (by omega), (hget _).1, if_pos (by omega),
        if_neg (by omega)]
    · rw [if_pos (by omega)]
      by_cases h2 : front.length + j' < n₁
      · rw [List.getElem?_append_left (by rw [List.length_append]; omega),
          List.getElem?_append_right (by omega), hlen.1, hl, List.getElem?_take, if_pos (by omega)]
      · rw [List.getElem?_append_right (by rw [List.length_append]; omega), List.length_append,
          (hget _).2, if_neg (by omega)]
        congr 1
        omega

/-- **`OrCompactSeparateMark`** brings the marked elements to the front, in their order. -/
theorem orCompactSeparateMark_front {fuel : Nat} {marks : List Bool} {xs : List α}
    (hfuel : xs.length ≤ fuel) (hmarks : marks.length = xs.length) :
    ∀ j < (selected marks xs).length,
      (orCompactSeparateMark fuel marks xs)[j]? = (selected marks xs)[j]? := by
  induction fuel generalizing marks xs with
  | zero =>
    obtain rfl := List.length_eq_zero_iff.1 (Nat.le_zero.1 hfuel)
    intro j hj
    cases marks with
    | nil => cases hj
    | cons mark marks => cases hmarks
  | succ fuel ih =>
    rw [orCompactSeparateMark]
    split
    · -- one element at most
      rename_i h1
      intro j hj
      rcases marks with _ | ⟨mark, _ | ⟨mark', marks⟩⟩
      · cases hj
      · obtain ⟨x, rfl⟩ := List.length_eq_one_iff.1 hmarks.symm
        cases mark with
        | false => cases hj
        | true =>
          obtain rfl : j = 0 := by simpa [selected] using hj
          rfl
      · simp only [List.length_cons] at hmarks
        omega
    · rename_i h1
      have hle : 2 ^ xs.length.log2 ≤ xs.length := Nat.log2_self_le (by omega)
      have hlt : xs.length < 2 ^ (xs.length.log2 + 1) := Nat.lt_log2_self
      have hpos := Nat.two_pow_pos xs.length.log2
      dsimp only
      generalize xs.length.log2 = k at *
      split
      · -- a power of two
        have hlen : xs.length = 2 ^ k := by omega
        intro j hj
        have hcount := length_selected hmarks
        have hcle := List.count_le_length (a := true) (l := marks)
        have hcyc := orOffCompactSeparateMark_cyclic hpos (hmarks.trans hlen) hlen j hj
        rwa [Nat.zero_add, Nat.mod_eq_of_lt (by omega)] at hcyc
      · generalize hn₂ : xs.length - 2 ^ k = n₂ at *
        have hmarksl : (marks.take n₂).length = (xs.take n₂).length := by
          rw [List.length_take, List.length_take, hmarks]
        have hmarksr : (marks.drop n₂).length = 2 ^ k := by
          rw [List.length_drop]
          omega
        have hxsl : (xs.take n₂).length = n₂ := by
          rw [List.length_take]
          omega
        have hxsr : (xs.drop n₂).length = 2 ^ k := by
          rw [List.length_drop]
          omega
        have hlen := length_selected hmarksl
        have hlen' := length_selected (hmarksr.trans hxsr.symm)
        have hcle := List.count_le_length (a := true) (l := marks.take n₂)
        have hcle' := List.count_le_length (a := true) (l := marks.drop n₂)
        have hright := orOffCompactSeparateMark_cyclic
          (Nat.mod_lt (2 ^ k - n₂ + (marks.take n₂).count true) hpos) hmarksr hxsr
        intro j hj
        rw [selected_split n₂] at hj ⊢
        rw [← hlen] at hright ⊢
        exact front_merge (by omega) (by omega) (by omega)
          ((orCompactSeparateMark_perm _ _ _).length_eq.trans hxsl)
          ((orOffCompactSeparateMark_perm _ _ _ _).length_eq.trans hxsr)
          (ih (by omega) hmarksl) hright hj

/-- **`OrCompact`** is a tight compaction. -/
theorem orCompact_tight (isMarked : α → Bool) (xs : List α) :
    Tight isMarked xs (orCompact isMarked xs) := by
  refine tight_of_getElem? (orCompactSeparateMark_perm _ _ _) fun j hj => ?_
  rw [List.countP_eq_length_filter, ← selected_map] at hj
  rw [← selected_map]
  exact orCompactSeparateMark_front (Nat.le_refl _) (List.length_map _) j hj

/-! ## Prefix sums -/

/-- The words from `sums 0` on are prefix sums of the marks, and none of them has wrapped around. -/
def PrefixSums (marks : List Bool) (sums : Nat → Nat) : Prop :=
  ∀ i ≤ marks.length, sums i = sums 0 + (marks.take i).count true ∧ sums i < 2 ^ 64

theorem PrefixSums.take {marks : List Bool} {sums : Nat → Nat} (h : PrefixSums marks sums)
    (n : Nat) :
    PrefixSums (marks.take n) sums := by
  intro i hi
  rw [List.length_take] at hi
  rw [List.take_take, Nat.min_eq_left (by omega)]
  exact h i (by omega)

theorem PrefixSums.drop {marks : List Bool} {sums : Nat → Nat} (h : PrefixSums marks sums) {n : Nat}
    (hn : n ≤ marks.length) : PrefixSums (marks.drop n) fun i => sums (n + i) := by
  intro i hi
  rw [List.length_drop] at hi
  obtain ⟨h1, h2⟩ := h (n + i) (by omega)
  obtain ⟨h3, -⟩ := h n hn
  rw [List.take_add, List.count_append] at h1
  exact ⟨show sums (n + i) = sums n + _ by omega, h2⟩

theorem subWord_eq {x y : Nat} (hx : x < 2 ^ 64) (hle : y ≤ x) : subWord x y = x - y := by
  rw [subWord, show x + (2 ^ 64 - y) = x - y + 2 ^ 64 by omega, Nat.add_mod_right,
    Nat.mod_eq_of_lt (by omega)]

theorem PrefixSums.sub {marks : List Bool} {sums : Nat → Nat} (h : PrefixSums marks sums) {n : Nat}
    (hn : n ≤ marks.length) : subWord (sums n) (sums 0) = (marks.take n).count true := by
  obtain ⟨h1, h2⟩ := h n hn
  rw [subWord_eq h2 (by omega)]
  omega

/-- The recursion on a power of two takes the same turns with the sums as with the marks. -/
theorem orOffCompactPrefix_eq {k z : Nat} (hk : k < 64) (hz : z < 2 ^ k) {marks : List Bool}
    {sums : Nat → Nat} (hlen : marks.length = 2 ^ k) (h : PrefixSums marks sums) (xs : List α) :
    orOffCompactPrefix k z sums xs = orOffCompactSeparateMark k z marks xs := by
  induction k generalizing z marks sums xs with
  | zero => rfl
  | succ k ih =>
    have h63 : 2 ^ (k + 1) ≤ 2 ^ 63 := Nat.pow_le_pow_right (by decide) (by omega)
    cases k with
    | zero =>
      obtain ⟨mark, mark', rfl⟩ := List.length_eq_two.1 hlen
      have h1 := h.sub (show 1 ≤ [mark, mark'].length by simp)
      have h2 := (h.drop (show 1 ≤ [mark, mark'].length by simp)).sub
        (show 1 ≤ ([mark, mark'].drop 1).length by simp)
      simp only [orOffCompactPrefix, orOffCompactSeparateMark, h1]
      change subWord (sums 2) (sums 1) = _ at h2
      rw [h2]
      cases mark <;> cases mark' <;> rfl
    | succ k =>
      have hpos := Nat.two_pow_pos (k + 1)
      have hhalf : 2 ^ (k + 1) ≤ marks.length := by omega
      have hleft : (marks.take (2 ^ (k + 1))).length = 2 ^ (k + 1) := by
        rw [List.length_take]
        omega
      have hright : (marks.drop (2 ^ (k + 1))).length = 2 ^ (k + 1) := by
        rw [List.length_drop]
        omega
      have hcount := List.count_le_length (a := true) (l := marks.take (2 ^ (k + 1)))
      have hzl : z % 2 ^ (k + 1) < 2 ^ (k + 1) := Nat.mod_lt _ hpos
      simp only [orOffCompactPrefix, orOffCompactSeparateMark, h.sub hhalf]
      rw [Nat.mod_eq_of_lt (show z + (marks.take (2 ^ (k + 1))).count true < 2 ^ 64 by omega),
        Nat.mod_eq_of_lt
          (show z % 2 ^ (k + 1) + (marks.take (2 ^ (k + 1))).count true < 2 ^ 64 by omega),
        ih (by omega) hzl hleft (h.take _), ih (by omega) (Nat.mod_lt _ hpos) hright (h.drop hhalf)]

/-- **Prefix sums** that do not wrap around stand for the marks. -/
theorem orCompactPrefix_eq {fuel : Nat} {marks : List Bool} {sums : Nat → Nat} {xs : List α}
    (hlen : marks.length = xs.length) (hlt : xs.length < 2 ^ 64) (h : PrefixSums marks sums) :
    orCompactPrefix fuel sums xs = orCompactSeparateMark fuel marks xs := by
  induction fuel generalizing marks sums xs with
  | zero => rfl
  | succ fuel ih =>
    simp only [orCompactPrefix, orCompactSeparateMark, getLogBaseTwo_eq_log2 hlt]
    by_cases h1 : xs.length ≤ 1
    · rw [if_pos h1, if_pos h1]
    · rw [if_neg h1, if_neg h1]
      have hle : 2 ^ xs.length.log2 ≤ xs.length := Nat.log2_self_le (by omega)
      have hlog : xs.length < 2 ^ (xs.length.log2 + 1) := Nat.lt_log2_self
      have hk : xs.length.log2 < 64 := (Nat.log2_lt (by omega)).2 hlt
      have hpos := Nat.two_pow_pos xs.length.log2
      generalize xs.length.log2 = k at *
      by_cases h2 : xs.length - 2 ^ k = 0
      · rw [if_pos h2, if_pos h2, orOffCompactPrefix_eq hk hpos (by omega) h]
      · rw [if_neg h2, if_neg h2]
        have hn : xs.length - 2 ^ k ≤ marks.length := by omega
        have hleft : (marks.take (xs.length - 2 ^ k)).length =
          (xs.take (xs.length - 2 ^ k)).length := by
          rw [List.length_take, List.length_take, hlen]
        have hright : (marks.drop (xs.length - 2 ^ k)).length = 2 ^ k := by
          rw [List.length_drop]
          omega
        have hcount := List.count_le_length (a := true) (l := marks.take (xs.length - 2 ^ k))
        rw [List.length_take] at hcount
        rw [h.sub hn, Nat.mod_eq_of_lt (show 2 ^ k - (xs.length - 2 ^ k) +
            (marks.take (xs.length - 2 ^ k)).count true < 2 ^ 64 by
              omega), ih hleft (by rw [List.length_take]; omega) (h.take _),
          orOffCompactPrefix_eq hk (Nat.mod_lt _ hpos) hright (h.drop hn)]

/-- With prefix sums, too, the elements selected come to the front. -/
theorem orCompactPrefix_selected {marks : List Bool} {sums : Nat → Nat} {xs : List α}
    (hlen : marks.length = xs.length) (hlt : xs.length < 2 ^ 64) (h : PrefixSums marks sums) :
    (orCompactPrefix xs.length sums xs).Perm xs ∧
      (orCompactPrefix xs.length sums xs).take (marks.count true) = selected marks xs := by
  have hfront := length_selected hlen
  rw [orCompactPrefix_eq hlen hlt h]
  refine ⟨orCompactSeparateMark_perm _ _ _, List.ext_getElem? fun j => ?_⟩
  rw [List.getElem?_take]
  split
  · exact orCompactSeparateMark_front (Nat.le_refl _) hlen j (by omega)
  · rw [List.getElem?_eq_none (by omega)]

theorem foldl_sum (w : Nat) (marks : List Bool) {s : Nat} (hs : s < 2 ^ w) :
    marks.foldl (fun prefixSum mark => (prefixSum + mark.toNat) % 2 ^ w) s =
      (s + marks.count true) % 2 ^ w := by
  induction marks generalizing s with
  | nil => exact (Nat.mod_eq_of_lt hs).symm
  | cons mark marks ih =>
    rw [List.foldl_cons, ih (Nat.mod_lt _ (Nat.two_pow_pos w)), Nat.mod_add_mod]
    cases mark <;> simp [Nat.add_assoc, Nat.add_comm 1]

/-- The word of `markPrefix` in front of every position. -/
theorem getD_markPrefix (w : Nat) {marks : List Bool} {i : Nat} (hi : i ≤ marks.length) :
    (markPrefix w marks).getD i 0 = (marks.take i).count true % 2 ^ w := by
  rw [markPrefix, List.getD_eq_getElem?_getD, List.getElem?_scanl, if_pos hi, Option.getD_some,
    foldl_sum w _ (Nat.two_pow_pos w), Nat.zero_add]

theorem markPrefix_sums {w : Nat} (hw : w ≤ 64) {marks : List Bool}
    (hlt : marks.count true < 2 ^ w) :
    PrefixSums marks fun i => (markPrefix w marks).getD i 0 := by
  have hpow : 2 ^ w ≤ 2 ^ 64 := Nat.pow_le_pow_right (by decide) hw
  have hsub := fun i => ((marks.take_sublist i).count_le true).trans_lt hlt
  intro i hi
  simp only [getD_markPrefix w hi, getD_markPrefix w (Nat.zero_le _), Nat.mod_eq_of_lt (hsub _)]
  exact ⟨by simp, (hsub i).trans_le hpow⟩

/-- With fewer than `2 ^ w` marked elements the sums in words of `w` bits are enough. -/
theorem orCompactMarkType_eq {w : Nat} (hw : w ≤ 64) {isMarked : α → Bool} {xs : List α}
    (hlt : xs.length < 2 ^ 64) (hcount : xs.countP isMarked < 2 ^ w) :
    orCompactMarkType w isMarked xs = orCompact isMarked xs := by
  refine orCompactPrefix_eq (List.length_map _) hlt (markPrefix_sums hw ?_)
  rw [List.count_eq_countP, List.countP_map]
  simpa [Function.comp_def] using hcount

/-! ## Sums that wrap around -/

theorem orOffCompactPrefix_perm (k z : Nat) (sums : Nat → Nat) (xs : List α) :
    List.Perm (orOffCompactPrefix k z sums xs) xs := by
  induction k generalizing z sums xs with
  | zero => exact .refl _
  | succ k ih =>
    cases k with
    | zero => exact condSwapAll_halves_perm _ (.refl _) (.refl _)
    | succ k => exact condSwapAll_halves_perm _ (ih _ _ _) (ih _ _ _)

theorem condSwapAll_true {b : Nat → Bool} (hb : ∀ i, b i = true) {xs ys : List α}
    (hlen : xs.length = ys.length) (i : Nat) : condSwapAll b i xs ys = (ys, xs) := by
  induction xs generalizing i ys with
  | nil =>
    obtain rfl := List.length_eq_zero_iff.1 hlen.symm
    rfl
  | cons x xs ih =>
    cases ys with
    | nil => cases hlen
    | cons y ys => simp [condSwapAll, hb, ih (Nat.succ.inj hlen)]

/-- `2 ^ w` marked elements and as many others: the sum of the marks of the first half is 0 in a
word of `w` bits, and the halves change places. -/
theorem orCompactMarkType_wraps {w : Nat} (hw : 0 < w) (hw' : w < 63) {isMarked : α → Bool}
    {a b : α} (ha : isMarked a = true) :
    orCompactMarkType w isMarked (List.replicate (2 ^ w) a ++ List.replicate (2 ^ w) b) =
      List.replicate (2 ^ w) b ++ List.replicate (2 ^ w) a := by
  obtain ⟨k, rfl⟩ := Nat.exists_eq_add_of_lt hw
  rw [Nat.zero_add] at hw' ⊢
  have hpos := Nat.two_pow_pos (k + 1)
  have hlt : 2 ^ (k + 2) < 2 ^ 64 := Nat.pow_lt_pow_right (by decide) (by omega)
  generalize hh : 2 ^ (k + 1) = h at hpos ⊢
  have hpow : 2 ^ (k + 2) = h + h := by
    rw [show k + 2 = k + 1 + 1 from rfl, Nat.pow_succ, hh]
    omega
  have hlen : (List.replicate h a ++ List.replicate h b).length = h + h := by simp
  have hlog : getLogBaseTwo (h + h) = k + 2 := by
    rw [← hpow, getLogBaseTwo_eq_log2 hlt, Nat.log2_two_pow]
  have hsum :
    (markPrefix (k + 1) ((List.replicate h a ++ List.replicate h b).map isMarked)).getD h 0 =
      0 := by
    rw [getD_markPrefix _ (by rw [List.length_map, hlen]; omega), List.map_append,
      List.map_replicate,
      ha, List.take_left' List.length_replicate, List.count_replicate_self, hh, Nat.mod_self]
  have hzero :
    (markPrefix (k + 1) ((List.replicate h a ++ List.replicate h b).map isMarked)).getD 0 0 =
      0 := by
    rw [getD_markPrefix _ (Nat.zero_le _)]
    rfl
  have hfuel : h + h = h + h - 1 + 1 := by omega
  rw [orCompactMarkType, hlen, hfuel, orCompactPrefix, hlen, if_neg (by omega), hlog, hpow]
  dsimp only
  rw [if_pos (Nat.sub_self _), orOffCompactPrefix]
  simp only [hh, hsum, hzero]
  have hsub : subWord 0 0 = 0 := rfl
  rw [List.take_left' List.length_replicate, List.drop_left' List.length_replicate, hsub,
    List.perm_replicate.1 (orOffCompactPrefix_perm _ _ _ (List.replicate h a)),
    List.perm_replicate.1 (orOffCompactPrefix_perm _ _ _ (List.replicate h b)),
    condSwapAll_true (fun i => ?_) (by rw [List.length_replicate, List.length_replicate])]
  simp only [Nat.zero_add, Nat.zero_mod, Nat.le_zero, Nat.zero_le, decide_true, hpos.ne',
    decide_false, bne_self_eq_false, Bool.false_bne]

/-! ## The compaction of a range -/

/-- `OrOffCompactSeparateMark` with prefix sums brings the `j`-th marked element of `2 ^ k` to the
place `z + j`, modulo `2 ^ k`. -/
def RotatesMarked (w k z : Nat) (marks : List Bool) (xs : List α) : Prop :=
  ∀ j x, (selected marks xs)[j]? = some x →
    (orOffCompactPrefix k z (fun i => (markPrefix w marks).getD i 0) xs)[(z + j) % 2 ^ k]? = some x

theorem orOffCompactPrefix_rotates {w k z : Nat} (hw : w ≤ 64) (hk : k < w) (hz : z < 2 ^ k)
    {marks : List Bool} {xs : List α} (hmarks : marks.length = 2 ^ k) (hxs : xs.length = 2 ^ k) :
    RotatesMarked w k z marks xs := by
  intro j x hj
  have hcount : marks.count true < 2 ^ w :=
    (List.count_le_length.trans hmarks.le).trans_lt (Nat.pow_lt_pow_right (by decide) hk)
  rw [orOffCompactPrefix_eq (by omega) hz hmarks (markPrefix_sums hw hcount),
    orOffCompactSeparateMark_cyclic hz hmarks hxs j (List.getElem?_eq_some_iff.1 hj).1, hj]

/-- **`OrCompact`** permutes its range and brings the marked elements to the front, in their order;
the recursion below it brings them to the places from its offset on. -/
theorem orCompact_compacts (isMarked : α → Bool) {xs : List α} (hxs : xs.length < 2 ^ 32 - 1) :
    List.Perm (orCompactMarkType 32 isMarked xs) xs ∧
      (orCompactMarkType 32 isMarked xs).take (xs.countP isMarked) = xs.filter isMarked ∧
      ∀ (w k z : Nat) (marks : List Bool) (ys : List α), w ≤ 64 → 1 ≤ k → k < w → z < 2 ^ k →
        marks.length = 2 ^ k → ys.length = 2 ^ k → RotatesMarked w k z marks ys := by
  have htight := orCompact_tight isMarked xs
  rw [← orCompactMarkType_eq (show 32 ≤ 64 by decide) (by omega)
    (List.countP_le_length.trans_lt (by omega))] at htight
  exact ⟨htight.perm, htight.front, fun w k z marks ys hw _ hk hz =>
    orOffCompactPrefix_rotates hw hk hz⟩

/-- The even ones of five numbers. -/
theorem orCompact_compacts_five :
    List.Perm (orCompactMarkType 32 (fun n => n % 2 == 0) [3, 4, 1, 6, 2]) [3, 4, 1, 6, 2] ∧
      (orCompactMarkType 32 (fun n => n % 2 == 0) [3, 4, 1, 6, 2]).take
        ([3, 4, 1, 6, 2].countP fun n => n % 2 == 0) = [3, 4, 1, 6, 2].filter
          (fun n => n % 2 == 0) ∧
      ∀ (w k z : Nat) (marks : List Bool) (ys : List Nat), w ≤ 64 → 1 ≤ k → k < w → z < 2 ^ k →
        marks.length = 2 ^ k → ys.length = 2 ^ k → RotatesMarked w k z marks ys :=
  orCompact_compacts (fun n => n % 2 == 0) (by decide)

end EM.Algorithm
