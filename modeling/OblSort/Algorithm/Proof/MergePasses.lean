import OblSort.Algorithm.Proof.ExtMergeSort
import Mathlib.Analysis.SpecialFunctions.Pow.NthRootLemmas

/-!
# Merging in passes

What a call of `ExtMergeSort` hands to its recursive calls and to its own merge, with an exact
logarithm and root: never more than `maxWay` readers (`mergeRangesPtr_length_le`), and fewer ranges
than it was given if `maxWay` is at least 3 (`recursiveCalls_shrink`). With a `maxWay` of 2 the root
is 1, and the only sub-merge gets all the ranges again (`ExtMergeSort_twoWay`).
-/

namespace EM.Algorithm

open Loop

variable {α : Type}

/-! ## The fan-in -/

theorem exactPassWay_pos {rangeCount : Nat} (hpos : 0 < rangeCount) (maxWay : Nat) :
    0 < exactPassWay rangeCount maxWay := by
  unfold exactPassWay
  refine (Nat.le_nthRoot_iff (Nat.succ_ne_zero _)).2 ?_
  rwa [Nat.one_pow]

theorem exactPassWay_lt (rangeCount : Nat) {maxWay : Nat} (hmax : 2 ≤ maxWay) :
    exactPassWay rangeCount maxWay < maxWay := by
  unfold exactPassWay
  exact (Nat.nthRoot_lt_iff (Nat.succ_ne_zero _)).2 (Nat.lt_pow_succ_log_self hmax rangeCount)

theorem two_pow_succ_le {n : Nat} (hn : 2 ≤ n) : 2 ^ (n + 1) ≤ 3 ^ n := by
  induction n, hn using Nat.le_induction with
  | base => decide
  | succ n hn ih =>
    rw [Nat.pow_succ, Nat.pow_succ 3]
    omega

/-- The root is 1 for a `maxWay` of 2, and only for that. -/
theorem two_le_exactPassWay {rangeCount maxWay : Nat} (hmax : 2 ≤ maxWay)
    (hmany : maxWay < rangeCount) : 2 ≤ exactPassWay rangeCount maxWay ↔ 3 ≤ maxWay := by
  unfold exactPassWay
  rw [Nat.le_nthRoot_iff (Nat.succ_ne_zero _)]
  constructor
  · intro hle
    by_contra hlt
    obtain rfl : maxWay = 2 := by omega
    exact absurd (Nat.lt_pow_succ_log_self hmax rangeCount) (Nat.not_lt.2 hle)
  · intro h3
    have hlog : 1 ≤ Nat.log maxWay rangeCount := Nat.log_pos hmax hmany.le
    have hpow : maxWay ^ Nat.log maxWay rangeCount ≤ rangeCount := Nat.pow_log_le_self _ (by omega)
    generalize Nat.log maxWay rangeCount = passes at *
    by_cases h1 : passes = 1
    · subst h1
      show 4 ≤ rangeCount
      omega
    · calc
        2 ^ (passes + 1) ≤ 3 ^ passes := two_pow_succ_le (by omega)
        _ ≤ maxWay ^ passes := Nat.pow_le_pow_left h3 _
        _ ≤ rangeCount := hpow

/-- The second rounding does not raise the number of sub-merges. -/
theorem divRoundUp_divRoundUp_le {x y : Nat} (hx : 0 < x) (hy : 0 < y) :
    divRoundUp x (divRoundUp x y) ≤ y := by
  rw [divRoundUp_le_iff (divRoundUp_pos hx hy), Nat.mul_comm]
  exact (divRoundUp_le_iff hy).1 (Nat.le_refl _)

theorem divRoundUp_lt {x y : Nat} (hx : 2 ≤ x) (hy : 2 ≤ y) : divRoundUp x y < x := by
  have hle : divRoundUp x y ≤ x - 1 := by
    rw [divRoundUp_le_iff (by omega)]
    calc
      x ≤ 2 * (x - 1) := by omega
      _ ≤ y * (x - 1) := Nat.mul_le_mul_right _ hy
  omega

/-! ## Sub-merges -/

section

variable {call : Memory α → Nat → List MergeRange → Except MergeAbort (List α)}

/-- The loop ends with a range for each sub-merge at most, or as one of the calls does. -/
theorem subMerges_ends (mem : Memory α) (size subRangeCount way subBegin : Nat) (temp : List α)
    (ranges : List MergeRange) :
    Ends (fun new => new.length ≤ way)
      (fun e => e = .pastEnd ∨
        ∃ r ∈ subMergeRanges subRangeCount way ranges, ∃ mem size, call mem size r = .error e)
      (subMerges call mem size subRangeCount way subBegin temp ranges) := by
  induction way generalizing subBegin temp ranges with
  | zero => exact Nat.le_refl _
  | succ way ih =>
    rw [subMerges]
    dsimp only
    split
    · rename_i first last _ _
      generalize subBegin + (last.2.m_ptr - first.1.m_ptr) = subEnd
      cases hcall : call (mem ++ [temp]) (subEnd - subBegin) (ranges.take subRangeCount) with
      | error e => exact .inr ⟨_, List.mem_cons_self, _, _, hcall⟩
      | ok out =>
        rw [ok_bind]
        split
        · exact Nat.succ_le_succ (Nat.zero_le _)
        · refine Ends.bind ((ih subEnd (temp ++ out) (ranges.drop subRangeCount)).mono
            (fun new hnew => hnew) fun e he => ?_) fun new hnew => Nat.succ_le_succ hnew
          rcases he with he | ⟨r, hr, h⟩
          · exact .inl he
          · exact .inr ⟨r, List.mem_cons_of_mem _ hr, h⟩
    · exact .inl rfl

theorem length_subMergeRanges_le {subRangeCount way : Nat} {ranges r : List MergeRange}
    (hr : r ∈ subMergeRanges subRangeCount way ranges) : r.length ≤ subRangeCount := by
  induction way generalizing ranges with
  | zero => cases hr
  | succ way ih =>
    rcases List.mem_cons.1 hr with rfl | hr
    · rw [List.length_take]
      exact Nat.min_le_left _ _
    · exact ih hr

/-- **No merge has more than `maxWay` readers.** -/
theorem mergeRangesPtr_length_le {maxWay : Nat} (hmax : 2 ≤ maxWay) {mem : Memory α} {size : Nat}
    {mergeRanges ranges : List MergeRange}
    (h : mergeRangesPtr exactPassWay maxWay call mem size mergeRanges = .ok ranges) :
    ranges.length ≤ maxWay := by
  unfold mergeRangesPtr at h
  split at h
  · rename_i hmany
    have hpos : 0 < mergeRanges.length := by omega
    have hway := exactPassWay_pos hpos maxWay
    dsimp only at h
    rw [if_neg (by omega)] at h
    have hle : ranges.length ≤ _ := (subMerges_ends mem size _ _ 0 [] mergeRanges).of_ok h
    exact (hle.trans (divRoundUp_divRoundUp_le hpos hway)).trans (exactPassWay_lt _ hmax).le
  · rename_i hfew
    cases h
    omega

end

/-! ## Termination -/

/-- **Recursive calls get fewer ranges** for a `maxWay` of at least 3. -/
theorem recursiveCalls_shrink {maxWay : Nat} (hmax : 3 ≤ maxWay) {mergeRanges r : List MergeRange}
    (hr : r ∈ recursiveCalls exactPassWay maxWay mergeRanges) : r.length < mergeRanges.length := by
  unfold recursiveCalls at hr
  split at hr
  · rename_i hmany
    have hway := (two_le_exactPassWay (by omega) hmany).2 hmax
    exact (length_subMergeRanges_le hr).trans_lt (divRoundUp_lt (by omega) hway)
  · cases hr

section

variable {H : StdHeap (HeapEntry α)} {passWay : Nat → Nat → Nat} {maxWay : Nat}

theorem ExtMergeSort_succ (fuel : Nat) (mem : Memory α) (size : Nat)
    (mergeRanges : List MergeRange) :
    ExtMergeSort H passWay maxWay (fuel + 1) mem size mergeRanges =
      (mergeRangesPtr passWay maxWay (ExtMergeSort H passWay maxWay fuel) mem size mergeRanges >>=
        mergeReaders H mem mergeRanges.length) := by
  unfold mergeRangesPtr
  rw [ExtMergeSort]
  split
  · dsimp only
    split <;> rfl
  · rfl

/-- The sub-merges come to an end if the recursive calls do. -/
theorem mergeRangesPtr_returns
    {call : Memory α → Nat → List MergeRange → Except MergeAbort (List α)}
    {mergeRanges : List MergeRange} (mem : Memory α) (size : Nat)
    (hcall : ∀ r ∈ recursiveCalls passWay maxWay mergeRanges,
      ∀ mem size, call mem size r ≠ .error .noReturn) :
    Ends (fun _ => True) (· ≠ .noReturn)
      (mergeRangesPtr passWay maxWay call mem size mergeRanges) := by
  unfold mergeRangesPtr
  unfold recursiveCalls at hcall
  split
  · rename_i hmany
    rw [if_pos hmany] at hcall
    dsimp only at hcall ⊢
    split
    · simp
    · refine (subMerges_ends mem size _ _ 0 [] mergeRanges).mono (fun _ _ => trivial) fun e he => ?_
      rcases he with rfl | ⟨r, hr, mem, size, h⟩
      · simp
      · rintro rfl
        exact hcall r hr mem size h
  · trivial

variable {cmp : HeapEntry α → HeapEntry α → Bool} {IsHeap : List (HeapEntry α) → Prop}
  (hH : H.Correct cmp IsHeap)
include hH

/-- A merge comes to an end, whatever its ranges are. -/
theorem mergeReaders_returns (mem : Memory α) (rangeCount : Nat) (ranges : List MergeRange) :
    Ends (fun _ => True) (· ≠ .noReturn) (mergeReaders H mem rangeCount ranges) := by
  refine (mapM_ends (f := readRange mem) fun range _ => ?_).bind fun readers _ => ?_
  · unfold readRange
    split <;> simp
  · split
    · trivial
    · refine (mapM_ends (f := heapEntry) fun reader _ => ?_).bind fun heap hheap => ?_
      · cases reader <;> simp [heapEntry]
      · have hlists : List.Forall₂ (· = ·) readers (heap.map HeapEntry.toList) := by
          refine List.forall₂_map_right_iff.2 (hheap.imp fun reader e he => ?_)
          cases reader with
          | nil => cases he
          | cons x xs =>
            cases he
            rfl
        rw [List.forall₂_eq_eq_eq] at hlists
        obtain ⟨hperm, hh⟩ := hH.make heap
        have hlen : (heapElements (H.makeHeap heap)).length = readers.flatten.length := by
          rw [(heapElements_perm hperm).length_eq, heapElements, List.flatMap_def, ← hlists]
        obtain ⟨out, hout, -⟩ := mergeLoop_perm hH hh (Nat.lt_succ_of_le hlen.le)
        rw [hout]
        trivial

/-- **The recursion ends** for a `maxWay` of at least 3. -/
theorem ExtMergeSort_returns (hmax : 3 ≤ maxWay) {fuel : Nat} {mergeRanges : List MergeRange}
    (hfuel : mergeRanges.length < fuel) (mem : Memory α) (size : Nat) :
    ExtMergeSort H exactPassWay maxWay fuel mem size mergeRanges ≠ .error .noReturn := by
  induction fuel generalizing mergeRanges mem size with
  | zero => omega
  | succ fuel ih =>
    rw [ExtMergeSort_succ]
    have hcall : ∀ r ∈ recursiveCalls exactPassWay maxWay mergeRanges, ∀ mem size,
        ExtMergeSort H exactPassWay maxWay fuel mem size r ≠ .error .noReturn := by
      intro r hr
      have hlt := recursiveCalls_shrink hmax hr
      exact ih (by omega)
    have hends := (mergeRangesPtr_returns mem size hcall).bind fun ranges _ =>
      mergeReaders_returns hH mem mergeRanges.length ranges
    intro h
    rw [h] at hends
    exact hends rfl

end

/-! ## Two-way merges -/

/-- With a `maxWay` of 2 there is one sub-merge, of all ranges. -/
theorem twoWay_rounding {rangeCount : Nat} (hmany : 2 < rangeCount) :
    exactPassWay rangeCount 2 = 1 ∧ divRoundUp rangeCount 1 = rangeCount ∧
      divRoundUp rangeCount rangeCount = 1 := by
  have hpos := exactPassWay_pos (show 0 < rangeCount by omega) 2
  have hlt := exactPassWay_lt rangeCount (Nat.le_refl 2)
  refine ⟨by omega, ?_, ?_⟩
  · rw [divRoundUp, Nat.div_one, Nat.add_sub_cancel]
  · rw [divRoundUp, Nat.add_sub_assoc (by omega), Nat.add_div_left _ (by omega),
      Nat.div_eq_of_lt (by omega)]

theorem recursiveCalls_twoWay {mergeRanges : List MergeRange} (hmany : 2 < mergeRanges.length) :
    recursiveCalls exactPassWay 2 mergeRanges = [mergeRanges] := by
  obtain ⟨hway, hsub, hone⟩ := twoWay_rounding hmany
  unfold recursiveCalls
  rw [if_pos hmany]
  simp [hway, hsub, hone, subMergeRanges]

/-- **The recursion does not end** for three ranges or more and a `maxWay` of 2. -/
theorem ExtMergeSort_twoWay (H : StdHeap (HeapEntry α)) {mergeRanges : List MergeRange}
    (hmany : 2 < mergeRanges.length) (fuel : Nat) (mem : Memory α) (size : Nat) :
    ExtMergeSort H exactPassWay 2 fuel mem size mergeRanges = .error .noReturn := by
  induction fuel generalizing mem size with
  | zero => rfl
  | succ fuel ih =>
    obtain ⟨hway, hsub, hone⟩ := twoWay_rounding hmany
    have hne : mergeRanges ≠ [] := by
      rintro rfl
      cases hmany
    rw [ExtMergeSort_succ]
    unfold mergeRangesPtr
    rw [if_pos hmany]
    simp only [hway, hsub, hone, Nat.one_ne_zero, if_false]
    rw [subMerges]
    simp only [List.take_length, List.head?_eq_some_head hne, List.getLast?_eq_some_getLast hne, ih]
    rfl

/-- **`ExtMergeSort` gets on**, each recursive call with fewer ranges, unless `maxWay` is 2. -/
theorem ExtMergeSort_shrinks_iff {H : StdHeap (HeapEntry α)}
    {cmp : HeapEntry α → HeapEntry α → Bool} {IsHeap : List (HeapEntry α) → Prop}
    (hH : H.Correct cmp IsHeap) {maxWay : Nat} (hmax : 2 ≤ maxWay) {mergeRanges : List MergeRange}
    (hmany : maxWay < mergeRanges.length) (mem : Memory α) (size : Nat) :
    ((∀ r ∈ recursiveCalls exactPassWay maxWay mergeRanges, r.length < mergeRanges.length) ∧
        ∃ fuel, ExtMergeSort H exactPassWay maxWay fuel mem size mergeRanges ≠ .error .noReturn) ↔
      3 ≤ maxWay := by
  constructor
  · rintro ⟨hshrink, -⟩
    by_contra hlt
    obtain rfl : maxWay = 2 := by omega
    rw [recursiveCalls_twoWay hmany] at hshrink
    exact Nat.lt_irrefl _ (hshrink _ List.mem_cons_self)
  · intro h3
    exact ⟨fun r hr => recursiveCalls_shrink h3 hr,
      _, ExtMergeSort_returns hH h3 (Nat.lt_succ_self _) mem size⟩

/-- Single keys, in ranges of one element each. -/
def singleKeys (n : Nat) : List (List SortElement) :=
  (List.range n).map fun i => [⟨BitVec.ofNat 64 i, []⟩]

theorem singleKeys_sorted {n : Nat} {g : List SortElement} (hg : g ∈ singleKeys n) :
    g ≠ [] ∧ g.Pairwise SortKey.Le := by
  obtain ⟨i, -, rfl⟩ := List.mem_map.1 hg
  exact ⟨by simp, List.pairwise_singleton _ _⟩

theorem ExtMergeSort_shrinks_four :
    (∀ r ∈ recursiveCalls exactPassWay 3 (rangesAt 0 (segments 0 (singleKeys 4))), r.length < 4) ∧
      ∃ fuel, ExtMergeSort sortedHeap exactPassWay 3 fuel [(singleKeys 4).flatten] 4
        (rangesAt 0 (segments 0 (singleKeys 4))) ≠ .error .noReturn :=
  (ExtMergeSort_shrinks_iff sortedHeap_correct (by decide) (by decide) _ _).2 (by decide)

theorem ExtMergeSort_never_ends :
    ∃ mergeRanges : List MergeRange, 2 < mergeRanges.length ∧
      (∃ r ∈ recursiveCalls exactPassWay 2 mergeRanges, ¬ r.length < mergeRanges.length) ∧
      ∀ fuel, ExtMergeSort sortedHeap exactPassWay 2 fuel [(singleKeys 3).flatten] 3 mergeRanges =
        .error .noReturn := by
  refine ⟨rangesAt 0 (segments 0 (singleKeys 3)), by decide, ?_, fun fuel =>
    ExtMergeSort_twoWay _ (by decide) fuel _ _⟩
  rw [recursiveCalls_twoWay (by decide)]
  exact ⟨_, List.mem_cons_self, Nat.lt_irrefl _⟩

/-! ## Merges that succeed -/

/-- **`ExtMergeSort` merges correctly** if it needs one pass. Every merge has at most `maxWay`
readers, but what the sub-merges wrote is gone when it is read. -/
theorem ExtMergeSort_merges_iff [SortKey α] [IsStrictWeakOrder α SortKey.Lt]
    {H : StdHeap (HeapEntry α)} {IsHeap : List (HeapEntry α) → Prop}
    (hH : H.Correct cmpMerge IsHeap) {maxWay : Nat} (hmax : 3 ≤ maxWay) {gs : List (List α)}
    (hne : ∀ g ∈ gs, g ≠ []) (hsorted : ∀ g ∈ gs, g.Pairwise SortKey.Le) :
    ((∀ (call : Memory α → Nat → List MergeRange → Except MergeAbort (List α)) mem size mergeRanges
          ranges, mergeRangesPtr exactPassWay maxWay call mem size mergeRanges = .ok ranges →
        ranges.length ≤ maxWay) ∧
      ∃ fuel out, ExtMergeSort H exactPassWay maxWay fuel [gs.flatten] gs.flatten.length
          (rangesAt 0 (segments 0 gs)) = .ok out ∧
        List.Perm out gs.flatten ∧ out.Pairwise SortKey.Le) ↔
      gs.length ≤ maxWay := by
  have hlen : (rangesAt 0 (segments 0 gs)).length = gs.length := by
    rw [rangesAt, List.length_map, length_segments]
  constructor
  · rintro ⟨-, fuel, out, hout, -⟩
    by_contra hmany
    exact ExtMergeSort_multiPass (by omega) fuel _ out hout
  · intro hfew
    obtain ⟨out, hout, hperm, hs⟩ := mergeReaders_spec hH hne hsorted
    refine ⟨fun call mem size mergeRanges ranges h => mergeRangesPtr_length_le (by omega) h,
      1, out, ?_, hperm, hs⟩
    rw [ExtMergeSort_succ]
    unfold mergeRangesPtr
    rw [if_neg (by omega), ok_bind, hlen]
    exact hout

theorem ExtMergeSort_merges_three :
    ∃ fuel out, ExtMergeSort sortedHeap exactPassWay 3 fuel [(singleKeys 3).flatten]
        (singleKeys 3).flatten.length (rangesAt 0 (segments 0 (singleKeys 3))) = .ok out ∧
      List.Perm out (singleKeys 3).flatten ∧ out.Pairwise SortKey.Le :=
  ((ExtMergeSort_merges_iff sortedHeap_correct (by decide) (fun _ hg => (singleKeys_sorted hg).1)
    fun _ hg => (singleKeys_sorted hg).2).2 (by decide)).2

theorem ExtMergeSort_loses_four :
    ¬ ∃ fuel out, ExtMergeSort sortedHeap exactPassWay 3 fuel [(singleKeys 4).flatten]
        (singleKeys 4).flatten.length (rangesAt 0 (segments 0 (singleKeys 4))) = .ok out ∧
      List.Perm out (singleKeys 4).flatten ∧ out.Pairwise SortKey.Le := by
  rintro ⟨fuel, out, hout, -⟩
  exact ExtMergeSort_multiPass (by decide) fuel _ out hout

end EM.Algorithm
