import OblSort.Algorithm.MergeSplitInPlace
import OblSort.Algorithm.Proof.Bitonic
import OblSort.Algorithm.Proof.Goodrich
import OblSort.Algorithm.Proof.MergeSplitKWay
import OblSort.Lib.Store

/-!
# The four methods of a merge-split in place agree

With as many marked elements as others, each of the four partitions permutes its range and puts the
marked elements into the left half (`partitionMarked_splits`). `mergeSplitInPlace_spec` adds the
balancing before it, which does not depend on the method.
-/

namespace EM.Algorithm

open Compact Net Store

/-! ## Swapping alternate places -/

section Alternate

variable {α : Type}

theorem swapOdd_perm (m t : Nat) (xs : List α) :
    List.Perm ((List.range t).foldl (fun xs t => swapAt (1 + 2 * t) (m + 2 * t) xs) xs) xs := by
  induction t with
  | zero => exact .refl _
  | succ t ih =>
    rw [List.range_succ, List.foldl_append]
    exact (swapAt_perm _ _ _).trans ih

/-- The swaps of the odd places with the even places from `m` on, for `t` of them. -/
theorem getElem?_swapOdd {m t : Nat} {xs : List α} (heven : m % 2 = 0) (hm : 2 * t ≤ m)
    (ht : m + 2 * t ≤ xs.length + 1) (k : Nat) :
    ((List.range t).foldl (fun xs t => swapAt (1 + 2 * t) (m + 2 * t) xs) xs)[k]? =
      if k % 2 = 1 ∧ k < 2 * t then xs[m + (k - 1)]?
      else if k % 2 = 0 ∧ m ≤ k ∧ k < m + 2 * t then xs[1 + (k - m)]?
      else xs[k]? := by
  induction t generalizing k with
  | zero => rw [if_neg (by omega), if_neg (by omega)]; rfl
  | succ t ih =>
    have hlen := (swapOdd_perm m t xs).length_eq
    have hget := ih (by omega) (by omega)
    rw [List.range_succ, List.foldl_append, List.foldl_cons, List.foldl_nil]
    generalize (List.range t).foldl (fun xs t => swapAt (1 + 2 * t) (m + 2 * t) xs) xs = ys at *
    rw [getElem?_swapAt (by omega) (by omega), hget, hget, hget]
    grind

/-- The first `Z` elements are marked, the others are not. -/
def SplitsAt (isMarked : α → Bool) (Z : Nat) (ys : List α) : Prop :=
  (∀ x ∈ ys.take Z, isMarked x = true) ∧ ∀ x ∈ ys.drop Z, isMarked x = false

theorem splitsAt_of_getElem? {isMarked : α → Bool} {Z : Nat} {ys : List α}
    (h : ∀ k x, ys[k]? = some x → isMarked x = decide (k < Z)) : SplitsAt isMarked Z ys := by
  constructor
  · intro x hx
    obtain ⟨k, hk⟩ := List.getElem?_of_mem hx
    rw [List.getElem?_take] at hk
    split at hk
    · rw [h k x hk, decide_eq_true ‹_›]
    · cases hk
  · intro x hx
    obtain ⟨k, hk⟩ := List.getElem?_of_mem hx
    rw [List.getElem?_drop] at hk
    rw [h _ x hk, decide_eq_false (by omega)]

theorem splitsAt_of_tight {isMarked : α → Bool} {xs ys : List α} (h : Tight isMarked xs ys) :
    SplitsAt isMarked (xs.countP isMarked) ys := ⟨h.marked, h.rest⟩

/-- **`InterleaveTwoWayPartition`** of a range with as many marked elements as others. -/
theorem interleaveTwoWayPartitionRange_splits (isMarked : α → Bool) {xs : List α} {Z : Nat}
    (hlen : xs.length = 2 * Z) (hcount : xs.countP isMarked = Z) (hZ : 0 < Z) :
    List.Perm (interleaveTwoWayPartitionRange isMarked xs) xs ∧
      SplitsAt isMarked Z (interleaveTwoWayPartitionRange isMarked xs) := by
  obtain ⟨hperm, halt⟩ := interleaveTwoWay_spec isMarked xs (by omega) (by omega) (by omega)
  have hlen' := hperm.length_eq
  have hmark : ∀ k x, (interleaveTwoWay isMarked xs)[k]? = some x →
    isMarked x = decide (k % 2 = 0) := by
    intro k x hk
    obtain ⟨hlt, rfl⟩ := List.getElem?_eq_some_iff.1 hk
    exact halt k hlt
  have hget := getElem?_swapOdd (show (Z + Z % 2) % 2 = 0 by omega)
    (show 2 * ((xs.length - (Z + Z % 2) + 1) / 2) ≤ _ by omega)
    (show _ ≤ (interleaveTwoWay isMarked xs).length + 1 by omega)
  refine ⟨(swapOdd_perm _ _ _).trans hperm, splitsAt_of_getElem? fun k x hk => ?_⟩
  rw [interleaveTwoWayPartitionRange, show xs.length / 2 = Z by omega] at hk
  rw [hget] at hk
  -- an odd place of the left half comes from an even one, and the other way round
  split at hk
  · rw [hmark _ x hk, decide_eq_decide]
    omega
  · split at hk
    · rw [hmark _ x hk, decide_eq_decide]
      omega
    · have hlt := (List.getElem?_eq_some_iff.1 hk).1
      rw [hmark _ x hk, decide_eq_decide]
      omega

end Alternate

/-! ## Sorting -/

section Methods

variable {E Indicator : Type} [Markable E Indicator] {ind : Indicator}

/-- Marked elements come first, then real ones, then dummies. -/
def markRank (ind : Indicator) (x : E) : Nat :=
  if Markable.isMarked ind x then 0 else if Markable.isDummy x then 2 else 1

/-- The comparison is not strict on dummies, and decides the order of the ranks. -/
theorem cmpMarked_decides (ind : Indicator) :
    Decides (fun a b : E => markRank ind a ≤ markRank ind b) (cmpMarked ind) where
  trans _ _ _ := Nat.le_trans
  le_of_cmp a b h := by
    unfold cmpMarked at h
    unfold markRank
    cases ha : Markable.isMarked ind a <;> cases hb : Markable.isMarked ind b <;>
      cases hda : Markable.isDummy a <;> cases hdb : Markable.isDummy b <;> simp_all
  le_of_not a b h := by
    unfold cmpMarked at h
    unfold markRank
    cases ha : Markable.isMarked ind a <;> cases hb : Markable.isMarked ind b <;>
      cases hda : Markable.isDummy a <;> cases hdb : Markable.isDummy b <;> simp_all

theorem bitonic_splits {xs : List E} (hlen : xs.length ≤ 2 ^ 63) :
    SplitsAt (Markable.isMarked ind) (xs.countP (Markable.isMarked ind))
      (bitonicSortList (cmpMarked ind) xs) := by
  have hsorted := bitonicSortList_sorted (cmpMarked_decides ind) hlen
  have hrank : (fun x : E => decide (markRank ind x < 1)) = Markable.isMarked ind := by
    funext x
    unfold markRank
    cases Markable.isMarked ind x <;> cases Markable.isDummy x <;> rfl
  have hcount := (bitonicSortList_perm (cmpMarked ind) xs).countP_eq (Markable.isMarked ind)
  have hsplit := Store.sorted_eq_append hsorted 1
  rw [hrank] at hsplit
  generalize bitonicSortList (cmpMarked ind) xs = ys at *
  have hfront : (ys.filter (Markable.isMarked ind)).length = xs.countP (Markable.isMarked ind) := by
    rw [← List.countP_eq_length_filter, hcount]
  constructor
  · rw [hsplit, List.take_left' hfront]
    exact fun x hx => (List.mem_filter.1 hx).2
  · rw [hsplit, List.drop_left' hfront]
    intro x hx
    have hle := of_decide_eq_true (List.mem_filter.1 hx).2
    rw [← congrFun hrank x]
    exact decide_eq_false (Nat.not_lt.2 hle)

/-- **Every method** partitions a range with as many marked elements as others. The sums of
`OrCompact` count up to `2 ^ 32`. -/
theorem partitionMarked_splits {method : PartitionMethod} {xs : List E} {Z : Nat}
    (hlen : xs.length = 2 * Z) (hcount : xs.countP (Markable.isMarked ind) = Z) (hZ : 0 < Z)
    (hlt : xs.length < 2 ^ 63) (hor : method = .orCompact → Z < 2 ^ 32) :
    List.Perm (partitionMarked ind method xs) xs ∧
      SplitsAt (Markable.isMarked ind) Z (partitionMarked ind method xs) := by
  cases method with
  | interleavePartition => exact interleaveTwoWayPartitionRange_splits _ hlen hcount hZ
  | orCompact =>
    have htight := orCompact_tight (Markable.isMarked ind) xs
    rw [← orCompactMarkType_eq (show 32 ≤ 64 by decide) (by omega) (by rw [hcount]; exact hor rfl)]
      at htight
    exact ⟨htight.perm, hcount ▸ splitsAt_of_tight htight⟩
  | goodrichCompact =>
    have htight := goodrichCompact_tight (Markable.isMarked ind) hlt.le
    exact ⟨htight.perm, hcount ▸ splitsAt_of_tight htight⟩
  | bitonic => exact ⟨bitonicSortList_perm _ _, hcount ▸ bitonic_splits hlt.le⟩

/-! ## Balancing -/

/-- `y` is `x`, or `x` is a dummy and `y` has the other mark. -/
def FlipsDummy (ind : Indicator) (x y : E) : Prop :=
  y = x ∨ (Markable.isDummy x = true ∧ y = Markable.condChangeMark true ind x)

theorem changeMarks_flips (h : LawfulMark E ind) (dir : Bool) (diff : Nat) (xs : List E) :
    List.Forall₂ (FlipsDummy ind) xs (changeMarks ind dir diff xs).2 := by
  induction xs generalizing diff with
  | nil => exact .nil
  | cons x xs ih =>
    simp only [changeMarks]
    refine .cons ?_ (ih _)
    cases hc : Markable.isDummy x && decide (diff ≠ 0) && Markable.isMarked ind x == dir with
    | false => exact .inl (h.change_false x)
    | true =>
      simp only [Bool.and_eq_true] at hc
      exact .inr ⟨hc.1.1, rfl⟩

theorem changeMarks_zero (h : LawfulMark E ind) (dir : Bool) (xs : List E) :
    changeMarks ind dir 0 xs = (0, xs) := by
  induction xs with
  | nil => rfl
  | cons x xs ih => simp [changeMarks, ih, h.change_false]

/-- The subtraction that wraps around gives the distance of the two counts. -/
theorem toNat_markDiff {Z count : Nat} (hZ : Z < 2 ^ 64) (hcount : count < 2 ^ 64) :
    (markDiff (BitVec.ofNat 64 Z) (BitVec.ofNat 64 count) (decide (count > Z))).toNat =
      if decide (count > Z) = true then count - Z else Z - count := by
  unfold markDiff
  by_cases hgt : count > Z
  · rw [decide_eq_true hgt, if_pos rfl, if_pos rfl, BitVec.toNat_neg, BitVec.toNat_sub,
      BitVec.toNat_ofNat, BitVec.toNat_ofNat]
    omega
  · rw [decide_eq_false hgt, if_neg (by decide), if_neg (by decide), BitVec.toNat_sub,
      BitVec.toNat_ofNat, BitVec.toNat_ofNat]
    omega

/-- What a merge-split of `xs` in place does. The call aborts when more than half of the length is
needed for the real elements on one side. Otherwise it permutes the elements, up to the marks of
some dummies, and puts the marked ones into the left half. -/
structure SplitsInPlace (ind : Indicator) (xs : List E) (result : Option (List E)) : Prop where
  abort : result = none ↔
    xs.length / 2 < (reals (setMarks ind xs)).countP (Markable.isMarked ind) ∨
      xs.length / 2 < (reals (setMarks ind xs)).countP fun x => !Markable.isMarked ind x
  perm : ∀ out, result = some out →
    ∃ flipped, List.Forall₂ (FlipsDummy ind) (setMarks ind xs) flipped ∧ List.Perm out flipped
  splits : ∀ out, result = some out → SplitsAt (Markable.isMarked ind) (xs.length / 2) out

/-- The balancing: how many dummies are missing, and the range with its marks. -/
def balanced (ind : Indicator) (xs : List E) : Nat × List E :=
  let markCount := (setMarks ind xs).countP (Markable.isMarked ind)
  let dir := decide (markCount > xs.length / 2)
  changeMarks ind dir (if dir = true then markCount - xs.length / 2 else xs.length / 2 - markCount)
    (setMarks ind xs)

theorem mergeSplitInPlace_eq (h : LawfulMark E ind) (method : PartitionMethod) {xs : List E}
    (hlt : xs.length < 2 ^ 64) : mergeSplitInPlace ind method xs =
      if (balanced ind xs).1 ≠ 0 then none
      else some (partitionMarked ind method (balanced ind xs).2) := by
  have hys : (xs.map (Markable.setAndGetMarked ind)).map (·.2) = setMarks ind xs := by
    rw [List.map_map]
    rfl
  have hle := List.countP_le_length (p := Markable.isMarked ind) (l := setMarks ind xs)
  rw [setMarks, List.length_map, ← setMarks] at hle
  simp only [mergeSplitInPlace, hys, countP_setMarks h]
  rw [toNat_markDiff (by omega) (by omega)]
  rfl

theorem mergeSplitInPlace_splits (h : LawfulMark E ind) {method : PartitionMethod} {xs : List E}
    (h2 : 2 ≤ xs.length) (heven : xs.length % 2 = 0) (hlt : xs.length < 2 ^ 63)
    (hor : method = .orCompact → xs.length < 2 ^ 33) :
    SplitsInPlace ind xs (mergeSplitInPlace ind method xs) := by
  have hlen : (setMarks ind xs).length = xs.length := List.length_map _
  have hflips : List.Forall₂ (FlipsDummy ind) (setMarks ind xs) (balanced ind xs).2 :=
    changeMarks_flips h _ _ _
  obtain ⟨habort, hcount⟩ : ((balanced ind xs).1 = 0 ↔ ¬ (_ ∨ _)) ∧ ((balanced ind xs).1 = 0 → _) :=
    changeMarks_balance h (show (setMarks ind xs).length = 2 * (xs.length / 2) by omega) rfl rfl
  have hlen' := hflips.length_eq
  have hrun := mergeSplitInPlace_eq h method (show xs.length < 2 ^ 64 by omega)
  by_cases h0 : (balanced ind xs).1 = 0
  · rw [if_neg (not_not.2 h0)] at hrun
    obtain ⟨hperm, hsplits⟩ := partitionMarked_splits (show (balanced ind xs).2.length =
      2 * (xs.length / 2) by omega) (hcount h0) (by omega) (by omega) fun hm => by
        have := hor hm
        omega
    rw [hrun]
    exact
      { abort := iff_of_false (fun hnone => by cases hnone) (habort.1 h0)
        perm := fun out hout => ⟨_, hflips, by rwa [← Option.some.inj hout]⟩
        splits := fun out hout => by rwa [← Option.some.inj hout] }
  · rw [if_pos h0] at hrun
    rw [hrun]
    exact
      { abort := iff_of_true rfl (not_not.1 fun hno => h0 (habort.2 hno))
        perm := fun out hout => by cases hout
        splits := fun out hout => by cases hout }

end Methods

/-- **`MergeSplitInPlace`** does the same by each of its methods, for a mask with one bit below the
dummy bit and for a pivot. With `OrCompact` the range has fewer than `2 ^ 33` elements. -/
theorem mergeSplitInPlace_methods {α : Type} [SortKey α] (method : PartitionMethod) :
    (∀ i < 63, ∀ r : Range (TaggedT α), 2 ≤ r.elems.length → r.elems.length % 2 = 0 →
      (method = .orCompact → r.elems.length < 2 ^ 33) →
      SplitsInPlace (BitVec.twoPow 64 i) r.elems
        (mergeSplitInPlace (BitVec.twoPow 64 i) method r.elems)) ∧
    ∀ pivot : Block α, ∀ r : Range (Block α), 2 ≤ r.elems.length → r.elems.length % 2 = 0 →
      (method = .orCompact → r.elems.length < 2 ^ 33) →
      SplitsInPlace pivot r.elems (mergeSplitInPlace pivot method r.elems) :=
  ⟨fun _ hi r h2 heven hor =>
      mergeSplitInPlace_splits (TaggedT.lawfulMark_twoPow hi) h2 heven r.length_lt hor,
    fun pivot r h2 heven hor =>
      mergeSplitInPlace_splits (Block.lawfulMark pivot) h2 heven r.length_lt hor⟩

/-- Two keys and two dummies, tagged. -/
def twoTagged : List (TaggedT SortElement) :=
  [⟨2, ⟨7, []⟩⟩, ⟨0, ⟨8, []⟩⟩, ⟨1#64 <<< 63, ⟨0, []⟩⟩, ⟨1#64 <<< 63, ⟨0, []⟩⟩]

/-- Two keys and two dummies as blocks. -/
def twoBlocks : List (Block SortElement) :=
  [⟨⟨7, []⟩, 0, false, false⟩, ⟨⟨4, []⟩, 1, false, false⟩, ⟨⟨0, []⟩, 0, true, false⟩,
    ⟨⟨0, []⟩, 0, true, false⟩]

theorem mergeSplitInPlace_methods_four :
    SplitsInPlace (BitVec.twoPow 64 1) twoTagged
        (mergeSplitInPlace (BitVec.twoPow 64 1) .orCompact twoTagged) ∧
      SplitsInPlace (⟨⟨5, []⟩, 0, false, false⟩ : Block SortElement) twoBlocks
        (mergeSplitInPlace (⟨⟨5, []⟩, 0, false, false⟩ : Block SortElement) .interleavePartition
          twoBlocks) :=
  ⟨(mergeSplitInPlace_methods (α := SortElement) .orCompact).1 1 (by decide) ⟨twoTagged, by decide⟩
      (by decide) (by decide) fun _ => by decide,
    (mergeSplitInPlace_methods .interleavePartition).2 _ ⟨twoBlocks, by decide⟩ (by decide)
      (by decide) nofun⟩

/-- Without dummies, `2 ^ 32` marked elements in front of as many others change places with them. -/
theorem mergeSplitInPlace_orCompact_wraps {α : Type} {a b : TaggedT α} (ha : a.isMarked 1#64 = true)
    (hb : b.isMarked 1#64 = false) :
    mergeSplitInPlace 1#64 .orCompact
        (List.replicate (2 ^ 32) a ++ List.replicate (2 ^ 32) b) =
      some (List.replicate (2 ^ 32) b ++ List.replicate (2 ^ 32) a) := by
  have hwrap : orCompactMarkType 32 (Markable.isMarked 1#64)
      (List.replicate (2 ^ 32) a ++ List.replicate (2 ^ 32) b) = _ :=
    orCompactMarkType_wraps (show 0 < 32 by decide) (show 32 < 63 by decide) ha
  have hlt : 2 ^ 32 + 2 ^ 32 < 2 ^ 64 := by decide
  generalize 2 ^ 32 = h at *
  have hlen : (List.replicate h a ++ List.replicate h b).length = h + h := by simp
  have hset : setMarks 1#64 (List.replicate h a ++ List.replicate h b) =
      List.replicate h a ++ List.replicate h b := List.map_id _
  have hcount : (List.replicate h a ++ List.replicate h b).countP (Markable.isMarked 1#64) = h := by
    have ha' : Markable.isMarked 1#64 a = true := ha
    have hb' : Markable.isMarked 1#64 b = false := hb
    simp [List.countP_replicate, ha', hb']
  have hbalanced : balanced 1#64 (List.replicate h a ++ List.replicate h b) =
      (0, List.replicate h a ++ List.replicate h b) := by
    simp only [balanced, hset, hcount, hlen]
    rw [show (h + h) / 2 = h by omega, Nat.sub_self, ite_self,
      changeMarks_zero TaggedT.lawfulMark]
  rw [mergeSplitInPlace_eq TaggedT.lawfulMark _ (hlen.trans_lt hlt), hbalanced]
  exact congrArg some hwrap

/-- `OrCompact` keeps its sums in words of 32 bits. -/
theorem mergeSplitInPlace_orCompact_bad :
    ¬ ∀ (method : PartitionMethod), ∀ i < 63, ∀ r : Range (TaggedT Unit), 2 ≤ r.elems.length →
      r.elems.length % 2 = 0 →
      SplitsInPlace (BitVec.twoPow 64 i) r.elems
        (mergeSplitInPlace (BitVec.twoPow 64 i) method r.elems) := by
  intro hall
  obtain ⟨a, b, ha, hb⟩ : ∃ a b : TaggedT Unit, a.isMarked 1#64 = true ∧ b.isMarked 1#64 = false :=
    ⟨⟨0, ()⟩, ⟨1, ()⟩, by decide, by decide⟩
  have hwrap := mergeSplitInPlace_orCompact_wraps ha hb
  have hpos : 0 < 2 ^ 32 := by decide
  have hlt : 2 ^ 32 + 2 ^ 32 < 2 ^ 63 := by decide
  generalize 2 ^ 32 = h at *
  have hlen : (List.replicate h a ++ List.replicate h b).length = h + h := by simp
  have hspec :=
    hall .orCompact 0 (by decide) ⟨List.replicate h a ++ List.replicate h b, hlen.trans_lt hlt⟩
    (hlen.symm ▸ by omega) (hlen.symm ▸ by omega)
  rw [BitVec.twoPow_zero] at hspec
  have hsplits := (hspec.splits _ hwrap).1
  rw [hlen, show (h + h) / 2 = h by omega, List.take_left' List.length_replicate] at hsplits
  have hmarked : b.isMarked 1#64 = true := hsplits b (List.mem_replicate.2 ⟨hpos.ne', rfl⟩)
  rw [hb] at hmarked
  cases hmarked

end EM.Algorithm
