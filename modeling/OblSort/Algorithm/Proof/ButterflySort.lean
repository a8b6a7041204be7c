import OblSort.Algorithm.Proof.ButterflyGroups

/-!
# The butterfly sort

`KWayButterflySort` on a whole vector. The groups of the last layer are written out in order and
merged; the merge succeeds in one pass only, so the sort does what it should exactly when the number
of groups is at most `maxWay`, or there is nothing to merge.
-/

namespace EM.Algorithm

open EM.DynamicPageVector Loop Store ButterflySorter

variable {α : Type} [SortKey α]

/-- The standard library does what it should. -/
structure Platform.Correct (M : Platform α) (IsHeap : List (HeapEntry α) → Prop) : Prop where
  perm : Permutes M.stdSort
  sorted : ∀ xs, (M.stdSort xs).Pairwise fun x y => SortKey.Le x.v y.v
  heap : M.heap.Correct cmpMerge IsHeap

/-- What a sort of more than 512 elements relies on: valid parameters, memory of the size of a
bucket, no stop at a merge-split, and a dummy and a real element in every group handed to
`partitionDummy`. -/
structure Admissible (M : Platform α) (params : KWayButterflyParams) (heapSize : Nat)
    (batch vec : Nat → List (TaggedT α)) (input : List (BitVec 64 × α)) : Prop where
  valid : params.Valid input.length
  batch_sized : ∀ p, (batch p).length = params.Z
  vec_sized : ∀ p, (vec p).length = params.Z
  noAbort : ∀ e, (M.sorter params heapSize input.length).sort (Vector.plain _) M.stdSort
    (.start input batch vec) = .error e → e.1 ≠ .mergeSplit
  mixed : ∀ s, (M.sorter params heapSize input.length).sort (Vector.plain _) M.stdSort
    (.start input batch vec) = .ok s → ∀ group ∈ s.handed, Mixed group

/-- The number of groups that the last layer hands over. -/
def Platform.groups (M : Platform α) (params : KWayButterflyParams) (heapSize N : Nat) : Nat :=
  divRoundUp (params.ways.dropLast.map List.prod).prod
    ((M.sorter params heapSize N).batchPerEnclave (params.ways.length - 1))

/-! ## The sorter -/

section Sorter

variable {M : Platform α} {params : KWayButterflyParams} {heapSize N : Nat}

omit [SortKey α]

theorem sorter_valid (hN : 0 < N) (hv : params.Valid N) : (M.sorter params heapSize N).Valid :=
  valid_new hN hv .kWayButterflyOSort _ _ _

theorem sorter_singleBatch (h : (M.sorter params heapSize N).singleBatch = true) :
    params.ways.length = 1 :=
  beq_iff_eq.1 h

theorem sorter_fits (hN : 0 < N) (hv : params.Valid N)
    (h : (M.sorter params heapSize N).HoldsBatches) : (M.sorter params heapSize N).Fits :=
  h.fits_sort (sorter_valid hN hv) (numElementFit_new_lt ..) rfl sorter_singleBatch

/-- A sorter that comes to its end holds its batches. -/
theorem sorter_holdsBatches (hN : 0 < N) (hv : params.Valid N) {σ : Type}
    {V : Vector σ (List (TaggedT α))} {s s' : State α σ}
    (h : (M.sorter params heapSize N).sort V M.stdSort s = .ok s') :
    (M.sorter params heapSize N).HoldsBatches := by
  have hvalid : (M.sorter params heapSize N).Valid := sorter_valid hN hv
  obtain ⟨halloc, hfits, -⟩ := sort_eq_ok hvalid h
  exact hfits.holdsBatches hvalid rfl sorter_singleBatch halloc

theorem sorter_groups : M.groups params heapSize N =
    divRoundUp ((M.sorter params heapSize N).fetchInterval (params.ways.length - 1))
      ((M.sorter params heapSize N).batchPerEnclave (params.ways.length - 1)) := by
  have hF : (M.sorter params heapSize N).fetchInterval (params.ways.length - 1) =
      (params.ways.dropLast.map List.prod).prod := by
    rw [List.dropLast_eq_take]
    exact fetchInterval_eq (Nat.sub_le params.ways.length 1)
  rw [hF, Platform.groups]

/-- A single batch is one group. -/
theorem groups_singleBatch (hN : 0 < N) (hv : params.Valid N)
    (h : (M.sorter params heapSize N).HoldsBatches) (hone : params.ways.length = 1) :
    M.groups params heapSize N = 1 := by
  have hpos := (sorter_fits hN hv h 0 (Nat.lt_of_lt_of_eq Nat.one_pos hone.symm) 0 Nat.one_pos).1
  rw [sorter_groups, hone]
  change (1 + _ - 1) / _ = 1
  rw [Nat.add_sub_cancel_left, Nat.div_self hpos]

end Sorter

theorem eq_ok_of_mapError {ε ε' β : Type} {f : ε → ε'} {x : Except ε β} {a : β}
    (h : x.mapError f = .ok a) : x = .ok a := by
  cases x with
  | error e => cases h
  | ok b =>
    cases h
    rfl

section Sorts

variable {M : Platform α} {IsHeap : List (HeapEntry α) → Prop}
  (hM : M.Correct IsHeap)

include hM

/-- The groups that the last layer has written out. -/
theorem groupOutput_sorted {group : List (TaggedT α)} (h : Mixed group) :
    (groupOutput M.stdSort group).Pairwise SortKey.Le := by
  obtain ⟨-, -, xs, hxs⟩ := groupOutput_mixed hM.perm h
  rw [hxs, List.pairwise_map]
  exact hM.sorted xs

variable {params : KWayButterflyParams} {heapSize : Nat} {batch vec : Nat → List (TaggedT α)}
  {input : List (BitVec 64 × α)}

/-- The run of a sorter that holds its batches: it stops at a merge-split, or it has handed over the
input in groups. -/
theorem sorter_runs (hN : 0 < input.length) (hv : params.Valid input.length)
    (hbatch : ∀ p, (batch p).length = params.Z) (hvec : ∀ p, (vec p).length = params.Z)
    (hholds : (M.sorter params heapSize input.length).HoldsBatches) :
    Ends (fun s => s.handed.length = M.groups params heapSize input.length ∧
        List.Perm (s.handed.map realData).flatten (input.map Prod.snd) ∧
        s.written = (s.handed.map (groupOutput M.stdSort)).flatten ∧
        s.mergeSortRanges = if params.ways.length == 1 then [] else
          segments 0 (s.handed.map (groupOutput M.stdSort)))
      (fun e => e.1 = .mergeSplit)
      ((M.sorter params heapSize input.length).sort (Vector.plain _) M.stdSort
        (.start input batch vec)) := by
  have hends := sort_groups (sorter_valid hN hv) (sorter_fits hN hv hholds) rfl hM.perm hholds.alloc
    (s := State.start input batch vec) hbatch hvec ⟨rfl, rfl, rfl⟩
  refine hends.mono (fun s hs => ⟨?_, ?_, hs.written, hs.mergeSortRanges⟩) fun _ he => he
  · rw [hs.count, sorter_groups]
    rfl
  · refine hs.data.trans (List.Perm.of_eq ?_)
    rw [entering]
    exact (congrArg (List.map TaggedT.v) (gather_source hN (prod_pos_of_valid hv) _ _ _ _ _
      _)).trans (List.map_map.trans rfl)

variable (hN : 512 < input.length) (h : Admissible M params heapSize batch vec input)

include hN h

section Holds

variable (hholds : (M.sorter params heapSize input.length).HoldsBatches)

include hholds

/-- The sorter comes to its end. -/
theorem sorter_ends : ∃ s, (M.sorter params heapSize input.length).sort (Vector.plain _) M.stdSort
      (.start input batch vec) = .ok s ∧
    s.handed.length = M.groups params heapSize input.length ∧
    (∀ group ∈ s.handed, Mixed group) ∧
    List.Perm s.written (input.map Prod.snd) ∧
    s.written = (s.handed.map (groupOutput M.stdSort)).flatten ∧
    s.mergeSortRanges = if params.ways.length == 1 then [] else
      segments 0 (s.handed.map (groupOutput M.stdSort)) := by
  obtain ⟨s, hrun, hcount, hdata, hwritten, hranges⟩ := (sorter_runs hM (by omega) h.valid
    h.batch_sized h.vec_sized hholds).exists_ok fun e he hstop => h.noAbort e he hstop
  have hmixed := h.mixed s hrun
  refine ⟨s, hrun, hcount, hmixed, ?_, hwritten, hranges⟩
  rw [hwritten]
  refine List.Perm.trans ?_ hdata
  rw [← List.flatMap_def, ← List.flatMap_def]
  exact List.Perm.flatMap_left _ fun group hg => (groupOutput_mixed hM.perm (hmixed group hg)).1

/-- **One pass is enough** when there are at most `maxWay` groups. -/
theorem KWayButterflySort_onePass [IsStrictWeakOrder α SortKey.Lt] (hways : params.ways.length ≠ 1)
    (hgroups : M.groups params heapSize input.length ≤ M.maxWay heapSize input.length) :
    ∃ out, KWayButterflySort M (Vector.plain _) params heapSize batch vec input = .ok out ∧
      SortedPerm (input.map Prod.snd) out := by
  obtain ⟨s, hrun, hcount, hmixed, hperm, hwritten, hranges⟩ := sorter_ends hM hN h hholds
  have hne : ∀ g ∈ s.handed.map (groupOutput M.stdSort), g ≠ [] := fun g hg => by
    obtain ⟨group, hgroup, rfl⟩ := List.mem_map.1 hg
    exact (groupOutput_mixed hM.perm (hmixed group hgroup)).2.1
  have hsorted : ∀ g ∈ s.handed.map (groupOutput M.stdSort), g.Pairwise SortKey.Le := fun g hg => by
    obtain ⟨group, hgroup, rfl⟩ := List.mem_map.1 hg
    exact groupOutput_sorted hM (hmixed group hgroup)
  obtain ⟨out, hout, hp, hs⟩ := mergeReaders_spec hM.heap hne hsorted
  refine ⟨out, ?_, ⟨hp.trans (hwritten ▸ hperm), hs⟩⟩
  rw [KWayButterflySort]
  dsimp only
  rw [if_neg (by omega), hrun]
  dsimp only
  rw [if_neg hways, hranges, if_neg (by simpa using hways)]
  change (ExtMergeSort _ _ _ _ _ _ (rangesAt 0 _)).mapError _ = _
  have hlen : (rangesAt 0 (segments 0 (s.handed.map (groupOutput M.stdSort)))).length =
      s.handed.length := by
    rw [rangesAt, List.length_map, length_segments, List.length_map]
  rw [ExtMergeSort, if_neg (by omega), hlen, ← List.length_map (groupOutput M.stdSort), hwritten,
    hout]
  rfl

/-- A single batch is sorted as it is. -/
theorem KWayButterflySort_singleBatch (hways : params.ways.length = 1) :
    ∃ out, KWayButterflySort M (Vector.plain _) params heapSize batch vec input = .ok out ∧
      SortedPerm (input.map Prod.snd) out := by
  obtain ⟨s, hrun, hcount, hmixed, hperm, hwritten, -⟩ := sorter_ends hM hN h hholds
  rw [groups_singleBatch (by omega) h.valid hholds hways] at hcount
  obtain ⟨group, hgroup⟩ := List.length_eq_one_iff.1 hcount
  refine ⟨s.written, ?_, hperm, ?_⟩
  · rw [KWayButterflySort]
    dsimp only
    rw [if_neg (by omega), hrun]
    dsimp only
    rw [if_pos hways]
  · rw [hwritten, hgroup, List.map_singleton, List.flatten_singleton]
    exact groupOutput_sorted hM (hmixed group (hgroup ▸ List.mem_singleton_self group))

/-- With more than `maxWay` groups the merge fails. -/
theorem KWayButterflySort_multiPass (hways : params.ways.length ≠ 1)
    (hgroups : M.maxWay heapSize input.length < M.groups params heapSize input.length)
    (out : List α) :
    KWayButterflySort M (Vector.plain _) params heapSize batch vec input ≠ .ok out := by
  obtain ⟨s, hrun, hcount, -, -, -, hranges⟩ := sorter_ends hM hN h hholds
  rw [KWayButterflySort]
  dsimp only
  rw [if_neg (by omega), hrun]
  dsimp only
  rw [if_neg hways, hranges, if_neg (by simpa using hways)]
  intro hout
  change (ExtMergeSort _ _ _ _ _ _ (rangesAt 0 _)).mapError _ = _ at hout
  have hmany : M.maxWay heapSize input.length <
      (rangesAt 0 (segments 0 (s.handed.map (groupOutput M.stdSort)))).length := by
    rw [rangesAt, List.length_map, length_segments, List.length_map, hcount]
    exact hgroups
  exact ExtMergeSort_multiPass hmany _ _ _ (eq_ok_of_mapError hout)

end Holds

omit hM h in
/-- A sort whose buffer does not hold its batches fails. -/
theorem holdsBatches_of_ok (hv : params.Valid input.length) {out : List α}
    (hout : KWayButterflySort M (Vector.plain _) params heapSize batch vec input = .ok out) :
    (M.sorter params heapSize input.length).HoldsBatches := by
  rw [KWayButterflySort] at hout
  dsimp only at hout
  rw [if_neg (by omega)] at hout
  cases hrun : (M.sorter params heapSize input.length).sort (Vector.plain _) M.stdSort
      (.start input batch vec) with
  | error e =>
    rw [hrun] at hout
    cases hout
  | ok s => exact sorter_holdsBatches (by omega) hv hrun

end Sorts

/-- **`KWayButterflySort`** writes a sorted permutation of its input exactly when the input has at
most 512 elements, or the buffer holds a batch of every layer and the sort needs a single batch or
its groups can be merged in one pass. -/
theorem KWayButterflySort_sorts_iff [IsStrictWeakOrder α SortKey.Lt] {M : Platform α}
    {IsHeap : List (HeapEntry α) → Prop} (hM : M.Correct IsHeap) {params : KWayButterflyParams}
    {heapSize : Nat} {batch vec : Nat → List (TaggedT α)} {input : List (BitVec 64 × α)}
    (h : 512 < input.length → Admissible M params heapSize batch vec input) :
    (∃ out, KWayButterflySort M (Vector.plain _) params heapSize batch vec input = .ok out ∧
      SortedPerm (input.map Prod.snd) out) ↔
    input.length ≤ 512 ∨ ((M.sorter params heapSize input.length).HoldsBatches ∧
      (params.ways.length = 1 ∨
        M.groups params heapSize input.length ≤ M.maxWay heapSize input.length)) := by
  by_cases hN : input.length ≤ 512
  · refine ⟨fun _ => .inl hN, fun _ => ⟨_, if_pos hN, bitonicSortList_perm _ _, ?_⟩⟩
    refine bitonicSortList_sorted SortKey.decides ?_
    rw [List.length_map]
    omega
  · have hlarge : 512 < input.length := by omega
    have hadm := h hlarge
    constructor
    · rintro ⟨out, hout, -⟩
      have hholds := holdsBatches_of_ok hlarge hadm.valid hout
      refine .inr ⟨hholds, ?_⟩
      by_contra hcond
      exact KWayButterflySort_multiPass hM hlarge hadm hholds (by omega) (by omega) out hout
    · rintro (hsmall | ⟨hholds, hmerge⟩)
      · exact absurd hsmall hN
      · by_cases hways : params.ways.length = 1
        · exact KWayButterflySort_singleBatch hM hlarge hadm hholds hways
        · exact KWayButterflySort_onePass hM hlarge hadm hholds hways (hmerge.resolve_left hways)

/-! ## Admissible inputs -/

theorem lt_of_lt_divRoundUp {g n b : Nat} (hb : 0 < b) (h : g < divRoundUp n b) : g * b < n := by
  by_contra hle
  have := (divRoundUp_le_iff hb).2 (show n ≤ b * g by rw [Nat.mul_comm]; omega)
  omega

omit [SortKey α] in
theorem mem_realData {x : α} {xs : List (TaggedT α)} (h : x ∈ realData xs) :
    ∃ y ∈ xs, y.isDummy = false := by
  obtain ⟨y, hy, -⟩ := List.mem_map.1 h
  obtain ⟨hy, hreal⟩ := List.mem_filter.1 hy
  exact ⟨y, hy, by simpa using hreal⟩

omit [SortKey α] in
theorem exists_dummy {xs : List (TaggedT α)} (h : (realData xs).length < xs.length) :
    ∃ x ∈ xs, x.isDummy = true := by
  by_contra hall
  rw [realData, List.length_map, List.filter_eq_self.2 fun x hx => ?_] at h
  · omega
  · cases hd : x.isDummy with
    | false => rfl
    | true => exact absurd ⟨x, hx, hd⟩ hall

section Spread

variable {M : Platform α} {IsHeap : List (HeapEntry α) → Prop} (hM : M.Correct IsHeap)
  {params : KWayButterflyParams} {heapSize : Nat} {batch vec : Nat → List (TaggedT α)}
  {input : List (BitVec 64 × α)} (hv : params.Valid input.length) (hl : params.LanesFit)
  {ioLayer : Nat} (hlayers : ioLayer + 1 + 1 = params.ways.length)
  (hholds : (M.sorter params heapSize input.length).HoldsBatches)
  (hbatch : ∀ p, (batch p).length = params.Z) (hvec : ∀ p, (vec p).length = params.Z)

include hM hv hl hlayers hholds hbatch hvec in
/-- Tags that are spread make an input admissible: no class has `Z` elements, every class modulo the
number of batches has one, and a batch has room for more than all elements. -/
theorem admissible_of_spread (hover : ¬ Overfull params.Z (input.map tagged))
    (hclass : ∀ j < (M.sorter params heapSize input.length).fetchInterval (ioLayer + 1),
      ∃ p ∈ input, tagOf p % (M.sorter params heapSize input.length).fetchInterval
        (ioLayer + 1) = j)
    (hsmall : input.length < (params.ways.getD (ioLayer + 1) []).prod * params.Z)
    (hne : 0 < input.length) :
    Admissible M params heapSize batch vec input := by
  have hvalid : (M.sorter params heapSize input.length).Valid := sorter_valid hne hv
  have hfits := sorter_fits hne hv hholds
  have hsource : gather params.totalBucket ((M.sorter params heapSize input.length).source 0
      (.start input batch vec) 0) = input.map tagged :=
    gather_source hne (prod_pos_of_valid hv) _ _ _ _ _ _
  have hrouted := sort_groups_routed hvalid hfits rfl hM.perm hl hholds.alloc hlayers
    (show Sized _ (State.start input batch vec) from hbatch) hvec ⟨rfl, rfl, rfl⟩
  change Ends _ (StopsOn _ (gather params.totalBucket _)) _ at hrouted
  rw [hsource] at hrouted
  refine ⟨hv, hbatch, hvec, fun e he => ?_, fun s hs group hgroup => ?_⟩
  · rw [he] at hrouted
    exact absurd hrouted.2 hover
  · obtain ⟨s₁, cols, hg, hcols⟩ := hrouted.of_ok hs
    have hall := ((sorter_runs hM hne hv hbatch hvec hholds).of_ok hs).2.1.length_eq
    rw [List.length_map] at hall
    constructor
    · refine exists_dummy (Nat.lt_of_le_of_lt ?_ (hsmall.trans_le (hg.size group hgroup)))
      rw [← hall]
      exact (List.sublist_flatten_of_mem (List.mem_map_of_mem hgroup)).length_le
    · obtain ⟨g, hlt, rfl⟩ := List.mem_iff_getElem.1 hgroup
      have hb := (hfits (ioLayer + 1) (Nat.lt_of_lt_of_eq (Nat.lt_succ_self _) hlayers) 0
        (hvalid.fetchInterval_pos (Nat.le_of_succ_le hlayers.le))).1
      have hlt' := lt_of_lt_divRoundUp hb (by rwa [hg.count, groupCount, if_pos rfl] at hlt)
      obtain ⟨p, hp, hmod⟩ := hclass _ hlt'
      have hsrc : tagged p ∈ gather params.totalBucket
          ((M.sorter params heapSize input.length).source 0 (.start input batch vec) 0) :=
        hsource ▸ List.mem_map_of_mem hp
      have hmem : p.2 ∈ cols (g * _) := (hcols _ hlt').mem_iff.2 (List.mem_map.2
        ⟨_, List.mem_map_of_mem (List.mem_filter.2 ⟨hsrc, by
          rw [realTag_tagged, hmod]
          exact decide_eq_true rfl⟩), rfl⟩)
      have hreal : p.2 ∈ realData s.handed[g] :=
        (hg.group g hlt).mem_iff.2 (mem_gather.2 ⟨0, by omega, hmem⟩)
      exact mem_realData hreal

end Spread

/-! ## 513 elements -/

/-- A platform with a merge sort and a sorted list as a heap. -/
def mergeSortPlatform {α : Type} [SortKey α] (sizeofT sizeofWrappedT : Nat) : Platform α where
  sizeofT := sizeofT
  sizeofWrappedT := sizeofWrappedT
  stdSort xs := xs.mergeSort fun x y => !SortKey.lt y.v x.v
  heap := sortedHeap
  passWay _ _ := 2

theorem mergeSortPlatform_correct {α : Type} [SortKey α] [IsStrictWeakOrder α SortKey.Lt]
    (sizeofT sizeofWrappedT : Nat) :
    (mergeSortPlatform (α := α) sizeofT sizeofWrappedT).Correct fun h =>
      h.Pairwise fun a b => cmpMerge a b = false where
  perm xs := List.mergeSort_perm xs _
  sorted xs := by
    refine (List.pairwise_mergeSort ?_ ?_ xs).imp fun {x y} hxy => ?_
    · intro x y z hxy hyz
      rw [Bool.not_eq_true'] at hxy hyz ⊢
      exact SortKey.Le.trans hxy hyz
    · intro x y
      cases hxy : SortKey.lt y.v x.v with
      | false => rfl
      | true =>
        have : SortKey.lt x.v y.v = false := SortKey.Lt.le hxy
        rw [this]
        rfl
    · rwa [Bool.not_eq_true'] at hxy
  heap := sortedHeap_correct

/-- Elements of eight bytes. -/
def keyPlatform : Platform SortElement where
  sizeofT := 8
  sizeofWrappedT := 16
  stdSort xs := xs.mergeSort fun x y => !SortKey.lt y.v x.v
  heap := sortedHeap
  passWay _ _ := 2

theorem keyPlatform_correct :
    keyPlatform.Correct fun h => h.Pairwise fun a b => cmpMerge a b = false :=
  mergeSortPlatform_correct 8 16

/-- `n` elements whose tags and keys count up. -/
def counting (n : Nat) : List (BitVec 64 × SortElement) :=
  (List.range n).map fun i => (BitVec.ofNat 64 i, ⟨BitVec.ofNat 64 i, []⟩)

theorem length_counting (n : Nat) : (counting n).length = n := by
  rw [counting, List.length_map, List.length_range]

theorem realTag_counting {n : Nat} (hn : n ≤ 2 ^ 63) :
    ((counting n).map tagged).map TaggedT.realTag = List.range n := by
  rw [counting, List.map_map, List.map_map]
  refine (List.map_congr_left fun i hi => ?_).trans (List.map_id _)
  have := List.mem_range.1 hi
  rw [Function.comp_apply, Function.comp_apply, realTag_tagged, tagOf, BitVec.toNat_ofNat, id]
  omega

/-- A class has at most every other number. -/
theorem countP_class {M : Nat} (hM : 2 ≤ M) (r n : Nat) :
    2 * (List.range n).countP (fun i => decide (i % M = r)) ≤ n + 1 := by
  induction n using Nat.twoStepInduction with
  | zero => simp
  | one =>
    have : (List.range 1).countP (fun i => decide (i % M = r)) ≤ 1 := List.countP_le_length
    omega
  | more n ih _ =>
    have hne : ¬ (n % M = r ∧ (n + 1) % M = r) := fun h => by
      have := Nat.sub_mod_eq_zero_of_mod_eq (h.2.trans h.1.symm)
      rw [Nat.add_sub_cancel_left, Nat.mod_eq_of_lt (by omega)] at this
      omega
    rw [List.range_succ, List.range_succ, List.countP_append, List.countP_append,
      List.countP_singleton, List.countP_singleton]
    simp only [decide_eq_true_eq]
    split <;> split <;> omega

theorem counting_not_overfull {n : Nat} (hn : n ≤ 2 ^ 63) {Z : Nat} (hZ : n + 1 < 2 * Z) :
    ¬ Overfull Z ((counting n).map tagged) := by
  rintro ⟨M, hM, r, hr⟩
  have hcount : (part M r ((counting n).map tagged)).length =
      (List.range n).countP fun i => decide (i % M = r) := by
    rw [part, List.length_map, ← List.countP_eq_length_filter, ← realTag_counting hn]
    exact (List.countP_map (p := fun i => decide (i % M = r)) (f := TaggedT.realTag)).symm
  have := countP_class hM r n
  omega

/-- A buffer or vector of zeros. -/
def zeroBuckets (_ : Nat) : List (TaggedT SortElement) := List.replicate 512 ⟨0, ⟨0, []⟩⟩

/-- The example is admissible with a heap that holds a batch of every layer. -/
theorem counting_admissible {params : KWayButterflyParams} {heapSize ioLayer : Nat}
    (hv : params.Valid 513) (hl : params.LanesFit) (hZ : params.Z = 512)
    (hlayers : ioLayer + 1 + 1 = params.ways.length)
    (hholds : (keyPlatform.sorter params heapSize 513).HoldsBatches)
    (hF : (keyPlatform.sorter params heapSize 513).fetchInterval (ioLayer + 1) ≤ 513)
    (hsmall : 513 < (params.ways.getD (ioLayer + 1) []).prod * 512) :
    Admissible keyPlatform params heapSize zeroBuckets zeroBuckets (counting 513) := by
  have hlen := length_counting 513
  have hsized : ∀ p, (zeroBuckets p).length = params.Z := fun p => by
    rw [hZ]
    exact List.length_replicate
  refine admissible_of_spread keyPlatform_correct (by rwa [hlen]) hl hlayers (by rwa [hlen]) hsized
    hsized (counting_not_overfull (by decide) (by omega)) (fun j hj => ?_) (by rwa [hlen, hZ])
    (by rw [hlen]; decide)
  rw [hlen] at hj ⊢
  refine ⟨(BitVec.ofNat 64 j, ⟨BitVec.ofNat 64 j, []⟩),
    List.mem_map_of_mem (List.mem_range.2 (by omega)), ?_⟩
  rw [tagOf, BitVec.toNat_ofNat, Nat.mod_eq_of_lt (show j < 2 ^ 64 by omega),
    Nat.mod_eq_of_lt (show j < 2 ^ 63 by omega), Nat.mod_eq_of_lt hj]

/-- Four layers of two ways. -/
def fourLayers : KWayButterflyParams := ⟨[[2], [2], [2], [2]], 512, 16⟩

/-- The buffer of 1024 places for a heap of 90112 bytes. -/
theorem fourLayers_holdsBatches : (keyPlatform.sorter fourLayers 90112 513).HoldsBatches :=
  ⟨by decide, by decide⟩

theorem fourLayers_admissible :
    Admissible keyPlatform fourLayers 90112 zeroBuckets zeroBuckets (counting 513) := by
  refine counting_admissible ?_ ?_ rfl (show 2 + 1 + 1 = 4 from rfl) fourLayers_holdsBatches
    (by decide) (by decide)
  · exact ⟨by decide, by decide, by decide, by decide, ⟨9, by decide, by decide, rfl⟩, by decide⟩
  · unfold KWayButterflyParams.LanesFit
    decide

/-- **Eight groups for a merge of five**: the sort of 513 elements fails. -/
theorem KWayButterflySort_eight_groups :
    Admissible keyPlatform fourLayers 90112 zeroBuckets zeroBuckets (counting 513) ∧
    ¬ ∃ out, KWayButterflySort keyPlatform (Vector.plain _) fourLayers 90112 zeroBuckets zeroBuckets
      (counting 513) = .ok out ∧ SortedPerm ((counting 513).map Prod.snd) out := by
  have hlen := length_counting 513
  refine ⟨fourLayers_admissible, ?_⟩
  rintro ⟨out, hout, _⟩
  refine KWayButterflySort_multiPass keyPlatform_correct (by rw [hlen]; decide)
    fourLayers_admissible (by rw [hlen]; exact fourLayers_holdsBatches) (by decide) ?_ out hout
  rw [hlen]
  decide

/-- Two layers, of six and of two ways. -/
def twoLayers : KWayButterflyParams := ⟨[[2, 3], [2]], 512, 12⟩

theorem twoLayers_valid : twoLayers.Valid 513 :=
  ⟨by decide, by decide, by decide, by decide, ⟨9, by decide, by decide, rfl⟩, by decide⟩

theorem twoLayers_lanesFit : twoLayers.LanesFit := by
  unfold KWayButterflyParams.LanesFit
  decide

theorem twoLayers_holdsBatches : (keyPlatform.sorter twoLayers 131072 513).HoldsBatches :=
  ⟨by decide, by decide⟩

theorem twoLayers_admissible :
    Admissible keyPlatform twoLayers 131072 zeroBuckets zeroBuckets (counting 513) :=
  counting_admissible twoLayers_valid twoLayers_lanesFit rfl (show 0 + 1 + 1 = 2 from rfl)
    twoLayers_holdsBatches (by decide) (by decide)

/-- With a larger heap there are two groups, which are merged. -/
theorem KWayButterflySort_two_groups :
    ∃ out, KWayButterflySort keyPlatform (Vector.plain _) twoLayers 131072 zeroBuckets zeroBuckets
      (counting 513) = .ok out ∧ SortedPerm ((counting 513).map Prod.snd) out := by
  refine (KWayButterflySort_sorts_iff keyPlatform_correct fun _ => twoLayers_admissible).2
    (.inr ⟨?_, .inr ?_⟩)
  · rw [length_counting]
    exact twoLayers_holdsBatches
  · rw [length_counting]
    decide

end EM.Algorithm
