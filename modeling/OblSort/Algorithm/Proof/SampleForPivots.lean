import OblSort.Algorithm.DistriVector
import OblSort.Algorithm.Proof.ButterflySort
import OblSort.Algorithm.Proof.OrCompact
import OblSort.Lib.Rank

/-!
# The pivots as quantiles of the sample

What is copied out to `Gamma` is the chosen elements and as many dummies as there are slots left
(`gamma_perm`). The sort does not look at the dummy flag, so the dummies take the places that the
order gives them, and the pivots are quantiles of the chosen elements exactly as far as the dummies
do not shift the ranks.
-/

namespace EM.Algorithm

open Rank Compact

variable {α : Type}

/-! ## The sample -/

/-- The elements chosen, tagged with their places. -/
def chosenBlocks (P : SampleParams) (rand64 : Nat → BitVec 64) (input : List α) : List (Block α) :=
  ((sampleBlocks input).zipIdx.filter fun x =>
    isChosen input.length P.expectedSampleSize (rand64 x.2)).map Prod.fst

/-- How many elements of batch `b` are chosen. -/
def chosenIn (P : SampleParams) (rand64 : Nat → BitVec 64) (N b : Nat) : Nat :=
  (((List.range N).drop (b * P.M)).take P.M).countP fun i =>
    isChosen N P.expectedSampleSize (rand64 i)

/-- The slots that are copied out. -/
def copiedOut (P : SampleParams) (N : Nat) : Nat :=
  ((List.range (divRoundUp N P.M)).map fun b => min (min P.M (N - b * P.M)) P.lenPerBatch).sum

/-- `Gamma` up to `outIt`. -/
def gamma (P : SampleParams) (dummy : Block α) (rand64 : Nat → BitVec 64) (input : List α) :
    List (Block α) :=
  (sampleBatches P.M P.lenPerBatch (divRoundUp input.length P.M)
    (sampleEntries dummy input.length P.expectedSampleSize rand64 input) [] []).1

/-- A chosen element or the dummy. -/
def Entry (dummy x : Block α) : Prop := x.dummyFlag = false ∨ x = dummy

theorem eq_dummy {dummy x : Block α} (h : Entry dummy x) (hx : (!x.dummyFlag) = false) :
    x = dummy := by
  obtain h | h := h
  · rw [h] at hx
    cases hx
  · exact h

/-- The front of a batch that is copied out: the chosen elements and then dummies. -/
theorem take_orCompact (len : Nat) {dummy : Block α} {xs : List (Block α)}
    (h : ∀ x ∈ xs, Entry dummy x) (hlen : xs.countP (fun x => !x.dummyFlag) ≤ len)
    (hle : len ≤ xs.length) :
    (orCompact (fun x => !x.dummyFlag) xs).take len = xs.filter (fun x => !x.dummyFlag) ++
      List.replicate (len - xs.countP fun x => !x.dummyFlag) dummy := by
  have ht := orCompact_tight (fun x => !x.dummyFlag) xs
  generalize hc : xs.countP (fun x => !x.dummyFlag) = c at *
  have hrest : (orCompact (fun x => !x.dummyFlag) xs).drop c =
      List.replicate (xs.length - c) dummy := by
    rw [List.eq_replicate_iff]
    refine ⟨by rw [List.length_drop, ht.perm.length_eq], fun x hx => ?_⟩
    exact eq_dummy (h x (ht.perm.mem_iff.1 (List.mem_of_mem_drop hx))) (ht.rest x (hc ▸ hx))
  have hfront := ht.front
  rw [hc] at hfront
  rw [← List.take_append_drop c (orCompact (fun x => !x.dummyFlag) xs), hfront, hrest,
    List.take_append, List.take_replicate, ← List.countP_eq_length_filter, hc,
    List.take_of_length_le (by rw [← List.countP_eq_length_filter, hc]; exact hlen),
    Nat.min_eq_left (by omega)]

theorem sampleBatches_fst (M lenPerBatch numBatch : Nat) (entries Gamma Mem : List (Block α)) :
    (sampleBatches M lenPerBatch numBatch entries Gamma Mem).1 =
      Gamma ++ (sampleBatches M lenPerBatch numBatch entries [] []).1 := by
  induction numBatch generalizing entries Gamma Mem with
  | zero => simp [sampleBatches]
  | succ numBatch ih =>
    rw [sampleBatches, sampleBatches, ih, ih (entries.drop M) ([] ++ _), List.append_assoc,
      List.nil_append]

/-- What `numBatch` batches copy out. -/
theorem sampleBatches_perm {dummy : Block α} (M lenPerBatch numBatch : Nat)
    {entries : List (Block α)} (h : ∀ x ∈ entries, Entry dummy x)
    (hfit : ∀ b < numBatch,
      ((entries.drop (b * M)).take M).countP (fun x => !x.dummyFlag) ≤ lenPerBatch) :
    (∃ d, List.Perm (sampleBatches M lenPerBatch numBatch entries [] []).1
      ((entries.take (numBatch * M)).filter (fun x => !x.dummyFlag) ++ List.replicate d dummy)) ∧
    (sampleBatches M lenPerBatch numBatch entries [] []).1.length =
      ((List.range numBatch).map fun b => min (min M (entries.length - b * M))
        lenPerBatch).sum := by
  induction numBatch generalizing entries with
  | zero => exact ⟨⟨0, by simp [sampleBatches]⟩, by simp [sampleBatches]⟩
  | succ numBatch ih =>
    have hfirst := hfit 0 (Nat.succ_pos _)
    rw [Nat.zero_mul, List.drop_zero] at hfirst
    have hrest := @ih (entries.drop M) (fun x hx => h x (List.mem_of_mem_drop hx)) fun b hb => by
      have := hfit (b + 1) (Nat.succ_lt_succ hb)
      rwa [Nat.succ_mul, Nat.add_comm, ← List.drop_drop] at this
    obtain ⟨⟨d, hperm⟩, hlen⟩ := hrest
    have hbatch : (orCompact (fun x : Block α => !x.dummyFlag) (entries.take M)).length =
        min M entries.length := by
      rw [(orCompact_tight _ _).perm.length_eq, List.length_take]
    have hcount := List.countP_le_length (p := fun x : Block α => !x.dummyFlag)
      (l := entries.take M)
    rw [List.length_take] at hcount
    have htake := take_orCompact (min (min M entries.length) lenPerBatch)
      (fun x hx => h x (List.mem_of_mem_take hx)) (Nat.le_min.2 ⟨hcount, hfirst⟩)
      (by rw [List.length_take]; exact Nat.min_le_left _ _)
    rw [sampleBatches, sampleBatches_fst, List.nil_append, hbatch, htake]
    constructor
    · refine ⟨min (min M entries.length) lenPerBatch -
        (entries.take M).countP (fun x => !x.dummyFlag) + d, ?_⟩
      rw [Nat.succ_mul, Nat.add_comm (numBatch * M), List.take_add, List.filter_append,
        ← List.replicate_append_replicate, List.append_assoc, List.append_assoc]
      exact ((hperm.append_left _).trans (List.perm_append_comm_assoc _ _ _)).append_left _
    · rw [List.length_append, List.length_append, List.length_replicate,
        ← List.countP_eq_length_filter, hlen, List.range_succ_eq_map, List.map_cons, List.sum_cons,
        List.map_map, Nat.zero_mul, Nat.sub_zero, List.length_drop]
      have hsum : ∀ b, min (min M (entries.length - M - b * M)) lenPerBatch =
          ((fun b => min (min M (entries.length - b * M)) lenPerBatch) ∘ Nat.succ) b := fun b => by
        rw [Function.comp_apply, Nat.succ_mul, Nat.add_comm, Nat.sub_sub]
      rw [List.map_congr_left fun b _ => hsum b]
      have := Nat.le_min.2 ⟨hcount, hfirst⟩
      omega

section Entries

variable {P : SampleParams} {dummy : Block α} {rand64 : Nat → BitVec 64} {input : List α}

theorem length_sampleEntries (N expectedSampleSize : Nat) :
    (sampleEntries dummy N expectedSampleSize rand64 input).length = input.length := by
  simp [sampleEntries, sampleBlocks]

theorem dummyFlag_of_mem_sampleBlocks {x : Block α} (h : x ∈ sampleBlocks input) :
    x.dummyFlag = false := by
  obtain ⟨y, -, rfl⟩ := List.mem_map.1 h
  rfl

theorem entry_of_mem {N expectedSampleSize : Nat} {x : Block α}
    (h : x ∈ sampleEntries dummy N expectedSampleSize rand64 input) : Entry dummy x := by
  obtain ⟨y, hy, rfl⟩ := List.mem_map.1 h
  dsimp only
  split
  · exact .inl (dummyFlag_of_mem_sampleBlocks (List.fst_mem_of_mem_zipIdx hy))
  · exact .inr rfl

/-- Which of the entries are chosen elements. -/
theorem map_sampleEntries (hdummy : dummy.dummyFlag = true) (N expectedSampleSize : Nat) :
    (sampleEntries dummy N expectedSampleSize rand64 input).map (fun x => !x.dummyFlag) =
      (List.range input.length).map fun i => isChosen N expectedSampleSize (rand64 i) := by
  refine List.ext_getElem (by simp [length_sampleEntries]) fun i hi _ => ?_
  simp only [List.getElem_map, List.getElem_range, sampleEntries, List.getElem_zipIdx, Nat.zero_add]
  split
  · rename_i h
    rw [dummyFlag_of_mem_sampleBlocks (List.getElem_mem _), h]
    rfl
  · rename_i h
    rw [hdummy, Bool.eq_false_iff.2 h]
    rfl

theorem countP_sampleEntries (hdummy : dummy.dummyFlag = true) (P : SampleParams) (b : Nat) :
    (((sampleEntries dummy input.length P.expectedSampleSize rand64 input).drop (b * P.M)).take
      P.M).countP (fun x => !x.dummyFlag) = chosenIn P rand64 input.length b := by
  have hcount : ∀ {β : Type} (p : β → Bool) (l : List β), l.countP p = (l.map p).countP id :=
    fun p l => by rw [List.countP_map]; rfl
  rw [chosenIn, hcount (fun x : Block α => !x.dummyFlag), List.map_take, List.map_drop,
    map_sampleEntries hdummy, ← List.map_drop, ← List.map_take, ← hcount]

theorem filter_sampleEntries (hdummy : dummy.dummyFlag = true) :
    (sampleEntries dummy input.length P.expectedSampleSize rand64 input).filter
      (fun x => !x.dummyFlag) = chosenBlocks P rand64 input := by
  rw [sampleEntries, List.filter_map, chosenBlocks]
  have hfilter : ∀ x ∈ (sampleBlocks input).zipIdx, ((fun x : Block α => !x.dummyFlag) ∘
      fun x : Block α × Nat => if isChosen input.length P.expectedSampleSize (rand64 x.2) then x.1
        else dummy) x = isChosen input.length P.expectedSampleSize (rand64 x.2) := by
    intro x hx
    rw [Function.comp_apply]
    split
    · rename_i h
      rw [dummyFlag_of_mem_sampleBlocks (List.fst_mem_of_mem_zipIdx hx), h]
      rfl
    · rename_i h
      rw [hdummy, Bool.eq_false_iff.2 h]
      rfl
  rw [List.filter_congr hfilter]
  refine List.map_congr_left fun x hx => ?_
  exact if_pos (List.mem_filter.1 hx).2

theorem length_chosenBlocks (P : SampleParams) (rand64 : Nat → BitVec 64) (input : List α) :
    (chosenBlocks P rand64 input).length = (List.range input.length).countP fun i =>
      isChosen input.length P.expectedSampleSize (rand64 i) := by
  have hrange : (sampleBlocks input).zipIdx.map Prod.snd = List.range input.length := by
    rw [List.zipIdx_map_snd, List.range_eq_range', sampleBlocks, List.length_map,
      List.length_zipIdx]
  rw [chosenBlocks, List.length_map, ← List.countP_eq_length_filter, ← hrange, List.countP_map]
  rfl

/-- **What is copied out**: the chosen elements, and dummies in the slots that are left. -/
theorem gamma_perm (hdummy : dummy.dummyFlag = true) (hM : 0 < P.M)
    (hfit : ∀ b < divRoundUp input.length P.M, chosenIn P rand64 input.length b ≤ P.lenPerBatch) :
    (gamma P dummy rand64 input).length = copiedOut P input.length ∧
    List.Perm (gamma P dummy rand64 input) (chosenBlocks P rand64 input ++ List.replicate
      (copiedOut P input.length - (chosenBlocks P rand64 input).length) dummy) := by
  have hcover : input.length ≤ divRoundUp input.length P.M * P.M := by
    rw [Nat.mul_comm]
    exact (divRoundUp_le_iff hM).1 (Nat.le_refl _)
  obtain ⟨⟨d, hperm⟩, hlen⟩ := sampleBatches_perm P.M P.lenPerBatch
    (divRoundUp input.length P.M) (fun x hx => entry_of_mem hx)
    fun b hb => Nat.le_trans (countP_sampleEntries hdummy P b).le (hfit b hb)
  rw [length_sampleEntries] at hlen
  refine ⟨hlen, ?_⟩
  rw [List.take_of_length_le (by rw [length_sampleEntries]; exact hcover),
    filter_sampleEntries hdummy] at hperm
  have hd : d = copiedOut P input.length - (chosenBlocks P rand64 input).length := by
    have := hperm.length_eq
    rw [hlen, List.length_append, List.length_replicate] at this
    rw [copiedOut]
    omega
  rw [← hd]
  exact hperm

end Entries

/-! ## Quantiles -/

theorem rank_lt {n k p : Nat} (hn : 1 ≤ n) (hk : k < p) : n * k / p < n :=
  Nat.div_lt_of_lt_mul (by rw [Nat.mul_comm p]; exact Nat.mul_lt_mul_of_pos_left hk hn)

/-- The elements of `Gamma` with the draws for their tags. -/
def tagged (tags : Nat → BitVec 64) (Gamma : List (Block α)) : List (BitVec 64 × Block α) :=
  Gamma.zipIdx.map fun x => (tags x.2, x.1)

theorem map_snd_tagged (tags : Nat → BitVec 64) (Gamma : List (Block α)) :
    (tagged tags Gamma).map Prod.snd = Gamma := by
  rw [tagged, List.map_map]
  exact List.zipIdx_map_fst 0 Gamma

theorem length_tagged (tags : Nat → BitVec 64) (Gamma : List (Block α)) :
    (tagged tags Gamma).length = Gamma.length := by
  rw [← List.length_map (f := Prod.snd), map_snd_tagged]

/-- The sort of the sample is given valid parameters and memory of the size of a bucket. -/
structure Prepared (params : KWayButterflyParams) (batch vec : Nat → List (TaggedT (Block α)))
    (input : List (BitVec 64 × Block α)) : Prop where
  valid : params.Valid input.length
  batch_sized : ∀ p, (batch p).length = params.Z
  vec_sized : ∀ p, (vec p).length = params.Z

/-- No `MergeSplitKWay` of the sort of the sample aborts. -/
def NoMergeSplitAbort (A : Platform (Block α)) (params : KWayButterflyParams) (heapSize : Nat)
    (batch vec : Nat → List (TaggedT (Block α))) (input : List (BitVec 64 × Block α)) : Prop :=
  ∀ e, (A.sorter params heapSize input.length).sort (EM.DynamicPageVector.Vector.plain _) A.stdSort
    (.start input batch vec) = .error e → e.1 ≠ .mergeSplit

/-- The sort of the sample hands `partitionDummy` a dummy and a real element in every group. -/
def GroupsMixed (A : Platform (Block α)) (params : KWayButterflyParams) (heapSize : Nat)
    (batch vec : Nat → List (TaggedT (Block α))) (input : List (BitVec 64 × Block α)) : Prop :=
  ∀ s, (A.sorter params heapSize input.length).sort (EM.DynamicPageVector.Vector.plain _) A.stdSort
    (.start input batch vec) = .ok s → ∀ group ∈ s.handed, ButterflySorter.Mixed group

/-- The sort of the sample comes to its end. -/
def SortEnds (A : Platform (Block α)) (params : KWayButterflyParams) (heapSize : Nat)
    (batch vec : Nat → List (TaggedT (Block α))) (input : List (BitVec 64 × Block α)) : Prop :=
  input.length ≤ 512 ∨ ((A.sorter params heapSize input.length).HoldsBatches ∧
    NoMergeSplitAbort A params heapSize batch vec input ∧
    GroupsMixed A params heapSize batch vec input ∧
    (params.ways.length = 1 ∨
      A.groups params heapSize input.length ≤ A.maxWay heapSize input.length))

theorem Prepared.admissible {A : Platform (Block α)} {params : KWayButterflyParams}
    {batch vec : Nat → List (TaggedT (Block α))} {heapSize : Nat}
    {input : List (BitVec 64 × Block α)} (h : Prepared params batch vec input)
    (hno : NoMergeSplitAbort A params heapSize batch vec input)
    (hmixed : GroupsMixed A params heapSize batch vec input) :
    Admissible A params heapSize batch vec input :=
  ⟨h.valid, h.batch_sized, h.vec_sized, hno, hmixed⟩

/-- The sample is sorted in memory, in front of what is left there, or by the sort given. -/
theorem sampleForPivots_eq [SortKey α] (P : SampleParams) (dummy : Block α) (Mem : List (Block α))
    (gammaSort : List (Block α) → Option (List (Block α))) (rand64 : Nat → BitVec 64)
    (input : List α) (p : Nat) :
    ∃ rest, sampleForPivots P dummy Mem gammaSort rand64 input p =
      if (gamma P dummy rand64 input).length < P.M then
        getPQuantile (bitonicSortList Block.lt (gamma P dummy rand64 input) ++ rest)
          (chosenBlocks P rand64 input).length p
      else (gammaSort (gamma P dummy rand64 input)).bind fun sorted =>
        getPQuantile sorted (chosenBlocks P rand64 input).length p := by
  have hgamma : (sampleBatches P.M P.lenPerBatch (divRoundUp input.length P.M)
      (sampleEntries dummy input.length P.expectedSampleSize rand64 input) [] Mem).1 =
        gamma P dummy rand64 input := by
    rw [sampleBatches_fst, List.nil_append, gamma]
  rw [sampleForPivots]
  dsimp only
  rw [hgamma, ← length_chosenBlocks]
  exact ⟨_, rfl⟩

section Sorted

variable [SortKey α] [IsStrictWeakOrder α SortKey.Lt] (heq : SortKey.EqIsIncomp α)

include heq

variable {A : Platform (Block α)} {IsHeap : List (HeapEntry (Block α)) → Prop}
  (hA : A.Correct IsHeap) {params : KWayButterflyParams} {M : Nat}
  {batch vec : Nat → List (TaggedT (Block α))} {tags : Nat → BitVec 64} {Gamma : List (Block α)}

section SortGamma

variable (h : 512 < Gamma.length → Prepared params batch vec (tagged tags Gamma))

include hA h

theorem sortGamma_sorts
    (hends : SortEnds A params (M * A.sizeofT) batch vec (tagged tags Gamma)) :
    ∃ sorted, sortGamma A params M batch vec tags Gamma = some sorted ∧
      List.Perm sorted Gamma ∧ sorted.Pairwise Block.Le := by
  have horder : IsStrictWeakOrder (Block α) SortKey.Lt := Block.strictWeakOrder heq
  suffices hsort : ∃ out, KWayButterflySort A (EM.DynamicPageVector.Vector.plain _) params
      (M * A.sizeofT) batch vec (tagged tags Gamma) = .ok out ∧
        SortedPerm ((tagged tags Gamma).map Prod.snd) out by
    obtain ⟨out, hout, hperm, hs⟩ := hsort
    rw [map_snd_tagged] at hperm
    refine ⟨out, ?_, hperm, hs⟩
    rw [sortGamma]
    exact congrArg Except.toOption hout
  rw [← length_tagged tags Gamma] at h
  by_cases hN : (tagged tags Gamma).length ≤ 512
  · refine ⟨_, if_pos hN, bitonicSortList_perm _ _, ?_⟩
    refine bitonicSortList_sorted SortKey.decides ?_
    rw [List.length_map]
    omega
  · have hlarge : 512 < (tagged tags Gamma).length := Nat.lt_of_not_le hN
    obtain hsmall | ⟨hholds, hno, hmixed, hmerge⟩ := hends
    · exact absurd hsmall hN
    have hadm := (h hlarge).admissible hno hmixed
    by_cases hways : params.ways.length = 1
    · exact KWayButterflySort_singleBatch hA hlarge hadm hholds hways
    · exact KWayButterflySort_onePass hA hlarge hadm hholds hways (hmerge.resolve_left hways)

omit [IsStrictWeakOrder α SortKey.Lt] heq in
theorem sortGamma_fails
    (hmixed : GroupsMixed A params (M * A.sizeofT) batch vec (tagged tags Gamma))
    (hends : ¬ SortEnds A params (M * A.sizeofT) batch vec (tagged tags Gamma)) :
    sortGamma A params M batch vec tags Gamma = none := by
  obtain ⟨hlarge, hmerge⟩ := not_or.1 hends
  rw [Nat.not_le] at hlarge
  have hprepared := h (by rwa [length_tagged] at hlarge)
  suffices hfails : ∀ out, KWayButterflySort A (EM.DynamicPageVector.Vector.plain _) params
      (M * A.sizeofT) batch vec (tagged tags Gamma) ≠ .ok out by
    change (KWayButterflySort A _ params _ batch vec (tagged tags Gamma)).toOption = none
    cases hout : KWayButterflySort A (EM.DynamicPageVector.Vector.plain _) params
      (M * A.sizeofT) batch vec (tagged tags Gamma) with
    | error e => rfl
    | ok out => exact absurd hout (hfails out)
  intro out hout
  have hholds := holdsBatches_of_ok hlarge hprepared.valid hout
  by_cases hno : NoMergeSplitAbort A params (M * A.sizeofT) batch vec (tagged tags Gamma)
  · obtain ⟨hways, hgroups⟩ := not_or.1 fun hcond => hmerge ⟨hholds, hno, hmixed, hcond⟩
    have hadm := hprepared.admissible hno hmixed
    exact KWayButterflySort_multiPass hA hlarge hadm hholds hways
      (Nat.lt_of_not_le hgroups) out hout
  · apply hno
    intro e he
    rw [KWayButterflySort] at hout
    dsimp only at hout
    rw [if_neg (Nat.not_le.2 hlarge), he] at hout
    cases hout

/-- What the sort of the sample returns is the sample in order. -/
theorem sortGamma_sorted
    (hmixed : GroupsMixed A params (M * A.sizeofT) batch vec (tagged tags Gamma))
    {sorted : List (Block α)} (hsort : sortGamma A params M batch vec tags Gamma = some sorted) :
    List.Perm sorted Gamma ∧ sorted.Pairwise Block.Le := by
  by_cases hends : SortEnds A params (M * A.sizeofT) batch vec (tagged tags Gamma)
  · obtain ⟨out, hout, hperm, hs⟩ := sortGamma_sorts heq hA h hends
    cases Option.some.inj (hsort.symm.trans hout)
    exact ⟨hperm, hs⟩
  · rw [sortGamma_fails hA h hmixed hends] at hsort
    cases hsort

end SortGamma

variable {P : SampleParams} {dummy : Block α} {rand64 : Nat → BitVec 64} {input : List α}

end Sorted

/-! ## Keys of the dummy -/

/-- `SortElement::DUMMY()` as a block. -/
def dummyElement : Block SortElement := ⟨⟨BitVec.allOnes 64, []⟩, 0, true, false⟩

def elements (keys : List (BitVec 64)) : List SortElement := keys.map fun key => ⟨key, []⟩

end EM.Algorithm
