import OblSort.Algorithm.ButterflyVector
import OblSort.Algorithm.Proof.ButterflySort
import OblSort.Algorithm.Proof.MergeVector
import OblSort.Algorithm.Proof.OrShuffle

/-!
# The butterfly sort and shuffle of a vector, end to end

A vector that was last written with `inAuth` is read with that counter, and what a task writes is
stored with the counter after it (`overwrite_ends`). The sort leaves the elements in order
(`butterflySortVec_sorts`), the shuffle a permutation of them, which is in the order of the keys of
the tags when a sorter did it (`butterflyShuffleVec_permutes`); both stop at a merge-split only.
-/

namespace EM.Algorithm.ButterflyVector

open NonCachedVector Paged Loop Store ButterflySorter MergeVector

variable {n m : Nat} [NeZero n] [NeZero m] {α : Type}

/-- The heap functions keep their invariant, and `std::sort` sorts. -/
structure Surroundings.Correct [SortKey α] (A : Surroundings n m α)
    (IsListHeap : List (HeapEntry α) → Prop) (IsHeap : List (Entry n α) → Prop) : Prop where
  platform : A.platform.Correct IsListHeap
  heap : A.heap.Correct MergeVector.cmpMerge IsHeap

/-! ## Reading and writing the vector -/

section Overwrite

variable {A : Surroundings n m α} {v : NonCachedVector.Vector m α} {data : List α}

/-- A writer of the vector writes a list of its size. -/
theorem writeAll_stores {out : List α} (hlen : out.length = v.N) (cache page : Page m α)
    (endPtr c : Nat) :
    ∃ o, writeAll out ⟨⟨cache, 0, endPtr, 0 % m, c⟩, v, page⟩ = .ok o ∧ Stores o.vec c out := by
  obtain ⟨o, hflush, ho⟩ := flush_writeMany hlen cache page endPtr c
  refine ⟨o, ?_, ho⟩
  unfold writeAll
  change Except.mapError _ (Output.writeMany out _).flush = _
  rw [hflush]
  rfl

omit [NeZero n] in
/-- **The frame of a task**: if it writes the elements of its input, in some arrangement, then so is
the vector afterwards, under the next counter. -/
theorem overwrite_ends {task : List α → Output m α → Except SortAbort (Output m α)} {inAuth : Nat}
    {E : SortAbort → Prop} {Q : List α → Prop} (hv : Stores v inAuth data)
    (htask : Ends (fun o => ∃ out, Q out ∧ Stores o.vec ((inAuth + 1) % 2 ^ 32) out) E
      (task data ⟨⟨A.writerCache, 0, v.N, 0 % m, (inAuth + 1) % 2 ^ 32⟩, v, A.originalPage⟩)) :
    Ends (fun v' => ∃ out, Q out ∧ Stores v' ((inAuth + 1) % 2 ^ 32) out) E
      (A.overwrite task inAuth v) := by
  obtain ⟨r, hread⟩ := hv.readMany_all A.readerCache
  unfold Surroundings.overwrite
  rw [hread, orAbort, Option.elim_some, ok_bind]
  dsimp only
  rw [init_all, orAbort, Option.elim_some, ok_bind]
  exact htask.bind fun o ho => ho

omit [NeZero n] [NeZero m] in
theorem length_withDraws (xs : List α) : (A.withDraws xs).length = xs.length := by
  rw [Surroundings.withDraws, List.length_map, List.length_zipIdx]

omit [NeZero n] [NeZero m] in
/-- The draws leave the elements as they are. -/
theorem map_withDraws (xs : List α) : (A.withDraws xs).map Prod.snd = xs := by
  rw [Surroundings.withDraws, List.map_map]
  exact List.zipIdx_map_fst 0 xs

end Overwrite

/-! ## The sort -/

section SortTask

variable [SortKey α] {A : Surroundings n m α} {params : KWayButterflyParams} {heapSize : Nat}
  {batch vec : Nat → List (TaggedT α)}

/-- What a sort of more than 512 elements relies on: valid parameters, a buffer that holds a batch
of every layer, memory of the size of a bucket, a dummy and a real element in every group handed to
`partitionDummy`, and a merge in one pass. -/
structure Surroundings.Sorts (A : Surroundings n m α) (params : KWayButterflyParams)
    (heapSize : Nat) (batch vec : Nat → List (TaggedT α)) (data : List α) : Prop where
  valid : params.Valid data.length
  holds : (A.platform.sorter params heapSize data.length).HoldsBatches
  batch_sized : ∀ p, (batch p).length = params.Z
  vec_sized : ∀ p, (vec p).length = params.Z
  mixed : ∀ s, (A.platform.sorter params heapSize data.length).sort
    (EM.DynamicPageVector.Vector.plain _) A.platform.stdSort
      (.start (A.withDraws data) batch vec) = .ok s →
      ∀ group ∈ s.handed, Mixed group
  onePass : params.ways.length = 1 ∨
    A.platform.groups params heapSize data.length ≤ A.maxWay heapSize data.length

variable {IsListHeap : List (HeapEntry α) → Prop} {IsHeap : List (Entry n α) → Prop}
  (hA : A.Correct IsListHeap IsHeap)

include hA

omit [NeZero n] [NeZero m] in
/-- The sorter of more than 512 elements stops at a merge-split, or it has written them in groups,
each of them in order. -/
theorem sorter_groups {data : List α} (hN : 512 < data.length)
    (h : A.Sorts params heapSize batch vec data) :
    Ends (fun s : PState α => ∃ gs : List (List α), s.written = gs.flatten ∧
      List.Perm gs.flatten data ∧
        (∀ g ∈ gs, g ≠ [] ∧ g.Pairwise SortKey.Le) ∧
        gs.length = A.platform.groups params heapSize data.length ∧
        s.mergeSortRanges = if params.ways.length = 1 then [] else segments 0 gs)
      (fun e => e.1 = .mergeSplit)
      ((A.platform.sorter params heapSize data.length).sort (EM.DynamicPageVector.Vector.plain _)
        A.platform.stdSort (.start (A.withDraws data) batch vec)) := by
  have hlen := length_withDraws (A := A) data
  have hvalid : params.Valid (A.withDraws data).length := by
    rw [hlen]
    exact h.valid
  have hholds : (A.platform.sorter params heapSize (A.withDraws data).length).HoldsBatches := by
    rw [hlen]
    exact h.holds
  have hruns := sorter_runs hA.platform (by omega) hvalid h.batch_sized h.vec_sized hholds
  rw [hlen] at hruns
  cases hrun : (A.platform.sorter params heapSize data.length).sort
      (EM.DynamicPageVector.Vector.plain _) A.platform.stdSort
      (.start (A.withDraws data) batch vec) with
  | error e =>
    rw [hrun] at hruns
    exact hruns
  | ok s =>
    have hmixed := h.mixed s hrun
    rw [hrun] at hruns
    obtain ⟨hcount, hdata, hwritten, hranges⟩ := hruns
    rw [map_withDraws] at hdata
    refine ⟨s.handed.map (groupOutput A.platform.stdSort), hwritten, ?_, ?_, ?_, ?_⟩
    · refine List.Perm.trans ?_ hdata
      rw [← List.flatMap_def, ← List.flatMap_def]
      exact List.Perm.flatMap_left _ fun group hg =>
        (groupOutput_mixed hA.platform.perm (hmixed group hg)).1
    · intro g hg
      obtain ⟨group, hgroup, rfl⟩ := List.mem_map.1 hg
      exact ⟨(groupOutput_mixed hA.platform.perm (hmixed group hgroup)).2.1,
        groupOutput_sorted hA.platform (hmixed group hgroup)⟩
    · rw [List.length_map]
      exact hcount
    · rw [hranges]
      simp only [beq_iff_eq]

variable [IsStrictWeakOrder α SortKey.Lt]

/-- The task of the sort writes its input in order. -/
theorem KWayButterflySort_ends {v : NonCachedVector.Vector m α} {data : List α}
    (hsize : data.length = v.N)
    (h : 512 < data.length → A.Sorts params heapSize batch vec data) (c : Nat) :
    Ends (fun o => ∃ out, SortedPerm data out ∧ Stores o.vec c out)
      (fun e => 512 < data.length ∧ e = .sorter .mergeSplit)
      (A.KWayButterflySort (EM.DynamicPageVector.Vector.plain _) params heapSize batch vec data
        ⟨⟨A.writerCache, 0, v.N, 0 % m, c⟩, v, A.originalPage⟩) := by
  unfold Surroundings.KWayButterflySort
  dsimp only
  by_cases hN : data.length ≤ 512
  · have hperm := bitonicSortList_perm SortKey.lt data
    obtain ⟨o, hwrite, ho⟩ := writeAll_stores (hperm.length_eq.trans hsize) A.writerCache
      A.originalPage v.N c
    rw [if_pos hN, hwrite]
    exact ⟨_, ⟨hperm, bitonicSortList_sorted SortKey.decides (by omega)⟩, ho⟩
  have hlarge : 512 < data.length := Nat.lt_of_not_le hN
  have hsorts := h hlarge
  have hgroups := sorter_groups hA hlarge hsorts
  rw [if_neg hN]
  cases hrun : (A.platform.sorter params heapSize data.length).sort
      (EM.DynamicPageVector.Vector.plain _) A.platform.stdSort
      (.start (A.withDraws data) batch vec) with
  | error e =>
    rw [hrun] at hgroups
    exact ⟨hlarge, congrArg SortAbort.sorter hgroups⟩
  | ok s =>
    rw [hrun] at hgroups
    obtain ⟨gs, hwritten, hperm, hgs, hcount, hranges⟩ := hgroups
    have hlen : s.written.length = v.N := by rw [hwritten, hperm.length_eq, hsize]
    dsimp only
    by_cases hone : params.ways.length = 1
    · rw [groups_singleBatch (by omega) hsorts.valid hsorts.holds hone] at hcount
      obtain ⟨g, rfl⟩ := List.length_eq_one_iff.1 hcount
      obtain ⟨o, hwrite, ho⟩ := writeAll_stores hlen A.writerCache A.originalPage v.N c
      rw [if_pos hone, hwrite]
      rw [List.flatten_singleton] at hwritten hperm
      exact ⟨s.written, ⟨hwritten ▸ hperm, hwritten ▸ (hgs g List.mem_cons_self).2⟩, ho⟩
    · rw [if_neg hone] at hranges
      obtain ⟨first, hfirst, hstores⟩ := writeAll_stores
        (v := newVector A.uninit.nounce A.uninit.vecPage data.length) (hlen.trans hsize.symm)
        A.uninit.writerCache A.uninit.originalPage data.length 0
      have hmem : MergeVector.Holds [first.vec] 0 gs.flatten := ⟨first.vec, rfl, hwritten ▸ hstores⟩
      obtain ⟨out, hmerge, hout, hsorted⟩ := MergeVector.mergeReaders_spec hA.heap A.uninit
        (⟨⟨A.writerCache, 0, v.N, 0 % m, c⟩, v, A.originalPage⟩ : Output m α) hmem
        (fun g hg => (hgs g hg).1) fun g hg => (hgs g hg).2
      obtain ⟨o, hflush, ho⟩ :=
        flush_writeMany ((hout.trans hperm).length_eq.trans hsize) A.writerCache
        A.originalPage v.N c
      have hcount' : (rangesAt 0 (segments 0 gs)).length = gs.length := by
        rw [rangesAt, List.length_map, length_segments]
      rw [if_neg hone, init_all, orAbort, Option.elim_some, ok_bind]
      rw [hfirst, ok_bind, hranges]
      change Ends _ _ ((MergeVector.ExtMergeSort _ _ _ _ _ _ _
        (rangesAt 0 (segments 0 gs))).mapError _)
      have hfew := hsorts.onePass.resolve_left hone
      rw [MergeVector.ExtMergeSort_onePass (by rw [hcount', hcount]; exact hfew), hcount',
        hmerge, hflush]
      exact ⟨out, ⟨hout.trans hperm, hsorted⟩, ho⟩

/-- **The butterfly sort of a vector** leaves its elements in order, written with the counter after
`inAuth`; with more than 512 elements it may stop at a merge-split. -/
theorem butterflySortVec_sorts {v : NonCachedVector.Vector m α} {data : List α} {inAuth : Nat}
    (hv : Stores v inAuth data) (h : 512 < data.length → A.Sorts params heapSize batch vec data) :
    Ends (fun v' => ∃ out, SortedPerm data out ∧ Stores v' ((inAuth + 1) % 2 ^ 32) out)
      (fun e => 512 < data.length ∧ e = .sorter .mergeSplit)
      (A.sortVec (EM.DynamicPageVector.Vector.plain _) params heapSize batch vec inAuth v) :=
  overwrite_ends hv (KWayButterflySort_ends hA hv.size h _)

end SortTask

/-! ## The shuffle -/

section ShuffleTask

variable {A : Surroundings n m α} {params : KWayButterflyParams} {heapSize : Nat}
  {batch vec : Nat → List (TaggedT α)}

/-- What a shuffle of more than 512 elements relies on: valid parameters with lanes that hold their
counts, a buffer that holds a batch of every layer, memory of the size of a bucket, and draws that
give no tag twice. -/
structure Surroundings.Shuffles (A : Surroundings n m α) (params : KWayButterflyParams)
    (heapSize : Nat) (batch vec : Nat → List (TaggedT α)) (data : List α) : Prop where
  valid : params.Valid data.length
  lanes : params.LanesFit
  holds : (A.shuffler params heapSize data.length).HoldsBatches
  batch_sized : ∀ p, (batch p).length = params.Z
  vec_sized : ∀ p, (vec p).length = params.Z
  tags : ((A.withDraws data).map tagOf).Nodup

/-- The elements in the order of the keys of their tags. -/
def Surroundings.InTagOrder (A : Surroundings n m α) (params : KWayButterflyParams)
    (data out : List α) : Prop :=
  ∃ ordered : List (Nat × α), List.Perm ordered ((A.withDraws data).map pair) ∧
    (ordered.Pairwise fun p q => KeyLt params.totalBucket
      (params.totalBucket / (params.ways.getLastD []).prod) p.1 q.1) ∧
    out = ordered.map Prod.snd

omit [NeZero n] [NeZero m] in
theorem Surroundings.InTagOrder.perm {data out : List α} (h : A.InTagOrder params data out) :
    List.Perm out data := by
  obtain ⟨ordered, hperm, -, rfl⟩ := h
  have hmap := hperm.map Prod.snd
  rw [List.map_map] at hmap
  exact hmap.trans (List.Perm.of_eq (map_withDraws data))

omit [NeZero n] [NeZero m] in
/-- The sorter of more than 512 elements writes them in the order of the keys, or some class of tags
has too many of them. -/
theorem shuffler_ends {data : List α} (hN : 512 < data.length)
    (h : A.Shuffles params heapSize batch vec data) :
    Ends (fun s : PState α => A.InTagOrder params data s.written)
      (fun e => e.1 = .mergeSplit ∧ Overfull params.Z ((A.withDraws data).map tagged))
      ((A.shuffler params heapSize data.length).sort (EM.DynamicPageVector.Vector.plain _)
        A.platform.stdSort (.start (A.withDraws data) batch vec)) := by
  have hlen : (A.withDraws data).length = data.length := length_withDraws data
  have hne : A.withDraws data ≠ [] := List.length_pos_iff.1 (by omega)
  have hv : params.Valid (A.withDraws data).length := by
    rw [hlen]
    exact h.valid
  have hsorter : A.shuffler params heapSize data.length = .new .kWayButterflyOShuffle
      (params.ways.length == 1) params (A.platform.usedHeapSize heapSize data.length)
      A.platform.sizeofWrappedT (A.withDraws data).length := by
    rw [hlen]
    rfl
  have hholds := h.holds
  rw [hsorter] at hholds ⊢
  have hends := sort_shuffle_ends hv h.lanes hne _ _ _ A.platform.stdSort h.batch_sized h.vec_sized
    hholds
  generalize (params.ways.length == 1) = singleBatch at *
  generalize A.platform.usedHeapSize heapSize data.length = used at *
  cases hrun : (ButterflySorter.new .kWayButterflyOShuffle singleBatch params used
    A.platform.sizeofWrappedT
      (A.withDraws data).length).sort (EM.DynamicPageVector.Vector.plain _) A.platform.stdSort
      (.start (A.withDraws data) batch vec) with
  | error e =>
    rw [hrun] at hends
    exact hends
  | ok s =>
    obtain ⟨ordered, hperm, hkeys, hwritten⟩ :=
      sort_shuffle_arranged hv h.lanes hne _ _ _ _ h.batch_sized h.vec_sized hrun h.tags
    refine ⟨ordered, hperm, ?_, hwritten⟩
    rw [List.getLastD_eq_getLast?, List.getLast?_eq_some_getLast hv.ways_ne_nil, Option.getD_some]
    exact hkeys

omit [NeZero n] in
/-- The task of the shuffle. -/
theorem KWayButterflyOShuffle_ends {v : NonCachedVector.Vector m α} {data : List α}
    (hsize : data.length = v.N)
    (h : 512 < data.length → A.Shuffles params heapSize batch vec data) (c : Nat) :
    Ends (fun o => ∃ out, (List.Perm out data ∧
      (512 < data.length → A.InTagOrder params data out)) ∧
        Stores o.vec c out)
      (fun e => 512 < data.length ∧ e = .sorter .mergeSplit ∧
        Overfull params.Z ((A.withDraws data).map tagged))
      (A.KWayButterflyOShuffle (EM.DynamicPageVector.Vector.plain _) params heapSize batch vec data
        ⟨⟨A.writerCache, 0, v.N, 0 % m, c⟩, v, A.originalPage⟩) := by
  unfold Surroundings.KWayButterflyOShuffle
  dsimp only
  by_cases hN : data.length ≤ 512
  · have hperm : List.Perm (orShuffle (A.tape data.length) data) data :=
      orShuffle_perm (by omega) (A.tape data.length) rfl
    obtain ⟨o, hwrite, ho⟩ := writeAll_stores (hperm.length_eq.trans hsize) A.writerCache
      A.originalPage v.N c
    rw [if_pos hN, hwrite]
    exact ⟨_, ⟨hperm, fun hlarge => absurd hN (Nat.not_le_of_lt hlarge)⟩, ho⟩
  have hlarge : 512 < data.length := Nat.lt_of_not_le hN
  have hends := shuffler_ends hlarge (h hlarge)
  rw [if_neg hN]
  cases hrun : (A.shuffler params heapSize data.length).sort (EM.DynamicPageVector.Vector.plain _)
      A.platform.stdSort (.start (A.withDraws data) batch vec) with
  | error e =>
    rw [hrun] at hends
    exact ⟨hlarge, congrArg SortAbort.sorter hends.1, hends.2⟩
  | ok s =>
    rw [hrun] at hends
    have horder : A.InTagOrder params data s.written := hends
    obtain ⟨o, hwrite, ho⟩ := writeAll_stores (horder.perm.length_eq.trans hsize) A.writerCache
      A.originalPage v.N c
    dsimp only
    rw [hwrite]
    exact ⟨s.written, ⟨horder.perm, fun _ => horder⟩, ho⟩

omit [NeZero n] in
/-- **The butterfly shuffle of a vector** leaves a permutation of its elements, written with the
counter after `inAuth`; more than 512 elements come in the order of the keys of their tags, or the
shuffle stops at a merge-split, as some class of tags has `Z` elements or more. -/
theorem butterflyShuffleVec_permutes {v : NonCachedVector.Vector m α} {data : List α} {inAuth : Nat}
    (hv : Stores v inAuth data)
    (h : 512 < data.length → A.Shuffles params heapSize batch vec data) :
    Ends (fun v' => ∃ out, (List.Perm out data ∧
      (512 < data.length → A.InTagOrder params data out)) ∧
        Stores v' ((inAuth + 1) % 2 ^ 32) out)
      (fun e => 512 < data.length ∧ e = .sorter .mergeSplit ∧
        Overfull params.Z ((A.withDraws data).map tagged))
      (A.shuffleVec (EM.DynamicPageVector.Vector.plain _) params heapSize batch vec inAuth v) :=
  overwrite_ends hv (KWayButterflyOShuffle_ends hv.size h _)

end ShuffleTask

/-! ## 513 elements in two layers -/

/-- Draws of 0. -/
def zeroDraws : (n : Nat) → Draws n
  | 0 => ()
  | n + 1 => (0, zeroDraws n)

theorem none_small : 0 ≤ 1 := Nat.zero_le 1

theorem one_small : 1 ≤ 1 := Nat.le_refl 1

theorem three_le (n : Nat) : 3 ≤ n + 3 := Nat.le_add_left 3 n

theorem half_lt (n : Nat) : (n + 3) / 2 < n + 3 := Nat.div_lt_self (Nat.succ_pos _) (by decide)

theorem sub_half_lt (n : Nat) : n + 3 - (n + 3) / 2 < n + 3 := by omega

/-- The tape of draws of 0. -/
def zeroTape : (n : Nat) → Tape n
  | 0 => .small none_small
  | 1 => .small one_small
  | 2 => .bit false
  | n + 3 => .node (three_le n) (zeroDraws (n + 3)) (zeroTape ((n + 3) / 2))
      (zeroTape (n + 3 - (n + 3) / 2))
  decreasing_by
  · exact half_lt n
  · exact sub_half_lt n

/-- Tags that count up, pages of 1024 elements in the first layer of the merge and of two in the
vector. -/
def countingVector : Surroundings 1024 2 SortElement where
  platform := keyPlatform
  heap := MergeVector.Surroundings.sortedHeap
  rand64 := BitVec.ofNat 64
  tape := zeroTape
  uninit := ⟨fun _ => ⟨0, []⟩, fun _ => ⟨0, []⟩, fun _ => ⟨0, []⟩, fun _ => ⟨0, []⟩, ⟨0, 0⟩⟩
  readerCache _ := ⟨0, []⟩
  writerCache _ := ⟨0, []⟩
  originalPage _ := ⟨0, []⟩

theorem countingVector_correct :
    countingVector.Correct (fun h => h.Pairwise fun a b => cmpMerge a b = false)
      fun h => h.Pairwise fun a b => SortKey.Le a.2 b.2 :=
  ⟨keyPlatform_correct, MergeVector.Surroundings.sortedHeap_correct⟩

/-- The keys from 0 up to `n`. -/
def countedKeys (n : Nat) : List SortElement := (counting n).map Prod.snd

theorem length_countedKeys (n : Nat) : (countedKeys n).length = n := by
  rw [countedKeys, List.length_map, length_counting]

theorem withDraws_countedKeys (n : Nat) : countingVector.withDraws (countedKeys n) =
    counting n := by
  unfold Surroundings.withDraws countedKeys counting
  rw [List.map_map]
  refine List.ext_getElem (by simp) fun i h₁ h₂ => ?_
  simp [countingVector]

theorem countedKeys_stored (n c : Nat) : ∃ v : NonCachedVector.Vector 2 SortElement,
    Stores v c (countedKeys n) := by
  obtain ⟨v, -, hv⟩ := copyOut_all (v := newVector ⟨0, 0⟩ (fun _ => ⟨0, []⟩ : Page 2 SortElement) n)
    (length_countedKeys n) c
  exact ⟨v, hv⟩

theorem countingVector_sorts :
    countingVector.Sorts twoLayers 131072 zeroBuckets zeroBuckets (countedKeys 513) := by
  have h := twoLayers_admissible
  have hlen : (countedKeys 513).length = (counting 513).length := by
    rw [length_counting, length_countedKeys]
  refine ⟨?_, ?_, h.batch_sized, h.vec_sized, ?_, .inr ?_⟩
  · rw [hlen]
    exact h.valid
  · rw [length_countedKeys]
    exact twoLayers_holdsBatches
  · rw [withDraws_countedKeys, hlen]
    exact h.mixed
  · rw [length_countedKeys]
    decide

/-- Two groups are merged. -/
theorem butterflySortVec_sorts_513 : ∃ v, Stores v 5 (countedKeys 513) ∧
    Ends (fun v' => ∃ out, SortedPerm (countedKeys 513) out ∧ Stores v' 6 out)
      (fun e => 512 < (countedKeys 513).length ∧ e = .sorter .mergeSplit)
      (countingVector.sortVec (EM.DynamicPageVector.Vector.plain _) twoLayers 131072
        zeroBuckets zeroBuckets 5 v) := by
  obtain ⟨v, hv⟩ := countedKeys_stored 513 5
  exact ⟨v, hv, butterflySortVec_sorts countingVector_correct hv fun _ => countingVector_sorts⟩

theorem countingVector_shuffles :
    countingVector.Shuffles twoLayers 131072 zeroBuckets zeroBuckets (countedKeys 513) := by
  have htags := realTag_counting (n := 513) (by decide)
  refine ⟨?_, twoLayers_lanesFit, ?_, fun _ => List.length_replicate,
    fun _ => List.length_replicate, ?_⟩
  · rw [length_countedKeys]
    exact twoLayers_valid
  · rw [length_countedKeys]
    exact ⟨by decide, by decide⟩
  · rw [withDraws_countedKeys]
    have hmap : (counting 513).map tagOf = List.range 513 := by
      rw [← htags, List.map_map]
      exact List.map_congr_left fun p _ => (realTag_tagged p).symm
    rw [hmap]
    exact List.nodup_range

theorem butterflyShuffleVec_permutes_513 : ∃ v, Stores v 5 (countedKeys 513) ∧
    Ends (fun v' => ∃ out, (List.Perm out (countedKeys 513) ∧ (512 < (countedKeys 513).length →
        countingVector.InTagOrder twoLayers (countedKeys 513) out)) ∧ Stores v' 6 out)
      (fun e => 512 < (countedKeys 513).length ∧ e = .sorter .mergeSplit ∧
        Overfull twoLayers.Z ((countingVector.withDraws (countedKeys 513)).map tagged))
      (countingVector.shuffleVec (EM.DynamicPageVector.Vector.plain _) twoLayers 131072
        zeroBuckets zeroBuckets 5 v) := by
  obtain ⟨v, hv⟩ := countedKeys_stored 513 5
  exact ⟨v, hv, butterflyShuffleVec_permutes hv fun _ => countingVector_shuffles⟩

end EM.Algorithm.ButterflyVector
