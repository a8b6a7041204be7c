import OblSort.Algorithm.Proof.DistriStreams
import OblSort.Algorithm.Proof.DistriVector
import OblSort.Algorithm.Proof.MergeVector
import OblSort.Algorithm.Proof.SampleForPivots

/-!
# The distribution sort sorts a vector in place

`KWayDistriSort(vec, inAuth, heapSize)`, in memory or with a sorter: the vector has its elements in
order at the end, written with the counter after `inAuth`, unless a merge-split or the sampling
aborts (`distriSortVec_sorts`). Both readers of a sorter deliver the elements of the vector, one
after the other (`Delivers`), so the sort does what it does on lists.
-/

namespace EM.Algorithm

open NonCachedVector Paged Loop KWayDistriSorter

variable {n m m' : Nat} [NeZero n] [NeZero m] [NeZero m'] {α : Type}

/-! ## The pivots are in order -/

theorem length_sampleBatches_le (M lenPerBatch numBatch : Nat) (entries : List (Block α)) :
    (sampleBatches M lenPerBatch numBatch entries [] []).1.length ≤ entries.length := by
  induction numBatch generalizing entries with
  | zero => exact Nat.zero_le _
  | succ numBatch ih =>
    unfold sampleBatches
    rw [sampleBatches_fst, List.length_append, List.nil_append, List.length_take,
      (orCompact_tight _ _).perm.length_eq, List.length_take]
    have hrest := ih (entries.drop M)
    rw [List.length_drop] at hrest
    omega

theorem mapM_eq_some {β γ : Type} {f : β → Option γ} {l : List β} {ys : List γ}
    (h : l.mapM f = some ys) :
    ys.length = l.length ∧ ∀ i : Nat, ys[i]? = l[i]?.bind f := by
  induction l generalizing ys with
  | nil =>
    cases h
    exact ⟨rfl, fun i => rfl⟩
  | cons b l ih =>
    rw [List.mapM_cons] at h
    obtain ⟨y, hy, h⟩ := Option.bind_eq_some_iff.1 h
    obtain ⟨zs, hzs, h⟩ := Option.bind_eq_some_iff.1 h
    cases h
    obtain ⟨hlen, hget⟩ := ih hzs
    refine ⟨by simp [hlen], fun i => ?_⟩
    cases i with
    | zero => simp [hy]
    | succ i => simpa using hget i

/-- Quantiles of a list that is in order up to `m`, if they are taken of no more elements. -/
theorem getPQuantile_sorted [SortKey α] [IsStrictWeakOrder α SortKey.Lt]
    (heq : SortKey.EqIsIncomp α)
    {sorted rest pivots : List (Block α)} {n p : Nat} (hsorted : sorted.Pairwise Block.Le)
    (hn : n ≤ sorted.length) (hover : n * (p - 1) < 2 ^ 64)
    (h : getPQuantile (sorted ++ rest) n p = some pivots) :
    pivots.length = p - 1 ∧ pivots.Pairwise Block.Le := by
  have horder : IsStrictWeakOrder (Block α) fun x y => Block.lt x y = true :=
    Block.strictWeakOrder heq
  obtain ⟨hlen, hget⟩ := mapM_eq_some h
  rw [List.length_range'] at hlen
  refine ⟨hlen, List.pairwise_iff_getElem.2 fun i j hi hj hij => ?_⟩
  have hpivot : ∀ k (hk : k < pivots.length), (sorted ++ rest)[n * (k + 1) / p]? =
    some pivots[k] := by
    intro k hk
    have hno : n * (k + 1) % 2 ^ 64 = n * (k + 1) :=
      Nat.mod_eq_of_lt (Nat.lt_of_le_of_lt (Nat.mul_le_mul_left n (by omega)) hover)
    have := hget k
    rw [List.getElem?_range' (by omega), Option.bind_some, Nat.one_mul, Nat.add_comm 1 k, hno,
      List.getElem?_eq_getElem hk] at this
    exact this.symm
  have hi' := hpivot i hi
  have hj' := hpivot j hj
  have hle : n * (i + 1) / p ≤ n * (j + 1) / p :=
    Nat.div_le_div_right (Nat.mul_le_mul_left n (by omega))
  obtain heq' | hlt : n * (i + 1) / p = n * (j + 1) / p ∨ n * (i + 1) / p <
    n * (j + 1) / p := by omega
  · rw [heq', hj'] at hi'
    rw [Option.some.inj hi']
    exact Bool.eq_false_iff.2 (irrefl_of (fun x y : Block α => Block.lt x y = true) _)
  · have hpos : 1 ≤ n := by
      rcases Nat.eq_zero_or_pos n with rfl | hpos
      · simp at hlt
      · exact hpos
    have hin : n * (j + 1) / p < sorted.length :=
      Nat.lt_of_lt_of_le (rank_lt hpos (by omega)) hn
    rw [List.getElem?_append_left (by omega)] at hi' hj'
    obtain ⟨_, hi'⟩ := List.getElem?_eq_some_iff.1 hi'
    obtain ⟨_, hj'⟩ := List.getElem?_eq_some_iff.1 hj'
    rw [← hi', ← hj']
    exact List.pairwise_iff_getElem.1 hsorted _ _ _ _ hlt

/-- A sample `Gamma` that does not fit in memory is sorted by a butterfly sort, which is given valid
parameters and hands `partitionDummy` groups with a dummy and an element each. -/
structure ButterflySorts [SortKey α] (P : Platform (Block α))
    (IsHeap : List (HeapEntry (Block α)) → Prop)
    (params : KWayButterflyParams) (M : Nat) (batch vec : Nat → List (TaggedT (Block α)))
    (tags : Nat → BitVec 64) (Gamma : List (Block α)) : Prop where
  platform : P.Correct IsHeap
  prepared : 512 < Gamma.length → Prepared params batch vec (tagged tags Gamma)
  mixed : GroupsMixed P params (M * P.sizeofT) batch vec (tagged tags Gamma)

/-- What the sampling of the elements `data` takes for granted: a dummy, memory, as many slots for
each batch as elements of it are chosen, and a butterfly sort for a sample that does not fit in
memory. -/
structure Surroundings.Samples [SortKey α] (A : Surroundings n m m' α) (data : List α) : Prop where
  dummy : A.dummy.dummyFlag = true
  memory : 0 < A.sampleParams.M
  slack : ∀ b < divRoundUp data.length A.sampleParams.M,
    chosenIn A.sampleParams A.sampleRand64 data.length b ≤ A.sampleParams.lenPerBatch
  gammaSort : ∃ P IsHeap params batch vec tags,
    A.gammaSort = sortGamma P params A.sampleParams.M batch vec tags ∧
    (A.sampleParams.M ≤ (gamma A.sampleParams A.dummy A.sampleRand64 data).length →
      ButterflySorts P IsHeap params A.sampleParams.M batch vec tags
        (gamma A.sampleParams A.dummy A.sampleRand64 data))

omit [NeZero n] [NeZero m] [NeZero m'] in
/-- **The pivots** of a sort are in order. -/
theorem Surroundings.Samples.pivots [SortKey α] [IsStrictWeakOrder α SortKey.Lt]
    (heq : SortKey.EqIsIncomp α)
    {A : Surroundings n m m' α} {data : List α} (h : A.Samples data)
    (hlen : data.length < 2 ^ 31) {p : Nat} (hp : p < 2 ^ 32) {pivots : List (Block α)}
    (hpivots : sampleForPivots A.sampleParams A.dummy A.Mem A.gammaSort A.sampleRand64 data p =
      some pivots) :
    pivots.length = p - 1 ∧ pivots.Pairwise Block.Le := by
  obtain ⟨hlength, hperm⟩ := gamma_perm h.dummy h.memory h.slack
  have hle : (chosenBlocks A.sampleParams A.sampleRand64 data).length ≤
      (gamma A.sampleParams A.dummy A.sampleRand64 data).length := by
    rw [hperm.length_eq, List.length_append]
    exact Nat.le_add_right _ _
  have hgamma : (gamma A.sampleParams A.dummy A.sampleRand64 data).length ≤ data.length :=
    (length_sampleBatches_le _ _ _ _).trans (length_sampleEntries _ _).le
  have hover : (chosenBlocks A.sampleParams A.sampleRand64 data).length * (p - 1) < 2 ^ 64 := by
    have := Nat.mul_le_mul
      (show (chosenBlocks A.sampleParams A.sampleRand64 data).length ≤ 2 ^ 31 by omega)
      (show p - 1 ≤ 2 ^ 32 by omega)
    omega
  obtain ⟨rest, hrun⟩ := sampleForPivots_eq A.sampleParams A.dummy A.Mem A.gammaSort
    A.sampleRand64 data p
  rw [hrun] at hpivots
  split at hpivots
  · refine getPQuantile_sorted heq (bitonicSortList_sorted (Block.decides heq) (by omega))
      ?_ hover hpivots
    rw [(bitonicSortList_perm _ _).length_eq]
    exact hle
  · obtain ⟨sorted, hsort, hpivots⟩ := Option.bind_eq_some_iff.1 hpivots
    obtain ⟨P, IsHeap, params, batch, vec, tags, hgamma, hsorts⟩ := h.gammaSort
    have hsorts := hsorts (Nat.le_of_not_lt (by assumption))
    rw [hgamma] at hsort
    obtain ⟨hsame, hsorted⟩ :=
      sortGamma_sorted heq hsorts.platform hsorts.prepared hsorts.mixed hsort
    rw [← List.append_nil sorted] at hpivots
    exact getPQuantile_sorted heq hsorted (hle.trans hsame.length_eq.ge) hover hpivots

/-! ## What the readers deliver -/

/-- A reader in `At k` has given the first `k` elements of `list`, each with what `getLastIdx()` is
after it. -/
structure Delivers (onDisk : Bool) (v : NonCachedVector.Vector n α) (list : List (α × Nat))
    (At : Nat → InputReader n m α → Prop) : Prop where
  eof : ∀ k r, At k r → r.eof = decide (list.length ≤ k)
  read : ∀ k r x, At k r → list[k]? = some x → ∃ r', r.read onDisk v = some (x, r') ∧ At (k + 1) r'

section Readers

variable {v : NonCachedVector.Vector n α} {data : List α} {c : Nat}

/-- A plain reader delivers the elements in order. -/
theorem delivers_prefetch (onDisk : Bool) (hv : Stores v c data) :
    Delivers onDisk v (data.map fun x => (x, 0)) fun k (r : InputReader n m α) =>
      ∃ rd, r = .prefetch rd ∧ Reading data c rd ∧ rd.endPtr = v.N ∧ rd.it = k where
  eof k r hr := by
    obtain ⟨rd, rfl, -, hend, rfl⟩ := hr
    rw [List.length_map, hv.size, ← hend]
    rfl
  read k r x hr hx := by
    obtain ⟨rd, rfl, hreading, hend, rfl⟩ := hr
    rw [List.getElem?_map] at hx
    obtain ⟨y, hy, rfl⟩ := Option.map_eq_some_iff.1 hx
    obtain ⟨hlt, -⟩ := List.getElem?_eq_some_iff.1 hy
    obtain ⟨x', rd', hread, hx', hit, hend', hreading'⟩ :=
      hreading.read hv (by rw [← hv.size]; exact hlt)
    obtain rfl : x' = y := Option.some.inj (hx'.symm.trans hy)
    refine ⟨.prefetch rd', ?_, rd', rfl, hreading', hend'.trans hend, hit⟩
    rw [InputReader.read, hread]
    rfl

/-- A reader that permutes the pages delivers the elements in the order of the permutation. -/
theorem delivers_pagePerm (onDisk : Bool) (hv : Stores v c data) {perm : List Nat}
    (hperm : IsPagePerm (divRoundUp v.N n) perm) {list : List (α × Nat)}
    (hlist : list.map Prod.snd = (List.range' 0 (v.N - 0)).map (PagePermReader.position n perm))
    (hdata : ∀ p ∈ list, data[p.2]? = some p.1) :
    Delivers onDisk v list fun k (r : InputReader n m α) =>
      ∃ rd, r = .pagePerm rd ∧ PagePermReader.InOrder perm data onDisk c v.N rd ∧ rd.it = k := by
  have hlen : list.length = v.N := by
    have := congrArg List.length hlist
    rwa [List.length_map, List.length_map, List.length_range', Nat.sub_zero] at this
  refine ⟨fun k r hr => ?_, fun k r x hr hx => ?_⟩
  · obtain ⟨rd, rfl, horder, rfl⟩ := hr
    rw [hlen, ← horder.endPtr]
    rfl
  · obtain ⟨rd, rfl, horder, rfl⟩ := hr
    obtain ⟨hlt, -⟩ := List.getElem?_eq_some_iff.1 hx
    rw [hlen] at hlt
    have hpos : x.2 = PagePermReader.position n perm rd.it := by
      have := congrArg (fun l => l[rd.it]?) hlist
      rw [List.getElem?_map, hx, List.getElem?_map, List.getElem?_range' (by omega),
        Option.map_some, Option.map_some, Nat.zero_add, Nat.one_mul] at this
      exact Option.some.inj this
    obtain ⟨y, rd', hread, hit, horder', hidx, hy⟩ := horder.read hperm hv (Nat.le_refl _) hlt
    have hx' := hdata x (List.mem_of_getElem? hx)
    rw [hpos] at hx'
    obtain rfl : y = x.1 := Option.some.inj (hy.symm.trans hx')
    refine ⟨.pagePerm rd', ?_, rd', rfl, horder', hit⟩
    rw [InputReader.read, hread, Option.map_some]
    show some ((x.1, rd'.getLastIdx), InputReader.pagePerm rd') = _
    rw [hidx, ← hpos]

/-- A permutation of the pages can be built, and pages come one at a time. -/
def PagesPermuted (onDisk : Bool) (heapSize pageCount : Nat) : Prop :=
  PermBuilt heapSize pageCount ∧ PagePermReader.OnePageFetches onDisk pageCount

/-- Elements at positions that are a permutation of all positions. -/
theorem map_fst_perm {list : List (α × Nat)}
    (hpos : List.Perm (list.map Prod.snd) (List.range data.length))
    (hdata : ∀ p ∈ list, data[p.2]? = some p.1) : List.Perm (list.map Prod.fst) data := by
  have hmap : (list.map Prod.fst).map some = (list.map Prod.snd).map fun i => data[i]? := by
    rw [List.map_map, List.map_map]
    exact List.map_congr_left fun p hp => (hdata p hp).symm
  have hrange : (List.range data.length).map (fun i => data[i]?) = data.map some := by
    refine List.ext_getElem (by simp) fun i hi _ => ?_
    rw [List.length_map, List.length_range] at hi
    rw [List.getElem_map, List.getElem_range, List.getElem_map, List.getElem?_eq_getElem hi]
  refine (List.map_perm_map_iff fun _ _ h => Option.some.inj h).1 ?_
  rw [hmap, ← hrange]
  exact hpos.map _

/-- **The reader of a sorter** delivers the elements of the vector. -/
theorem inputReader_delivers {A : Surroundings n m m' α}
    {IsHeap : List (HeapEntry (TaggedT Nat)) → Prop}
    (hL : A.tagOrder.Correct IsHeap) {preshuffled : Bool} {heapSize : Nat} (hv : Stores v c data)
    (hN : 0 < v.N)
    (hpages : preshuffled = false → PagesPermuted A.onDisk heapSize (divRoundUp data.length n)) :
    ∃ r list At, A.inputReader preshuffled 0 v.N c heapSize = some r ∧
      Delivers A.onDisk v list At ∧ At 0 r ∧ List.Perm (list.map Prod.fst) data := by
  cases preshuffled with
  | true =>
    refine ⟨_, _, _, rfl, delivers_prefetch A.onDisk hv, ⟨_, rfl, reading_new _ _ _, rfl, rfl⟩, ?_⟩
    rw [List.map_map]
    exact .of_eq (List.map_id data)
  | false =>
    have hn := pos_itemPerPage n
    obtain ⟨hbuilt, hone⟩ := hpages rfl
    rw [hv.size] at hbuilt hone
    obtain ⟨built, -, hmake, -, -⟩ :=
      makePerm_spec hL A.pageRand64 A.uninit hbuilt (divRoundUp_pos hN hn)
    obtain ⟨rd, hnew⟩ : ∃ rd, PagePermReader.new A.tagOrder A.pageRand64 A.uninit A.cache 0
      v.N c heapSize =
        some rd := by
      rw [PagePermReader.new, Nat.sub_zero, hmake]
      exact ⟨_, rfl⟩
    obtain ⟨perm, hperm, horder, hit⟩ := PagePermReader.inOrder_new hL data hN hone hnew
    obtain ⟨list, -, hlist, hdata⟩ := horder.readAll hperm hv (Nat.le_refl _) (by omega)
      (show v.N - rd.it < v.N + 1 by omega)
    rw [hit] at hlist
    refine ⟨.pagePerm rd, list, _, ?_, delivers_pagePerm A.onDisk hv hperm hlist hdata,
      ⟨rd, rfl, horder, hit⟩, ?_⟩
    · rw [Surroundings.inputReader, if_neg Bool.false_ne_true, hnew]
      rfl
    · refine map_fst_perm ?_ hdata
      rw [hlist, Nat.sub_zero, ← List.range_eq_range', hv.size]
      exact PagePermReader.positions_perm hperm hn

end Readers

/-! ## The input and the output of a sorter -/

/-- Before the last layer: the reader has given what is not left in the list, and nothing is
written. -/
structure Untouched (v : NonCachedVector.Vector n α) (w : Writer n α) (page : Page n α)
    (list : List (α × Nat)) (At : Nat → InputReader n m α → Prop) (io : SorterVector n m α)
    (l : InOut α) :
    Prop where
  vec : io.vec = v
  outputWriter : io.outputWriter = w
  originalPage : io.originalPage = page
  reader : ∃ k, At k io.inputReader ∧ l.rest = list.drop k
  written : l.written = []

/-- In the last layer: the writer has written the list. -/
structure Overwritten (v : NonCachedVector.Vector n α) (w : Writer n α) (page : Page n α)
    (io : SorterVector n m α) (l : InOut α) : Prop where
  output : (io.outputWriter, io.vec) = w.writeMany l.written v
  originalPage : io.originalPage = page

/-- At the end: the rest of the last page is written as well. -/
def Flushed (v : NonCachedVector.Vector n α) (w : Writer n α) (page : Page n α)
    (io : SorterVector n m α) (l : InOut α) : Prop :=
  (w.writeMany l.written v).1.flush page (w.writeMany l.written v).2 = some io.vec

section Streams

variable {v : NonCachedVector.Vector n α} {w : Writer n α} {page : Page n α} {list : List (α × Nat)}
  {At : Nat → InputReader n m α → Prop} {onDisk : Bool}

theorem untouched_reads (hR : Delivers onDisk v list At) :
    ReadsAlike (sorterVector onDisk) InOut.vector (Untouched v w page list At) where
  eof io l h := by
    obtain ⟨k, hk, hrest⟩ := h.reader
    show io.inputReader.eof = l.rest.isEmpty
    rw [hR.eof k _ hk, hrest, Bool.eq_iff_iff, decide_eq_true_iff, List.isEmpty_iff,
      List.drop_eq_nil_iff]
  read io l h heof := by
    obtain ⟨k, hk, hrest⟩ := h.reader
    have hne : l.rest ≠ [] := List.isEmpty_eq_false_iff.1 heof
    rw [hrest] at hne
    have hlt : k < list.length := Nat.lt_of_not_le fun hle => hne (List.drop_eq_nil_iff.2 hle)
    obtain ⟨r', hread, hr'⟩ := hR.read k _ _ hk (List.getElem?_eq_getElem hlt)
    rw [List.drop_eq_getElem_cons hlt] at hrest
    rw [← h.vec] at hread
    rw [sorterVector_read hread]
    simp only [InOut.vector, hrest]
    exact ⟨rfl, h.vec, h.outputWriter, h.originalPage, ⟨k + 1, hr', rfl⟩, h.written⟩

theorem writeMany_append (xs : List α) (x : α) (w : Writer n α) (v : NonCachedVector.Vector n α) :
    w.writeMany (xs ++ [x]) v = (w.writeMany xs v).1.write x (w.writeMany xs v).2 := by
  induction xs generalizing w v with
  | nil => rfl
  | cons y xs ih =>
    rw [List.cons_append, Writer.writeMany, Writer.writeMany]
    exact ih _ _

theorem writeMany_counter (xs : List α) (w : Writer n α) (v : NonCachedVector.Vector n α) :
    (w.writeMany xs v).1.counter = w.counter := by
  induction xs generalizing w v with
  | nil => rfl
  | cons x xs ih =>
    have hwrite : (w.write x v).1.counter = w.counter := by
      unfold Writer.write
      split <;> rfl
    exact (ih (w.write x v).1 (w.write x v).2).trans hwrite

theorem overwritten_writes (hcounter : w.counter ≠ 0) :
    WritesAlike (sorterVector (m := m) onDisk) InOut.vector (Overwritten v w page)
    (Flushed v w page) where
  write x io l h := by
    refine ⟨?_, h.originalPage⟩
    show io.outputWriter.write x io.vec = w.writeMany (l.written ++ [x]) v
    rw [writeMany_append, ← h.output]
  flush io l h := by
    obtain ⟨vec, hvec⟩ : ∃ vec, io.outputWriter.flush io.originalPage io.vec = some vec := by
      have hc : io.outputWriter.counter ≠ 0 := by
        have := congrArg (fun r => r.1.counter) h.output
        rw [writeMany_counter] at this
        rwa [this]
      rw [Writer.flush]
      split
      · rw [if_neg fun h => hc h.2]
        exact ⟨_, rfl⟩
      · exact ⟨_, rfl⟩
    have hio : (sorterVector onDisk).flush io = .ok { io with
        vec
        log := io.log ++ flushes io.outputWriter io.vec.N } := by
      simp only [sorterVector, hvec]
    rw [hio]
    show (w.writeMany l.written v).1.flush page (w.writeMany l.written v).2 = some vec
    rw [← h.output, ← h.originalPage]
    exact hvec

end Streams

/-! ## The sort of a vector -/

section Sorts

variable [SortKey α] {v : NonCachedVector.Vector n α} {data : List α}

/-- The constructor of a sorter, for a whole vector that was last written with 0. -/
theorem construct_whole (A : Surroundings n m m' α) {preshuffled : Bool} {heapSize : Nat}
    (hv : Stores v 0 data)
    (hN : 0 < v.N) {r : InputReader n m α}
    (hreader : A.inputReader preshuffled 0 v.N 0 heapSize = some r) :
    (∃ log, A.construct preshuffled v 0 v.N 0 heapSize = .error (.pivot, log)) ∨ ∃ pivots log,
      sampleForPivots A.sampleParams A.dummy A.Mem A.gammaSort A.sampleRand64 data
          A.distriParams.totalPartition = some pivots ∧
        A.construct preshuffled v 0 v.N 0 heapSize =
          .ok (.new preshuffled A.distriParams v.N pivots,
          ⟨v, r, ⟨A.cache 0, 0, v.N, 0 % n, 1⟩, A.cache 0, log⟩) := by
  obtain ⟨log, input, hread, hinput, -⟩ := readInput_samples A hv hN (Nat.le_refl v.N)
  rw [List.drop_zero, Nat.sub_zero, List.take_of_length_le hv.size.le] at hinput
  subst hinput
  have hinit : Writer.init (A.cache 0) 0 v.N ((0 + 1) % 2 ^ 32) v =
    some ⟨A.cache 0, 0, v.N, 0 % n, 1⟩ :=
    MergeVector.init_all (A.cache 0) v.N 1 v
  rw [Surroundings.construct, hreader]
  dsimp only
  rw [hread]
  dsimp only
  cases hpivots : sampleForPivots A.sampleParams A.dummy A.Mem A.gammaSort A.sampleRand64 input
      A.distriParams.totalPartition with
  | none => exact .inl ⟨log, rfl⟩
  | some pivots =>
    dsimp only
    rw [hinit]
    exact .inr ⟨pivots, _, rfl, rfl⟩

/-- What a sorter for the elements `data` takes for granted: valid parameters, with positions that
fit into an `int`, memory of the size of a bucket, samples, and pages that can be permuted. -/
structure Surroundings.Suits (A : Surroundings n m m' α) (preshuffled : Bool) (heapSize : Nat)
    (batchUninit : Nat → Nat → List (Block α)) (vec : Nat → List (Block α))
    (data : List α) : Prop where
  params : A.distriParams.Valid data.length
  small : A.distriParams.totalBucket * A.distriParams.Z < 2 ^ 31
  batch_sized : ∀ k p, (batchUninit k p).length = A.distriParams.Z
  vec_sized : ∀ p, (vec p).length = A.distriParams.Z
  samples : A.Samples data
  pages : preshuffled = false → PagesPermuted A.onDisk heapSize (divRoundUp data.length n)

omit [SortKey α] [NeZero n] [NeZero m] [NeZero m'] in
theorem DistriParams.Valid.bounds {params : DistriParams} {N : Nat} (h : params.Valid N)
    (hsmall : params.totalBucket * params.Z < 2 ^ 31) : N < 2 ^ 31 ∧
    params.totalPartition < 2 ^ 31 := by
  obtain ⟨partitionSize, hpos, hT⟩ := h.totalBucket
  obtain ⟨z, -, hZ⟩ := h.Z
  have hZpos : 0 < params.Z := hZ ▸ Nat.two_pow_pos z
  have hTpos : 0 < params.totalBucket := hT ▸ Nat.mul_pos h.totalPartition_pos hpos
  refine ⟨Nat.lt_of_le_of_lt ((divRoundUp_le_iff hTpos).1 h.real_le) hsmall, ?_⟩
  calc params.totalPartition ≤ params.totalPartition * partitionSize :=
    Nat.le_mul_of_pos_right _ hpos
    _ = params.totalBucket := hT.symm
    _ ≤ params.totalBucket * params.Z := Nat.le_mul_of_pos_right _ hZpos
    _ < 2 ^ 31 := hsmall

variable [IsStrictWeakOrder α SortKey.Lt] (heq : SortKey.EqIsIncomp α)

include heq

/-- A sorter writes the elements that its reader delivers to the vector, in order. -/
theorem sort_overwrites {S : KWayDistriSorter α} (hS : S.Valid) {onDisk : Bool}
    {list : List (α × Nat)}
    {At : Nat → InputReader n m α → Prop} (hR : Delivers onDisk v list At) {r : InputReader n m α}
    (hstart : At 0 r) (hsize : list.length = v.N)
    (hle : v.N ≤ S.numTotalBucket * S.numRealPerBucket)
    {batchUninit : Nat → Nat → List (Block α)} (hbatch : ∀ k p, (batchUninit k p).length = S.Z)
    {vec : Nat → List (Block α)} (hvec : ∀ p, (vec p).length = S.Z) (cache page : Page n α)
    (log : List PageOp) (inputCount : BitVec 64) :
    Ends (fun s => ∃ out, SortedPerm (list.map Prod.fst) out ∧ Stores s.io.vec 1 out)
      (fun e => e.1 = .mergeSplit)
      (S.sort (sorterVector onDisk) (EM.DynamicPageVector.Vector.plain _) batchUninit
        (.start ⟨v, r, ⟨cache, 0, v.N, 0 % n, 1⟩, page, log⟩ inputCount vec)) := by
  have hlists := sort_ends heq hS hbatch (hsize.trans_le hle) inputCount hvec
  let w : Writer n α := ⟨cache, 0, v.N, 0 % n, 1⟩
  have hwrites : WritesAlike (sorterVector (m := m) onDisk) InOut.vector (Overwritten v w page)
      (Flushed v w page) := overwritten_writes Nat.one_ne_zero
  have hbegin : Alike (Untouched v w page list At)
      (State.start ⟨v, r, w, page, log⟩ inputCount vec : State α (Nat → List (Block α)) _)
      (State.start ⟨list, []⟩ inputCount vec) := ⟨_, rfl, rfl, rfl, rfl, ⟨0, hstart, rfl⟩, rfl⟩
  have hrun := sort_alike (S := S) (EM.DynamicPageVector.Vector.plain _) batchUninit
    (untouched_reads hR) hwrites (fun io l h => ⟨?_, h.originalPage⟩) hbegin
  · refine (hrun.ends hlists).mono ?_ ?_
    · rintro s ⟨s', ⟨io, rfl, hflush⟩, -, hout⟩
      have hlen : s'.io.written.length = v.N := by
        rw [hout.perm.length_eq, List.length_map, hsize]
      obtain ⟨v', hv', hstores⟩ := MergeVector.writeMany_flush hlen cache page v.N 1
      refine ⟨s'.io.written, hout, ?_⟩
      rw [show (s'.setIo io).io.vec = v' from Option.some.inj (hflush.symm.trans hv')]
      exact hstores
    · rintro e ⟨e', hreason, hmerge, -⟩
      exact hreason.trans hmerge
  · rw [h.written, h.vec, h.outputWriter]
    rfl

/-- The external sort. -/
theorem externalSort_sorts {A : Surroundings n m m' α}
    {IsHeap : List (HeapEntry (TaggedT Nat)) → Prop}
    (hL : A.tagOrder.Correct IsHeap) {preshuffled : Bool} {heapSize : Nat}
    {batchUninit : Nat → Nat → List (Block α)} {vec : Nat → List (Block α)} (hv : Stores v 0 data)
    (hN : 0 < v.N) (hA : A.Suits preshuffled heapSize batchUninit vec data) :
    Ends (fun io => ∃ out, SortedPerm data out ∧ Stores io.vec 1 out)
      (fun e => e.1 = .mergeSplit ∨ e.1 = .pivot)
      (A.externalSort (EM.DynamicPageVector.Vector.plain _) batchUninit vec preshuffled v 0 v.N 0
        heapSize) := by
  obtain ⟨r, list, At, hreader, hR, hstart, hlist⟩ := inputReader_delivers hL hv hN hA.pages
  unfold Surroundings.externalSort
  obtain ⟨log, hconstruct⟩ | ⟨pivots, log, hpivots, hconstruct⟩ := construct_whole A hv hN hreader
  · rw [hconstruct]
    exact .inr rfl
  · have hsize : list.length = v.N := by
      rw [← List.length_map, hlist.length_eq, hv.size]
    obtain ⟨hlen, hpartitions⟩ := hA.params.bounds hA.small
    obtain ⟨hplen, hsorted⟩ := hA.samples.pivots heq hlen (by omega) hpivots
    have hvalid := hA.params
    rw [hv.size] at hvalid
    obtain ⟨hS, hle⟩ := KWayDistriSorter.new_valid preshuffled hvalid hN hplen hsorted hA.small
    have hrun := sort_overwrites heq hS hR hstart hsize hle hA.batch_sized hA.vec_sized
      (A.cache 0) (A.cache 0) log A.inputCount
    rw [hconstruct]
    dsimp only
    split
    · rename_i abort s hsort
      rw [hsort] at hrun
      exact .inl hrun
    · rename_i s hsort
      rw [hsort] at hrun
      obtain ⟨out, hout, hstores⟩ := hrun
      exact ⟨out, ⟨hout.perm.trans hlist, hout.sorted⟩, hstores⟩

omit [IsStrictWeakOrder α SortKey.Lt] heq in
/-- The sort in memory. -/
theorem KWayDistriSort_inMemory {σ : Type} (A : Surroundings n m m' α)
    (V : EM.DynamicPageVector.Vector σ (List (Block α))) (batchUninit : Nat → Nat → List (Block α))
    (vec : σ) (preshuffled : Bool) {inAuth heapSize sizeofT : Nat} (hv : Stores v inAuth data)
    (hfit : data.length ≤ heapSize / sizeofT) :
    ∃ v', A.KWayDistriSort V batchUninit vec sizeofT preshuffled v 0 v.N inAuth heapSize = .ok v' ∧
      Stores v' ((inAuth + 1) % 2 ^ 32) (bitonicSortList SortKey.lt data) := by
  obtain ⟨cachePage, hin⟩ := hv.copyIn_all
  have hlen : (bitonicSortList SortKey.lt data).length =
    ({ v with cachePage } : NonCachedVector.Vector n α).N :=
    (bitonicSortList_perm _ data).length_eq.trans hv.size
  obtain ⟨v', hout, hstores⟩ := NonCachedVector.copyOut_all hlen ((inAuth + 1) % 2 ^ 32)
  refine ⟨v', ?_, hstores⟩
  rw [Surroundings.KWayDistriSort, if_pos (by rwa [Nat.sub_zero, ← hv.size]), hin]
  dsimp only
  rw [hout]

/-- **The distribution sort of a vector** leaves its elements in order, written with the counter
after `inAuth`. In memory it always does; a sorter, which takes a vector that was last written with
0, may stop at a merge-split or while it samples. -/
theorem distriSortVec_sorts {A : Surroundings n m m' α}
    {IsHeap : List (HeapEntry (TaggedT Nat)) → Prop}
    (hL : A.tagOrder.Correct IsHeap) {preshuffled : Bool} {inAuth heapSize sizeofT : Nat}
    {batchUninit : Nat → Nat → List (Block α)} {vec : Nat → List (Block α)}
    (hv : Stores v inAuth data) (hlen : data.length ≤ 2 ^ 63)
    (hA : data.length ≤ heapSize / sizeofT ∨
      inAuth = 0 ∧ A.Suits preshuffled heapSize batchUninit vec data) :
    Ends (fun v' => ∃ out, SortedPerm data out ∧ Stores v' ((inAuth + 1) % 2 ^ 32) out)
      (fun e => heapSize / sizeofT < data.length ∧ (e = .mergeSplit ∨ e = .pivot))
      (A.KWayDistriSort (EM.DynamicPageVector.Vector.plain _) batchUninit vec sizeofT preshuffled
        v 0 v.N inAuth heapSize) := by
  by_cases hfit : data.length ≤ heapSize / sizeofT
  · obtain ⟨v', hrun, hstores⟩ :=
      KWayDistriSort_inMemory A (EM.DynamicPageVector.Vector.plain _) batchUninit vec
      preshuffled hv hfit
    rw [hrun]
    exact ⟨_, ⟨bitonicSortList_perm _ data, bitonicSortList_sorted SortKey.decides hlen⟩, hstores⟩
  · obtain hsmall | ⟨rfl, hsuits⟩ := hA
    · exact absurd hsmall hfit
    have hN : 0 < v.N := by
      rw [← hv.size]
      exact Nat.lt_of_le_of_lt (Nat.zero_le _) (Nat.lt_of_not_le hfit)
    have hrun := externalSort_sorts heq hL hv hN hsuits
    rw [Surroundings.KWayDistriSort, if_neg (by rwa [Nat.sub_zero, ← hv.size])]
    split
    · rename_i abort log hsort
      rw [hsort] at hrun
      exact ⟨Nat.lt_of_not_le hfit, hrun⟩
    · rename_i io hsort
      rw [hsort] at hrun
      exact hrun

end Sorts

/-! ### Three elements in two pages -/

/-- Two partitions of one bucket, memory for four blocks, and all elements in the sample. -/
def twoPages : Surroundings 2 4 4 SortElement where
  onDisk := false
  distriParams := twoPartitions 1
  sampleParams := ⟨4, 3, 4⟩
  dummy := dummyElement
  gammaSort := sortGamma (mergeSortPlatform 24 32) twoLayers 4 (fun _ => [])
    (fun _ => []) fun _ => 0
  tagOrder := PagePermReader.tagOrder
  uninit := PagePermReader.zeroUninit
  cache := fun _ _ => ⟨0, []⟩
  Mem := []
  inputCount := 0
  pageRand64 := fun _ => 0
  sampleRand64 := fun _ => 0

theorem twoPages_suits : twoPages.Suits false 17 (fun _ => zeroBlocks) zeroBlocks
    (elements [7, 5, 6]) where
  params := twoPartitions_valid (Nat.le_refl 1) (by decide)
  small := by decide
  batch_sized _ _ := rfl
  vec_sized _ := rfl
  samples :=
    { dummy := rfl
      memory := by decide
      slack := by decide
      -- three blocks fit in memory
      gammaSort := by
        have horder : IsStrictWeakOrder (Block SortElement) SortKey.Lt :=
          Block.strictWeakOrder SortElement.eqIsIncomp
        exact ⟨mergeSortPlatform 24 32, _, twoLayers, fun _ => [], fun _ => [], fun _ => 0, rfl,
          fun hlarge => ⟨mergeSortPlatform_correct 24 32, absurd hlarge (by decide),
            absurd hlarge (by decide)⟩⟩ }
  pages _ := ⟨by decide, fun h => by cases h⟩

theorem distriSortVec_sorts_three : ∃ v, Stores v 0 (elements [7, 5, 6]) ∧
    Ends (fun v' => ∃ out, SortedPerm (elements [7, 5, 6]) out ∧ Stores v' ((0 + 1) % 2 ^ 32) out)
      (fun e => 17 / 8 < 3 ∧ (e = .mergeSplit ∨ e = .pivot))
      (twoPages.KWayDistriSort (EM.DynamicPageVector.Vector.plain _)
        (fun _ => zeroBlocks) zeroBlocks 8 false v 0 v.N 0 17) := by
  have hlen : (elements [7, 5, 6]).length =
      (newVector ⟨0, 0⟩ (fun _ => ⟨0, []⟩ : Page 2 SortElement) 3).N := rfl
  obtain ⟨v, -, hv⟩ := NonCachedVector.copyOut_all hlen 0
  exact ⟨v, hv, distriSortVec_sorts SortElement.eqIsIncomp PagePermReader.tagOrder_correct
    hv (by decide) (.inr ⟨rfl, twoPages_suits⟩)⟩

end EM.Algorithm
