import OblSort.Algorithm.Proof.Bitonic
import OblSort.Algorithm.Proof.DistriPages
import OblSort.Algorithm.Proof.DistriRuns
import OblSort.Algorithm.Proof.OrCompact

/-!
# The distribution sorter sorts

The last layer finds every partition between its pivots (`Partitioned`) and writes out a sorted
permutation of the input, unless a merge-split aborts, when positions fit into an `int`. A stride of
`2 ^ 32` elements is cut to none, and the loop over the strides goes through the first one again.
-/

namespace EM.Algorithm

open EM.DynamicPageVector Loop Store Strided

namespace KWayDistriSorter

variable {α : Type} {S : KWayDistriSorter α}

/-! ## One partition -/

/-- Partition `j` on the pages. -/
def partition (S : KWayDistriSorter α) (vec : Nat → List (Block α)) (j : Nat) : List (Block α) :=
  gather S.partitionSize fun b => vec (j * S.partitionSize + b)

variable [SortKey α]

theorem sortPartition_perm (blocks : List (Block α)) :
    List.Perm (sortPartition blocks) (blocks.filter fun x => !x.dummyFlag) := by
  rw [sortPartition, (orCompact_tight _ blocks).takeWhile_eq]
  exact bitonicSortList_perm _ _

theorem mem_sortPartition {blocks : List (Block α)} {x : Block α} :
    x ∈ sortPartition blocks ↔ x ∈ blocks ∧ x.dummyFlag = false := by
  rw [(sortPartition_perm blocks).mem_iff, List.mem_filter, Bool.not_eq_true']

variable [IsStrictWeakOrder α SortKey.Lt] (heq : SortKey.EqIsIncomp α)

include heq in
theorem sortPartition_sorted {blocks : List (Block α)} (h : blocks.length ≤ 2 ^ 63) :
    (sortPartition blocks).Pairwise Block.Le := by
  rw [sortPartition, (orCompact_tight _ blocks).takeWhile_eq]
  exact bitonicSortList_sorted (Block.decides heq) ((List.length_filter_le _ _).trans h)

/-! ## The last layer -/

omit [SortKey α] [IsStrictWeakOrder α SortKey.Lt] in
theorem foldl_write (xs : List (Block α)) (io : InOut α) :
    xs.foldl (fun io x => InOut.vector.write x.data io) io =
      { io with written := io.written ++ xs.map Block.data } := by
  induction xs generalizing io with
  | nil => simp
  | cons x xs ih =>
    rw [List.foldl_cons, ih]
    simp [InOut.vector]

/-- The last layer after the first `k` partitions. -/
structure Output (S : KWayDistriSorter α) (s₁ : PState α) (k : Nat) (s : PState α) : Prop where
  vec : s.vec = s₁.vec
  partitions : s.partitions = s₁.partitions ++ (List.range k).map (S.partition s₁.vec)
  written : s.io.written =
    s₁.io.written ++ gather k fun j => (sortPartition (S.partition s₁.vec j)).map Block.data
  given : s.given = s₁.given

variable {uninit : Nat → Nat → List (Block α)}

omit [IsStrictWeakOrder α SortKey.Lt] in
/-- The last layer fetches the partitions, one after the other, and writes their elements out in
order. -/
theorem lastLayer_spec (hS : S.Valid) {s₁ : PState α} {E : Stop α _ (InOut α) → Prop} :
    Ends (S.Output s₁ S.distriParams.totalPartition) E
      (S.sortStrides InOut.vector (Vector.plain _) uninit (S.numTotalBucket * S.Z)
        S.distriParams.ways.length 0 1 s₁) := by
  have hlast : S.isLastLayer S.distriParams.ways.length = true := beq_self_eq_true _
  have hways : S.distriParams.ways.length ≠ 0 :=
    fun h => hS.ways_ne_nil (List.length_eq_zero_iff.1 h)
  have hw : S.numInternalWay S.distriParams.ways.length = S.partitionSize := by
    rw [numInternalWay, hlast, if_pos rfl]
  have hT : 1 * (S.distriParams.totalPartition * S.numInternalWay S.distriParams.ways.length) =
      S.numTotalBucket := by
    rw [hw, Nat.one_mul, hS.totalBucket]
  have hbegin := sortStrides_eq InOut.vector (Vector.plain _) uninit Nat.one_pos
    (hw ▸ hS.partitionSize_pos) hS.Z_pos hT hS.small s₁
  rw [Nat.zero_mul] at hbegin
  rw [hbegin, hlast]
  refine Ends.bind (forRange_ends (S.Output s₁) ⟨rfl, by simp [allocate], by simp [allocate], rfl⟩
    fun k hk s h => ?_) fun s h => ?_
  · have hlt : ∀ j < S.numInternalWay S.distriParams.ways.length,
        0 + (k * S.numInternalWay S.distriParams.ways.length + j) * 1 < S.numTotalBucket :=
          fun j hj => by
      rw [← hT]
      exact column_lt Nat.one_pos (grid_lt hk hj)
    rw [sortStride, fetchStride_eq hS.Z_pos hS.small hlt hways, ok_bind, hlast, if_pos rfl,
      outputPartition, foldl_write, hw]
    have hpart : gather S.partitionSize (putAll id
        (fun j => s.vec (0 + (k * S.partitionSize + j) * 1)) S.partitionSize s.batch) =
        S.partition s₁.vec k := gather_congr fun j hj => by
      refine (putAll_idx (fun _ _ _ _ h => h) hj).trans ?_
      rw [h.vec, Nat.zero_add, Nat.mul_one]
    refine ⟨h.vec, ?_, ?_, h.given⟩
    · dsimp only
      rw [hpart, h.partitions, List.range_succ, List.map_append, List.append_assoc]
      rfl
    · dsimp only
      rw [hpart, h.written, gather_succ, List.append_assoc]
  · rw [if_pos rfl]
    exact ⟨h.vec, h.partitions, h.written, h.given⟩

/-! ## All partitions -/

/-- The last layer has fetched the buckets of partition `j` from the pages, and their real elements
are greater than pivot `j - 1` and not greater than pivot `j`, where there are such pivots. -/
structure Partitioned (S : KWayDistriSorter α) (s : PState α) : Prop where
  fetched : s.partitions = (List.range S.distriParams.totalPartition).map (S.partition s.vec)
  above : ∀ j < S.distriParams.totalPartition, ∀ x ∈ S.partition s.vec j, x.dummyFlag = false →
    ∀ pivot, 0 < j → S.allPivots[j - 1]? = some pivot → pivot.lt x = true
  below : ∀ j < S.distriParams.totalPartition, ∀ x ∈ S.partition s.vec j, x.dummyFlag = false →
    ∀ pivot, S.allPivots[j]? = some pivot → pivot.lt x = false

/-- The pages of partition `j` contain the elements whose destination is `j`. -/
def PagesRouted (S : KWayDistriSorter α) (ents : Multiset (α × BitVec 32))
    (vec : Nat → List (Block α)) :
    Prop :=
  ∀ j < S.distriParams.totalPartition, contents (S.partition vec j) =
    unit (dest S.allPivots) 1 j ents

omit [SortKey α] [IsStrictWeakOrder α SortKey.Lt] in
theorem mem_contents {x : Block α} {xs : List (Block α)} (hx : x ∈ xs)
    (hreal : x.dummyFlag = false) :
    x.key ∈ contents xs :=
  Multiset.mem_coe.2 (List.mem_map_of_mem (List.mem_filter.2 ⟨hx, by simp [hreal]⟩))

omit [IsStrictWeakOrder α SortKey.Lt] in
theorem PagesRouted.dest_eq {ents : Multiset (α × BitVec 32)} {vec : Nat → List (Block α)}
    (h : S.PagesRouted ents vec) {j : Nat} (hj : j < S.distriParams.totalPartition) {x : Block α}
    (hx : x ∈ S.partition vec j) (hreal : x.dummyFlag = false) : dest S.allPivots x.key = j := by
  have hmem := mem_contents hx hreal
  rw [h j hj] at hmem
  simpa using (mem_unit.1 hmem).2

include heq in
theorem PagesRouted.partitioned (hS : S.Valid) {ents : Multiset (α × BitVec 32)} {s : PState α}
    (h : S.PagesRouted ents s.vec)
    (hfetched : s.partitions = (List.range S.distriParams.totalPartition).map (S.partition s.vec)) :
    S.Partitioned s where
  fetched := hfetched
  above j hj x hx hreal pivot h0 hpivot := by
    obtain ⟨hlt, rfl⟩ := List.getElem?_eq_some_iff.1 hpivot
    rw [pivot_lt_iff heq hS.pivots_sorted, h.dest_eq hj hx hreal]
    omega
  below j hj x hx hreal pivot hpivot := by
    obtain ⟨hlt, rfl⟩ := List.getElem?_eq_some_iff.1 hpivot
    rw [← Bool.not_eq_true, pivot_lt_iff heq hS.pivots_sorted, h.dest_eq hj hx hreal]
    omega

/-- What is written out. -/
def output (S : KWayDistriSorter α) (vec : Nat → List (Block α)) : List α :=
  gather S.distriParams.totalPartition fun j => (sortPartition (S.partition vec j)).map Block.data

include heq in
/-- Sorted partitions between pivots are sorted together. -/
theorem PagesRouted.sorted (hS : S.Valid) {ents : Multiset (α × BitVec 32)}
    {vec : Nat → List (Block α)} (h : S.PagesRouted ents vec) (hp : ∀ p, (vec p).length = S.Z) :
    (S.output vec).Pairwise SortKey.Le := by
  have hdata : ∀ {x y : Block α}, x.Le y → SortKey.Le x.data y.data := fun h => (Block.le_iff.1 h).1
  refine pairwise_gather (fun j hj => List.pairwise_map.2 ?_) fun i j hij hj x hx y hy => ?_
  · refine (sortPartition_sorted heq ?_).imp hdata
    have hlen : (S.partition vec j).length = S.partitionSize * S.Z := length_gather fun b _ => hp _
    have hle : S.partitionSize * S.Z ≤ S.numTotalBucket * S.Z := by
      refine Nat.mul_le_mul_right _ ?_
      rw [hS.totalBucket]
      exact Nat.le_mul_of_pos_left _ (by omega)
    have := hS.small
    omega
  · obtain ⟨a, ha, rfl⟩ := List.mem_map.1 hx
    obtain ⟨b, hb, rfl⟩ := List.mem_map.1 hy
    obtain ⟨ha, har⟩ := mem_sortPartition.1 ha
    obtain ⟨hb, hbr⟩ := mem_sortPartition.1 hb
    -- pivot `i` stands between them
    have hi : i < S.allPivots.length := by
      rw [hS.pivots_length]
      omega
    have hai : S.allPivots[i].lt a = false := by
      rw [← Bool.not_eq_true, pivot_lt_iff heq hS.pivots_sorted, h.dest_eq (by omega) ha har]
      omega
    have hbi : S.allPivots[i].lt b = true := by
      rw [pivot_lt_iff heq hS.pivots_sorted, h.dest_eq hj hb hbr]
      exact hij
    have ho := Block.decides heq
    exact hdata (ho.trans _ _ _ (ho.le_of_not _ _ hai) (ho.le_of_cmp _ _ hbi))

omit [SortKey α] [IsStrictWeakOrder α SortKey.Lt] in
theorem coe_gather {β : Type} (n : Nat) (f : Nat → List β) :
    (gather n f : Multiset β) = ∑ j ∈ Finset.range n, (f j : Multiset β) := by
  induction n with
  | zero => rfl
  | succ n ih => rw [gather_succ, ← Multiset.coe_add, ih, Finset.sum_range_succ]

omit [IsStrictWeakOrder α SortKey.Lt] in
theorem sortPartition_data (blocks : List (Block α)) :
    ((sortPartition blocks).map Block.data : Multiset α) = (contents blocks).map Prod.fst := by
  rw [contents, Multiset.map_coe, List.map_map]
  exact Multiset.coe_eq_coe.2 ((sortPartition_perm blocks).map Block.data)

omit [IsStrictWeakOrder α SortKey.Lt] in
theorem PagesRouted.output_eq (hS : S.Valid) {ents : Multiset (α × BitVec 32)}
    {vec : Nat → List (Block α)} (h : S.PagesRouted ents vec) :
    (S.output vec : Multiset α) = ents.map Prod.fst := by
  have hlt : ∀ y ∈ ents, dest S.allPivots y / 1 < S.distriParams.totalPartition := fun y _ => by
    have hle := dest_le S.allPivots y
    have hpos := hS.totalPartition_pos
    rw [hS.pivots_length] at hle
    omega
  calc (S.output vec : Multiset α)
      = ∑ j ∈ Finset.range S.distriParams.totalPartition,
          (unit (dest S.allPivots) 1 j ents).map Prod.fst := by
        rw [output, coe_gather]
        exact Finset.sum_congr rfl fun j hj => by
          rw [sortPartition_data, h j (Finset.mem_range.1 hj)]
    _ = (∑ j ∈ Finset.range S.distriParams.totalPartition, unit (dest S.allPivots) 1 j ents).map
          Prod.fst := (map_sum (Multiset.mapAddMonoidHom Prod.fst) _ _).symm
    _ = ents.map Prod.fst := by rw [sum_units, Multiset.filter_eq_self.2 hlt]

/-! ## A whole sort -/

omit [SortKey α] [IsStrictWeakOrder α SortKey.Lt] in
/-- The input elements are given one after the other. -/
theorem given_rest_keeps (xs : List α) : ReadKeeps (σ := Nat → List (Block α)) S InOut.vector
    (fun s => s.given.map Block.data ++ s.io.rest.map Prod.fst = xs) fun _ => True where
  frame s s' hs h := by rw [h.io, h.given]; exact hs
  read it s hs heof := by
    cases hrest : s.io.rest with
    | nil => simp [InOut.vector, hrest] at heof
    | cons x rest =>
      obtain ⟨block, s', hread, -, hdata, hgiven, hrest', -⟩ := readBlock_spec (S := S) it hrest
      rw [hread, ends_ok, ← hs, hgiven, hrest', hrest]
      simp [hdata]
  abort _ _ _ _ := trivial

/-- What the layers before the last one leave: all of the input is on the pages, by destination. -/
structure Distributed (S : KWayDistriSorter α) (s s₁ : PState α) : Prop where
  ents : ∃ ents, S.PagesRouted ents s₁.vec ∧ ents + givenKeys s = givenKeys s₁
  rest : s₁.io.rest = s.io.rest.drop (S.numTotalBucket * S.numRealPerBucket)
  data : s₁.given.map Block.data ++ s₁.io.rest.map Prod.fst =
    s.given.map Block.data ++ s.io.rest.map Prod.fst
  paged : S.Paged s₁
  partitions : s₁.partitions = s.partitions
  written : s₁.io.written = s.io.written

include heq in
/-- The calls of the last layer for its columns. -/
theorem layers_spec (hS : S.Valid) (huninit : ∀ n p, (uninit n p).length = S.Z) {l : Nat}
    (hl : S.distriParams.ways.length = l + 1) {s : PState α} (hp : S.Paged s) :
    Ends (S.Distributed s) (S.StopsOn 0 s) (forRange S.partitionSize
      (fun i => S.KWayDistriSort InOut.vector (Vector.plain _) uninit (S.numTotalBucket * S.Z) l
        ((0 + i * 1 * S.Z) % 2 ^ 64) (1 * S.partitionSize)) s) := by
  have hpages : S.rangePages l = S.distriParams.totalPartition := by
    rw [hS.totalPartition, rangePages, ← hl, List.take_length]
  have hcols : Ends (S.ColumnPages 1 0 1 S.partitionSize S.distriParams.totalPartition
    S.partitionSize s)
      (S.StopsOn 0 s) (forRange S.partitionSize
        (fun i => S.KWayDistriSort InOut.vector (Vector.plain _)
        uninit (S.numTotalBucket * S.Z) l ((0 + i * 1 * S.Z) % 2 ^ 64)
        (1 * S.partitionSize)) s) := by
    refine columns_spec Nat.one_pos (fun i hi s hp => ?_) hp
    have hlt : 0 + i * 1 < S.numTotalBucket := by
      rw [hS.totalBucket, Nat.zero_add, Nat.mul_one]
      exact hi.trans_le (Nat.le_mul_of_pos_left _ hS.totalPartition_pos)
    have hbegin := begin_eq hlt hS.small
    rw [Nat.zero_mul] at hbegin
    rw [hbegin, ← hpages]
    exact KWayDistriSort_routed heq hS huninit (by omega) Nat.one_pos (Nat.mul_comm _ _)
      (by rw [hpages, Nat.mul_one]) (column_lt Nat.one_pos hi) hp
  have hdata : Ends (fun s' => s'.given.map Block.data ++ s'.io.rest.map Prod.fst =
      s.given.map Block.data ++ s.io.rest.map Prod.fst) (fun _ => True) (forRange S.partitionSize
        (fun i => S.KWayDistriSort InOut.vector (Vector.plain _) uninit (S.numTotalBucket * S.Z) l
          ((0 + i * 1 * S.Z) % 2 ^ 64) (1 * S.partitionSize)) s) :=
    forRange_ends (fun _ (s' : PState α) => s'.given.map Block.data ++ s'.io.rest.map Prod.fst =
      s.given.map Block.data ++ s.io.rest.map Prod.fst) rfl fun i _ s' hs' =>
        (given_rest_keeps _).layers (by omega) hs'
  refine (hcols.and hdata).mono ?_ fun e he => he.1
  rintro s₁ ⟨⟨ents, h₁, hcol⟩, hdata⟩
  refine ⟨⟨ents, fun j hj => ?_, h₁.ents⟩, ?_, hdata, h₁.paged, h₁.partitions, h₁.written⟩
  · have := hcol j hj
    simp only [Nat.zero_add, Nat.mul_one] at this
    rw [partition, contents_gather, this]
  · rw [h₁.rest, hS.totalBucket, Nat.mul_comm S.partitionSize]

include heq in
/-- The last layer sorts what has been distributed. -/
theorem Distributed.sorts (hS : S.Valid) {s s₁ s₂ : PState α} (h₁ : S.Distributed s s₁)
    (h₂ : S.Output s₁ S.distriParams.totalPartition s₂) (hgiven : s.given = [])
    (hpartitions : s.partitions = []) (hwritten : s.io.written = [])
    (hinput : s.io.rest.length ≤ S.numTotalBucket * S.numRealPerBucket) :
    S.Partitioned s₂ ∧ SortedPerm (s.io.rest.map Prod.fst) s₂.io.written := by
  obtain ⟨ents, hrouted, hents⟩ := h₁.ents
  have hout : s₂.io.written = S.output s₁.vec := by
    rw [h₂.written, h₁.written, hwritten, List.nil_append]
    rfl
  refine ⟨?_, ?_, ?_⟩
  · refine PagesRouted.partitioned heq hS (h₂.vec ▸ hrouted) ?_
    rw [h₂.partitions, h₁.partitions, hpartitions, h₂.vec, List.nil_append]
  · have hkeys : ents = (s₁.given.map Block.key : List _) := by
      rw [givenKeys, hgiven] at hents
      simpa [givenKeys] using hents
    have hdata := h₁.data
    rw [h₁.rest, List.drop_eq_nil_of_le hinput, hgiven] at hdata
    have hcoe := hrouted.output_eq hS
    rw [hkeys, Multiset.map_coe, List.map_map] at hcoe
    rw [hout]
    refine (Multiset.coe_eq_coe.1 hcoe).trans (List.Perm.of_eq ?_)
    change s₁.given.map Block.data = _
    simpa using hdata
  · rw [hout]
    exact hrouted.sorted heq hS h₁.paged

include heq in
/-- **A whole sort** leaves every partition between its pivots and writes out a sorted permutation
of the input, or stops at a merge-split of `Z` or more real elements. -/
theorem sort_ends (hS : S.Valid) (huninit : ∀ n p, (uninit n p).length = S.Z)
    {input : List (α × Nat)}
    (hinput : input.length ≤ S.numTotalBucket * S.numRealPerBucket) (inputCount : BitVec 64)
    {vec : Nat → List (Block α)} (hvec : ∀ p, (vec p).length = S.Z) :
    Ends (fun s => S.Partitioned s ∧ SortedPerm (input.map Prod.fst) s.io.written)
      (fun e => e.1 = .mergeSplit ∧ S.Z ≤ e.2.given.length)
      (S.sort InOut.vector (Vector.plain _) uninit (.start ⟨input, []⟩ inputCount vec)) := by
  obtain ⟨l, hl⟩ : ∃ l, S.distriParams.ways.length = l + 1 :=
    Nat.exists_eq_succ_of_ne_zero fun h => hS.ways_ne_nil (List.length_eq_zero_iff.1 h)
  have hlast : S.isLastLayer (l + 1) = true := beq_iff_eq.2 hl.symm
  have hw : S.numInternalWay (l + 1) = S.partitionSize := by
    rw [numInternalWay, hlast, if_pos rfl]
  have hsmall := hS.small
  rw [sort, Nat.mod_eq_of_lt (by omega), hl, KWayDistriSort, hw]
  refine Ends.bind ((layers_spec heq hS huninit hl
    (show S.Paged (State.start ⟨input, []⟩ inputCount vec) from hvec)).mono (fun _ h => h)
    fun e he => ⟨he.1, ?_⟩) fun s₁ h₁ => ?_
  · have := he.2
    simp only [Multiset.card_zero, State.start, List.length_nil] at this
    omega
  · rw [← hl]
    exact (lastLayer_spec hS).mono (fun s₂ h₂ => h₁.sorts heq hS h₂ rfl rfl rfl hinput)
      fun _ he => he

end KWayDistriSorter

/-! ## Parameters -/

/-- Parameters for an input of `N` elements: a nested list of ways from 2 to 8, whose product is the
number of partitions, partitions of one size, and buckets of a power of two that hold their elements
of the input. -/
structure DistriParams.Valid (params : DistriParams) (N : Nat) : Prop where
  ways_ne_nil : params.ways ≠ []
  inner_ne_nil : ∀ ws ∈ params.ways, ws ≠ []
  way_range : ∀ ws ∈ params.ways, ∀ way ∈ ws, 2 ≤ way ∧ way ≤ 8
  totalPartition : params.totalPartition = (params.ways.map List.prod).prod
  totalBucket : ∃ partitionSize, 1 ≤ partitionSize ∧
    params.totalBucket = params.totalPartition * partitionSize
  Z : ∃ m, 1 ≤ m ∧ params.Z = 2 ^ m
  real_le : divRoundUp N params.totalBucket ≤ params.Z

theorem DistriParams.Valid.totalPartition_pos {params : DistriParams} {N : Nat}
    (h : params.Valid N) :
    0 < params.totalPartition := by
  rw [h.totalPartition]
  exact prod_pos_of_nested_ways h.way_range

variable {α : Type}

/-- The sorter of an input with at least one element. -/
theorem KWayDistriSorter.new_valid [SortKey α] (preshuffled : Bool) {params : DistriParams}
    {N : Nat} {pivots : List (Block α)} (hv : params.Valid N) (hN : 0 < N)
    (hpivots : pivots.length = params.totalPartition - 1) (hsorted : pivots.Pairwise Block.Le)
    (hsmall : params.totalBucket * params.Z < 2 ^ 31) :
    (KWayDistriSorter.new preshuffled params N pivots).Valid ∧
      N ≤ params.totalBucket *
        (KWayDistriSorter.new preshuffled params N pivots).numRealPerBucket := by
  obtain ⟨partitionSize, hpos, hT⟩ := hv.totalBucket
  have htp := hv.totalPartition_pos
  have hsize : (KWayDistriSorter.new preshuffled params N pivots).partitionSize =
    partitionSize := by
    rw [KWayDistriSorter.partitionSize]
    change params.totalBucket / params.totalPartition = _
    rw [hT, Nat.mul_div_cancel_left _ htp]
  have hTpos : 0 < params.totalBucket := hT ▸ Nat.mul_pos htp hpos
  have hreal : (KWayDistriSorter.new preshuffled params N pivots).numRealPerBucket =
      divRoundUp N params.totalBucket := by
    change 1 + (N - 1) / params.totalBucket = _
    rw [divRoundUp, show N + params.totalBucket - 1 = N - 1 + params.totalBucket by omega,
      Nat.add_div_right _ hTpos, Nat.add_comm]
  exact ⟨⟨hv.ways_ne_nil, hv.inner_ne_nil, hv.way_range, hv.totalPartition, hsize ▸ hpos,
    hsize ▸ hT, hv.Z,
    hreal ▸ hv.real_le, hpivots, hsorted, hsmall⟩, hreal ▸ (divRoundUp_le_iff hTpos).1
      (Nat.le_refl _)⟩

/-- **The distribution sorter** leaves every partition between its pivots and writes out a sorted
permutation of its input, unless a merge-split aborts, when all positions fit into an `int`. -/
theorem distriSort_sorts [SortKey α] [IsStrictWeakOrder α SortKey.Lt] (heq : SortKey.EqIsIncomp α)
    {params : DistriParams} {input : List (α × Nat)} {pivots : List (Block α)}
    (hv : params.Valid input.length) (hinput : input ≠ [])
    (hpivots : pivots.length = params.totalPartition - 1) (hsorted : pivots.Pairwise Block.Le)
    (preshuffled : Bool) (inputCount : BitVec 64) {uninit : Nat → Nat → List (Block α)}
    (huninit : ∀ n p, (uninit n p).length = params.Z) {vec : Nat → List (Block α)}
    (hvec : ∀ p, (vec p).length = params.Z) (hsmall : params.totalBucket * params.Z < 2 ^ 31) :
    Ends (fun s => (KWayDistriSorter.new preshuffled params input.length pivots).Partitioned s ∧
        SortedPerm (input.map Prod.fst) s.io.written)
      (fun e => e.1 = .mergeSplit)
      ((KWayDistriSorter.new preshuffled params input.length pivots).sort InOut.vector
        (Vector.plain _) uninit (.start ⟨input, []⟩ inputCount vec)) := by
  obtain ⟨hS, hle⟩ := KWayDistriSorter.new_valid preshuffled hv
    (List.length_pos_iff.2 hinput) hpivots hsorted hsmall
  exact (KWayDistriSorter.sort_ends heq hS huninit hle inputCount hvec).mono (fun _ h => h)
    fun _ he => he.1

/-! ### Two partitions -/

/-- One layer of two ways: two partitions of `partitionSize` buckets, with two elements each. -/
def twoPartitions (partitionSize : Nat) : DistriParams := ⟨[[2]], 2, 2, 2 * partitionSize⟩

theorem twoPartitions_valid {partitionSize N : Nat} (h : 1 ≤ partitionSize)
    (hN : N ≤ 4 * partitionSize) :
    (twoPartitions partitionSize).Valid N where
  ways_ne_nil := by simp [twoPartitions]
  inner_ne_nil := by simp [twoPartitions]
  way_range := by simp [twoPartitions]
  totalPartition := rfl
  totalBucket := ⟨partitionSize, h, rfl⟩
  Z := ⟨1, by decide, rfl⟩
  real_le := by
    change divRoundUp N (2 * partitionSize) ≤ 2
    rw [divRoundUp_le_iff (by omega)]
    omega

/-- A pivot that is an element of the input. -/
def onePivot : List (Block SortElement) := [⟨⟨6, []⟩, 2, false, false⟩]

/-- Buckets with a zero element. -/
def zeroBlocks (_ : Nat) : List (Block SortElement) := List.replicate 2 ⟨⟨0, []⟩, 0, false, false⟩

/-- Three elements in two partitions of one bucket. -/
theorem distriSort_sorts_three :
    Ends (fun s => (KWayDistriSorter.new true (twoPartitions 1) 3 onePivot).Partitioned s ∧
        SortedPerm [⟨7, []⟩, ⟨5, []⟩, ⟨6, []⟩] s.io.written)
      (fun e => e.1 = .mergeSplit)
      ((KWayDistriSorter.new true (twoPartitions 1) 3 onePivot).sort InOut.vector (Vector.plain _)
        (fun _ => zeroBlocks)
        (.start ⟨[(⟨7, []⟩, 0), (⟨5, []⟩, 1), (⟨6, []⟩, 2)], []⟩ 0 zeroBlocks)) :=
  distriSort_sorts SortElement.eqIsIncomp (twoPartitions_valid (Nat.le_refl 1) (by decide))
    (show [(⟨7, []⟩, 0), (⟨5, []⟩, 1), (⟨6, []⟩, 2)] ≠ [] by simp) rfl
      (List.pairwise_singleton ..) true 0
    (fun _ _ => rfl) (fun _ => rfl) (show 2 * 1 * 2 < 2 ^ 31 by decide)

/-- Why a sort stops. -/
def stopReason {α σ ρ : Type} :
    Except (KWayDistriSorter.Stop α σ ρ) (KWayDistriSorter.State α σ ρ) →
    Option DistriAbort
  | .ok _ => none
  | .error e => some e.1

/-- A sorter stops where the first call of its last layer stops. -/
theorem KWayDistriSorter.sort_stops [SortKey α] {σ ρ : Type} (S : KWayDistriSorter α)
    (I : IOVector ρ α)
    (V : Vector σ (List (Block α))) (uninit : Nat → Nat → List (Block α)) (s : State α σ ρ)
    (reason : DistriAbort) {l : Nat} (hways : S.distriParams.ways.length = l + 1)
    (hw : 0 < S.numInternalWay (l + 1))
    (h : stopReason (S.KWayDistriSort I V uninit (S.numTotalBucket * S.Z % 2 ^ 64) l 0
      (S.numInternalWay (l + 1)) s) = some reason) :
    ∃ e, S.sort I V uninit s = .error e ∧ e.1 = reason := by
  have hbegin : (0 + 0 * 1 * S.Z) % 2 ^ 64 = 0 := by simp
  cases hcall : S.KWayDistriSort I V uninit (S.numTotalBucket * S.Z % 2 ^ 64) l 0
      (S.numInternalWay (l + 1)) s with
  | ok s =>
    rw [hcall] at h
    cases h
  | error e =>
    rw [hcall] at h
    refine ⟨e, ?_, Option.some.inj h⟩
    rw [sort, hways, KWayDistriSort]
    rw [forRange_eq_error hw (by rw [hbegin, Nat.one_mul]; exact hcall)]
    rfl

/-- A vector of `2 ^ 32` elements: the first layer never reaches the end of its loop over the
strides, and has no pivots for a second round. -/
theorem distriSort_stride_cut :
    (twoPartitions (2 ^ 30)).Valid 1 ∧
    ¬ Ends (fun s => (KWayDistriSorter.new true (twoPartitions (2 ^ 30)) 1 onePivot).Partitioned s ∧
        SortedPerm [⟨5, []⟩] s.io.written)
      (fun e => e.1 = .mergeSplit)
      ((KWayDistriSorter.new true (twoPartitions (2 ^ 30)) 1 onePivot).sort InOut.vector
        (Vector.plain _) (fun _ => zeroBlocks) (.start ⟨[(⟨5, []⟩, 0)], []⟩ 0 zeroBlocks)) := by
  refine ⟨twoPartitions_valid (by decide) (by decide), ?_⟩
  obtain ⟨e, he, hreason⟩ :=
    KWayDistriSorter.sort_stops (.new true (twoPartitions (2 ^ 30)) 1 onePivot)
    InOut.vector (Vector.plain _) (fun _ => zeroBlocks) (.start ⟨[(⟨5, []⟩, 0)], []⟩ 0 zeroBlocks)
    .pivot rfl (by decide +kernel) (by decide +kernel)
  rw [he, ends_error, hreason]
  decide

end EM.Algorithm
