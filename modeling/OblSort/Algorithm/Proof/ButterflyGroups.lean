import OblSort.Algorithm.Proof.ButterflyKeeps
import OblSort.Algorithm.Proof.ButterflyShuffle
import OblSort.Algorithm.Proof.ExtMergeSort
import OblSort.Algorithm.Proof.PartitionDummy

/-!
# The groups of the butterfly sort

At the last layer a sort collects `batchPerEnclave` batches in the buffer and then hands them to
`partitionDummy`, sorts their real elements and writes them out. What is written is determined by
the groups that were handed over (`groupOutput`), and the groups hold what entered the last layer
(`Grouped`), whatever the tags.
-/

namespace EM.Algorithm.ButterflySorter

open EM.DynamicPageVector Loop Store

variable {α σ : Type} {S : ButterflySorter}

/-! ## One group -/

/-- What a group writes out. -/
def groupOutput (stdSort : List (TaggedT α) → List (TaggedT α)) (group : List (TaggedT α)) :
    List α :=
  match partitionDummy TaggedT.isDummy group with
  | none => []
  | some (xs, realEnd) => (stdSort (xs.take realEnd)).map TaggedT.v

/-- A group of `n` buckets has been handed over. -/
structure GroupStep (S : ButterflySorter) (stdSort : List (TaggedT α) → List (TaggedT α)) (n : Nat)
    (s s' : State α σ) : Prop where
  handed : s'.handed = s.handed ++ [gather n s.batch]
  written : s'.written = s.written ++ groupOutput stdSort (gather n s.batch)
  mergeSortRanges : s'.mergeSortRanges = if S.singleBatch then s.mergeSortRanges else
    s.mergeSortRanges ++ segments s.written.length [groupOutput stdSort (gather n s.batch)]
  vec : s'.vec = s.vec
  sized : S.Sized s'

/-- The sort permutes its range. -/
def Permutes (stdSort : List (TaggedT α) → List (TaggedT α)) : Prop :=
  ∀ xs, List.Perm (stdSort xs) xs

/-- A group with a dummy and a real element. -/
structure Mixed (group : List (TaggedT α)) : Prop where
  dummy : ∃ x ∈ group, x.isDummy = true
  real : ∃ x ∈ group, x.isDummy = false

/-- What a mixed group writes out: its real elements, in order. -/
theorem groupOutput_mixed {stdSort : List (TaggedT α) → List (TaggedT α)}
    (hsort : Permutes stdSort) {group : List (TaggedT α)} (h : Mixed group) :
    List.Perm (groupOutput stdSort group) (realData group) ∧ groupOutput stdSort group ≠ [] ∧
      ∃ xs, groupOutput stdSort group = (stdSort xs).map TaggedT.v := by
  obtain ⟨x, hx, -⟩ := h.dummy
  obtain ⟨ys, e, hrun, hperm, hsplit⟩ :=
    @partitionDummy_spec _ TaggedT.isDummy _ (List.ne_nil_of_mem hx)
  have hout : groupOutput stdSort group = (stdSort (ys.take e)).map TaggedT.v := by
    rw [groupOutput, hrun]
  have hdata : List.Perm (groupOutput stdSort group) (realData group) := by
    rw [hout, realData, ← (hsplit h.dummy).filter]
    exact ((hsort _).trans (hperm.filter _)).map _
  refine ⟨hdata, fun hnil => ?_, _, hout⟩
  obtain ⟨y, hy, hreal⟩ := h.real
  have hmem : y.v ∈ realData group :=
    List.mem_map_of_mem (List.mem_filter.2 ⟨hy, by rw [hreal]; rfl⟩)
  rw [hnil] at hdata
  rw [← hdata.nil_eq] at hmem
  cases hmem

theorem length_gather_batch {n : Nat} {s : State α σ} (hs : S.Sized s) :
    (gather n s.batch).length = n * S.Z :=
  length_gather fun i _ => hs i

theorem outputGroup_ends {stdSort : List (TaggedT α) → List (TaggedT α)} (hsort : Permutes stdSort)
    (hZ : 0 < S.Z) {n : Nat} (hn : 0 < n) {s : State α σ} (hs : S.Sized s)
    {E : Stop α σ → Prop} : Ends (S.GroupStep stdSort n s) E (S.outputGroup stdSort n s) := by
  have hlen := length_gather_batch (n := n) hs
  have hne : gather n s.batch ≠ [] := List.length_pos_iff.1 (by rw [hlen]; exact Nat.mul_pos hn hZ)
  obtain ⟨xs, e, hrun, hperm, -⟩ := @partitionDummy_spec _ TaggedT.isDummy _ hne
  have hout : groupOutput stdSort (gather n s.batch) = (stdSort (xs.take e)).map TaggedT.v := by
    rw [groupOutput, hrun]
  rw [outputGroup]
  dsimp only
  rw [hrun]
  refine ⟨rfl, by rw [hout], ?_, rfl, fun p => ?_⟩
  · dsimp only
    rw [hout, List.length_append]
    rfl
  · dsimp only
    have hall : (stdSort (xs.take e) ++ xs.drop e).length = n * S.Z := by
      rw [List.length_append, (hsort _).length_eq, ← List.length_append, List.take_append_drop,
        hperm.length_eq, hlen]
    split
    · rename_i hp
      have hle : (p + 1) * S.Z ≤ n * S.Z := Nat.mul_le_mul_right _ hp
      rw [Nat.succ_mul] at hle
      rw [List.length_take, List.length_drop, hall]
      omega
    · exact hs p

/-! ## The groups of the last layer -/

/-- How a count of batches falls into blocks of `b`. -/
theorem block_cases {b : Nat} (hb : 0 < b) (n : Nat) :
    (n % b + 1 < b ∧ (n + 1) % b = n % b + 1 ∧ (n + 1) / b = n / b) ∨
      (n % b + 1 = b ∧ (n + 1) % b = 0 ∧ (n + 1) / b = n / b + 1) := by
  have hn := Nat.div_add_mod n b
  have hlt := Nat.mod_lt n hb
  by_cases h : n % b + 1 < b
  · have hn' : n + 1 = (n % b + 1) + b * (n / b) := by omega
    refine .inl ⟨h, ?_, ?_⟩
    · rw [hn', Nat.add_mul_mod_self_left, Nat.mod_eq_of_lt h]
    · conv_lhs => rw [hn', Nat.add_mul_div_left _ _ hb, Nat.div_eq_of_lt h, Nat.zero_add]
  · have hn' : n + 1 = b * (n / b + 1) := by rw [Nat.mul_add, Nat.mul_one]; omega
    refine .inr ⟨by omega, ?_, ?_⟩
    · rw [hn', Nat.mul_mod_right]
    · conv_lhs => rw [hn', Nat.mul_div_cancel_left _ hb]

/-- The batches in the buffer that have not been handed over after `n` of `F`. -/
def pending (b F n : Nat) : Nat := if n = F then 0 else n % b

/-- The groups that have been handed over after `n` batches of `F`. -/
def groupCount (b F n : Nat) : Nat := if n = F then divRoundUp F b else n / b

/-- After `n` batches of the last layer, where `cols j` are the elements of batch `j`. -/
structure Grouped (S : ButterflySorter) (stdSort : List (TaggedT α) → List (TaggedT α))
    (b F W n : Nat) (cols : Nat → List α) (s s' : State α σ) : Prop where
  count : s'.handed.length = groupCount b F n
  group : ∀ g (hg : g < s'.handed.length), List.Perm (realData s'.handed[g])
    (gather (min b (F - g * b)) fun i => cols (g * b + i))
  size : ∀ group ∈ s'.handed, W * S.Z ≤ group.length
  pend : List.Perm (rangeData 0 (pending b F n * W) s'.batch)
    (gather (pending b F n) fun i => cols (n - pending b F n + i))
  written : s'.written = (s'.handed.map (groupOutput stdSort)).flatten
  mergeSortRanges : s'.mergeSortRanges =
    if S.singleBatch then [] else segments 0 (s'.handed.map (groupOutput stdSort))
  vec : s'.vec = s.vec
  sized : S.Sized s'

/-- Nothing has been written out yet. -/
structure Fresh (s : State α σ) : Prop where
  written : s.written = []
  mergeSortRanges : s.mergeSortRanges = []
  handed : s.handed = []

theorem Fresh.same {s s' : State α σ} (h : Fresh s) (hsame : SameOutput s s') : Fresh s' where
  written := hsame.written.trans h.written
  mergeSortRanges := hsame.mergeSortRanges.trans h.mergeSortRanges
  handed := hsame.handed.trans h.handed

theorem Grouped.start {stdSort : List (TaggedT α) → List (TaggedT α)} {b F W : Nat} (hF : 0 < F)
    {cols : Nat → List α} {s : State α σ} (hs : S.Sized s) (hfresh : Fresh s) :
    S.Grouped stdSort b F W 0 cols s s := by
  have hpend : pending b F 0 = 0 := by rw [pending, if_neg (by omega), Nat.zero_mod]
  refine ⟨?_, fun g hg => ?_, fun group hg => ?_, ?_, ?_, ?_, rfl, hs⟩
  · rw [hfresh.handed, groupCount, if_neg (by omega), Nat.zero_div]
    rfl
  · rw [hfresh.handed] at hg
    cases hg
  · rw [hfresh.handed] at hg
    cases hg
  · rw [hpend, Nat.zero_mul]
    exact .refl _
  · rw [hfresh.handed, hfresh.written]
    rfl
  · rw [hfresh.handed, hfresh.mergeSortRanges]
    split <;> rfl

/-- All groups together hold what entered. -/
theorem Grouped.data {stdSort : List (TaggedT α) → List (TaggedT α)} {b F W : Nat} (hb : 0 < b)
    {cols : Nat → List α} {s s' : State α σ} (h : S.Grouped stdSort b F W F cols s s') :
    List.Perm (s'.handed.map realData).flatten (gather F cols) := by
  have hcount : s'.handed.length = divRoundUp F b := by rw [h.count, groupCount, if_pos rfl]
  have hle : F ≤ s'.handed.length * b := by
    rw [hcount, Nat.mul_comm]
    exact (divRoundUp_le_iff hb).1 (Nat.le_refl _)
  rw [← gather_blocks hle, flatten_eq_flatMap_getD, List.length_map]
  refine gather_perm fun g hg => ?_
  rw [List.getD_eq_getElem _ _ (by rwa [List.length_map]), List.getElem_map]
  exact h.group g hg

theorem tagSort_perm (bucket : List (TaggedT α)) : List.Perm (tagSort bucket) bucket :=
  bitonicSortList_perm _ bucket

theorem realData_perm {xs ys : List (TaggedT α)} (h : List.Perm xs ys) :
    List.Perm (realData xs) (realData ys) :=
  (h.filter _).map _

/-- The buckets of a batch in the order of their tags. -/
def sortTags (batchBegin W : Nat) (m : Nat → List (TaggedT α)) : Nat → List (TaggedT α) :=
  putAll (batchBegin + ·) (fun i => tagSort (m (batchBegin + i))) W m

theorem sortTags_realData (batchBegin W : Nat) (m : Nat → List (TaggedT α)) (p : Nat) :
    List.Perm (realData (sortTags batchBegin W m p)) (realData (m p)) := by
  by_cases hp : ∃ i < W, batchBegin + i = p
  · obtain ⟨i, hi, rfl⟩ := hp
    rw [sortTags, putAll_idx (fun i _ j _ h => by omega) hi]
    exact realData_perm (tagSort_perm _)
  · rw [sortTags, putAll_of_ne fun i hi h => hp ⟨i, hi, h⟩]

/-- What a sort does with a batch at the last layer. -/
theorem outputBatch_sort (ht : S.task = .kWayButterflyOSort)
    (stdSort : List (TaggedT α) → List (TaggedT α)) (ioLayer batchCount n batchBegin : Nat)
    (s : State α σ) :
    ∃ lastBuckets, S.outputBatch stdSort ioLayer batchCount n batchBegin s =
      if n % S.batchPerEnclave ioLayer = S.batchPerEnclave ioLayer - 1 ∨ n = batchCount - 1 then
        S.outputGroup stdSort ((S.waysOf ioLayer).prod * if n = batchCount - 1 then
          n % S.batchPerEnclave ioLayer + 1 else S.batchPerEnclave ioLayer) { s with
            lastBuckets, batch := sortTags batchBegin (S.waysOf ioLayer).prod s.batch }
      else .ok { s with
        lastBuckets, batch := sortTags batchBegin (S.waysOf ioLayer).prod s.batch } := by
  have hnil : ∀ f : Nat → List (TaggedT α),
      (gather (S.waysOf ioLayer).prod fun i => S.output (f i)) = [] := fun f => by
    rw [gather, List.flatMap_eq_nil_iff]
    intro i _
    rw [output, ht]
  refine ⟨putAll (fun i => n + S.fetchInterval ioLayer * i) (fun i => s.batch (batchBegin + i))
    (S.waysOf ioLayer).prod s.lastBuckets, ?_⟩
  rw [outputBatch, getVecProduct_eq]
  dsimp only
  rw [outputBuckets_eq, ok_bind, ht, hnil, List.append_nil]
  rfl

/-- The pending batches are handed over. -/
theorem Grouped.hand {stdSort : List (TaggedT α) → List (TaggedT α)} {b F W n : Nat} (hb : 0 < b)
    (hn : n < F) (hfull : n % b + 1 = b ∨ n + 1 = F) {cols : Nat → List α} {s s₁ s₂ s₃ : State α σ}
    (h : S.Grouped stdSort b F W n cols s s₁) (hvec : s₂.vec = s₁.vec)
    (hwritten : s₂.written = s₁.written) (hranges : s₂.mergeSortRanges = s₁.mergeSortRanges)
    (hhanded : s₂.handed = s₁.handed)
    (hdata : List.Perm (rangeData 0 ((n % b + 1) * W) s₂.batch)
      (gather (n % b + 1) fun i => cols (n - n % b + i)))
    (hsized : S.Sized s₂) (h₃ : S.GroupStep stdSort ((n % b + 1) * W) s₂ s₃) :
    S.Grouped stdSort b F W (n + 1) cols s s₃ := by
  have hcount : s₁.handed.length = n / b := by rw [h.count, groupCount, if_neg (by omega)]
  have hdiv : n / b * b = n - n % b := by
    have := Nat.div_add_mod n b
    rw [Nat.mul_comm]
    omega
  have hmod := Nat.mod_lt n hb
  have hle := Nat.mod_le n b
  have hpend : pending b F (n + 1) = 0 := by
    rw [pending]
    split
    · rfl
    · obtain ⟨h1, -⟩ | ⟨-, h2, -⟩ := block_cases hb n
      · omega
      · exact h2
  have hnew : s₃.handed = s₁.handed ++ [gather ((n % b + 1) * W) s₂.batch] := by
    rw [h₃.handed, hhanded]
  rw [h.written] at hwritten
  refine ⟨?_, fun g hg => ?_, fun group hg => ?_, ?_, ?_, ?_, by rw [h₃.vec, hvec, h.vec], h₃.sized⟩
  · rw [hnew, List.length_append, hcount, groupCount, List.length_singleton]
    split
    · rename_i hF
      rw [divRoundUp, ← hF, show n + 1 + b - 1 = n + b by omega, Nat.add_div_right _ hb]
    · obtain ⟨h1, -⟩ | ⟨-, -, h3⟩ := block_cases hb n
      · omega
      · exact h3.symm
  · simp only [hnew]
    rw [hnew, List.length_append, List.length_singleton] at hg
    by_cases hlast : g < s₁.handed.length
    · rw [List.getElem_append_left hlast]
      exact h.group g hlast
    · obtain rfl : g = n / b := by omega
      rw [List.getElem_append_right (by omega), List.getElem_singleton, realData_gather, hdiv,
        show min b (F - (n - n % b)) = n % b + 1 by omega]
      simpa only [rangeData, Nat.zero_add] using hdata
  · rw [hnew] at hg
    rcases List.mem_append.1 hg with hg | hg
    · exact h.size group hg
    · rw [List.mem_singleton.1 hg, length_gather_batch hsized]
      exact Nat.mul_le_mul_right _ (Nat.le_mul_of_pos_left W (by omega))
  · rw [hpend, Nat.zero_mul]
    exact .refl _
  · rw [h₃.written, hnew, hwritten, List.map_append, List.flatten_append]
    simp
  · rw [h₃.mergeSortRanges, hranges, h.mergeSortRanges, hnew, hwritten,
      List.map_append, segments_append, Nat.zero_add]
    cases S.singleBatch <;> rfl

/-- One batch more. -/
theorem Grouped.next (ht : S.task = .kWayButterflyOSort)
    {stdSort : List (TaggedT α) → List (TaggedT α)} (hsort : Permutes stdSort) (hZ : 0 < S.Z)
    {ioLayer n F : Nat} (hb : 0 < S.batchPerEnclave ioLayer) (hW : 0 < (S.waysOf ioLayer).prod)
    (hn : n < F) {cols : Nat → List α} {s s₁ s₂ : State α σ}
    (h : S.Grouped stdSort (S.batchPerEnclave ioLayer) F (S.waysOf ioLayer).prod n cols s s₁)
    (h₂ : S.Batched (cols n) (n % S.batchPerEnclave ioLayer * (S.waysOf ioLayer).prod)
      (S.waysOf ioLayer).prod s₁ s₂) {E : Stop α σ → Prop} :
    Ends (S.Grouped stdSort (S.batchPerEnclave ioLayer) F (S.waysOf ioLayer).prod (n + 1) cols s) E
      (S.outputBatch stdSort ioLayer F n
        (n % S.batchPerEnclave ioLayer * (S.waysOf ioLayer).prod) s₂) := by
  obtain ⟨lastBuckets, hcall⟩ := outputBatch_sort ht stdSort ioLayer F n
    (n % S.batchPerEnclave ioLayer * (S.waysOf ioLayer).prod) s₂
  rw [hcall]
  generalize S.batchPerEnclave ioLayer = b at *
  generalize (S.waysOf ioLayer).prod = W at *
  have hold : pending b F n = n % b := by rw [pending, if_neg (by omega)]
  have hcount : s₁.handed.length = n / b := by rw [h.count, groupCount, if_neg (by omega)]
  have hpend := h.pend
  rw [hold] at hpend
  have hmod : n % b ≤ n := Nat.mod_le n b
  -- the buffer with the batch and what was pending
  have hdata : List.Perm (rangeData 0 ((n % b + 1) * W) (sortTags (n % b * W) W s₂.batch))
      (gather (n % b + 1) fun i => cols (n - n % b + i)) := by
    have hsame : List.Perm (rangeData 0 ((n % b + 1) * W) (sortTags (n % b * W) W s₂.batch))
        (rangeData 0 ((n % b + 1) * W) s₂.batch) := gather_perm fun p _ => sortTags_realData _ _ _ _
    refine hsame.trans ?_
    rw [Nat.succ_mul, rangeData_add, Nat.zero_add,
      rangeData_congr fun q hq => h₂.frame (0 + q) (by omega), gather_succ,
      Nat.sub_add_cancel hmod]
    exact hpend.append h₂.data
  have hsized : ∀ p, (sortTags (n % b * W) W s₂.batch p).length = S.Z := fun p =>
    putAll_forall (P := fun b : List (TaggedT α) => b.length = S.Z) h₂.sized
      (fun i _ => (length_tagSort _).trans (h₂.sized _)) p
  split
  · rename_i hfull
    have hgroup : (W * if n = F - 1 then n % b + 1 else b) = (n % b + 1) * W := by
      rw [Nat.mul_comm]
      congr 1
      split <;> omega
    rw [hgroup]
    have hs : S.Sized { s₂ with lastBuckets, batch := sortTags (n % b * W) W s₂.batch } := hsized
    refine (outputGroup_ends hsort hZ (Nat.mul_pos (by omega) hW) hs).mono (fun s₃ h₃ => ?_)
      fun _ he => he
    refine Grouped.hand hb hn (by omega) h ?_ ?_ ?_ ?_ ?_ hs h₃
    · exact h₂.rest.vec
    · exact h₂.rest.written
    · exact h₂.rest.mergeSortRanges
    · exact h₂.rest.handed
    · exact hdata
  · rename_i hfull
    have hlt := Nat.mod_lt n hb
    obtain ⟨-, hm, hd⟩ | ⟨h1, -⟩ := block_cases hb n
    · have hnew : pending b F (n + 1) = n % b + 1 := by rw [pending, if_neg (by omega), hm]
      refine ⟨?_, ?_, ?_, ?_, ?_, ?_, h₂.rest.vec.trans h.vec, hsized⟩
      · change s₂.handed.length = _
        rw [h₂.rest.handed, hcount, groupCount, if_neg (by omega), hd]
      · simp only [h₂.rest.handed]
        exact h.group
      · change ∀ group ∈ s₂.handed, _
        rw [h₂.rest.handed]
        exact h.size
      · rw [hnew, show n + 1 - (n % b + 1) = n - n % b by omega]
        exact hdata
      · change s₂.written = _
        rw [h₂.rest.written, h.written]
        simp only [h₂.rest.handed]
      · change s₂.mergeSortRanges = _
        rw [h₂.rest.mergeSortRanges, h.mergeSortRanges]
        simp only [h₂.rest.handed]
    · omega

/-! ## The last layer -/

/-- A batch of the last layer: fetched, routed and output. -/
theorem sortBatch_output {ioLayer : Nat} (h : ioLayer + 1 = S.KWayParams.ways.length)
    (V : Vector σ (List (TaggedT α))) (stdSort : List (TaggedT α) → List (TaggedT α))
    (begin batchCount : Nat) {batchIdx : Nat} (hin : S.InBuffer ioLayer batchIdx) (s : State α σ) :
    S.sortBatch V stdSort ioLayer begin batchCount batchIdx s =
      (do
        let batchBegin := batchIdx % S.batchPerEnclave ioLayer * (S.waysOf ioLayer).prod
        let s ← S.fetchBatch V ioLayer begin batchIdx batchBegin s >>=
          S.KWayButterflySortBasic ioLayer ((S.waysOf ioLayer).length - 1) batchBegin
            (getVecProduct (S.waysOf ioLayer))
        S.outputBatch stdSort ioLayer batchCount batchIdx batchBegin s) := by
  have hlast : S.isLastLayer ioLayer = true := by
    rw [isLastLayer, beq_iff_eq]
    omega
  rw [sortBatch, bind_assoc, hlast, enterBatch_eq hin, ok_bind, getVecProduct_eq]
  simp only [if_true]

section LastLayer

variable (hv : S.Valid) (hf : S.Fits) (ht : S.task = .kWayButterflyOSort)
  {stdSort : List (TaggedT α) → List (TaggedT α)} (hsort : Permutes stdSort)

include hv hf ht hsort in
/-- **The batches of the last layer**, when every one of them is routed as `Batched` says. -/
theorem lastLayer_grouped {ioLayer : Nat} (h : ioLayer + 1 = S.KWayParams.ways.length)
    (hb : 0 < S.batchPerEnclave ioLayer) (V : Vector σ (List (TaggedT α))) {s : State α σ}
    (hs : S.Sized s) (hfresh : Fresh s) (cols : Nat → List α) {E : Stop α σ → Prop}
    (hroute : ∀ n < S.fetchInterval ioLayer, ∀ s', S.Sized s' → s'.vec = s.vec → (n = 0 → s' = s) →
      ∀ batchBegin, Ends (S.Batched (cols n) batchBegin (S.waysOf ioLayer).prod s') E
        (S.fetchBatch V ioLayer 0 n batchBegin s' >>=
          S.KWayButterflySortBasic ioLayer ((S.waysOf ioLayer).length - 1) batchBegin
            (getVecProduct (S.waysOf ioLayer)))) :
    Ends (S.Grouped stdSort (S.batchPerEnclave ioLayer) (S.fetchInterval ioLayer)
        (S.waysOf ioLayer).prod (S.fetchInterval ioLayer) cols s) E
      (forRange (S.fetchInterval ioLayer)
        (S.sortBatch V stdSort ioLayer 0 (S.fetchInterval ioLayer)) s) := by
  have hF := hv.fetchInterval_pos (show ioLayer ≤ S.KWayParams.ways.length by omega)
  have hW := hv.prod_pos (show ioLayer < S.KWayParams.ways.length by omega)
  refine Ends.mono (forRange_ends (fun n s' => S.Grouped stdSort (S.batchPerEnclave ioLayer)
    (S.fetchInterval ioLayer) (S.waysOf ioLayer).prod n cols s s' ∧ (n = 0 → s' = s))
    ⟨.start hF hs hfresh, fun _ => rfl⟩ fun n hn s₁ h₁ => ?_) (fun _ h => h.1) fun _ he => he
  rw [sortBatch_output h _ _ _ _ (hf ioLayer (by omega) n hn)]
  refine (hroute n hn s₁ h₁.1.sized h₁.1.vec h₁.2 _).bind fun s₂ h₂ => ?_
  exact (h₁.1.next ht hsort hv.Z_pos hb hW hn h₂).mono (fun _ h => ⟨h, fun h0 => by omega⟩)
    fun _ he => he

/-- What entered is in the groups, and they have been written out. -/
structure SortsGroups (S : ButterflySorter) (stdSort : List (TaggedT α) → List (TaggedT α))
    (F b : Nat) (input : List α) (s' : State α σ) : Prop where
  count : s'.handed.length = divRoundUp F b
  data : List.Perm (s'.handed.map realData).flatten input
  written : s'.written = (s'.handed.map (groupOutput stdSort)).flatten
  mergeSortRanges : s'.mergeSortRanges =
    if S.singleBatch then [] else segments 0 (s'.handed.map (groupOutput stdSort))

theorem Grouped.sortsGroups {b F W : Nat} (hb : 0 < b) {cols : Nat → List α} {input : List α}
    {s s' : State α σ} (h : S.Grouped stdSort b F W F cols s s')
    (hcols : List.Perm (gather F cols) input) : S.SortsGroups stdSort F b input s' where
  count := by rw [h.count, groupCount, if_pos rfl]
  data := (h.data hb).trans hcols
  written := h.written
  mergeSortRanges := h.mergeSortRanges

include hv hf ht hsort in
/-- **The sort of the butterfly sorter**: it stops at a merge-split only, and otherwise hands over
all of the input in groups. -/
theorem KWayButterflySort_groups {ioLayer : Nat} (h : ioLayer + 1 = S.KWayParams.ways.length)
    (hb : 0 < S.batchPerEnclave ioLayer) {s : PState α} (hs : S.Sized s)
    (hp : ∀ p, (s.vec p).length = S.Z) (hfresh : Fresh s) :
    Ends (S.SortsGroups stdSort (S.fetchInterval ioLayer) (S.batchPerEnclave ioLayer)
        (S.entering 0 (S.fetchInterval ioLayer * (S.waysOf ioLayer).prod) s 0))
      (fun e => e.1 = .mergeSplit)
      (S.KWayButterflySort (Vector.plain _) stdSort ioLayer 0
        (S.fetchInterval ioLayer * (S.waysOf ioLayer).prod) s) := by
  have hW := hv.prod_pos (show ioLayer < S.KWayParams.ways.length by omega)
  cases ioLayer with
  | zero =>
    rw [KWayButterflySort_first _ _ hW]
    refine (lastLayer_grouped hv hf ht hsort h hb _ hs hfresh
      (fun _ => S.entering 0 (S.waysOf 0).prod s 0) fun n hn s' hs' _ h0 bb => ?_).mono
      (fun s' h' => h'.sortsGroups hb ?_) fun _ he => he
    · rw [fetchInterval_zero] at hn
      obtain rfl := h0 (by omega)
      rw [fetchBatch_zero, ok_bind]
      exact (routeBatch_keeps hv (by omega) bb hs).mono (fun s₂ h₂ =>
        ⟨h₂.batch.data, h₂.batch.frame, h₂.sized, h₂.rest⟩) fun _ he => he
    · rw [fetchInterval_zero, gather_one, Nat.one_mul]
  | succ ioLayer =>
    rw [KWayButterflySort_next _ _ hW]
    refine (subLayers_keeps _ (S.waysOf (ioLayer + 1)).prod 0 (fun i s hs hp =>
      KWayButterflySort_keeps hv hf stdSort (show ioLayer + 1 < S.KWayParams.ways.length by omega)
        (0 + i * S.fetchInterval (ioLayer + 1)) hs hp) hs hp).bind fun s₁ h₁ => ?_
    refine (lastLayer_grouped hv hf ht hsort h hb _ h₁.sized (hfresh.same h₁.output)
      (fun n => S.pageColumn (ioLayer + 1) 0 n s₁.vec)
      fun n hn s' hs' hvec _ bb => ?_).mono (fun s' h' => h'.sortsGroups hb ?_) fun _ he => he
    · rw [← hvec]
      refine (fetchRoute_keeps hv (by omega) (by omega) 0 n bb hs' fun p => ?_).mono
        (fun _ h => h.toBatched) fun _ he => he
      rw [hvec, h₁.pages]
    · rw [Nat.mul_comm (S.fetchInterval (ioLayer + 1))]
      exact (rangeData_columns 0 _ _ s₁.vec).symm.trans h₁.vec.data

/-- The classes together are the whole. -/
theorem gather_part {W : Nat} (hW : 0 < W) (xs : List (TaggedT α)) :
    List.Perm ((gather W fun u => part W u xs).map TaggedT.v) (xs.map TaggedT.v) := by
  have hclasses : (gather W fun u => part W u xs).map TaggedT.v =
      ((List.range W).flatMap fun u => xs.filter fun x => x.realTag % W == u).map TaggedT.v := by
    rw [gather, List.map_flatMap, List.map_flatMap]
    refine congrArg (fun f => (List.range W).flatMap f) (funext fun u => ?_)
    rw [part, List.map_map]
    rfl
  rw [hclasses]
  exact (flatMap_filter_perm _ fun x _ => Nat.mod_lt _ hW).map _

/-- A routed batch holds the elements of its column. -/
theorem RoutedBatch.batched {ioLayer begin n batchBegin : Nat} (hW : 0 < (S.waysOf ioLayer).prod)
    {s s' : PState α} (h : S.RoutedBatch ioLayer begin n batchBegin s s') :
    S.Batched (S.pageColumn ioLayer begin n s.vec) batchBegin (S.waysOf ioLayer).prod s s' where
  data := by
    have hmap : ∀ f : Nat → List (TaggedT α), (gather (S.waysOf ioLayer).prod fun u =>
        realData (f u)) = (gather (S.waysOf ioLayer).prod fun u => reals (f u)).map TaggedT.v :=
      fun f => by
        rw [gather_map]
        rfl
    rw [rangeData, pageColumn, hmap, hmap]
    exact ((gather_perm h.routed).map _).trans (gather_part hW _)
  frame := h.frame
  sized := h.sized
  rest := h.rest

include hv hf ht hsort in
/-- **Lanes that fit**: the sort stops only if some class of tags has `Z` or more elements, and
every batch of the last layer holds its class. -/
theorem KWayButterflySort_groups_routed (hl : S.KWayParams.LanesFit) {ioLayer : Nat}
    (h : ioLayer + 1 + 1 = S.KWayParams.ways.length) (hb : 0 < S.batchPerEnclave (ioLayer + 1))
    {s : PState α} (hs : S.Sized s) (hp : ∀ p, (s.vec p).length = S.Z) (hfresh : Fresh s) :
    Ends (fun s' => ∃ s₁ cols, S.Grouped stdSort (S.batchPerEnclave (ioLayer + 1))
        (S.fetchInterval (ioLayer + 1)) (S.waysOf (ioLayer + 1)).prod
          (S.fetchInterval (ioLayer + 1))
        cols s₁ s' ∧ ∀ j < S.fetchInterval (ioLayer + 1), List.Perm (cols j)
          ((part (S.fetchInterval (ioLayer + 1)) j (gather (S.fetchInterval (ioLayer + 1) *
            (S.waysOf (ioLayer + 1)).prod) (S.source 0 s 0))).map TaggedT.v))
      (S.StopsOn (gather (S.fetchInterval (ioLayer + 1) * (S.waysOf (ioLayer + 1)).prod)
        (S.source 0 s 0)))
      (S.KWayButterflySort (Vector.plain _) stdSort (ioLayer + 1) 0
        (S.fetchInterval (ioLayer + 1) * (S.waysOf (ioLayer + 1)).prod) s) := by
  have hW := hv.prod_pos (show ioLayer + 1 < S.KWayParams.ways.length by omega)
  rw [KWayButterflySort_next _ _ hW]
  refine (partsBelow_routed hv hl hf stdSort (by omega) hs hp).bind fun s₁ h₁ => ?_
  have hcol : ∀ j, S.pageColumn (ioLayer + 1) 0 j s₁.vec =
      (gather (S.waysOf (ioLayer + 1)).prod fun u =>
        reals (s₁.vec (0 + u * S.fetchInterval (ioLayer + 1) + j))).map TaggedT.v := fun j => by
    rw [gather_map]
    rfl
  refine (lastLayer_grouped hv hf ht hsort h hb _ h₁.sized (hfresh.same h₁.output)
    (fun n => S.pageColumn (ioLayer + 1) 0 n s₁.vec) fun n hn s' hs' hvec _ bb => ?_).mono
    (fun s' h' => ⟨s₁, _, h', fun j hj => ?_⟩) fun _ he => he
  · rw [← hvec]
    refine (fetchRoute_ends hv hl (by omega) (by omega) 0 n bb hs' fun p => ?_).mono
      (fun _ h => h.batched hW) fun e he => ⟨he.1, ?_⟩
    · rw [hvec, h₁.pages]
    · have he := he.2
      rw [hvec] at he
      exact (he.of_perm (h₁.vec.column hn)).of_part hn
  · rw [hcol]
    exact (h₁.vec.column hj).map _

include hv hf ht hsort in
/-- **A whole sort** whose buffer can be allocated. -/
theorem sort_groups (halloc : S.batchSize * S.sizeofWrappedT < 2 ^ 63) {s : PState α}
    (hs : S.Sized s) (hp : ∀ p, (s.vec p).length = S.Z) (hfresh : Fresh s) :
    Ends (S.SortsGroups stdSort (S.fetchInterval (S.KWayParams.ways.length - 1))
        (S.batchPerEnclave (S.KWayParams.ways.length - 1))
        (S.entering 0 S.KWayParams.totalBucket s 0)) (fun e => e.1 = .mergeSplit)
      (S.sort (Vector.plain _) stdSort s) := by
  have hlast := hv.lastLayer
  have hb := (hf _ (Nat.lt_of_succ_le hlast.le) 0 (hv.fetchInterval_pos (by omega))).1
  have hspec := KWayButterflySort_groups hv hf ht hsort hlast hb hs hp hfresh
  rw [sort_eq halloc]
  rwa [← hv.totalBucket_last] at hspec

include hv hf ht hsort in
/-- A whole sort with lanes that fit, of two layers or more. -/
theorem sort_groups_routed (hl : S.KWayParams.LanesFit)
    (halloc : S.batchSize * S.sizeofWrappedT < 2 ^ 63) {ioLayer : Nat}
    (h : ioLayer + 1 + 1 = S.KWayParams.ways.length) {s : PState α} (hs : S.Sized s)
    (hp : ∀ p, (s.vec p).length = S.Z) (hfresh : Fresh s) :
    Ends (fun s' => ∃ s₁ cols, S.Grouped stdSort (S.batchPerEnclave (ioLayer + 1))
        (S.fetchInterval (ioLayer + 1)) (S.waysOf (ioLayer + 1)).prod
          (S.fetchInterval (ioLayer + 1))
        cols s₁ s' ∧ ∀ j < S.fetchInterval (ioLayer + 1), List.Perm (cols j)
          ((part (S.fetchInterval (ioLayer + 1)) j
            (gather S.KWayParams.totalBucket (S.source 0 s 0))).map TaggedT.v))
      (S.StopsOn (gather S.KWayParams.totalBucket (S.source 0 s 0)))
      (S.sort (Vector.plain _) stdSort s) := by
  have hb := (hf (ioLayer + 1) (by omega) 0 (hv.fetchInterval_pos (by omega))).1
  have hspec := KWayButterflySort_groups_routed hv hf ht hsort hl h hb hs hp hfresh
  have hlast : S.KWayParams.ways.length - 1 = ioLayer + 1 := by omega
  have hB := hv.totalBucket_last
  rw [hlast] at hB
  rw [sort_eq halloc, hlast]
  rwa [← hB] at hspec

end LastLayer

end EM.Algorithm.ButterflySorter
