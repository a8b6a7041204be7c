import OblSort.Algorithm.Proof.DistriSort
import OblSort.Algorithm.Proof.DistriVector
import OblSort.Algorithm.Proof.SampleForPivots

/-!
# Overflows and the order of the pages

How many tapes let `KWayDistriSort(vec)` stop at a merge-split. The entry point takes its input for
shuffled and reads the pages in their order, so that the number depends on this order as soon as the
input is distributed at all.
-/

namespace EM.Algorithm

open NonCachedVector Paged Loop

variable {n m m' : Nat} [NeZero n] [NeZero m] [NeZero m'] {α : Type}

/-! ## Tapes -/

/-- The surroundings with the draws of the sample: `UniformRandom(1, N)` gives `draws i + 1`. -/
def Surroundings.withSample (A : Surroundings n m m' α) {N : Nat} (draws : Fin N → Fin N) :
    Surroundings n m m' α :=
  { A with sampleRand64 := fun i => if h : i < N then BitVec.ofNat 64 (draws ⟨i, h⟩) else 0 }

/-- A sort stops at a merge-split. -/
def overflows {β : Type} : Except DistriAbort β → Bool
  | .error .mergeSplit => true
  | _ => false

/-- The number of tapes under which a sort of the vector overflows: the draws of the sample, and an
outcome `ω` of all that is drawn besides. -/
def overflowCount [SortKey α] {σ ω : Type} [Fintype ω] (A : ω → Surroundings n m m' α)
    (V : EM.DynamicPageVector.Vector σ (List (Block α))) (batchUninit : Nat → Nat → List (Block α))
    (vec : σ) (sizeofT : Nat) (v : NonCachedVector.Vector n α) (inAuth heapSize : Nat) : Nat :=
  (Finset.univ.filter fun t : (Fin v.N → Fin v.N) × ω =>
    overflows (((A t.2).withSample t.1).sortVec V batchUninit vec sizeofT v inAuth heapSize)).card

/-- `data'` is `data` with its full pages in another order, and the last page in its place. -/
def PagePermuted (n : Nat) (data data' : List α) : Prop :=
  data'.length = data.length ∧ ∃ perm : Equiv.Perm (Fin ((data.length - 1) / n)),
    (∀ p : Fin ((data.length - 1) / n), ∀ o < n, data'[p * n + o]? = data[perm p * n + o]?) ∧
    ∀ i, (data.length - 1) / n * n ≤ i → data'[i]? = data[i]?

/-! ## In memory -/

section InMemory

variable [SortKey α] {σ ω : Type} [Fintype ω] {A : ω → Surroundings n m m' α}
  {V : EM.DynamicPageVector.Vector σ (List (Block α))} {batchUninit : Nat → Nat → List (Block α)}
  {vec : σ} {sizeofT heapSize inAuth : Nat} {v v' : NonCachedVector.Vector n α}

/-- No merge-split is called for an input that fits in memory. -/
theorem sortVec_fits (A : Surroundings n m m' α) (hfit : v.N ≤ heapSize / sizeofT) :
    overflows (A.sortVec V batchUninit vec sizeofT v inAuth heapSize) = false := by
  rw [Surroundings.sortVec, Surroundings.KWayDistriSort, if_pos (by omega)]
  cases copyIn 0 v.N inAuth v with
  | none => rfl
  | some out =>
    dsimp only
    cases copyOut (bitonicSortList SortKey.lt out.1) 0 ((inAuth + 1) % 2 ^ 32) out.2 <;> rfl

theorem overflowCount_fits (hfit : v.N ≤ heapSize / sizeofT) :
    overflowCount A V batchUninit vec sizeofT v inAuth heapSize = 0 := by
  refine Finset.card_eq_zero.2 (Finset.filter_eq_empty_iff.2 fun t _ => ?_)
  rw [sortVec_fits _ hfit]
  exact Bool.false_ne_true

/-- **The order of the pages** does not matter to an input that fits in memory. -/
theorem overflowCount_eq_of_fits {data data' : List α} (hv : Stores v inAuth data)
    (hv' : Stores v' inAuth data') (hperm : PagePermuted n data data')
    (hfit : v.N ≤ heapSize / sizeofT) :
    overflowCount A V batchUninit vec sizeofT v inAuth heapSize =
      overflowCount A V batchUninit vec sizeofT v' inAuth heapSize := by
  have hfit' : v'.N ≤ heapSize / sizeofT := by
    rwa [← hv'.size, hperm.1, hv.size]
  rw [overflowCount_fits hfit, overflowCount_fits hfit']

end InMemory

/-! ## The draws of the sample -/

section Sample

theorem sampleEntries_congr {dummy : Block α} {N expectedSampleSize : Nat}
    {rand64 rand64' : Nat → BitVec 64} {input : List α}
    (h : ∀ i < input.length,
      isChosen N expectedSampleSize (rand64 i) = isChosen N expectedSampleSize (rand64' i)) :
    sampleEntries dummy N expectedSampleSize rand64 input =
      sampleEntries dummy N expectedSampleSize rand64' input := by
  refine List.map_congr_left fun x hx => ?_
  have hlt := List.snd_lt_of_mem_zipIdx hx
  rw [Nat.add_zero, sampleBlocks, List.length_map, List.length_zipIdx] at hlt
  dsimp only
  rw [h _ hlt]

variable [SortKey α]

/-- The pivots depend on which elements are chosen only. -/
theorem sampleForPivots_congr {P : SampleParams} {dummy : Block α} {Mem : List (Block α)}
    {gammaSort : List (Block α) → Option (List (Block α))} {rand64 : Nat → BitVec 64}
    (rand64' : Nat → BitVec 64) {input : List α} (p : Nat) (h : ∀ i < input.length,
      isChosen input.length P.expectedSampleSize (rand64 i) =
        isChosen input.length P.expectedSampleSize (rand64' i)) :
    sampleForPivots P dummy Mem gammaSort rand64 input p =
      sampleForPivots P dummy Mem gammaSort rand64' input p := by
  have hcount : (List.range input.length).countP (fun i =>
      isChosen input.length P.expectedSampleSize (rand64 i)) =
      (List.range input.length).countP fun i =>
        isChosen input.length P.expectedSampleSize (rand64' i) :=
    List.countP_congr fun i hi => by rw [h i (List.mem_range.1 hi)]
  rw [sampleForPivots, sampleForPivots, sampleEntries_congr h, hcount]

omit [SortKey α] in
theorem length_readInput {v : NonCachedVector.Vector n α} {count : Nat} {r : Reader n α}
    {log : List PageOp} {xs : List α} (h : readInput v count r = (log, some xs)) :
    xs.length = count := by
  induction count generalizing r log xs with
  | zero =>
    cases h
    rfl
  | succ count ih =>
    rw [readInput] at h
    dsimp only at h
    cases hread : r.read v with
    | none =>
      rw [hread] at h
      cases h
    | some out =>
      rw [hread] at h
      dsimp only at h
      obtain ⟨ys, hys, hxs⟩ := Option.map_eq_some_iff.1 (Prod.ext_iff.1 h).2
      rw [← hxs, List.length_cons, ih (Prod.ext rfl hys)]

/-- Two tapes that choose the same elements. -/
theorem sortVec_congr {σ : Type} (A : Surroundings n m m' α)
    (V : EM.DynamicPageVector.Vector σ (List (Block α)))
    (batchUninit : Nat → Nat → List (Block α)) (vec : σ) (sizeofT inAuth heapSize : Nat)
    {v : NonCachedVector.Vector n α} {rand64 rand64' : Nat → BitVec 64}
    (h : ∀ i < v.N, isChosen v.N A.sampleParams.expectedSampleSize (rand64 i) =
      isChosen v.N A.sampleParams.expectedSampleSize (rand64' i)) :
    ({ A with sampleRand64 := rand64 } : Surroundings n m m' α).sortVec V batchUninit vec sizeofT v
        inAuth heapSize =
      ({ A with sampleRand64 := rand64' } : Surroundings n m m' α).sortVec V batchUninit vec sizeofT
        v inAuth heapSize := by
  suffices hconstruct :
      ({ A with sampleRand64 := rand64 } : Surroundings n m m' α).construct true v 0 v.N inAuth
        heapSize =
      ({ A with sampleRand64 := rand64' } : Surroundings n m m' α).construct true v 0 v.N inAuth
        heapSize by
    simp only [Surroundings.sortVec, Surroundings.KWayDistriSort, Surroundings.externalSort,
      hconstruct]
  simp only [Surroundings.construct, Surroundings.inputReader, if_pos]
  cases hread : readInput v (v.N - 0) (Reader.new (A.cache 0) 0 v.N 0) with
  | mk log input =>
    cases input with
    | none => rfl
    | some input =>
      have hlen := length_readInput hread
      rw [Nat.sub_zero] at hlen
      dsimp only
      rw [sampleForPivots_congr rand64' _ (by rw [hlen]; exact h)]

end Sample

/-! ## Five pages -/

/-- A vector of pages of one element, written with 0. -/
def onePerPage (data : List SortElement) : NonCachedVector.Vector 1 SortElement where
  N := data.length
  lateInit := false
  cachePage := fun _ => ⟨0, []⟩
  server :=
    { nounce := ⟨0, 0⟩
      defaultVal := fun _ => ⟨0, []⟩
      modified := fun _ => false
      pages := fun p => data[p]?.map fun x => ⟨Nounce.forPage ⟨0, 0⟩ p 0, fun _ => x⟩
      encryptions := [] }

theorem onePerPage_stores (data : List SortElement) : Stores (onePerPage data) 0 data where
  size := rfl
  pages p hp := by
    have hp : p < data.length := Nat.mul_one p ▸ hp
    have hx : data[p]? = some data[p] := List.getElem?_eq_getElem hp
    refine ⟨fun _ => data[p], ⟨?_, fun h => by cases h⟩, fun o _ _ => ?_⟩
    · change data[p]?.map _ = _
      rw [hx]
      rfl
    · rw [Fin.val_eq_zero o, Nat.mul_one, Nat.add_zero, hx]

theorem elements_swapped : PagePermuted 1 (elements [3, 2, 1, 0, 4])
    (elements [0, 2, 1, 3, 4]) := by
  refine ⟨rfl, (Equiv.swap 0 3 : Equiv.Perm (Fin 4)), by decide, fun i hi => ?_⟩
  have hi : 4 ≤ i := hi
  obtain rfl | hlt : i = 4 ∨ 5 ≤ i := by omega
  · rfl
  · rw [List.getElem?_eq_none hlt, List.getElem?_eq_none hlt]

/-- Three ways over six buckets of two, memory for four elements, of which two are copied out of a
batch, and two of five elements to be chosen. -/
def threeWays : Surroundings 1 1 1 SortElement where
  onDisk := false
  distriParams := ⟨[[3]], 2, 3, 6⟩
  sampleParams := ⟨4, 2, 2⟩
  dummy := dummyElement
  gammaSort := fun _ => none
  tagOrder := ⟨id, ⟨id, id⟩⟩
  uninit := ⟨fun _ => 0, fun _ => ⟨0, 0⟩, ⟨0, 0⟩, ⟨0, 0⟩⟩
  cache := fun _ _ => ⟨0, []⟩
  Mem := []
  inputCount := 0
  pageRand64 := fun _ => 0
  sampleRand64 := fun _ => 0

theorem overflowCount_eq_of_fits_five :
    overflowCount (fun _ : Unit => threeWays) (EM.DynamicPageVector.Vector.plain _)
        (fun _ => zeroBlocks) zeroBlocks 16 (onePerPage (elements [3, 2, 1, 0, 4])) 0 80 =
      overflowCount (fun _ : Unit => threeWays) (EM.DynamicPageVector.Vector.plain _)
        (fun _ => zeroBlocks) zeroBlocks 16 (onePerPage (elements [0, 2, 1, 3, 4])) 0 80 :=
  overflowCount_eq_of_fits (onePerPage_stores _) (onePerPage_stores _) elements_swapped (by decide)

/-- How the sort of one element a page ends, with memory for four elements. -/
def overflowsWith (rand64 : Nat → BitVec 64) (keys : List (BitVec 64)) : Bool :=
  overflows (({ threeWays with sampleRand64 := rand64 } : Surroundings 1 1 1 SortElement).sortVec
    (EM.DynamicPageVector.Vector.plain _) (fun _ => zeroBlocks) zeroBlocks 16
    (onePerPage (elements keys)) 0 64)

/-- Draws that choose the given elements. -/
def choosing (chosen : List Bool) (i : Nat) : BitVec 64 := if chosen.getD i false then 0 else 4

theorem overflowsWith_swapped (c₀ c₁ c₂ c₃ c₄ : Bool) :
    overflowsWith (choosing [c₀, c₁, c₂, c₃, c₄]) [0, 2, 1, 3, 4] = true := by
  revert c₀ c₁ c₂ c₃ c₄
  decide +kernel

theorem overflows_withSample {keys : List (BitVec 64)}
    (hlen : (onePerPage (elements keys)).N = 5)
    (draws : Fin (onePerPage (elements keys)).N → Fin (onePerPage (elements keys)).N) :
    overflows ((threeWays.withSample draws).sortVec (EM.DynamicPageVector.Vector.plain _)
        (fun _ => zeroBlocks) zeroBlocks 16 (onePerPage (elements keys)) 0 64) =
      overflowsWith (choosing (List.ofFn fun i => decide ((draws i).val + 1 ≤ 2))) keys := by
  refine congrArg overflows (sortVec_congr threeWays _ _ _ _ _ _ fun i hi => ?_)
  have hdraw := (draws ⟨i, hi⟩).isLt
  have hget : (List.ofFn fun i => decide ((draws i).val + 1 ≤ 2)).getD i false =
      decide ((draws ⟨i, hi⟩).val + 1 ≤ 2) := by
    rw [List.getD_eq_getElem?_getD, List.getElem?_ofFn, dif_pos hi, Option.getD_some]
  rw [dif_pos hi, choosing, hget]
  generalize (draws ⟨i, hi⟩).val = d at hdraw ⊢
  rw [isChosen, isChosen, hlen, BitVec.toNat_ofNat, Nat.mod_eq_of_lt (show d < 2 ^ 64 by omega),
    Nat.mod_eq_of_lt (hlen ▸ hdraw)]
  by_cases hle : d + 1 ≤ 2
  · rw [if_pos (decide_eq_true hle)]
    exact decide_eq_decide.2 (iff_of_true hle (by decide))
  · rw [if_neg (by simpa using hle)]
    exact decide_eq_decide.2 (iff_of_false hle (by decide))

/-- The tapes under which the sort of one element a page overflows, with memory for four
elements. -/
def overflowsOf (keys : List (BitVec 64)) : Nat :=
  overflowCount (fun _ : Unit => threeWays) (EM.DynamicPageVector.Vector.plain _)
    (fun _ => zeroBlocks) zeroBlocks 16 (onePerPage (elements keys)) 0 64

theorem card_filter_unit {β : Type} [Fintype β] (f : β × Unit → Bool) :
    (Finset.univ.filter fun t => f t = true).card =
      (Finset.univ.filter fun b => f (b, ()) = true).card :=
  Finset.card_equiv (Equiv.prodPUnit β) fun t => by simp

theorem overflowsOf_eq {keys : List (BitVec 64)} (hlen : (onePerPage (elements keys)).N = 5) :
    overflowsOf keys = (Finset.univ.filter fun draws : Fin (onePerPage (elements keys)).N →
        Fin (onePerPage (elements keys)).N =>
      overflowsWith (choosing (List.ofFn fun i => decide ((draws i).val + 1 ≤ 2))) keys).card := by
  rw [overflowsOf, overflowCount, card_filter_unit]
  exact congrArg Finset.card (Finset.filter_congr fun draws _ => by
    rw [overflows_withSample hlen])

/-- **The order of the pages counts**: with pages 0 and 3 swapped, the sort overflows under more
tapes, in fact under all. -/
theorem overflowCount_swapped :
    (elements [3, 2, 1, 0, 4]).Pairwise (fun x y => x.key ≠ y.key) ∧
    Stores (onePerPage (elements [3, 2, 1, 0, 4])) 0 (elements [3, 2, 1, 0, 4]) ∧
    Stores (onePerPage (elements [0, 2, 1, 3, 4])) 0 (elements [0, 2, 1, 3, 4]) ∧
    PagePermuted 1 (elements [3, 2, 1, 0, 4]) (elements [0, 2, 1, 3, 4]) ∧
    overflowsOf [3, 2, 1, 0, 4] < overflowsOf [0, 2, 1, 3, 4] := by
  refine ⟨by decide, onePerPage_stores _, onePerPage_stores _, elements_swapped, ?_⟩
  have hall : overflowsOf [0, 2, 1, 3, 4] = Fintype.card (Fin 5 → Fin 5) := by
    rw [overflowsOf_eq rfl, Finset.filter_true_of_mem fun draws _ => ?_]
    · exact Finset.card_univ
    · exact overflowsWith_swapped _ _ _ _ _
  -- a tape that chooses the elements of pages 1 and 2
  have hnot : overflowsWith (choosing (List.ofFn fun i : Fin 5 =>
      decide ((if i = 1 ∨ i = 2 then (0 : Fin 5) else 4).val + 1 ≤ 2)))
        [3, 2, 1, 0, 4] = false := by
    decide +kernel
  rw [hall, overflowsOf_eq rfl]
  exact Finset.card_lt_univ_of_notMem fun hmem =>
    Bool.false_ne_true (hnot.symm.trans (Finset.mem_filter.1 hmem).2)

end EM.Algorithm
