import OblSort.Algorithm.Proof.DistriPages
import OblSort.Algorithm.Proof.DistriRuns
import OblSort.Proof.ReplayVector

/-!
# The page operations of a distribution sorter

A layer of pages reads its pages with the counter of the layer below and writes them with its own.
Each call does this for every page of its range once (`KWayDistriSort_stamps`), and the last layer
reads all pages with the counter of the layer before. So a whole sort uses a `Versioned` vector as
it has to be used (`sort_versioned`), when positions fit into an `int`.
-/

namespace EM.Algorithm

open EM.DynamicPageVector Loop Schedule Store Strided

/-! ## Nested ways -/

/-- A nested list of ways, each of at least two. -/
structure NestedWays (ways : List (List Nat)) : Prop where
  ne_nil : ways ≠ []
  inner_ne_nil : ∀ ws ∈ ways, ws ≠ []
  two_le : ∀ ws ∈ ways, ∀ way ∈ ws, 2 ≤ way

theorem NestedWays.two_le_prod {ways : List (List Nat)} (h : NestedWays ways) {ws : List Nat}
    (hws : ws ∈ ways) : 2 ≤ ws.prod := by
  have hlen : 1 ≤ ws.length := List.length_pos_iff.2 (h.inner_ne_nil ws hws)
  calc 2 = 2 ^ 1 := rfl
    _ ≤ 2 ^ ws.length := Nat.pow_le_pow_right (by decide) hlen
    _ ≤ ws.prod := List.pow_card_le_prod ws 2 (h.two_le ws hws)

theorem NestedWays.two_pow_le {ways : List (List Nat)} (h : NestedWays ways) :
    2 ^ ways.length ≤ (ways.map List.prod).prod := by
  rw [← List.length_map (f := List.prod)]
  refine List.pow_card_le_prod _ 2 fun n hn => ?_
  obtain ⟨ws, hws, rfl⟩ := List.mem_map.1 hn
  exact h.two_le_prod hws

/-- Counters are layers, and there are not many. -/
theorem NestedWays.length_lt {ways : List (List Nat)} (h : NestedWays ways)
    (hsmall : (ways.map List.prod).prod < 2 ^ 64) : ways.length < 64 :=
  (Nat.pow_lt_pow_iff_right (by decide)).1 (h.two_pow_le.trans_lt hsmall)

namespace KWayDistriSorter

variable {α σ ρ : Type} {S : KWayDistriSorter α}

/-- Nested ways whose product is the number of partitions, and partitions of one size. -/
structure Layered (S : KWayDistriSorter α) : Prop where
  ways : NestedWays S.distriParams.ways
  totalPartition : S.distriParams.totalPartition = (S.distriParams.ways.map List.prod).prod
  partitionSize_pos : 0 < S.partitionSize
  totalBucket : S.numTotalBucket = S.distriParams.totalPartition * S.partitionSize
  Z_pos : 0 < S.Z

/-! ## One stride -/

section Stride

/-- Where a sort may stop: the pages are as they should be, and a failed authentication needs
`A`. -/
def StopsVersioned (Inv : σ → Prop) (A : Prop) (e : Stop α σ ρ) : Prop :=
  Inv e.2.vec ∧ (e.1 = .authentication → A)

/-- Reading a block is not about the pages. -/
theorem memory_keeps_vec (I : IOVector ρ α) (vec : σ) : MemoryKeeps S I (fun s => s.vec = vec)
    fun e => e.2.vec = vec ∧ e.1 ≠ .authentication where
  frame _ _ hs _ hvec := hvec.trans hs
  read it s hs _ := by
    rw [readBlock]
    split
    · exact ⟨hs, fun h => by cases h⟩
    · exact hs
  abort _ _ _ ha hs := ⟨hs, ha⟩

variable {V : Vector σ (List (Block α))} {Inv : σ → Prop} {cur : σ → Nat → Option Nat} {A : Prop}
  (hV : Versioned V Inv cur A) {I : IOVector ρ α} {l b st k : Nat}
  (hZ : 0 < S.Z) (hsmall : S.numTotalBucket * S.Z < 2 ^ 31)
  (hlt : ∀ j < S.numInternalWay l, b + (k * S.numInternalWay l + j) * st < S.numTotalBucket)

include hV hZ hsmall hlt

/-- The pages of a row are read with the counter of the layer below. -/
theorem fetchStride_versioned {s : State α σ ρ} (hs : Inv s.vec)
    (hcur : ∀ j < S.numInternalWay l, cur s.vec (b + (k * S.numInternalWay l + j) * st) =
      before l) :
    Ends (fun s' => Inv s'.vec ∧ cur s'.vec = cur s.vec) (StopsVersioned Inv A)
      (S.fetchStride V l st ((b + k * (st * S.numInternalWay l)) * S.Z) s) := by
  rw [fetchStride]
  split
  · exact ⟨hs, rfl⟩
  · rename_i h0
    rw [before, if_neg h0] at hcur
    refine hV.reads (fun j hj s hinv hnone => ?_) hs hcur
    rw [copyIn, page_eq hZ hsmall (hlt j hj)]
    cases hread : V.read (b + (k * S.numInternalWay l + j) * st) (l - 1) s.vec with
    | mk result vec =>
      rw [hread] at hinv hnone
      cases result with
      | none => exact ⟨hinv, fun _ => hnone rfl⟩
      | some bucket => exact rfl

/-- They are written with the counter of the layer. -/
theorem writeStride_versioned (hb : b < st) (hl : l < 2 ^ 32) {s : State α σ ρ} (hs : Inv s.vec)
    (hcur : ∀ j < S.numInternalWay l, cur s.vec (b + (k * S.numInternalWay l + j) * st) =
      before l) :
    Ends (fun s' => Inv s'.vec ∧ Stamps (fun j => b + (k * S.numInternalWay l + j) * st)
        (S.numInternalWay l) (some l) (cur s.vec) (cur s'.vec)) (StopsVersioned Inv A)
      (S.writeStride V l st ((b + k * (st * S.numInternalWay l)) * S.Z) s) := by
  have hpages : S.numTotalBucket ≤ S.numTotalBucket * S.Z := Nat.le_mul_of_pos_right _ hZ
  refine hV.writes (fun j hj s => ⟨_, s.batch j, rfl, ?_⟩) (fun i _ j _ h => ?_)
    (fun j hj => ?_) hl hs hcur
  · dsimp only
    rw [page_eq hZ hsmall (hlt j hj)]
  · have := row_inj hb h
    omega
  · have := hlt j hj
    omega

variable [SortKey α]

/-- A stride of a layer before the last one. -/
theorem sortStride_versioned (hlast : S.isLastLayer l = false) (hb : b < st) (hl : l < 2 ^ 32)
    {s : State α σ ρ} (hs : Inv s.vec)
    (hcur : ∀ j < S.numInternalWay l, cur s.vec (b + (k * S.numInternalWay l + j) * st) =
      before l) :
    Ends (fun s' => Inv s'.vec ∧ Stamps (fun j => b + (k * S.numInternalWay l + j) * st)
        (S.numInternalWay l) (some l) (cur s.vec) (cur s'.vec)) (StopsVersioned Inv A)
      (S.sortStride I V l st ((b + k * (st * S.numInternalWay l)) * S.Z) k s) := by
  rw [sortStride]
  refine (fetchStride_versioned hV hZ hsmall hlt hs hcur).bind ?_
  rintro s₁ ⟨hs₁, hcur₁⟩
  rw [hlast, if_neg Bool.false_ne_true]
  refine Ends.bind (Q := fun s' => s'.vec = s₁.vec) (((memory_keeps_vec I s₁.vec).basic rfl).mono
    (fun _ h => h) fun e he => ⟨he.1 ▸ hs₁, fun ha => absurd ha he.2⟩) fun s₂ h₂ => ?_
  rw [← hcur₁, ← h₂]
  refine writeStride_versioned hV hZ hsmall hlt hb hl (h₂ ▸ hs₁) fun j hj => ?_
  rw [h₂, hcur₁, hcur j hj]

/-- A stride of the last layer. -/
theorem lastStride_versioned (hlast : S.isLastLayer l = true) {s : State α σ ρ} (hs : Inv s.vec)
    (hcur : ∀ j < S.numInternalWay l, cur s.vec (b + (k * S.numInternalWay l + j) * st) =
      before l) :
    Ends (fun s' => Inv s'.vec ∧ cur s'.vec = cur s.vec) (StopsVersioned Inv A)
      (S.sortStride I V l st ((b + k * (st * S.numInternalWay l)) * S.Z) k s) := by
  rw [sortStride]
  refine (fetchStride_versioned hV hZ hsmall hlt hs hcur).bind fun s₁ h₁ => ?_
  rw [hlast, if_pos rfl]
  exact h₁

end Stride

/-! ## Layers -/

section Layers

variable [SortKey α] {V : Vector σ (List (Block α))} {Inv : σ → Prop} {cur : σ → Nat → Option Nat}
  {A : Prop} (hV : Versioned V Inv cur A) {I : IOVector ρ α} {uninit : Nat → Nat → List (Block α)}
  (hS : S.Layered) (hsmall : S.numTotalBucket * S.Z < 2 ^ 31)

omit [SortKey α] in
include hS hsmall in
theorem Layered.length_lt : S.distriParams.ways.length < 2 ^ 32 := by
  have hpages : S.numTotalBucket ≤ S.numTotalBucket * S.Z := Nat.le_mul_of_pos_right _ hS.Z_pos
  have hparts : S.distriParams.totalPartition ≤ S.numTotalBucket := by
    rw [hS.totalBucket]
    exact Nat.le_mul_of_pos_right _ hS.partitionSize_pos
  rw [hS.totalPartition] at hparts
  have := hS.ways.length_lt (by omega)
  omega

omit [SortKey α] in
include hS in
theorem Layered.numInternalWay_pos {l : Nat} (hl : l < S.distriParams.ways.length) :
    0 < S.numInternalWay l := by
  rw [numInternalWay_eq hl]
  have := hS.ways.two_le_prod (waysOf_mem hl)
  omega

omit [SortKey α] in
include hS in
theorem Layered.rangePages_pos {l : Nat} (hl : l < S.distriParams.ways.length) :
    0 < S.rangePages l := by
  induction l with
  | zero =>
    rw [rangePages_zero hl]
    exact hS.numInternalWay_pos hl
  | succ l ih =>
    rw [rangePages_succ hl]
    exact Nat.mul_pos (ih (by omega)) (hS.numInternalWay_pos hl)

include hV hS hsmall

/-- The strides of a layer before the last one. -/
theorem sortStrides_stamps {l b st F : Nat} (hl : l < S.distriParams.ways.length) (hb : b < st)
    (hT : st * (F * S.numInternalWay l) = S.numTotalBucket) {s : State α σ ρ} (hs : Inv s.vec)
    (hcur : ∀ q < F * S.numInternalWay l, cur s.vec (b + q * st) = before l) :
    Ends (fun s' => Inv s'.vec ∧
        Stamps (fun q => b + q * st) (F * S.numInternalWay l) (some l) (cur s.vec) (cur s'.vec))
      (StopsVersioned Inv A)
      (S.sortStrides I V uninit (S.numTotalBucket * S.Z) l (b * S.Z) st s) := by
  have hlt : ∀ k < F, ∀ j < S.numInternalWay l,
      b + (k * S.numInternalWay l + j) * st < S.numTotalBucket := fun k hk j hj => by
    rw [← hT]
    exact column_lt hb (grid_lt hk hj)
  have hlast := isLastLayer_eq_false hl
  have hcounter := hS.length_lt hsmall
  rw [sortStrides_eq I V uninit hb (hS.numInternalWay_pos hl) hS.Z_pos hT hsmall, hlast]
  refine Ends.bind ((parts_rows F (S.numInternalWay l)).loop (fun q => b + q * st)
    (before l) (some l)
    (fun s : State α σ ρ => Inv s.vec) (fun s => cur s.vec) (fun q _ q' _ h => row_inj hb h)
    (fun k hk s hs hold => ?_) hs hcur) fun s' h' => h'
  exact sortStride_versioned hV hS.Z_pos hsmall (hlt k hk) hlast hb (by omega) hs hold

/-- **The layers of pages** below the last one: every page of a range is written with the counters
up to the layer, each once. -/
theorem KWayDistriSort_stamps {l b st : Nat} (hl : l < S.distriParams.ways.length) (hb : b < st)
    (hT : st * S.rangePages l = S.numTotalBucket) {s : State α σ ρ} (hs : Inv s.vec)
    (hcur : ∀ q < S.rangePages l, cur s.vec (b + q * st) = none) :
    Ends (fun s' => Inv s'.vec ∧
        Stamps (fun q => b + q * st) (S.rangePages l) (some l) (cur s.vec) (cur s'.vec))
      (StopsVersioned Inv A)
      (S.KWayDistriSort I V uninit (S.numTotalBucket * S.Z) l (b * S.Z) st s) := by
  induction l generalizing b st s with
  | zero =>
    have hF : S.rangePages 0 = 1 * S.numInternalWay 0 := by rw [Nat.one_mul, rangePages_zero hl]
    rw [hF] at hT hcur ⊢
    exact sortStrides_stamps hV hS hsmall hl hb hT hs hcur
  | succ l ih =>
    rw [rangePages_succ hl] at hT hcur ⊢
    rw [KWayDistriSort]
    refine Ends.bind ((parts_columns (S.numInternalWay (l + 1)) (S.rangePages l)).loop
      (fun q => b + q * st) none (some l) (fun s : State α σ ρ => Inv s.vec) (fun s => cur s.vec)
      (fun q _ q' _ h => row_inj hb h) (fun i hi s hs hold => ?_) hs hcur) ?_
    · have hcol : b + i * st < st * S.numInternalWay (l + 1) := column_lt hb hi
      have hle : st * S.numInternalWay (l + 1) ≤ S.numTotalBucket := by
        rw [← hT, Nat.mul_comm (S.rangePages l), ← Nat.mul_assoc]
        exact Nat.le_mul_of_pos_right _ (hS.rangePages_pos (by omega))
      rw [begin_eq (by omega) hsmall]
      simp only [← column_eq] at hold ⊢
      exact ih (by omega) hcol (by rw [← hT]; ring) hs hold
    · rintro s₁ ⟨hs₁, h₁⟩
      refine (sortStrides_stamps hV hS hsmall hl hb hT hs₁ fun q hq => ?_).mono
        (fun _ h => ⟨h.1, h₁.again h.2⟩) fun _ he => he
      rw [h₁.here q hq]
      rfl

omit [SortKey α] hV hS hsmall in
theorem flush_versioned {s : State α σ ρ} (hs : Inv s.vec) :
    Ends (fun s' => Inv s'.vec) (StopsVersioned Inv A) (flush I s) := by
  rw [flush]
  split
  · exact ⟨hs, fun h => by cases h⟩
  · exact hs

/-- The last layer reads the pages of the partitions. -/
theorem lastLayer_versioned {L : Nat} (hL : S.distriParams.ways.length = L) {s : State α σ ρ}
    (hs : Inv s.vec) (hcur : ∀ q < S.numTotalBucket, cur s.vec (0 + q * 1) = before L) :
    Ends (fun s' => Inv s'.vec) (StopsVersioned Inv A)
      (S.sortStrides I V uninit (S.numTotalBucket * S.Z) L (0 * S.Z) 1 s) := by
  have hlast : S.isLastLayer L = true := beq_iff_eq.2 hL.symm
  have hw : S.numInternalWay L = S.partitionSize := by rw [numInternalWay, hlast, if_pos rfl]
  have hT : 1 * (S.distriParams.totalPartition * S.numInternalWay L) = S.numTotalBucket := by
    rw [hw, Nat.one_mul, hS.totalBucket]
  rw [sortStrides_eq I V uninit Nat.one_pos (hw ▸ hS.partitionSize_pos) hS.Z_pos hT hsmall, hlast]
  refine Ends.bind (forRange_ends (fun _ s' => Inv s'.vec ∧ cur s'.vec = cur s.vec) ⟨hs, rfl⟩
    ?_) fun s₁ h₁ => flush_versioned h₁.1
  rintro k hk s₁ ⟨hs₁, hcur₁⟩
  have hlt : ∀ j < S.numInternalWay L, k * S.numInternalWay L + j < S.numTotalBucket :=
    fun j hj => by
    rw [← hT, Nat.one_mul]
    exact grid_lt hk hj
  refine (lastStride_versioned hV hS.Z_pos hsmall (fun j hj => ?_) hlast hs₁ fun j hj => ?_).mono
    (fun s₂ h => ⟨h.1, h.2.trans hcur₁⟩) fun _ he => he
  · rw [Nat.zero_add, Nat.mul_one]
    exact hlt j hj
  · rw [hcur₁]
    exact hcur _ (hlt j hj)

/-- **A whole sort** reads every page with the counter it was last written with, and writes no page
twice with one counter. -/
theorem sort_versioned {s : State α σ ρ} (hs : Inv s.vec) (hcur : ∀ p, cur s.vec p = none) :
    Ends (fun s' => Inv s'.vec) (StopsVersioned Inv A) (S.sort I V uninit s) := by
  obtain ⟨l, hl⟩ : ∃ l, S.distriParams.ways.length = l + 1 :=
    Nat.exists_eq_succ_of_ne_zero fun h => hS.ways.ne_nil (List.length_eq_zero_iff.1 h)
  have hw : S.numInternalWay (l + 1) = S.partitionSize := by
    rw [numInternalWay, isLastLayer, hl, beq_self_eq_true, if_pos rfl]
  have hpages : S.rangePages l = S.distriParams.totalPartition := by
    rw [hS.totalPartition, rangePages, ← hl, List.take_length]
  have hbegin : ∀ i, (0 + i * 1 * S.Z) % 2 ^ 64 = (0 * S.Z + i * 1 * S.Z) % 2 ^ 64 := fun i => by
    rw [Nat.zero_mul]
  rw [sort, Nat.mod_eq_of_lt (by omega), hl, KWayDistriSort, hw]
  refine Ends.bind ((parts_columns S.partitionSize S.distriParams.totalPartition).loop
    (fun q => 0 + q * 1) none (some l) (fun s : State α σ ρ => Inv s.vec) (fun s => cur s.vec)
    (fun q _ q' _ h => row_inj Nat.one_pos h) (fun i hi s hs hold => ?_) hs fun q _ => hcur _) ?_
  · have hcol : 0 + i * 1 < 1 * S.partitionSize := column_lt Nat.one_pos hi
    have hle : S.partitionSize ≤ S.numTotalBucket := by
      rw [hS.totalBucket, ← hpages]
      exact Nat.le_mul_of_pos_left _ (hS.rangePages_pos (by omega))
    rw [hbegin, begin_eq (by omega) hsmall]
    simp only [← column_eq] at hold ⊢
    rw [← hpages] at hold ⊢
    refine KWayDistriSort_stamps hV hS hsmall (by omega) hcol ?_ hs hold
    rw [hpages, hS.totalBucket, Nat.one_mul, Nat.mul_comm]
  · rintro s₁ ⟨hs₁, h₁⟩
    rw [← Nat.zero_mul S.Z]
    refine lastLayer_versioned hV hS hsmall hl hs₁ fun q hq => ?_
    rw [h₁.here q (by rwa [← hS.totalBucket])]
    rfl

end Layers

end KWayDistriSorter

end EM.Algorithm
