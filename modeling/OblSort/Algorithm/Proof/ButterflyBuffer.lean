import OblSort.Algorithm.Proof.ButterflyRouting

/-!
# The buffer of the butterfly sorter

A sorter stops before a batch that would leave its buffer. Under `HoldsBatches`, which looks at the
parameters only, every batch is in the buffer (`Fits`); and a sort that comes to its end had a
buffer that held its batches (`sort_eq_ok`).
-/

namespace EM.Algorithm.ButterflySorter

open EM.DynamicPageVector Loop

variable {α σ : Type} {S : ButterflySorter}

/-! ## Sizes -/

@[simp] theorem fetchInterval_zero : S.fetchInterval 0 = 1 := rfl

theorem fetchInterval_succ (ioLayer : Nat) : S.fetchInterval (ioLayer + 1) =
    S.fetchInterval ioLayer * (S.waysOf ioLayer).prod := by
  rw [fetchInterval, List.range_succ, List.foldl_append, ← fetchInterval, List.foldl_cons,
    List.foldl_nil, getVecProduct_eq]

theorem fetchInterval_eq {ioLayer : Nat} (hio : ioLayer ≤ S.KWayParams.ways.length) :
    S.fetchInterval ioLayer = ((S.KWayParams.ways.take ioLayer).map List.prod).prod := by
  induction ioLayer with
  | zero => rfl
  | succ n ih =>
    rw [fetchInterval_succ, ih (by omega), List.map_take, List.map_take,
      List.prod_take_succ _ _ (by simpa using hio), List.getElem_map, waysOf,
      List.getD_eq_getElem _ _ hio]

theorem Valid.totalBucket_eq (hv : S.Valid) :
    S.KWayParams.totalBucket = S.fetchInterval S.KWayParams.ways.length := by
  rw [fetchInterval_eq (Nat.le_refl _), hv.totalBucket, List.take_length]

theorem Valid.prod_pos (hv : S.Valid) {ioLayer : Nat} (hio : ioLayer < S.KWayParams.ways.length) :
    0 < (S.waysOf ioLayer).prod :=
  prod_pos_of_ways (hv.way_range _ (waysOf_mem hio))

theorem Valid.Z_pos (hv : S.Valid) : 0 < S.Z := by
  obtain ⟨m, -, hm⟩ := hv.Z
  rw [hm]
  exact Nat.two_pow_pos m

theorem Valid.localBatchSize_pos (hv : S.Valid) {ioLayer : Nat}
    (hio : ioLayer < S.KWayParams.ways.length) : 0 < (S.waysOf ioLayer).prod * S.Z :=
  Nat.mul_pos (hv.prod_pos hio) hv.Z_pos

theorem Valid.fetchInterval_pos (hv : S.Valid) {ioLayer : Nat}
    (hio : ioLayer ≤ S.KWayParams.ways.length) : 0 < S.fetchInterval ioLayer := by
  induction ioLayer with
  | zero => exact Nat.one_pos
  | succ n ih =>
    rw [fetchInterval_succ]
    exact Nat.mul_pos (ih (by omega)) (hv.prod_pos (by omega))

theorem divRoundUp_mul {F W : Nat} (hW : 0 < W) : divRoundUp (F * W) W = F := by
  rw [divRoundUp, Nat.add_sub_assoc hW, Nat.mul_comm, Nat.mul_add_div hW,
    Nat.div_eq_of_lt (by omega), Nat.add_zero]

theorem Valid.lastLayer (hv : S.Valid) :
    S.KWayParams.ways.length - 1 + 1 = S.KWayParams.ways.length :=
  Nat.sub_add_cancel (List.length_pos_iff.2 hv.ways_ne_nil)

theorem Valid.totalBucket_last (hv : S.Valid) : S.KWayParams.totalBucket =
    S.fetchInterval (S.KWayParams.ways.length - 1) *
      (S.waysOf (S.KWayParams.ways.length - 1)).prod := by
  rw [hv.totalBucket_eq, ← fetchInterval_succ, hv.lastLayer]

/-! ## The layers -/

section Layers

variable (V : Vector σ (List (TaggedT α))) (stdSort : List (TaggedT α) → List (TaggedT α))

/-- The first layer sorts its batches. -/
theorem KWayButterflySort_first (hW : 0 < (S.waysOf 0).prod) (begin : Nat) (s : State α σ) :
    S.KWayButterflySort V stdSort 0 begin (S.fetchInterval 0 * (S.waysOf 0).prod) s =
      forRange (S.fetchInterval 0) (S.sortBatch V stdSort 0 begin (S.fetchInterval 0)) s := by
  rw [KWayButterflySort, getVecProduct_eq, divRoundUp_mul hW]

/-- Another layer sorts its batches after the layers below it have sorted each of its parts. -/
theorem KWayButterflySort_next {ioLayer : Nat} (hW : 0 < (S.waysOf (ioLayer + 1)).prod)
    (begin : Nat) (s : State α σ) :
    S.KWayButterflySort V stdSort (ioLayer + 1) begin
        (S.fetchInterval (ioLayer + 1) * (S.waysOf (ioLayer + 1)).prod) s =
      (forRange (S.waysOf (ioLayer + 1)).prod (fun i => S.KWayButterflySort V stdSort ioLayer
        (begin + i * S.fetchInterval (ioLayer + 1)) (S.fetchInterval (ioLayer + 1))) s >>= fun s =>
      forRange (S.fetchInterval (ioLayer + 1))
        (S.sortBatch V stdSort (ioLayer + 1) begin (S.fetchInterval (ioLayer + 1))) s) := by
  rw [KWayButterflySort, getVecProduct_eq, Nat.mul_div_cancel _ hW, divRoundUp_mul hW]

end Layers

/-! ## The buffer -/

/-- Every batch is in the buffer. -/
def Fits (S : ButterflySorter) : Prop :=
  ∀ ioLayer < S.KWayParams.ways.length, ∀ batchIdx < S.fetchInterval ioLayer,
    S.InBuffer ioLayer batchIdx

theorem enterBatch_eq {ioLayer batchIdx : Nat} (h : S.InBuffer ioLayer batchIdx) (s : State α σ) :
    S.enterBatch ioLayer batchIdx s = .ok s :=
  require_pos h _ s

/-- A batch that is not in the buffer stops the sort. -/
theorem sortBatch_overrun {ioLayer batchIdx : Nat} (h : ¬ S.InBuffer ioLayer batchIdx)
    (V : Vector σ (List (TaggedT α))) (stdSort : List (TaggedT α) → List (TaggedT α))
    (begin batchCount : Nat) (s : State α σ) :
    S.sortBatch V stdSort ioLayer begin batchCount batchIdx s = .error (.overrun, s) := by
  rw [sortBatch, enterBatch, require_neg h]
  rfl

section Buffer

variable {V : Vector σ (List (TaggedT α))} {stdSort : List (TaggedT α) → List (TaggedT α)}

/-- Batches that have been sorted were in the buffer. -/
theorem inBuffer_of_batches {n ioLayer begin batchCount : Nat} {s s' : State α σ}
    (h : forRange n (S.sortBatch V stdSort ioLayer begin batchCount) s = .ok s') :
    ∀ batchIdx < n, S.InBuffer ioLayer batchIdx := by
  induction n generalizing s' with
  | zero => exact fun batchIdx hlt => absurd hlt (Nat.not_lt_zero batchIdx)
  | succ n ih =>
    intro batchIdx hlt
    obtain ⟨s₁, h₁, h₂⟩ := bind_eq_ok h
    obtain hlt | rfl : batchIdx < n ∨ batchIdx = n := by omega
    · exact ih h₁ batchIdx hlt
    · exact (of_require_bind h₂).1

/-- So were those of the layers below. -/
theorem inBuffer_of_layer (hv : S.Valid) {ioLayer begin : Nat}
    (hio : ioLayer < S.KWayParams.ways.length) {s s' : State α σ}
    (h : S.KWayButterflySort V stdSort ioLayer begin (S.fetchInterval (ioLayer + 1)) s = .ok s') :
    ∀ l ≤ ioLayer, ∀ batchIdx < S.fetchInterval l, S.InBuffer l batchIdx := by
  have hW := hv.prod_pos hio
  induction ioLayer generalizing begin s s' with
  | zero =>
    intro l hl
    obtain rfl : l = 0 := by omega
    rw [fetchInterval_succ, KWayButterflySort_first V stdSort hW] at h
    exact inBuffer_of_batches h
  | succ ioLayer ih =>
    rw [fetchInterval_succ (ioLayer + 1), KWayButterflySort_next V stdSort hW] at h
    obtain ⟨s₁, hsub, hbatches⟩ := bind_eq_ok h
    intro l hl
    obtain hl | rfl : l ≤ ioLayer ∨ l = ioLayer + 1 := by omega
    · obtain ⟨s₂, hfirst⟩ := forRange_first hW hsub
      exact ih (by omega) hfirst (hv.prod_pos (by omega)) l hl
    · exact inBuffer_of_batches hbatches

/-- **A sort that comes to its end** has allocated its buffer, and every batch was in it. -/
theorem sort_eq_ok (hv : S.Valid) {s s' : State α σ} (h : S.sort V stdSort s = .ok s') :
    S.batchSize * S.sizeofWrappedT < 2 ^ 63 ∧ S.Fits ∧
      S.KWayButterflySort V stdSort (S.KWayParams.ways.length - 1) 0 S.KWayParams.totalBucket s =
        .ok s' := by
  obtain ⟨halloc, hrun⟩ := of_require_bind h
  refine ⟨halloc, fun ioLayer hio => ?_, hrun⟩
  have hlast := hv.lastLayer
  rw [hv.totalBucket_last, ← fetchInterval_succ] at hrun
  exact inBuffer_of_layer hv (by omega) hrun ioLayer (by omega)

/-- A sort whose buffer can be allocated goes through its layers. -/
theorem sort_eq (halloc : S.batchSize * S.sizeofWrappedT < 2 ^ 63) (s : State α σ) :
    S.sort V stdSort s =
      S.KWayButterflySort V stdSort (S.KWayParams.ways.length - 1) 0
        S.KWayParams.totalBucket s := by
  rw [sort, newBatch, require_pos halloc, ok_bind]

end Buffer

theorem numElementFit_new_lt (task : SortMethod) (singleBatch : Bool) (params : KWayButterflyParams)
    (heapSize sizeofWrappedT size : Nat) :
    (new task singleBatch params heapSize sizeofWrappedT size).numElementFit < 2 ^ 64 :=
  Nat.mod_lt _ (Nat.two_pow_pos 64)

/-- The places there are for one batch: a sort divides what fits in memory into batches, a shuffle
has one batch in the buffer. -/
def room (S : ButterflySorter) : Nat :=
  if S.task = .kWayButterflyOSort then S.numElementFit else S.batchSize

/-- The buffer can be allocated, and there is room for a batch of every layer. -/
structure HoldsBatches (S : ButterflySorter) : Prop where
  alloc : S.batchSize * S.sizeofWrappedT < 2 ^ 63
  layer : ∀ ways ∈ S.KWayParams.ways, ways.prod * S.Z ≤ S.room

theorem HoldsBatches.room_le (h : S.HoldsBatches) {ioLayer : Nat}
    (hio : ioLayer < S.KWayParams.ways.length) :
    getVecProduct (S.waysOf ioLayer) * S.Z ≤ S.room := by
  rw [getVecProduct_eq]
  exact h.layer _ (waysOf_mem hio)

theorem batchPerEnclave_shuffle (ht : S.task = .kWayButterflyOShuffle) (ioLayer : Nat) :
    S.batchPerEnclave ioLayer = 1 := by
  simp [batchPerEnclave, ht]

/-- How many batches are kept in the buffer at a time. -/
theorem batchPerEnclave_mul_le {ioLayer : Nat}
    (h : getVecProduct (S.waysOf ioLayer) * S.Z ≤ S.numElementFit) :
    S.batchPerEnclave ioLayer * (getVecProduct (S.waysOf ioLayer) * S.Z) ≤ S.numElementFit := by
  unfold batchPerEnclave
  split
  · exact Nat.div_mul_le_self _ _
  · rwa [Nat.one_mul]

theorem batchPerEnclave_pos (hv : S.Valid) {ioLayer : Nat}
    (hio : ioLayer < S.KWayParams.ways.length)
    (h : getVecProduct (S.waysOf ioLayer) * S.Z ≤ S.numElementFit) :
    0 < S.batchPerEnclave ioLayer := by
  unfold batchPerEnclave
  split
  · rw [getVecProduct_eq] at h ⊢
    exact Nat.div_pos h (hv.localBatchSize_pos hio)
  · exact Nat.one_pos

theorem foldl_max_le {xs : List Nat} {a b : Nat} :
    xs.foldl max a ≤ b ↔ a ≤ b ∧ ∀ x ∈ xs, x ≤ b := by
  induction xs generalizing a with
  | nil => simp
  | cons x xs ih => rw [List.foldl_cons, ih, Nat.max_le, List.forall_mem_cons, and_assoc]

/-- The buffer of a single batch has room for a batch of every layer. -/
theorem HoldsBatches.le_maxBatchBucket (hv : S.Valid) (hlt : S.numElementFit < 2 ^ 64)
    (ht : S.task = .kWayButterflyOSort) (h : S.HoldsBatches) {ioLayer : Nat}
    (hio : ioLayer < S.KWayParams.ways.length) :
    getVecProduct (S.waysOf ioLayer) * S.Z ≤ S.maxBatchBucket * S.Z % 2 ^ 64 := by
  have hmax : S.maxBatchBucket ≤ S.numElementFit / S.Z := by
    rw [maxBatchBucket, foldl_max_le]
    refine ⟨Nat.zero_le _, fun x hx => ?_⟩
    obtain ⟨ways, hways, rfl⟩ := List.mem_map.1 hx
    have hroom := h.layer ways hways
    rw [room, if_pos ht] at hroom
    rwa [getVecProduct_eq, Nat.le_div_iff_mul_le hv.Z_pos]
  have hle : getVecProduct (S.waysOf ioLayer) ≤ S.maxBatchBucket :=
    (foldl_max_le.1 (Nat.le_refl S.maxBatchBucket)).2 _ (List.mem_map_of_mem (waysOf_mem hio))
  have hfit : S.maxBatchBucket * S.Z ≤ S.numElementFit :=
    (Nat.mul_le_mul_right _ hmax).trans (Nat.div_mul_le_self _ _)
  rw [Nat.mod_eq_of_lt (hfit.trans_lt hlt)]
  exact Nat.mul_le_mul_right _ hle

/-- The one batch that a shuffle has in the buffer. -/
theorem HoldsBatches.fits_shuffle (ht : S.task = .kWayButterflyOShuffle) (h : S.HoldsBatches) :
    S.Fits := by
  intro ioLayer hio batchIdx _
  have hroom := h.room_le hio
  rw [room, ht, if_neg (by decide)] at hroom
  rw [InBuffer, batchPerEnclave_shuffle ht, Nat.mod_one, Nat.zero_add, Nat.one_mul]
  exact ⟨Nat.one_pos, hroom⟩

/-- The batches of a sort are in its buffer. -/
theorem HoldsBatches.fits_sort (hv : S.Valid) (hlt : S.numElementFit < 2 ^ 64)
    (ht : S.task = .kWayButterflyOSort)
    (hsingle : S.singleBatch = true → S.KWayParams.ways.length = 1)
    (h : S.HoldsBatches) : S.Fits := by
  intro ioLayer hio batchIdx hbatch
  have hfit := h.room_le hio
  rw [room, if_pos ht] at hfit
  have hpos := batchPerEnclave_pos hv hio hfit
  refine ⟨hpos, ?_⟩
  cases hone : S.singleBatch with
  | false =>
    rw [batchSize, hone, if_neg Bool.false_ne_true]
    exact (Nat.mul_le_mul_right _ (Nat.mod_lt batchIdx hpos)).trans (batchPerEnclave_mul_le hfit)
  | true =>
    -- the only layer has one batch
    have hlen := hsingle hone
    obtain rfl : ioLayer = 0 := by omega
    rw [Nat.lt_one_iff.1 hbatch, Nat.zero_mod, Nat.zero_add, Nat.one_mul, batchSize,
      hone, if_pos rfl]
    exact h.le_maxBatchBucket hv hlt ht hio

/-- A sort whose batches are in the buffer holds them. -/
theorem Fits.holdsBatches (hv : S.Valid) (ht : S.task = .kWayButterflyOSort)
    (hsingle : S.singleBatch = true → S.KWayParams.ways.length = 1)
    (halloc : S.batchSize * S.sizeofWrappedT < 2 ^ 63) (h : S.Fits) : S.HoldsBatches := by
  refine ⟨halloc, fun ways hways => ?_⟩
  obtain ⟨ioLayer, hio, rfl⟩ := List.mem_iff_getElem.1 hways
  have hof : S.waysOf ioLayer = S.KWayParams.ways[ioLayer] := List.getD_eq_getElem _ _ hio
  obtain ⟨hpos, hle⟩ := h ioLayer hio 0 (hv.fetchInterval_pos hio.le)
  rw [Nat.zero_mod, Nat.zero_add, Nat.one_mul, getVecProduct_eq, hof] at hle
  rw [room, if_pos ht]
  cases hone : S.singleBatch with
  | false =>
    rw [batchSize, hone, if_neg Bool.false_ne_true] at hle
    exact hle
  | true =>
    have hlast : S.isLastLayer ioLayer = true := by
      have := hsingle hone
      rw [isLastLayer, beq_iff_eq]
      omega
    rw [batchPerEnclave, if_pos ⟨ht, hlast⟩, getVecProduct_eq, hof] at hpos
    exact Nat.le_of_not_lt fun hlt => Nat.ne_of_gt hpos (Nat.div_eq_of_lt hlt)

end EM.Algorithm.ButterflySorter
