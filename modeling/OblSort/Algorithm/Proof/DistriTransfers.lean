import OblSort.Algorithm.Proof.ButterflyTransfers
import OblSort.Algorithm.Proof.DistriReplay

/-!
# The page transfers of a distribution sorter

As for the butterfly sorter: the pages that a sort reads and writes are known from its parameters,
and do not depend on the input, on the pivots or on memory (`distri_transfers`), when positions fit
into an `int`.
-/

namespace EM.Algorithm.KWayDistriSorter

open EM.DynamicPageVector Loop Store Strided

variable {α σ ρ : Type} {S : KWayDistriSorter α}

/-- What a state has recorded. -/
abbrev State.log (s : State α (σ × List PageOp) ρ) : List PageOp := s.vec.2

variable (V : Vector σ (List (Block α))) (I : IOVector ρ α) (uninit : Nat → Nat → List (Block α))

theorem copyIn_logs (it p counter : Nat) :
    Logs (State.log (ρ := ρ)) [.read (it / S.Z) counter] (S.copyIn (recording V) it p counter) := by
  refine ⟨fun s => ?_⟩
  simp only [copyIn, recording]
  cases V.read (it / S.Z) counter s.vec.1 with
  | mk result vec =>
    cases result with
    | none => exact ⟨_, List.prefix_rfl, rfl⟩
    | some bucket => exact rfl

theorem copyOut_logs (it p counter : Nat) :
    Logs (State.log (ρ := ρ)) [.write (it / S.Z) counter] (S.copyOut (recording V) it p counter) :=
  ⟨fun _ => rfl⟩

theorem flush_logs : Logs (State.log (α := α) (σ := σ)) [] (flush I) := by
  refine .nothing fun s => ?_
  rw [flush]
  cases I.flush s.io with
  | error io => exact rfl
  | ok io => exact rfl

/-! ## Strides -/

section Stride

variable [SortKey α] {l b st : Nat} (hZ : 0 < S.Z) (hsmall : S.numTotalBucket * S.Z < 2 ^ 31)

include hZ hsmall

/-- **A stride** makes its transfers. -/
theorem sortStride_logs {k : Nat}
    (hlt : ∀ j < S.numInternalWay l, b + (k * S.numInternalWay l + j) * st < S.numTotalBucket) :
    Logs State.log (S.strideTransfers l st b k)
      (S.sortStride I (recording V) l st ((b + k * (st * S.numInternalWay l)) * S.Z) k) := by
  have hfetch : Logs (State.log (ρ := ρ)) (if l = 0 then []
      else (S.stridePages l st b k).map (.read · (l - 1)))
      (S.fetchStride (recording V) l st ((b + k * (st * S.numInternalWay l)) * S.Z)) := by
    rw [stridePages, List.map_map]
    refine Logs.skip.ite (forRange_logs_map fun j hj => ?_)
    rw [Function.comp_apply, ← page_eq hZ hsmall (hlt j hj)]
    exact copyIn_logs V ..
  have hwrite : Logs (State.log (ρ := ρ)) ((S.stridePages l st b k).map (.write · l))
      (S.writeStride (recording V) l st ((b + k * (st * S.numInternalWay l)) * S.Z)) := by
    rw [stridePages, List.map_map]
    refine forRange_logs_map fun j hj => ?_
    rw [Function.comp_apply, ← page_eq hZ hsmall (hlt j hj)]
    exact copyOut_logs V ..
  have hbasic : Logs (State.log (σ := σ)) [] (S.KWayDistriSortBasic I l (S.numInternalWay l)
      (st / S.partitionSize) (k * S.numInternalWay l) ((S.waysOf l).length - 1) 0 1) :=
    .nothing fun s => ((memory_keeps_vec I s.vec).basic rfl).mono (fun _ h => congrArg Prod.snd h)
      fun _ he => congrArg Prod.snd he.1
  have houtput : Logs (State.log (σ := σ)) [] (S.outputPartition I l) := .nothing fun _ => rfl
  exact hfetch.comp (houtput.ite (hbasic.comp hwrite))

/-- **The loop over the strides** makes its transfers. -/
theorem sortStrides_logs (hb : b < st) (hw : 0 < S.numInternalWay l) {F : Nat}
    (hT : st * (F * S.numInternalWay l) = S.numTotalBucket) :
    Logs State.log (S.stridesTransfers l b st)
      (S.sortStrides I (recording V) uninit (S.numTotalBucket * S.Z) l (b * S.Z) st) := by
  have hF : S.numTotalBucket / (st * S.numInternalWay l) = F := by
    rw [← hT, Nat.mul_left_comm]
    exact Nat.mul_div_cancel _ (Nat.mul_pos (by omega) hw)
  have hloop : Logs State.log (S.stridesTransfers l b st)
      (forRange F fun k => S.sortStride I (recording V) l st
        ((b + k * (st * S.numInternalWay l)) * S.Z) k) := by
    rw [stridesTransfers, hF]
    refine forRange_logs fun k hk => sortStride_logs V I hZ hsmall fun j hj => ?_
    rw [← hT]
    exact column_lt hb (grid_lt hk hj)
  have hflush : Logs (State.log (σ := σ) (α := α)) []
      (fun s => if S.isLastLayer l then flush I s else .ok s) := by
    split
    · exact flush_logs I
    · exact .skip
  refine ⟨fun s => ?_⟩
  rw [sortStrides_eq I (recording V) uninit hb hw hZ hT hsmall]
  exact (hloop.before hflush).ends (allocate uninit s)

end Stride

/-! ## Layers -/

section Layers

variable [SortKey α] (hS : S.Layered) (hsmall : S.numTotalBucket * S.Z < 2 ^ 31)

include hS hsmall

theorem layer_logs {l b st : Nat} (hl : l < S.distriParams.ways.length) (hb : b < st)
    (hT : st * S.rangePages l = S.numTotalBucket) :
    Logs State.log (S.layerTransfers l b st)
      (S.KWayDistriSort I (recording V) uninit (S.numTotalBucket * S.Z) l (b * S.Z) st) := by
  induction l generalizing b st with
  | zero =>
    have hF : S.rangePages 0 = 1 * S.numInternalWay 0 := by rw [Nat.one_mul, rangePages_zero hl]
    exact sortStrides_logs V I uninit hS.Z_pos hsmall hb (hS.numInternalWay_pos hl) (hF ▸ hT)
  | succ l ih =>
    rw [rangePages_succ hl] at hT
    refine (forRange_logs fun i hi => ?_).comp
      (sortStrides_logs V I uninit hS.Z_pos hsmall hb (hS.numInternalWay_pos hl) hT)
    have hcol : b + i * st < st * S.numInternalWay (l + 1) := column_lt hb hi
    have hle : st * S.numInternalWay (l + 1) ≤ S.numTotalBucket := by
      rw [← hT, Nat.mul_comm (S.rangePages l), ← Nat.mul_assoc]
      exact Nat.le_mul_of_pos_right _ (hS.rangePages_pos (by omega))
    rw [begin_eq (by omega) hsmall]
    exact ih (by omega) hcol (by rw [← hT]; ring)

/-- **A sort makes the transfers** that its parameters say, whatever it sorts. -/
theorem sort_logs : Logs State.log S.transfers (S.sort I (recording V) uninit) := by
  obtain ⟨l, hl⟩ : ∃ l, S.distriParams.ways.length = l + 1 :=
    Nat.exists_eq_succ_of_ne_zero fun h => hS.ways.ne_nil (List.length_eq_zero_iff.1 h)
  have hw : S.numInternalWay (l + 1) = S.partitionSize := by
    rw [numInternalWay, isLastLayer, hl, beq_self_eq_true, if_pos rfl]
  have hpages : S.rangePages l = S.distriParams.totalPartition := by
    rw [hS.totalPartition, rangePages, ← hl, List.take_length]
  have hT : 1 * (S.distriParams.totalPartition * S.numInternalWay (l + 1)) = S.numTotalBucket := by
    rw [hw, Nat.one_mul, hS.totalBucket]
  have hbegin : ∀ i, (0 + i * 1 * S.Z) % 2 ^ 64 = (0 * S.Z + i * 1 * S.Z) % 2 ^ 64 := fun i => by
    rw [Nat.zero_mul]
  have hlast := sortStrides_logs V I uninit hS.Z_pos hsmall Nat.one_pos
    (hw ▸ hS.partitionSize_pos) hT
  rw [Nat.zero_mul] at hlast
  refine ⟨fun s => ?_⟩
  rw [sort, transfers, Nat.mod_eq_of_lt (by omega), hl]
  refine Logs.ends (Logs.comp (forRange_logs fun i hi => ?_) hlast) s
  have hcol : 0 + i * 1 < 1 * S.partitionSize := column_lt Nat.one_pos (hw ▸ hi)
  have hle : S.partitionSize ≤ S.numTotalBucket := by
    rw [hS.totalBucket, ← hpages]
    exact Nat.le_mul_of_pos_left _ (hS.rangePages_pos (by omega))
  rw [hbegin, begin_eq (by omega) hsmall, hw]
  refine layer_logs V I uninit hS hsmall (by omega) hcol ?_
  rw [hpages, hS.totalBucket, Nat.one_mul, Nat.mul_comm]

end Layers

/-! ## By pages -/

/-- What a layer does to a page. -/
def layerOps (S : KWayDistriSorter α) (ioLayer page : Nat) : List PageOp :=
  (if ioLayer = 0 then [] else [.read page (ioLayer - 1)]) ++
    (if S.isLastLayer ioLayer then [] else [.write page ioLayer])

/-- The strides of a layer go through the pages of its range. -/
theorem strides_perm (l b : Nat) {st F : Nat} (hst : 0 < st) (hw : 0 < S.numInternalWay l)
    (hT : st * (F * S.numInternalWay l) = S.numTotalBucket) :
    List.Perm (S.stridesTransfers l b st)
      (gather (F * S.numInternalWay l) fun q => S.layerOps l (b + q * st)) := by
  have hF : S.numTotalBucket / (st * S.numInternalWay l) = F := by
    rw [← hT, Nat.mul_left_comm]
    exact Nat.mul_div_cancel _ (Nat.mul_pos hst hw)
  rw [stridesTransfers, hF, gather_mul]
  refine gather_perm fun k _ => .trans (.of_eq ?_) (gather_append_perm ..).symm
  simp only [strideTransfers, stridePages, List.map_map]
  congr 1
  · split
    · simp [gather]
    · rw [← List.flatMap_pure_eq_map]
      rfl
  · split
    · simp [gather]
    · rw [← List.flatMap_pure_eq_map]
      rfl

/-- The calls of a layer for its columns, and its own strides. -/
theorem layer_step {l b st F : Nat} (hst : 0 < st) (hw : 0 < S.numInternalWay (l + 1))
    (hT : st * (F * S.numInternalWay (l + 1)) = S.numTotalBucket)
    (hcols : ∀ i < S.numInternalWay (l + 1),
      List.Perm (S.layerTransfers l (b + i * st) (st * S.numInternalWay (l + 1)))
        (gather F fun k => writtenIn l (b + i * st + k * (st * S.numInternalWay (l + 1))))) :
    List.Perm (S.layerTransfers (l + 1) b st)
      (gather (F * S.numInternalWay (l + 1)) fun q => pageTransfers (l + 1) (b + q * st) ++
        if S.isLastLayer (l + 1) then [] else [.write (b + q * st) (l + 1)]) := by
  rw [layerTransfers]
  refine (((gather_perm hcols).trans (gather_comm ..)).append
    (strides_perm (l + 1) b hst hw hT)).trans ?_
  simp only [column_eq]
  rw [← gather_mul _ _ fun q => writtenIn l (b + q * st)]
  refine (gather_append_perm ..).symm.trans (.of_eq (gather_congr fun q _ => ?_))
  rw [layerOps, if_neg (by omega), pageTransfers_succ, writtenIn, Nat.add_sub_cancel]
  simp only [List.append_assoc, List.cons_append, List.nil_append]

section Pages

variable (hS : S.Layered)

include hS

/-- The pages of a range, up to a layer before the last one. -/
theorem layer_perm {l b st : Nat} (hl : l < S.distriParams.ways.length) (hst : 0 < st)
    (hT : st * S.rangePages l = S.numTotalBucket) :
    List.Perm (S.layerTransfers l b st) (gather (S.rangePages l) fun q =>
      writtenIn l (b + q * st)) := by
  have hinner : S.isLastLayer l = false := isLastLayer_eq_false hl
  induction l generalizing b st with
  | zero =>
    have hF : S.rangePages 0 = 1 * S.numInternalWay 0 := by rw [Nat.one_mul, rangePages_zero hl]
    rw [hF] at hT ⊢
    refine (strides_perm 0 b hst (hS.numInternalWay_pos hl) hT).trans
      (.of_eq (gather_congr fun q _ => ?_))
    rw [layerOps, if_pos rfl, hinner]
    rfl
  | succ l ih =>
    have hw := hS.numInternalWay_pos hl
    rw [rangePages_succ hl] at hT ⊢
    refine (layer_step hst hw hT fun i _ => ih (by omega) (Nat.mul_pos hst hw) (by rw [← hT]; ring)
      (isLastLayer_eq_false (by omega))).trans (.of_eq (gather_congr fun q _ => ?_))
    rw [hinner]
    rfl

/-- **Every page** is written and read once in each layer but the last one. -/
theorem transfers_perm :
    List.Perm S.transfers (gather S.numTotalBucket (pageTransfers S.distriParams.ways.length)) := by
  obtain ⟨l, hl⟩ : ∃ l, S.distriParams.ways.length = l + 1 :=
    Nat.exists_eq_succ_of_ne_zero fun h => hS.ways.ne_nil (List.length_eq_zero_iff.1 h)
  have hlast : S.isLastLayer (l + 1) = true := by rw [isLastLayer, hl, beq_self_eq_true]
  have hw : S.numInternalWay (l + 1) = S.partitionSize := by rw [numInternalWay, hlast, if_pos rfl]
  have hpages : S.rangePages l = S.distriParams.totalPartition := by
    rw [hS.totalPartition, rangePages, ← hl, List.take_length]
  have hT : 1 * (S.rangePages l * S.numInternalWay (l + 1)) = S.numTotalBucket := by
    rw [hw, Nat.one_mul, hpages, hS.totalBucket]
  have hpos : 0 < S.numInternalWay (l + 1) := hw ▸ hS.partitionSize_pos
  rw [transfers, hl]
  refine (layer_step Nat.one_pos hpos hT fun i _ => layer_perm hS (by omega)
    (Nat.mul_pos Nat.one_pos hpos) (by rw [← hT]; ring)).trans (.of_eq ?_)
  rw [← hT, Nat.one_mul]
  refine gather_congr fun q _ => ?_
  rw [hlast, if_pos rfl, List.append_nil, Nat.zero_add, Nat.mul_one]

/-- **The page transfers of a sort** are fixed by its parameters: a run makes the `transfers`, or a
first part of them when it stops, whatever the input, the pivots and the memory are. They are a
write and a read of every page in each layer but the last one. -/
theorem distri_transfers [SortKey α] (hsmall : S.numTotalBucket * S.Z < 2 ^ 31) (io : ρ)
    (inputCount : BitVec 64) (vec : σ) :
    Ends
      (fun s => S.sort I V uninit (.start io inputCount vec) = .ok (s.mapVec Prod.fst) ∧
        s.log = S.transfers)
      (fun e => S.sort I V uninit (.start io inputCount vec) = .error (e.1, e.2.mapVec Prod.fst) ∧
        e.2.log <+: S.transfers)
      (S.sort I (recording V) uninit (.start io inputCount (vec, []))) ∧
    List.Perm S.transfers (gather S.numTotalBucket (pageTransfers S.distriParams.ways.length)) ∧
    S.transfers.length = S.numTotalBucket * (S.distriParams.ways.length * 2) := by
  have hperm := transfers_perm hS
  refine ⟨?_, hperm, ?_⟩
  · refine (((sort_follows I (recording_tracks V) uninit).ends _).and
      ((sort_logs V I uninit hS hsmall).ends _)).mono (fun s h => ⟨(h.1 trivial).2, h.2⟩) ?_
    rintro e ⟨hsame, done, hdone, hlog⟩
    refine ⟨(hsame ⟨trivial, fun _ => trivial⟩).2, ?_⟩
    rw [hlog]
    exact hdone
  · rw [hperm.length_eq]
    exact length_gather fun q _ => length_pageTransfers _ q

end Pages

/-- Two layers of two ways and partitions of one bucket, on plain pages: four pages are written and
read twice. -/
theorem distri_transfers_two :
    Ends
      (fun s => twoLayers.sort InOut.vector (.plain _) (fun _ => zeroBlocks)
        (.start ⟨[(⟨5, []⟩, 0)], []⟩ 0 fun _ => []) = .ok (s.mapVec Prod.fst) ∧
        s.log = twoLayers.transfers)
      (fun e => twoLayers.sort InOut.vector (.plain _) (fun _ => zeroBlocks)
        (.start ⟨[(⟨5, []⟩, 0)], []⟩ 0 fun _ => []) = .error (e.1, e.2.mapVec Prod.fst) ∧
        e.2.log <+: twoLayers.transfers)
      (twoLayers.sort InOut.vector (recording (.plain _)) (fun _ => zeroBlocks)
        (.start ⟨[(⟨5, []⟩, 0)], []⟩ 0 (fun _ => [], []))) ∧
    List.Perm twoLayers.transfers (gather 4 (pageTransfers 2)) ∧
    twoLayers.transfers.length = 4 * (2 * 2) :=
  distri_transfers (.plain (List (Block SortElement))) InOut.vector
    (fun _ => zeroBlocks) twoLayers_layered
    (show 2 * 2 * 1 * 2 < 2 ^ 31 by decide) ⟨[(⟨5, []⟩, 0)], []⟩ 0 fun _ => []

end EM.Algorithm.KWayDistriSorter
