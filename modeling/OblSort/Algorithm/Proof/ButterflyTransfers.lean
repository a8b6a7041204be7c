import OblSort.Algorithm.Proof.ButterflyReplay
import OblSort.Algorithm.Transfers
import OblSort.Lib.Log

/-!
# The page transfers of a butterfly sorter

Which pages a sort reads and writes, and in which order, is known from the parameters: whatever the
input, the random tags, the buffer and the pages hold, a sort makes the `transfers`, or a first part
of them when it stops (`sort_logs`). They are, for every page, a write and a read in each layer but
the last one (`transfers_perm`).
-/

namespace EM.Algorithm

open EM.DynamicPageVector Loop Store

/-- What is recorded of a vector does not change what a program does on it. -/
theorem recording_tracks {σ P : Type} (V : Vector σ P) :
    Tracks (recording V) V Prod.fst (fun _ => True) True where
  write _ _ _ _ := rfl
  write_good _ _ _ _ h := h
  read _ _ _ _ _ := rfl
  read_good _ _ _ h := h

theorem length_pageTransfers (n page : Nat) : (pageTransfers n page).length = n * 2 :=
  length_gather fun _ _ => rfl

/-- One layer more. -/
theorem pageTransfers_succ (n page : Nat) :
    pageTransfers (n + 1) page = pageTransfers n page ++ [.write page n, .read page n] :=
  gather_succ ..

/-- The transfers of a page up to its write in a layer. -/
def writtenIn (ioLayer page : Nat) : List PageOp :=
    pageTransfers ioLayer page ++ [.write page ioLayer]

namespace ButterflySorter

variable {α σ : Type} {S : ButterflySorter}

/-- What a state has recorded. -/
abbrev State.log (s : State α (σ × List PageOp)) : List PageOp := s.vec.2

theorem KeepsVec.logs
    {f : State α (σ × List PageOp) → Except (Stop α (σ × List PageOp)) (State α (σ × List PageOp))}
    (h : ∀ s, KeepsVec s (f s)) : Logs State.log [] f :=
  .nothing fun s => (h s).mono (fun _ hs => congrArg Prod.snd hs) fun _ he => congrArg Prod.snd he.1

variable (V : Vector σ (List (TaggedT α))) (stdSort : List (TaggedT α) → List (TaggedT α))

theorem copyIn_logs (pageIdx p counter : Nat) :
    Logs State.log [.read pageIdx counter] (copyIn (recording V) pageIdx p counter) := by
  refine ⟨fun s => ?_⟩
  simp only [copyIn, recording]
  cases V.read pageIdx counter s.vec.1 with
  | mk result vec =>
    cases result with
    | none => exact ⟨_, List.prefix_rfl, rfl⟩
    | some bucket => exact rfl

theorem copyOut_logs (pageIdx p counter : Nat) :
    Logs State.log [.write pageIdx counter] (copyOut (recording V) pageIdx p counter) :=
  ⟨fun _ => rfl⟩

/-- **A batch** makes its transfers. -/
theorem sortBatch_logs (ioLayer begin batchCount batchIdx : Nat) :
    Logs State.log (S.batchTransfers ioLayer begin batchIdx)
      (S.sortBatch (recording V) stdSort ioLayer begin batchCount batchIdx) := by
  have hfetch : Logs State.log _ (S.fetchBatch (recording V) ioLayer begin batchIdx
      (batchIdx % S.batchPerEnclave ioLayer * getVecProduct (S.waysOf ioLayer))) :=
    Logs.skip.ite (forRange_logs_map fun _ _ => copyIn_logs V ..)
  have hbasic : Logs (State.log (α := α) (σ := σ)) [] (S.KWayButterflySortBasic ioLayer
      ((S.waysOf ioLayer).length - 1)
      (batchIdx % S.batchPerEnclave ioLayer * getVecProduct (S.waysOf ioLayer))
      (getVecProduct (S.waysOf ioLayer))) :=
    KeepsVec.logs fun s => basic_keepsVec ..
  have hwrite : Logs State.log _ (S.writeBatch (recording V) ioLayer begin batchIdx) :=
    forRange_logs_map fun _ _ => copyOut_logs V ..
  have houtput : Logs (State.log (α := α) (σ := σ)) []
    (S.outputBatch stdSort ioLayer batchCount batchIdx
      (batchIdx % S.batchPerEnclave ioLayer * getVecProduct (S.waysOf ioLayer))) :=
    KeepsVec.logs fun s => outputBatch_keepsVec ..
  simp only [batchTransfers, List.map_map]
  exact (require_logs _).after (hfetch.comp (hbasic.comp (houtput.ite hwrite)))

theorem layer_logs (ioLayer begin size : Nat) :
    Logs State.log (S.layerTransfers ioLayer begin size)
      (S.KWayButterflySort (recording V) stdSort ioLayer begin size) := by
  induction ioLayer generalizing begin size with
  | zero => exact forRange_logs fun _ _ => sortBatch_logs V stdSort ..
  | succ ioLayer ih =>
    exact (forRange_logs fun i _ => ih ..).comp (forRange_logs fun _ _ =>
      sortBatch_logs V stdSort ..)

/-- **A sort makes the transfers** that its parameters say, whatever it sorts. -/
theorem sort_logs : Logs State.log S.transfers (S.sort (recording V) stdSort) :=
  (require_logs _).after (layer_logs V stdSort ..)

/-! ## By pages -/

/-- What a layer does to a page. -/
def layerOps (S : ButterflySorter) (ioLayer page : Nat) : List PageOp :=
  (if ioLayer = 0 then [] else [.read page (ioLayer - 1)]) ++
    (if S.isLastLayer ioLayer then [] else [.write page ioLayer])

/-- The batches of a layer go through the columns of its range. -/
theorem batches_perm (ioLayer begin : Nat) :
    List.Perm (gather (S.fetchInterval ioLayer) (S.batchTransfers ioLayer begin))
      (gather ((S.waysOf ioLayer).prod * S.fetchInterval ioLayer) fun q =>
        S.layerOps ioLayer (begin + q)) := by
  have hbatch : ∀ n, List.Perm (S.batchTransfers ioLayer begin n)
      (gather (S.waysOf ioLayer).prod fun u => S.layerOps ioLayer
        (begin + (n + S.fetchInterval ioLayer * u))) := by
    intro n
    refine .trans (.of_eq ?_) (gather_append_perm ..).symm
    simp only [batchTransfers, getVecProduct_eq]
    congr 1
    · split
      · simp [gather]
      · rw [List.map_map, ← List.flatMap_pure_eq_map]
        rfl
    · split
      · simp [gather]
      · rw [List.map_map, ← List.flatMap_pure_eq_map]
        rfl
  refine (gather_perm fun n _ => hbatch n).trans ((gather_comm ..).trans (.of_eq ?_))
  rw [gather_mul]
  refine gather_congr fun u _ => gather_congr fun n _ => ?_
  rw [Nat.mul_comm u, Nat.add_comm n]

/-- The calls of a layer for its parts, and its own batches. -/
theorem layer_step {ioLayer : Nat} (hW : 0 < (S.waysOf (ioLayer + 1)).prod) (begin : Nat)
    (hparts : ∀ begin, List.Perm (S.layerTransfers ioLayer begin (S.fetchInterval (ioLayer + 1)))
      (gather (S.fetchInterval (ioLayer + 1)) fun q => writtenIn ioLayer (begin + q))) :
    List.Perm (S.layerTransfers (ioLayer + 1) begin (S.fetchInterval (ioLayer + 2)))
      (gather (S.fetchInterval (ioLayer + 2)) fun q => pageTransfers (ioLayer + 1) (begin + q) ++
        if S.isLastLayer (ioLayer + 1) then [] else [.write (begin + q) (ioLayer + 1)]) := by
  rw [layerTransfers, getVecProduct_eq, fetchInterval_succ (ioLayer + 1), divRoundUp_mul hW,
    Nat.mul_div_cancel _ hW]
  refine ((gather_perm fun i _ => hparts _).append (batches_perm (ioLayer + 1) begin)).trans ?_
  simp only [Nat.add_assoc]
  rw [Nat.mul_comm (S.fetchInterval _), ← gather_mul _ _ fun q => writtenIn ioLayer (begin + q)]
  refine (gather_append_perm ..).symm.trans (.of_eq (gather_congr fun q _ => ?_))
  rw [layerOps, if_neg (by omega), pageTransfers_succ, writtenIn, Nat.add_sub_cancel]
  simp only [List.append_assoc, List.cons_append, List.nil_append]

/-- The pages of a range, up to a layer before the last one. -/
theorem layer_perm (hS : S.Layered) {ioLayer : Nat} (hlast : ioLayer + 1 < S.KWayParams.ways.length)
    (begin : Nat) :
    List.Perm (S.layerTransfers ioLayer begin (S.fetchInterval (ioLayer + 1)))
      (gather (S.fetchInterval (ioLayer + 1)) fun q => writtenIn ioLayer (begin + q)) := by
  have hinner : S.isLastLayer ioLayer = false := beq_false_of_ne (by omega)
  induction ioLayer generalizing begin with
  | zero =>
    rw [layerTransfers, getVecProduct_eq, fetchInterval_succ,
      divRoundUp_mul (hS.prod_pos (by omega))]
    refine (batches_perm 0 begin).trans (.of_eq ?_)
    rw [Nat.mul_comm]
    refine gather_congr fun q _ => ?_
    rw [layerOps, if_pos rfl, hinner]
    rfl
  | succ ioLayer ih =>
    refine (layer_step (hS.prod_pos (by omega)) begin fun begin =>
      ih (by omega) begin (beq_false_of_ne (by omega))).trans (.of_eq (gather_congr fun q _ => ?_))
    rw [hinner]
    rfl

/-- **Every page** is written and read once in each layer but the last one. -/
theorem transfers_perm (hS : S.Layered) :
    List.Perm S.transfers (gather S.KWayParams.totalBucket
      (pageTransfers (S.KWayParams.ways.length - 1))) := by
  obtain ⟨l, hl⟩ : ∃ l, S.KWayParams.ways.length = l + 1 :=
    Nat.exists_eq_succ_of_ne_zero fun h => hS.ways.ne_nil (List.length_eq_zero_iff.1 h)
  have hlast : S.isLastLayer l = true := by simp [isLastLayer, hl]
  have hsize : S.KWayParams.totalBucket = S.fetchInterval (l + 1) := by
    rw [hS.totalBucket, fetchInterval_eq (by omega), ← hl, List.take_length]
  rw [transfers, hl, Nat.add_sub_cancel, hsize]
  cases l with
  | zero =>
    rw [layerTransfers, getVecProduct_eq, fetchInterval_succ,
      divRoundUp_mul (hS.prod_pos (by omega))]
    refine (batches_perm 0 0).trans (.of_eq ?_)
    rw [Nat.mul_comm]
    refine gather_congr fun q _ => ?_
    rw [layerOps, hlast]
    rfl
  | succ l =>
    refine (layer_step (hS.prod_pos (by omega)) 0 fun begin => layer_perm hS (by omega) begin).trans
      (.of_eq (gather_congr fun q _ => ?_))
    rw [hlast, if_pos rfl, List.append_nil, Nat.zero_add]

/-- **The page transfers of a sort** are fixed by its parameters: a run makes the `transfers`, or a
first part of them when it stops, whatever the input, the tags and the memory are. They are a write
and a read of every page in each layer but the last one. -/
theorem butterfly_transfers (hS : S.Layered) (input : List (BitVec 64 × α))
    (batch : Nat → List (TaggedT α)) (vec : σ) :
    Ends
      (fun s => S.sort V stdSort (.start input batch vec) = .ok (s.mapVec Prod.fst) ∧
        s.log = S.transfers)
      (fun e => S.sort V stdSort (.start input batch vec) = .error (e.1, e.2.mapVec Prod.fst) ∧
        e.2.log <+: S.transfers)
      (S.sort (recording V) stdSort (.start input batch (vec, []))) ∧
    List.Perm S.transfers (gather S.KWayParams.totalBucket
      (pageTransfers (S.KWayParams.ways.length - 1))) ∧
    S.transfers.length = S.KWayParams.totalBucket * ((S.KWayParams.ways.length - 1) * 2) := by
  have hperm := transfers_perm hS
  refine ⟨?_, hperm, ?_⟩
  · refine (((sort_follows (recording_tracks V) stdSort).ends _).and
      ((sort_logs V stdSort).ends _)).mono (fun s h => ⟨(h.1 trivial).2, h.2⟩) ?_
    rintro e ⟨hsame, done, hdone, hlog⟩
    refine ⟨(hsame ⟨trivial, fun _ => trivial⟩).2, ?_⟩
    rw [hlog]
    exact hdone
  · rw [hperm.length_eq]
    exact length_gather fun q _ => length_pageTransfers _ q

/-- Two layers of two ways, on plain pages: four pages are written and read once. -/
theorem butterfly_transfers_two :
    Ends
      (fun s => twoLayers.sort (.plain _) id (.start [(5, ())] (fun _ => []) fun _ => []) =
        .ok (s.mapVec Prod.fst) ∧ s.log = twoLayers.transfers)
      (fun e => twoLayers.sort (.plain _) id (.start [(5, ())] (fun _ => []) fun _ => []) =
        .error (e.1, e.2.mapVec Prod.fst) ∧ e.2.log <+: twoLayers.transfers)
      (twoLayers.sort (recording (.plain _)) id
        (.start [(5, ())] (fun _ => []) (fun _ => [], []))) ∧
    List.Perm twoLayers.transfers (gather 4 (pageTransfers 1)) ∧
    twoLayers.transfers.length = 4 * (1 * 2) :=
  butterfly_transfers (.plain (List (TaggedT Unit))) id twoLayers_layered [(5, ())]
  (fun _ => []) fun _ => []

end ButterflySorter

end EM.Algorithm
