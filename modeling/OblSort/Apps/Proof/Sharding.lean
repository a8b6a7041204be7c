import OblSort.Apps.LoadBalancer
import Mathlib.Data.BitVec

/-!
# Shard indices and overflowing buckets

`getShardByHash` with the range that `SetSize` computes stays below the number of shards except for
the last hash (`getShardByHash_lt_iff`). A bucket overflow in `route` is not an exception:
`MergeSplitKWay` ends the process (`init_overflow_aborts`).
-/

namespace Apps.ParOMap

open EM.Algorithm Loop

variable {K V : Type}

/-! ## Shard indices -/

/-- The range of a shard is the quotient rounded up. -/
theorem le_mul_range {M n : Nat} (hn : 0 < n) : M ≤ n * ((M - 1) / n + 1) := by
  cases M with
  | zero => exact Nat.zero_le _
  | succ M =>
    rw [Nat.add_sub_cancel]
    exact Nat.lt_mul_div_succ M hn

theorem mul_range_eq {M n : Nat} (hn : 0 < n) (hM : 0 < M) : n * ((M - 1) / n + 1) = M ↔ n ∣ M := by
  constructor
  · intro h
    exact ⟨_, h.symm⟩
  · rintro ⟨q, rfl⟩
    have hq : 0 < q := Nat.pos_of_mul_pos_left hM
    have hdiv : (n * q - 1) / n = q - 1 := by
      refine Nat.div_eq_of_lt_le ?_ ?_
      · rw [Nat.sub_mul, Nat.one_mul, Nat.mul_comm q]
        omega
      · rw [Nat.succ_mul, Nat.sub_mul, Nat.one_mul, Nat.mul_comm q]
        have := Nat.le_mul_of_pos_right n hq
        omega
    rw [hdiv, Nat.sub_add_cancel hq]

theorem setSize_ok {omap omap' : ParOMap K} {mapSize : Nat} {shardCount : BitVec 64}
    {numShards : BitVec 32} (h : omap.setSize mapSize shardCount = .ok (omap', numShards)) :
    0 < shardCount.toNat ∧ shardCount.toNat ≤ 64 ∧ numShards.toNat = shardCount.toNat ∧
      omap'.shardHashRange.toNat = (2 ^ 64 - 2) / shardCount.toNat + 1 := by
  unfold setSize at h
  split at h
  · cases h
  · rename_i hne
    split at h
    · cases h
    · rename_i hle
      cases h
      have hpos : 0 < shardCount.toNat :=
        Nat.pos_of_ne_zero fun h0 => hne (BitVec.eq_of_toNat_eq h0)
      have hle : shardCount.toNat ≤ 64 := by
        rw [BitVec.not_lt] at hle
        exact hle
      refine ⟨hpos, hle, ?_, ?_⟩
      · rw [BitVec.truncate_eq_setWidth, BitVec.toNat_setWidth]
        omega
      · have hdiv := Nat.div_le_self (2 ^ 64 - 2) shardCount.toNat
        rw [BitVec.toNat_add, BitVec.toNat_udiv]
        show ((2 ^ 64 - 2) / shardCount.toNat + 1) % 2 ^ 64 = _
        rw [Nat.mod_eq_of_lt (by omega)]

section

variable {omap omap' : ParOMap K} {mapSize : Nat} {shardCount : BitVec 64} {numShards : BitVec 32}
  (h : omap.setSize mapSize shardCount = .ok (omap', numShards))
include h

theorem toNat_getShardByHash (hash : BitVec 64) :
    (omap'.getShardByHash hash).toNat = hash.toNat / ((2 ^ 64 - 2) / shardCount.toNat + 1) := by
  obtain ⟨hpos, hle, -, hrange⟩ := setSize_ok h
  have hbig : (2 ^ 64 - 2) / 64 ≤ (2 ^ 64 - 2) / shardCount.toNat := Nat.div_le_div_left hle hpos
  have hquot : hash.toNat / ((2 ^ 64 - 2) / shardCount.toNat + 1) ≤ 2 ^ 64 / 2 ^ 58 :=
    Nat.div_le_div hash.isLt.le (by omega) (by decide)
  rw [getShardByHash, BitVec.truncate_eq_setWidth, BitVec.toNat_setWidth, BitVec.toNat_udiv, hrange,
    Nat.mod_eq_of_lt (by omega)]

theorem getShardByHash_mono {hash hash' : BitVec 64} (hle : hash ≤ hash') :
    omap'.getShardByHash hash ≤ omap'.getShardByHash hash' := by
  rw [BitVec.le_def, toNat_getShardByHash h, toNat_getShardByHash h]
  exact Nat.div_le_div_right hle

/-- **The index of a shard** is in range, unless the hash is the last one and the ranges of the
shards end before it. -/
theorem getShardByHash_lt_iff (hash : BitVec 64) :
    (omap'.getShardByHash hash < numShards ∧
      ∀ hash', hash ≤ hash' → omap'.getShardByHash hash ≤ omap'.getShardByHash hash') ↔
      (hash = BitVec.allOnes 64 → ¬ shardCount.toNat ∣ 2 ^ 64 - 1) := by
  obtain ⟨hpos, -, hnum, -⟩ := setSize_ok h
  have hcover : 2 ^ 64 - 1 ≤ shardCount.toNat * ((2 ^ 64 - 2) / shardCount.toNat + 1) :=
    le_mul_range hpos
  have hexact : shardCount.toNat * ((2 ^ 64 - 2) / shardCount.toNat + 1) = 2 ^ 64 - 1 ↔
      shardCount.toNat ∣ 2 ^ 64 - 1 := mul_range_eq hpos (by decide)
  have hlt : omap'.getShardByHash hash < numShards ↔
      hash.toNat < shardCount.toNat * ((2 ^ 64 - 2) / shardCount.toNat + 1) := by
    rw [BitVec.lt_def, toNat_getShardByHash h, hnum, Nat.div_lt_iff_lt_mul (Nat.succ_pos _)]
  have hlast : hash = BitVec.allOnes 64 ↔ hash.toNat = 2 ^ 64 - 1 := by
    rw [← BitVec.toNat_inj, BitVec.toNat_allOnes]
  have hbound := hash.isLt
  rw [hlt, hlast, ← hexact]
  generalize shardCount.toNat * ((2 ^ 64 - 2) / shardCount.toNat + 1) = covered at *
  constructor
  · rintro ⟨hin, -⟩ heq hdvd
    omega
  · intro himp
    refine ⟨?_, fun hash' hle => getShardByHash_mono h hle⟩
    by_contra hout
    exact himp (by omega) (by omega)

end

/-- A map whose hash function does not matter. -/
def emptyMap : ParOMap Unit := ⟨0, 0, fun _ => 0⟩

theorem getShardByHash_lt_two :
    ∃ omap', emptyMap.setSize 100 2 = .ok (omap', 2) ∧
      omap'.getShardByHash (BitVec.allOnes 64) < 2 :=
  ⟨_, rfl, ((getShardByHash_lt_iff (show emptyMap.setSize 100 2 = _ from rfl) _).2
    fun _ => by decide).1⟩

/-- With one shard, the last hash belongs to the second. -/
theorem getShardByHash_out_of_range :
    ∃ omap', emptyMap.setSize 100 1 = .ok (omap', 1) ∧
      ¬ omap'.getShardByHash (BitVec.allOnes 64) < 1 :=
  ⟨_, rfl, by decide +kernel⟩

/-! ## Overflowing buckets -/

namespace InitContext

variable {C : InitContext K} {s : State K V}

/-- One of the calls finds an overflow. -/
def Overflow (calls : List (MergeSplitCall K V)) : Prop := ∃ call ∈ calls, call.overflows = true

/-- The process is ended by `std::abort`. -/
def Aborted (run : Except (Stopped K V) (State K V)) : Prop := ∃ s, run = .error (.abort, s)

theorem Overflow.append {calls calls' : List (MergeSplitCall K V)}
    (h : Overflow (calls ++ calls')) : Overflow calls ∨ Overflow calls' := by
  obtain ⟨call, hcall, hover⟩ := h
  rcases List.mem_append.1 hcall with hcall | hcall
  · exact .inl ⟨call, hcall, hover⟩
  · exact .inr ⟨call, hcall, hover⟩

theorem not_overflow_nil : ¬ Overflow ([] : List (MergeSplitCall K V)) := by
  simp [Overflow]

/-- A step and what comes after it. -/
theorem aborted_bind {step : Except (Stopped K V) (State K V)}
    {next : State K V → Except (Stopped K V) (State K V)} {calls : List (MergeSplitCall K V)}
    {nextCalls : State K V → List (MergeSplitCall K V)} (hstep : Overflow calls → Aborted step)
    (hnext : ∀ s, Overflow (nextCalls s) → Aborted (next s))
    (h : Overflow (calls ++ callsAfter step nextCalls)) : Aborted (step >>= next) := by
  rcases h.append with h | h
  · obtain ⟨s, hs⟩ := hstep h
    exact ⟨s, by rw [hs]; rfl⟩
  · cases hs : step with
    | ok s =>
      rw [hs] at h
      exact hnext s h
    | error e =>
      rw [hs] at h
      exact absurd h not_overflow_nil

/-- `MergeSplitKWay` does not return from an overflow. -/
theorem mergeSplitKWay_overflow {call : MergeSplitCall K V} (h : call.overflows = true) :
    mergeSplitKWay call.way call.bktSize call.buckets = none := by
  unfold MergeSplitCall.overflows at h
  unfold mergeSplitKWay
  split at h
  · rename_i htwo
    have hset : Markable.setAndGetMarked (E := TaggedT (K × V)) 1#64 =
        fun x => (TaggedT.isMarked 1#64 x, x) := rfl
    rw [if_pos htwo, mergeSplitTwoWay]
    simp only [hset, List.countP_map, List.map_map, Function.comp_def, List.map_id']
    rw [if_pos (by simpa using h)]
    rfl
  · rename_i htwo
    rw [if_neg htwo, mergeSplitMulti]
    exact if_pos h

theorem mergeSplitGroup_aborted {way parIdx : Nat} {stride : BitVec 32}
    (h : Overflow (C.groupCalls way stride parIdx s)) :
    Aborted (C.mergeSplitGroup way stride parIdx s) := by
  unfold groupCalls at h
  unfold mergeSplitGroup
  dsimp only at h ⊢
  split at h
  · exact absurd h not_overflow_nil
  · rename_i hstride
    rw [if_neg hstride]
    split at h
    · exact absurd h not_overflow_nil
    · rename_i hin
      obtain ⟨call, hcall, hover⟩ := h
      have hnone := mergeSplitKWay_overflow hover
      rw [List.mem_singleton.1 hcall] at hnone
      rw [if_neg hin]
      dsimp only at hnone
      rw [hnone]
      exact ⟨s, rfl⟩

theorem forRange_aborted {way parCount : Nat} {stride : BitVec 32}
    (h : Overflow (C.levelCalls way stride parCount s)) :
    Aborted (forRange parCount (C.mergeSplitGroup way stride) s) := by
  induction parCount with
  | zero => exact absurd h not_overflow_nil
  | succ parCount ih => exact aborted_bind ih (fun s hs => mergeSplitGroup_aborted hs) h

theorem routeLevels_aborted {factors : List Nat} {stride : BitVec 32}
    (h : Overflow (C.routeLevelsCalls factors stride s)) :
    Aborted (C.routeLevels factors stride s) := by
  induction factors generalizing stride s with
  | nil => exact absurd h not_overflow_nil
  | cons way factors ih => exact aborted_bind forRange_aborted (fun s hs => ih hs) h

theorem route_aborted (h : Overflow (C.routeCalls s)) : Aborted (C.route s) := by
  obtain ⟨s', hs'⟩ := routeLevels_aborted h
  exact ⟨s', by rw [route, hs']; rfl⟩

theorem insert_aborted {key : K} {value : V} (h : Overflow (C.insertCalls key value s)) :
    Aborted (C.insert key value s) := by
  unfold insertCalls at h
  unfold InitContext.insert
  split at h
  · exact absurd h not_overflow_nil
  · rename_i hload
    dsimp only at h ⊢
    rw [if_neg hload]
    split at h
    · rename_i hfull
      rw [if_pos hfull]
      split at h
      · rename_i hlast
        rw [if_pos hlast]
        obtain ⟨s', hs'⟩ := route_aborted h
        exact ⟨s', by rw [hs']; rfl⟩
      · exact absurd h not_overflow_nil
    · exact absurd h not_overflow_nil

theorem finalize_aborted (h : Overflow (C.finalizeCalls s)) : Aborted (C.finalize s) := by
  unfold finalizeCalls at h
  unfold finalize
  dsimp only at h ⊢
  split at h
  · rename_i hoffset
    rw [if_pos hoffset]
    exact route_aborted h
  · exact absurd h not_overflow_nil

theorem insertBatch_aborted {pairs : List (K × V)} (h : Overflow (C.insertBatchCalls pairs s)) :
    Aborted (C.insertBatch pairs s) := by
  induction pairs generalizing s with
  | nil => exact absurd h not_overflow_nil
  | cons p pairs ih => exact aborted_bind insert_aborted (fun s hs => ih hs) h

theorem init_aborted {pairs : List (K × V)} (h : Overflow (C.initCalls pairs s)) :
    Aborted (C.init pairs s) :=
  aborted_bind insertBatch_aborted (fun _ hs => finalize_aborted hs) h

theorem Aborted.not_thrown {run : Except (Stopped K V) (State K V)} (h : Aborted run) :
    ¬ ∃ e, run = .error e ∧ e.1.throws = true := by
  obtain ⟨s, rfl⟩ := h
  rintro ⟨e, he, hthrows⟩
  cases he
  cases hthrows

/-- **An overflow ends the process**: no `Insert` or `Finalize` that meets one throws. -/
theorem init_overflow_aborts (C : InitContext K) (pairs : List (K × V)) (s : State K V) :
    (Overflow (C.insertBatchCalls pairs s) →
      Aborted (C.insertBatch pairs s) ∧
        ¬ ∃ e, C.insertBatch pairs s = .error e ∧ e.1.throws = true) ∧
    (Overflow (C.initCalls pairs s) →
      Aborted (C.init pairs s) ∧ ¬ ∃ e, C.init pairs s = .error e ∧ e.1.throws = true) := by
  constructor
  · intro h
    have habort := insertBatch_aborted h
    exact ⟨habort, habort.not_thrown⟩
  · intro h
    have habort := init_aborted h
    exact ⟨habort, habort.not_thrown⟩

/-- Two shards with buckets of four places, three of them for pairs. -/
def smallBuckets : InitContext Nat where
  omap := { size := 6, shardHashRange := 2 ^ 63, hash := fun _ => 0 }
  factors := [2]
  shardCount := 2
  bktSize := 4
  bktRealSize := 3
  parBatchCount := 1

/-- Six pairs of one shard, which do not fit into its bucket. -/
def sixPairs : List (Nat × Nat) := (List.range 6).map fun i => (i, i)

theorem sixPairs_overflow :
    Overflow (smallBuckets.initCalls sixPairs (.start fun _ => List.replicate 4 ⟨0, 0, 0⟩)) := by
  unfold Overflow
  decide +kernel

theorem init_overflow_aborts_six :
    Aborted (smallBuckets.init sixPairs (.start fun _ => List.replicate 4 ⟨0, 0, 0⟩)) :=
  ((init_overflow_aborts _ _ _).2 sixPairs_overflow).1

theorem init_overflow_not_thrown :
    Overflow (smallBuckets.initCalls sixPairs (.start fun _ => List.replicate 4 ⟨0, 0, 0⟩)) ∧
      ¬ ∃ e, smallBuckets.init sixPairs (.start fun _ => List.replicate 4 ⟨0, 0, 0⟩) = .error e ∧
        e.1.throws = true :=
  ⟨sixPairs_overflow, (init_aborted sixPairs_overflow).not_thrown⟩

end InitContext

end Apps.ParOMap
