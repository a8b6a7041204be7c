import OblSort.Algorithm.ParamSelect
import OblSort.Apps.LoadBalancer

/-!
# Initialising a map from a reader

The rest of `ParOMap` (`apps/load_balancer.hpp`) that an initialisation goes through: the number of
shards and its factors, the constructor of `InitContext` and `InitFromReader`.

The two searches for a size compare failure probabilities, which are computed with floating point:
what they compare is given from outside. `uint64_t` wraps around at `2 ^ 64`. The flag `inited` is
never set, and `shardSize` is for the maps that are commented out.
-/

namespace Apps.ParOMap

open EM.Algorithm

/-! ## The number of shards -/

/-- `factorizeShardCount`; the error is the text of the exception. -/
def factorizeShardCount (shardCount : Nat) : Except String (List Nat) :=
  if shardCount = 1 then .error "shardCount should be at least 2 for init with reader"
  else if shardCount > 64 then .error "shardCount should be no more than 64 for init with reader"
  else
    match shardCount with
    | 2 | 3 | 4 | 5 | 6 | 7 | 8 => .ok [shardCount]
    | 9 => .ok [3, 3]
    | 10 => .ok [2, 5]
    | 12 => .ok [3, 4]
    | 14 => .ok [2, 7]
    | 15 => .ok [3, 5]
    | 16 => .ok [4, 4]
    | 18 => .ok [3, 6]
    | 20 => .ok [4, 5]
    | 21 => .ok [3, 7]
    | 24 => .ok [3, 8]
    | 25 => .ok [5, 5]
    | 27 => .ok [3, 3, 3]
    | 28 => .ok [4, 7]
    | 30 => .ok [5, 6]
    | 32 => .ok [4, 8]
    | 35 => .ok [5, 7]
    | 36 => .ok [6, 6]
    | 40 => .ok [5, 8]
    | 42 => .ok [6, 7]
    | 45 => .ok [3, 3, 5]
    | 48 => .ok [6, 8]
    | 49 => .ok [7, 7]
    | 50 => .ok [2, 5, 5]
    | 54 => .ok [3, 3, 6]
    | 56 => .ok [7, 8]
    | 60 => .ok [3, 4, 5]
    | 63 => .ok [3, 3, 7]
    | 64 => .ok [8, 8]
    | _ => .error "shardCount should be a power of 2 between 2 and 64 for init with reader"

/-- The loop of `GetSuitableShardCount`, down from `suitableShardCount`. -/
def suitableShardCountLoop : (suitableShardCount : Nat) → Nat
  | 0 => 2
  | n + 1 => if (factorizeShardCount (n + 1)).toBool then n + 1 else suitableShardCountLoop n

def getSuitableShardCount (numThreads : Nat) (emptyInit : Bool) : Nat :=
  if numThreads ≤ 4 then 2
  else
    let suitableShardCount := if numThreads / 2 > 64 then 64 else numThreads / 2
    if emptyInit then suitableShardCount else suitableShardCountLoop suitableShardCount

/-! ## Searches -/

/-- What the searches test, and how many rounds they may take. -/
structure Searches where
  /-- `maxQueryPerShard`: more than `n` of `batchSize` queries go to a shard with a probability
  below the target. -/
  queries : (batchSize shardCount n : Nat) → Bool
  /-- `numRealPerBkt`: a bucket with `numDummy` dummies overflows with a probability below the
  target. -/
  dummies : (bktSize shardCount numDummy : Nat) → Bool
  fuel : Nat

namespace Searches

variable (P : Searches)

def maxQueryPerShard (batchSize shardCount : Nat) : Option Nat :=
  lowerBound (P.queries batchSize shardCount) 1 P.fuel (divRoundUp64 batchSize shardCount) batchSize

def numRealPerBkt (bktSize shardCount : Nat) : Option Nat :=
  (lowerBound (P.dummies bktSize shardCount) 1 P.fuel 1 (sub64 bktSize 1)).map (sub64 bktSize)

end Searches

/-! ## The constructor -/

/-- How the initialisation of a map fails. -/
inductive InitFailure (K V : Type)
  /-- `std::runtime_error` of the constructor. -/
  | runtimeError (what : String)
  | divisionByZero
  /-- A search does not end. -/
  | noReturn
  | stopped (e : InitContext.Stopped K V)

variable {K V : Type}

/-- The constructor of `InitContext`, for the map `omap` with `numShards` shards. -/
def InitContext.new (P : Searches) (sizeofElement : Nat) (omap : ParOMap K) (numShards : BitVec 32)
    (initSize cacheBytes : Nat) : Except (InitFailure K V) (InitContext K) :=
  if omap.size = 0 then .error (.runtimeError "ParOMap size not set. Call SetSize first.")
  else
    let shardCount := numShards.toNat
    match P.maxQueryPerShard initSize shardCount with
    | none => .error .noReturn
    | some maxInitSizePerShard =>
      let bktSize := min 16384 (getNextPowerOfTwo maxInitSizePerShard)
      match P.numRealPerBkt bktSize shardCount with
      | none => .error .noReturn
      | some bktRealSize =>
        let minBatchSize := bktSize * shardCount % 2 ^ 64
        let maxBatchSize := cacheBytes / (sizeofElement + 8) / 2
        match factorizeShardCount shardCount with
        | .error what => .error (.runtimeError what)
        | .ok factors =>
          if maxBatchSize < minBatchSize then
            .error (.runtimeError "InitFromReader cache size too small")
          else if bktRealSize = 0 then .error .divisionByZero
          else
            let bktPerShard := divRoundUp64 (divRoundUp64 initSize bktRealSize) shardCount
            let totalBktNeeded := bktPerShard * shardCount % 2 ^ 64
            if totalBktNeeded = 0 then .error .divisionByZero
            else
              let needed := totalBktNeeded * bktSize % 2 ^ 64
              let maxBatchSize := if needed < maxBatchSize then needed else maxBatchSize
              .ok {
                omap
                factors
                shardCount
                bktSize
                bktRealSize := divRoundUp64 initSize totalBktNeeded
                parBatchCount := maxBatchSize / minBatchSize }

end Apps.ParOMap
