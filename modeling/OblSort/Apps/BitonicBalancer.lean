import OblSort.Algorithm.Bitonic
import OblSort.Algorithm.OrCompact
import OblSort.Apps.LoadBalancer

/-!
# Load balancing by sorting

The body of the loop of `ParOMap::InitFromReaderBitonic` (`apps/load_balancer.hpp`): a batch gets
`bktSize` fillers for every shard, is sorted by shard, and the first `bktSize` entries of every
shard are moved to the front.
-/

namespace Apps.ParOMap

open EM.Algorithm

structure PartitionElement (K V : Type) where
  key : K
  value : V
  shardIdx : BitVec 32
  deriving DecidableEq, Repr

variable {K V : Type}

def PartitionElement.lt (a b : PartitionElement K V) : Bool := decide (a.shardIdx < b.shardIdx)

/-- The entry of a pair of the batch. -/
def entry (omap : ParOMap K) (p : K × V) : PartitionElement K V := ⟨p.1, p.2, omap.shard p.1⟩

/-- `PartitionElement{K(), V(), j}`. -/
def filler [Inhabited K] [Inhabited V] (j : Nat) : PartitionElement K V :=
  ⟨default, default, BitVec.ofNat 32 j⟩

/-- The fillers of `numShards` shards. -/
def fillers [Inhabited K] [Inhabited V] (numShards bktSize : Nat) : List (PartitionElement K V) :=
  (List.range numShards).flatMap fun j => List.replicate bktSize (filler j)

/-- `vec` before the sort. -/
def fillVec [Inhabited K] [Inhabited V] (omap : ParOMap K) (numShards : BitVec 32) (bktSize : Nat)
    (batch : List (K × V)) : List (PartitionElement K V) :=
  batch.map omap.entry ++ fillers numShards.toNat bktSize

/-- The loop over the sorted `vec`: the `keepFlag` of every entry. -/
def keepFlags (bktSize : Nat) :
    (currShardIdx : BitVec 32) → (currShardCount : Nat) → List (PartitionElement K V) → List Bool
  | _, _, [] => []
  | currShardIdx, currShardCount, x :: vec =>
    let isSameShard := x.shardIdx == currShardIdx
    let currShardCount := if isSameShard then currShardCount else 0
    let currShardIdx := if isSameShard then currShardIdx else x.shardIdx
    decide (currShardCount < bktSize) :: keepFlags bktSize currShardIdx (currShardCount + 1) vec

/-- `vec` after the compaction. -/
def balanceBatch [Inhabited K] [Inhabited V] (omap : ParOMap K) (numShards : BitVec 32)
    (bktSize : Nat) (batch : List (K × V)) : List (PartitionElement K V) :=
  let vec := bitonicSortList PartitionElement.lt (omap.fillVec numShards bktSize batch)
  let prefixSum := markPrefix 64 (keepFlags bktSize 0 0 vec)
  orCompactPrefix vec.length (fun i => prefixSum.getD i 0) vec

end Apps.ParOMap
