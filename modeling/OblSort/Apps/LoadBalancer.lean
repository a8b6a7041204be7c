import OblSort.Algorithm.MergeSplit
import OblSort.Lib.Loop
import OblSort.Lib.Store

/-!
# Load balancing of a map over shards

`ParOMap::InitContext` of `apps/load_balancer.hpp`. `Insert` collects pairs in a buffer of
`parBatchCount * shardCount` buckets, `bktRealSize` pairs in each; when the buffer is full, and once
more in `Finalize`, `route` brings every pair to the buckets of its shard through a butterfly
network with one level for each factor of the number of shards.

The maps that the routed pairs would go into are commented out in the source.
-/

namespace Apps

open EM.Algorithm Loop Store

/-- What the initialisation uses of a map. -/
structure ParOMap (K : Type) where
  size : Nat
  shardHashRange : BitVec 64
  /-- `secure_hash_with_salt` with the salt of the map. -/
  hash : K → BitVec 64

namespace ParOMap

variable {K V : Type}

def getShardByHash (omap : ParOMap K) (hash : BitVec 64) : BitVec 32 :=
  (hash / omap.shardHashRange).truncate 32

/-- The shard of a key. -/
def shard (omap : ParOMap K) (key : K) : BitVec 32 := omap.getShardByHash (omap.hash key)

/-- `SetSize`: the map and its `numShards`. -/
def setSize (omap : ParOMap K) (mapSize : Nat) (shardCount : BitVec 64) :
    Except String (ParOMap K × BitVec 32) :=
  if shardCount = 0 then .error "shardCount should be positive"
  else if shardCount > 64 then .error "shardCount should be no more than 64"
  else .ok ({ omap with
    size := mapSize
    shardHashRange := (BitVec.allOnes 64 - 1) / shardCount + 1 }, shardCount.truncate 32)

structure InitContext (K : Type) where
  omap : ParOMap K
  factors : List Nat
  shardCount : Nat
  bktSize : Nat
  bktRealSize : Nat
  parBatchCount : Nat

namespace InitContext

/-- The buffer, by its buckets. -/
abbrev Batch (K V : Type) := Nat → List (TaggedT (K × V))

structure State (K V : Type) where
  batch : Batch K V
  currBktIdx : Nat
  currBktOffset : Nat
  load : Nat
  /-- The buffer at each call of `route`; the source does not keep it. -/
  handed : List (Batch K V)
  /-- The buffer at each return of `route`; the source does not keep it. -/
  routed : List (Batch K V)

/-- The state after construction, with the buffer as it happens to be. -/
def State.start (batch : Batch K V) : State K V where
  batch := batch
  currBktIdx := 0
  currBktOffset := 0
  load := 0
  handed := []
  routed := []

/-- Why an initialisation stops. -/
inductive Stop
  /-- `std::runtime_error` of `Insert`. -/
  | tooManyElements
  /-- `std::abort` of `MergeSplitKWay`, which the `catch` in `route` does not see. -/
  | abort
  | divisionByZero
  | outOfBuffer
  deriving DecidableEq, Repr

/-- Whether it is by an exception; otherwise the process ends. -/
def Stop.throws : Stop → Bool
  | .tooManyElements => true
  | _ => false

/-- Where an initialisation stops, with its state. -/
abbrev Stopped (K V : Type) := Stop × State K V

variable (C : InitContext K)

def bktPerBatch : Nat := C.parBatchCount * C.shardCount

def batchSize : Nat := C.bktPerBatch * C.bktSize

/-! ## Routing -/

/-- The `int` stride as an operand of `uint64_t` arithmetic. -/
def strideWord (stride : BitVec 32) : Nat := (stride.signExtend 64).toNat

/-- `MergeSplitKWay` number `parIdx` of a level. -/
def mergeSplitGroup (way : Nat) (stride : BitVec 32) (parIdx : Nat) (s : State K V) :
    Except (Stopped K V) (State K V) :=
  let stride := strideWord stride
  if stride = 0 then .error (.divisionByZero, s)
  else
    let groupIdx := parIdx / stride
    let groupOffset := parIdx % stride
    let bkt := fun j =>
      ((j + groupIdx * way) * stride + groupOffset) * C.bktSize % 2 ^ 64 / C.bktSize
    if ∃ j < way, C.bktPerBatch ≤ bkt j then .error (.outOfBuffer, s)
    else
      match mergeSplitKWay way C.bktSize ((List.range way).map fun j => s.batch (bkt j)) with
      | none => .error (.abort, s)
      | some out => .ok { s with batch := putAll bkt (fun j => out.getD j []) way s.batch }

/-- The levels of the network from the one with this stride on. `stride *= way` keeps the low half
of the product. -/
def routeLevels : List Nat → BitVec 32 → State K V → Except (Stopped K V) (State K V)
  | [], _, s => .ok s
  | way :: factors, stride, s => do
    let s ← forRange (C.bktPerBatch / way) (C.mergeSplitGroup way stride) s
    routeLevels factors (BitVec.ofNat 32 (strideWord stride * way)) s

def route (s : State K V) : Except (Stopped K V) (State K V) := do
  let s ← C.routeLevels C.factors (BitVec.ofNat 32 C.parBatchCount)
    { s with handed := s.handed ++ [s.batch] }
  .ok { s with routed := s.routed ++ [s.batch] }

/-! ## Filling the buffer -/

/-- Change `batch[i]`. -/
def modifyAt (i : Nat) (f : TaggedT (K × V) → TaggedT (K × V)) (batch : Batch K V) : Batch K V :=
  Function.update batch (i / C.bktSize) ((batch (i / C.bktSize)).modify (i % C.bktSize) f)

/-- `setDummy` of the `n` elements from `begin` on. -/
def setDummies (begin : Nat) : (n : Nat) → Batch K V → Batch K V
  | 0, batch => batch
  | n + 1, batch => C.modifyAt (begin + n) TaggedT.setDummy (setDummies begin n batch)

/-- `Insert` of a pair, up to the end of its bucket. -/
def putElement (key : K) (value : V) (s : State K V) : State K V :=
  { s with
    load := s.load + 1
    batch := C.modifyAt (s.currBktIdx * C.bktSize + s.currBktOffset)
      (fun _ => TaggedT.setData ((C.omap.shard key).setWidth 64) (key, value)) s.batch
    currBktOffset := s.currBktOffset + 1 }

/-- The rest of the bucket becomes dummies, and the next bucket begins. -/
def closeBucket (s : State K V) : State K V :=
  { s with
    batch := C.setDummies (s.currBktIdx * C.bktSize + s.currBktOffset) (C.bktSize - s.currBktOffset)
      s.batch
    currBktOffset := 0
    currBktIdx := s.currBktIdx + 1 }

def insert (key : K) (value : V) (s : State K V) : Except (Stopped K V) (State K V) :=
  if C.omap.size ≤ s.load then .error (.tooManyElements, s)
  else
    let s := C.putElement key value s
    if s.currBktOffset = C.bktRealSize then
      let s := C.closeBucket s
      if s.currBktIdx = C.bktPerBatch then do
        let s ← C.route s
        .ok { s with currBktIdx := 0 }
      else .ok s
    else .ok s

def finalize (s : State K V) : Except (Stopped K V) (State K V) :=
  let batchOffset := s.currBktIdx * C.bktSize + s.currBktOffset
  if batchOffset ≠ 0 then
    C.route { s with batch := C.setDummies batchOffset (C.batchSize - batchOffset) s.batch }
  else .ok s

/-- `Insert` of each pair of a list. -/
def insertBatch : List (K × V) → State K V → Except (Stopped K V) (State K V)
  | [], s => .ok s
  | (key, value) :: pairs, s => do
    let s ← C.insert key value s
    insertBatch pairs s

/-- A whole initialisation. -/
def init (pairs : List (K × V)) (s : State K V) : Except (Stopped K V) (State K V) := do
  let s ← C.insertBatch pairs s
  C.finalize s

/-! ## Calls of `MergeSplitKWay` -/

/-- A call by its `way`, `bktSize` and buckets. -/
structure MergeSplitCall (K V : Type) where
  way : Nat
  bktSize : Nat
  buckets : List (List (TaggedT (K × V)))

/-- The checks before the two `std::abort`: `diff` in the two-way path, `remainCounts` otherwise. -/
def MergeSplitCall.overflows (call : MergeSplitCall K V) : Bool :=
  if call.way = 2 then
    let xs := call.buckets.getD 0 [] ++ call.buckets.getD 1 []
    let markCount := xs.countP (TaggedT.isMarked 1#64)
    let dir := decide (markCount > call.bktSize)
    let diff := if dir then markCount - call.bktSize else call.bktSize - markCount
    (changeMarks 1#64 dir diff xs).1 != 0
  else
    (markElements TaggedT.isDummy (TaggedT.getMarkAndUpdate call.way) call.buckets.flatten
      (Lanes.set1 call.bktSize)).2.containLeZero

/-- The call that `mergeSplitGroup` makes, if it comes to it. -/
def groupCalls (way : Nat) (stride : BitVec 32) (parIdx : Nat) (s : State K V) :
    List (MergeSplitCall K V) :=
  let stride := strideWord stride
  if stride = 0 then []
  else
    let groupIdx := parIdx / stride
    let groupOffset := parIdx % stride
    let bkt := fun j =>
      ((j + groupIdx * way) * stride + groupOffset) * C.bktSize % 2 ^ 64 / C.bktSize
    if ∃ j < way, C.bktPerBatch ≤ bkt j then []
    else [⟨way, C.bktSize, (List.range way).map fun j => s.batch (bkt j)⟩]

/-- What comes after a step that may fail. -/
def callsAfter (step : Except (Stopped K V) (State K V))
    (calls : State K V → List (MergeSplitCall K V)) : List (MergeSplitCall K V) :=
  match step with
  | .ok s => calls s
  | .error _ => []

/-- The calls of the first `parCount` groups of a level. -/
def levelCalls (way : Nat) (stride : BitVec 32) :
    (parCount : Nat) → State K V → List (MergeSplitCall K V)
  | 0, _ => []
  | parIdx + 1, s => levelCalls way stride parIdx s ++
      callsAfter (forRange parIdx (C.mergeSplitGroup way stride) s) (C.groupCalls way stride parIdx)

def routeLevelsCalls : List Nat → BitVec 32 → State K V → List (MergeSplitCall K V)
  | [], _, _ => []
  | way :: factors, stride, s => C.levelCalls way stride (C.bktPerBatch / way) s ++
      callsAfter (forRange (C.bktPerBatch / way) (C.mergeSplitGroup way stride) s)
        (routeLevelsCalls factors (BitVec.ofNat 32 (strideWord stride * way)))

def routeCalls (s : State K V) : List (MergeSplitCall K V) :=
  C.routeLevelsCalls C.factors (BitVec.ofNat 32 C.parBatchCount)
    { s with handed := s.handed ++ [s.batch] }

def insertCalls (key : K) (value : V) (s : State K V) : List (MergeSplitCall K V) :=
  if C.omap.size ≤ s.load then []
  else
    let s := C.putElement key value s
    if s.currBktOffset = C.bktRealSize then
      let s := C.closeBucket s
      if s.currBktIdx = C.bktPerBatch then C.routeCalls s else []
    else []

def finalizeCalls (s : State K V) : List (MergeSplitCall K V) :=
  let batchOffset := s.currBktIdx * C.bktSize + s.currBktOffset
  if batchOffset ≠ 0 then
    C.routeCalls { s with batch := C.setDummies batchOffset (C.batchSize - batchOffset) s.batch }
  else []

def insertBatchCalls : List (K × V) → State K V → List (MergeSplitCall K V)
  | [], _ => []
  | (key, value) :: pairs, s => C.insertCalls key value s ++
      callsAfter (C.insert key value s) (insertBatchCalls pairs)

def initCalls (pairs : List (K × V)) (s : State K V) : List (MergeSplitCall K V) :=
  C.insertBatchCalls pairs s ++ callsAfter (C.insertBatch pairs s) C.finalizeCalls

end InitContext

end ParOMap

end Apps
