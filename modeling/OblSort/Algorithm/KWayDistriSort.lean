import OblSort.Algorithm.Bitonic
import OblSort.Algorithm.MergeSplit
import OblSort.Algorithm.OrCompact
import OblSort.Common.Utils
import OblSort.DynamicVector
import OblSort.Lib.Loop
import OblSort.Lib.Store

/-!
# The distribution sorter

`KWayDistriSorter` (`algorithm/kway_distri_sort.hpp`): tag and pad the input, distribute it by
pivots through the layers of merge-splits, and sort each partition at the last layer.

Positions of the buffer `batch` count buckets. Positions of the intermediate vector count elements,
as its iterators do: their `operator+=` takes an `int`, so the strides of its loops are cut to 32
bits. The input reader and the output writer of a sorter are an `IOVector`, operations on some
state; what a buffer holds when it is allocated is given by `uninit`.
-/

namespace EM.Algorithm

open EM.DynamicPageVector Loop

/-- How a distribution sort stops early. -/
inductive DistriAbort
  /-- A merge-split lacks dummies. -/
  | mergeSplit
  /-- A page of the intermediate vector fails to authenticate. -/
  | authentication
  /-- The input cannot be read, or the output not be written. -/
  | inputOutput
  /-- There is no pivot of this number. -/
  | pivot
  /-- A loop does not end. -/
  | noReturn
  deriving Repr, DecidableEq

/-- What a sorter uses of `DistriParams`. -/
structure DistriParams where
  ways : List (List Nat)
  Z : Nat
  totalPartition : Nat
  totalBucket : Nat
  deriving Repr, DecidableEq

/-- The input reader and the output writer of a sorter, over a state of type `ρ`. -/
structure IOVector (ρ α : Type) where
  /-- `inputReader.eof()`. -/
  eof : ρ → Bool
  /-- `inputReader.read()`, with what `inputReader.getLastIdx()` is after it. -/
  read : ρ → Except ρ ((α × Nat) × ρ)
  /-- `outputWriter.write(element)`. -/
  write : α → ρ → ρ
  /-- `outputWriter.flush()`. -/
  flush : ρ → Except ρ ρ

/-- A reader of a list of elements, each with what `getLastIdx()` is after it, and a writer to a
list. -/
structure InOut (α : Type) where
  rest : List (α × Nat)
  written : List α
  deriving Repr, DecidableEq

def InOut.vector {α : Type} : IOVector (InOut α) α where
  eof io := io.rest.isEmpty
  read io := match io.rest with
    | [] => .error io
    | x :: rest => .ok (x, { io with rest })
  write x io := { io with written := io.written ++ [x] }
  flush io := .ok io

/-- A sorter after its construction. -/
structure KWayDistriSorter (α : Type) where
  preshuffled : Bool
  distriParams : DistriParams
  numRealPerBucket : Nat
  allPivots : List (Block α)
  deriving Repr, DecidableEq

/-- `it += n` for an `int` `n` that `stride` is cut to. -/
def addInt (it stride : Nat) : Nat :=
  (BitVec.ofNat 64 it + (BitVec.ofNat 32 stride).signExtend 64).toNat

namespace KWayDistriSorter

/-- The constructor, for an input of `size` elements. -/
def new {α : Type} (preshuffled : Bool) (distriParams : DistriParams) (size : Nat)
    (allPivots : List (Block α)) : KWayDistriSorter α where
  preshuffled := preshuffled
  distriParams := distriParams
  numRealPerBucket := 1 + (size - 1) / distriParams.totalBucket
  allPivots := allPivots

structure State (α σ ρ : Type) where
  io : ρ
  /-- `inputCount`, a `uint64_t`. -/
  inputCount : BitVec 64
  batch : Nat → List (Block α)
  /-- How many buffers have been allocated. -/
  allocated : Nat
  vec : σ
  /-- The blocks that input elements were put in, in order; the source does not keep them. -/
  given : List (Block α)
  /-- The partitions as the last layer fetched them; the source does not keep them. -/
  partitions : List (List (Block α))

/-- The state `sort()` starts in. -/
def State.start {α σ ρ : Type} (io : ρ) (inputCount : BitVec 64) (vec : σ) : State α σ ρ where
  io := io
  inputCount := inputCount
  batch := fun _ => []
  allocated := 0
  vec := vec
  given := []
  partitions := []

/-- Where a sort stops, with its state. -/
abbrev Stop (α σ ρ : Type) := DistriAbort × State α σ ρ

variable {α σ ρ : Type} (S : KWayDistriSorter α)

/-- The bucket size. -/
abbrev Z : Nat := S.distriParams.Z

abbrev numTotalBucket : Nat := S.distriParams.totalBucket

/-- The size of each partition. -/
def partitionSize : Nat := S.numTotalBucket / S.distriParams.totalPartition

/-- `distriParams.ways[ioLayer]`. -/
def waysOf (ioLayer : Nat) : List Nat := S.distriParams.ways.getD ioLayer []

/-! ## Tag and pad -/

/-- `inputReader.read()`, and the element put in the block `it`. -/
def readBlock (I : IOVector ρ α) (it : Block α) (s : State α σ ρ) :
    Except (Stop α σ ρ) (Block α × State α σ ρ) :=
  match I.read s.io with
  | .error io => .error (.inputOutput, { s with io })
  | .ok ((data, lastIdx), io) =>
    let inputIdx := if S.preshuffled then s.inputCount else BitVec.ofNat 64 lastIdx
    let block := Block.setData data (inputIdx.setWidth 32) it.lessFlag
    .ok (block, { s with
      io
      inputCount := if S.preshuffled then s.inputCount + 1 else s.inputCount
      given := s.given ++ [block] })

/-- What becomes of the block `it` at `offset` of its bucket. -/
def fillBlock (I : IOVector ρ α) (offset : Nat) (it : Block α) (s : State α σ ρ) :
    Except (Stop α σ ρ) (Block α × State α σ ρ) :=
  if offset < S.numRealPerBucket ∧ I.eof s.io = false then S.readBlock I it s
    else .ok (it.setDummy, s)

/-- Tag and pad the blocks of a bucket from `offset` on. -/
def tagAndPad (I : IOVector ρ α) : (offset : Nat) → List (Block α) → State α σ ρ →
    Except (Stop α σ ρ) (List (Block α) × State α σ ρ)
  | _, [], s => .ok ([], s)
  | offset, it :: its, s => do
    let (block, s) ← S.fillBlock I offset it s
    let (rest, s) ← tagAndPad I (offset + 1) its s
    .ok (block :: rest, s)

/-- Tag and pad the bucket at `p`. -/
def padBucket (I : IOVector ρ α) (p : Nat) (s : State α σ ρ) :
    Except (Stop α σ ρ) (State α σ ρ) := do
  let (bucket, s) ← S.tagAndPad I 0 (s.batch p) s
  .ok { s with batch := Function.update s.batch p bucket }

/-- Tag and pad the buckets of a call, in the first layer of pages. -/
def padBuckets (I : IOVector ρ α) (ioLayer way begin stride : Nat) (s : State α σ ρ) :
    Except (Stop α σ ρ) (State α σ ρ) :=
  if ioLayer = 0 then forRange way (fun i => S.padBucket I (begin + i * stride)) s else .ok s

/-! ## In memory -/

variable [SortKey α]

/-- The pivots of a merge-split of `way` buckets. -/
def pivotsOf (way strideCount stride pivotOffset pivotStride : Nat) : Option (List (Block α)) :=
  (List.range' 1 (way - 1)).mapM fun i =>
    S.allPivots[((strideCount * way + i) * stride + pivotOffset) * pivotStride - 1]?

/-- `MergeSplitKWay` on the buckets at `idx i`, for `i < way`. -/
def mergeSplitAt (way : Nat) (pivots : List (Block α)) (idx : Nat → Nat) (s : State α σ ρ) :
    Except (Stop α σ ρ) (State α σ ρ) :=
  match mergeSplitKWayPivot way S.Z pivots ((List.range way).map fun i => s.batch (idx i)) with
  | none => .error (.mergeSplit, s)
  | some out => .ok { s with batch := Store.putAll idx (fun i => out.getD i []) way s.batch }

/-- One round of the loop over the strides: the buckets at `strideBegin`, `strideBegin + stride`,
…. -/
def mergeSplitStride (way pivotStride pivotOffset stride strideBegin strideCount : Nat)
    (s : State α σ ρ) : Except (Stop α σ ρ) (State α σ ρ) :=
  match S.pivotsOf way strideCount stride pivotOffset pivotStride with
  | none => .error (.pivot, s)
  | some pivots => S.mergeSplitAt way pivots (fun i => strideBegin + i * stride) s

/-- The merge-splits of one layer, on the buckets of a buffer from `begin` up to `endPtr`. -/
def mergeSplitLayer (way pivotStride pivotOffset stride begin endPtr : Nat) :
    State α σ ρ → Except (Stop α σ ρ) (State α σ ρ) :=
  forStride (· + stride * way) endPtr (fun s => (.noReturn, s))
    (S.mergeSplitStride way pivotStride pivotOffset stride) (endPtr + 1) begin 0

def KWayDistriSortBasic (I : IOVector ρ α) (ioLayer endPtr pivotStride pivotOffset : Nat) :
    (innerLayer : Nat) → (begin stride : Nat) → State α σ ρ → Except (Stop α σ ρ) (State α σ ρ)
  | 0, begin, stride, s => do
    let way := (S.waysOf ioLayer).getD 0 0
    let s ← S.padBuckets I ioLayer way begin stride s
    S.mergeSplitLayer way pivotStride pivotOffset stride begin endPtr s
  | innerLayer + 1, begin, stride, s => do
    let way := (S.waysOf ioLayer).getD (innerLayer + 1) 0
    let s ← forRange way (fun i =>
      KWayDistriSortBasic I ioLayer endPtr pivotStride pivotOffset innerLayer (begin + i * stride)
        (stride * way)) s
    S.mergeSplitLayer way pivotStride pivotOffset stride begin endPtr s

/-! ## Layers of pages -/

/-- `CopyIn` of the page at `it` to the bucket at `p`. -/
def copyIn (V : Vector σ (List (Block α))) (it p counter : Nat) (s : State α σ ρ) :
    Except (Stop α σ ρ) (State α σ ρ) :=
  match V.read (it / S.Z) counter s.vec with
  | (none, vec) => .error (.authentication, { s with vec })
  | (some bucket, vec) => .ok { s with vec, batch := Function.update s.batch p bucket }

/-- `CopyOut` of the bucket at `p` to the page at `it`. -/
def copyOut (V : Vector σ (List (Block α))) (it p counter : Nat) (s : State α σ ρ) :
    Except (Stop α σ ρ) (State α σ ρ) :=
  .ok { s with vec := V.write (it / S.Z) (s.batch p) counter s.vec }

/-- `new WrappedT[numInternalWay * Z]`. -/
def allocate (uninit : Nat → Nat → List (Block α)) (s : State α σ ρ) : State α σ ρ :=
  { s with batch := uninit s.allocated, allocated := s.allocated + 1 }

def isLastLayer (ioLayer : Nat) : Bool := ioLayer == S.distriParams.ways.length

def numInternalWay (ioLayer : Nat) : Nat :=
  if S.isLastLayer ioLayer then S.partitionSize else getVecProduct (S.waysOf ioLayer)

/-- The real elements of a partition, in order. -/
def sortPartition (blocks : List (Block α)) : List (Block α) :=
  let compact := orCompact (fun x => !x.dummyFlag) blocks
  bitonicSortList Block.lt (compact.takeWhile fun x => !x.dummyFlag)

/-- The last layer writes out the real elements of a partition. -/
def outputPartition (I : IOVector ρ α) (ioLayer : Nat) (s : State α σ ρ) :
    Except (Stop α σ ρ) (State α σ ρ) :=
  let blocks := Store.gather (S.numInternalWay ioLayer) s.batch
  .ok { s with
    partitions := s.partitions ++ [blocks]
    io := (sortPartition blocks).foldl (fun io x => I.write x.data io) s.io }

/-- Fetch the buckets of a stride from the intermediate vector. -/
def fetchStride (V : Vector σ (List (Block α))) (ioLayer stride strideBegin : Nat)
    (s : State α σ ρ) :
    Except (Stop α σ ρ) (State α σ ρ) :=
  if ioLayer = 0 then .ok s
  else forRange (S.numInternalWay ioLayer) (fun bucketIdx =>
    S.copyIn V ((strideBegin + bucketIdx * stride * S.Z) % 2 ^ 64) bucketIdx (ioLayer - 1)) s

/-- Write the buckets of a stride back to the intermediate vector. -/
def writeStride (V : Vector σ (List (Block α))) (ioLayer stride strideBegin : Nat) :
    State α σ ρ → Except (Stop α σ ρ) (State α σ ρ) :=
  forRange (S.numInternalWay ioLayer) fun bucketIdx =>
    S.copyOut V ((strideBegin + bucketIdx * stride * S.Z) % 2 ^ 64) bucketIdx ioLayer

/-- One round of the loop over the strides. -/
def sortStride (I : IOVector ρ α) (V : Vector σ (List (Block α))) (ioLayer stride strideBegin
    strideCount : Nat) (s : State α σ ρ) : Except (Stop α σ ρ) (State α σ ρ) := do
  let s ← S.fetchStride V ioLayer stride strideBegin s
  if S.isLastLayer ioLayer then S.outputPartition I ioLayer s
  else
    S.KWayDistriSortBasic I ioLayer (S.numInternalWay ioLayer) (stride / S.partitionSize)
      (strideCount * S.numInternalWay ioLayer) ((S.waysOf ioLayer).length - 1) 0 1 s >>=
    S.writeStride V ioLayer stride strideBegin

omit [SortKey α] in
/-- `outputWriter.flush()`. -/
def flush (I : IOVector ρ α) (s : State α σ ρ) : Except (Stop α σ ρ) (State α σ ρ) :=
  match I.flush s.io with
  | .error io => .error (.inputOutput, { s with io })
  | .ok io => .ok { s with io }

/-- The loop over the strides from `begin` on, and the `flush` after it at the last layer. -/
def sortStrides (I : IOVector ρ α) (V : Vector σ (List (Block α)))
    (uninit : Nat → Nat → List (Block α)) (endPtr ioLayer begin stride : Nat) (s : State α σ ρ) :
    Except (Stop α σ ρ) (State α σ ρ) := do
  let s ← forStride (fun it => addInt it (stride * S.numInternalWay ioLayer * S.Z)) endPtr
    (fun s => (.noReturn, s)) (S.sortStride I V ioLayer stride) (endPtr + 1) begin 0
    (allocate uninit s)
  if S.isLastLayer ioLayer then flush I s else .ok s

/-- `KWayDistriSort(begin, end, ioLayer, stride)`. -/
def KWayDistriSort (I : IOVector ρ α) (V : Vector σ (List (Block α)))
    (uninit : Nat → Nat → List (Block α)) (endPtr : Nat) :
    (ioLayer : Nat) → (begin stride : Nat) → State α σ ρ → Except (Stop α σ ρ) (State α σ ρ)
  | 0, begin, stride, s => S.sortStrides I V uninit endPtr 0 begin stride s
  | ioLayer + 1, begin, stride, s => do
    let numInternalWay := S.numInternalWay (ioLayer + 1)
    let s ← forRange numInternalWay (fun i =>
      KWayDistriSort I V uninit endPtr ioLayer ((begin + i * stride * S.Z) % 2 ^ 64)
        (stride * numInternalWay)) s
    S.sortStrides I V uninit endPtr (ioLayer + 1) begin stride s

/-- `sort()`. -/
def sort (I : IOVector ρ α) (V : Vector σ (List (Block α))) (uninit : Nat → Nat → List (Block α)) :
    State α σ ρ → Except (Stop α σ ρ) (State α σ ρ) :=
  S.KWayDistriSort I V uninit (S.numTotalBucket * S.Z % 2 ^ 64) S.distriParams.ways.length 0 1

end KWayDistriSorter

end EM.Algorithm
