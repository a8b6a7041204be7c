import OblSort.Algorithm.Bitonic
import OblSort.Algorithm.ExtMergeSort
import OblSort.Algorithm.MergeSplit
import OblSort.Algorithm.PartitionDummy
import OblSort.DynamicVector
import OblSort.Lib.Loop
import OblSort.Lib.Store

/-!
# The butterfly sorter

`ButterflySorter` (`algorithm/kway_butterfly_sort.hpp`): tag and pad the input, route it through the
layers of merge-splits, and at the last layer either write out the shuffled buckets
(`KWAYBUTTERFLYOSHUFFLE`) or sort groups of them (`KWAYBUTTERFLYOSORT`).

Ranges of the source are counted in elements and cut at multiples of `Z`; here positions count
buckets, of the buffer `batch` as well as of the intermediate vector, whose pages are buckets. The
buffer is not initialised, so a state starts with any contents. It has `batchSize` places, and a run
stops before a batch that would leave them.

`KWayButterflySort` sorts a vector with it: up to 512 elements are sorted directly, and a sort in
several batches is followed by an external merge.
-/

namespace EM.Algorithm

open EM.DynamicPageVector Loop

/-- How a sort stops early. -/
inductive Abort
  /-- A merge-split lacks dummies. -/
  | mergeSplit
  /-- A page fails to authenticate. -/
  | authentication
  /-- `partitionDummy` leaves its range. -/
  | partitionDummy
  /-- `new` throws, as the buffer would have too many bytes. -/
  | badAlloc
  /-- A batch goes past the end of the buffer; what the source does then is not defined. -/
  | overrun
  deriving Repr, DecidableEq

/-- The tasks of a `ButterflySorter`. -/
inductive SortMethod
  | kWayButterflyOSort
  | kWayButterflyOShuffle
  deriving Repr, DecidableEq

structure KWayButterflyParams where
  ways : List (List Nat)
  Z : Nat
  totalBucket : Nat
  deriving Repr, DecidableEq

structure ButterflySorter where
  task : SortMethod
  singleBatch : Bool
  KWayParams : KWayButterflyParams
  numRealPerBucket : Nat
  numElementFit : Nat
  sizeofWrappedT : Nat
  deriving Repr, DecidableEq

namespace ButterflySorter

/-- The constructor, for an input of `size` elements. The subtractions are those of `uint64_t`. -/
def new (task : SortMethod) (singleBatch : Bool) (KWayParams : KWayButterflyParams)
    (heapSize sizeofWrappedT size : Nat) : ButterflySorter where
  task := task
  singleBatch := singleBatch
  KWayParams := KWayParams
  numRealPerBucket := 1 + (size - 1) / KWayParams.totalBucket
  numElementFit :=
    ((heapSize + (2 ^ 64 - 16 * KWayParams.Z % 2 ^ 64)) % 2 ^ 64 / sizeofWrappedT +
      (2 ^ 64 - 8 * KWayParams.Z % 2 ^ 64)) % 2 ^ 64
  sizeofWrappedT := sizeofWrappedT

structure State (α σ : Type) where
  /-- The input that is left, each element with the random draw for its tag. -/
  reader : List (BitVec 64 × α)
  batch : Nat → List (TaggedT α)
  vec : σ
  /-- What the writer has been given. -/
  written : List α
  /-- `mergeSortRanges`, as positions of the writer. -/
  mergeSortRanges : List (Nat × Nat)
  /-- The buckets of the last layer, by their number; the source does not keep them. -/
  lastBuckets : Nat → List (TaggedT α)
  /-- The groups handed to `partitionDummy`; the source does not keep them. -/
  handed : List (List (TaggedT α))

/-- The state `sort()` starts in, with the buffer and the pages as they happen to be. -/
def State.start {α σ : Type} (input : List (BitVec 64 × α)) (batch : Nat → List (TaggedT α))
    (vec : σ) : State α σ where
  reader := input
  batch := batch
  vec := vec
  written := []
  mergeSortRanges := []
  lastBuckets := fun _ => []
  handed := []

/-- Where a sort stops, with its state. -/
abbrev Stop (α σ : Type) := Abort × State α σ

variable {α σ : Type} (S : ButterflySorter)

/-- The bucket size. -/
abbrev Z : Nat := S.KWayParams.Z

/-- `KWayParams.ways[ioLayer]`. -/
def waysOf (ioLayer : Nat) : List Nat := S.KWayParams.ways.getD ioLayer []

/-! ## The buffer -/

/-- The number of buckets in the largest batch. -/
def maxBatchBucket : Nat := (S.KWayParams.ways.map getVecProduct).foldl max 0

/-- The number of places of `batch`. -/
def batchSize : Nat :=
  if S.singleBatch then S.maxBatchBucket * S.Z % 2 ^ 64 else S.numElementFit

/-- `new WrappedT[batchSize]`, which throws from `2 ^ 63` bytes on. -/
def newBatch : State α σ → Except (Stop α σ) (State α σ) :=
  require (S.batchSize * S.sizeofWrappedT < 2 ^ 63) .badAlloc

/-! ## In memory -/

/-- Tag and pad one bucket: the elements read, then dummies. -/
def tagAndPad (numRealPerBucket : Nat) : (offset : Nat) → List (TaggedT α) →
    List (BitVec 64 × α) → List (TaggedT α) × List (BitVec 64 × α)
  | _, [], reader => ([], reader)
  | offset, it :: its, [] =>
    let rest := tagAndPad numRealPerBucket (offset + 1) its []
    (it.setDummy :: rest.1, rest.2)
  | offset, it :: its, (r, data) :: reader =>
    if offset < numRealPerBucket then
      let rest := tagAndPad numRealPerBucket (offset + 1) its reader
      (TaggedT.setData r data :: rest.1, rest.2)
    else
      let rest := tagAndPad numRealPerBucket (offset + 1) its ((r, data) :: reader)
      (it.setDummy :: rest.1, rest.2)

/-- Tag and pad the bucket at `p`. -/
def padBucket (p : Nat) (s : State α σ) : State α σ :=
  let r := tagAndPad S.numRealPerBucket 0 (s.batch p) s.reader
  { s with batch := Function.update s.batch p r.1, reader := r.2 }

/-- Tag and pad the buckets of a range, in the first layer of pages. -/
def padBuckets (ioLayer begin way wayBucket : Nat) (s : State α σ) :
    Except (Stop α σ) (State α σ) :=
  if ioLayer = 0 then forRange way (fun i s => .ok (S.padBucket (begin + i * wayBucket) s)) s
  else .ok s

/-- `MergeSplitKWay` on the buckets at `idx i`, for `i < way`. -/
def mergeSplitAt (way : Nat) (idx : Nat → Nat) (s : State α σ) : Except (Stop α σ) (State α σ) :=
  match mergeSplitKWay way S.Z ((List.range way).map fun i => s.batch (idx i)) with
  | none => .error (.mergeSplit, s)
  | some out => .ok { s with batch := Store.putAll idx (fun i => out.getD i []) way s.batch }

/-- The merge-splits of one layer: bucket `j` of each of the `way` parts. -/
def mergeSplitLayer (begin way wayBucket : Nat) : State α σ → Except (Stop α σ) (State α σ) :=
  forRange wayBucket fun j => S.mergeSplitAt way fun i => begin + i * wayBucket + j

def KWayButterflySortBasic (ioLayer : Nat) :
    (innerLayer : Nat) → (begin numBucket : Nat) → State α σ → Except (Stop α σ) (State α σ)
  | 0, begin, numBucket, s => do
    let way := (S.waysOf ioLayer).getD 0 0
    let wayBucket := numBucket / way
    let s ← S.padBuckets ioLayer begin way wayBucket s
    S.mergeSplitLayer begin way wayBucket s
  | innerLayer + 1, begin, numBucket, s => do
    let way := (S.waysOf ioLayer).getD (innerLayer + 1) 0
    let wayBucket := numBucket / way
    let s ← forRange way (fun i =>
      KWayButterflySortBasic ioLayer innerLayer (begin + i * wayBucket) wayBucket) s
    S.mergeSplitLayer begin way wayBucket s

/-! ## The last layer -/

/-- `BitonicSort` of a bucket with `cmpTag`. -/
def tagSort (bucket : List (TaggedT α)) : List (TaggedT α) :=
  bitonicSortList (fun a b => a.tag.ult b.tag) bucket

/-- What a bucket sorted by tags writes out: its real elements in a shuffle, nothing otherwise. -/
def output (bucket : List (TaggedT α)) : List α :=
  match S.task with
  | .kWayButterflyOShuffle => (bucket.filter fun x => !x.isDummy).map TaggedT.v
  | .kWayButterflyOSort => []

/-- Sort the bucket at `p` by tags; a shuffle writes out its real elements. -/
def outputBucket (p : Nat) (s : State α σ) : State α σ :=
  let bucket := tagSort (s.batch p)
  { s with
    batch := Function.update s.batch p bucket
    written := s.written ++ S.output bucket }

/-- Sort the real elements of the first `n` buckets and write them out, recording the range when
an external merge follows. -/
def outputGroup (stdSort : List (TaggedT α) → List (TaggedT α)) (n : Nat) (s : State α σ) :
    Except (Stop α σ) (State α σ) :=
  let group := Store.gather n s.batch
  let s := { s with handed := s.handed ++ [group] }
  match partitionDummy TaggedT.isDummy group with
  | none => .error (.partitionDummy, s)
  | some (xs, realEnd) =>
    let sorted := stdSort (xs.take realEnd)
    let all := sorted ++ xs.drop realEnd
    let written := s.written ++ sorted.map TaggedT.v
    .ok { s with
      batch := fun p => if p < n then (all.drop (p * S.Z)).take S.Z else s.batch p
      written := written
      mergeSortRanges :=
        if S.singleBatch then s.mergeSortRanges
        else s.mergeSortRanges ++ [(s.written.length, written.length)] }

/-! ## Layers of pages -/

/-- The product of the ways of the layers below `ioLayer`. -/
def fetchInterval (ioLayer : Nat) : Nat :=
  (List.range ioLayer).foldl (fun n layer => n * getVecProduct (S.waysOf layer)) 1

def isLastLayer (ioLayer : Nat) : Bool := ioLayer == S.KWayParams.ways.length - 1

def batchPerEnclave (ioLayer : Nat) : Nat :=
  if S.task = .kWayButterflyOSort ∧ S.isLastLayer ioLayer then
    S.numElementFit / (getVecProduct (S.waysOf ioLayer) * S.Z)
  else 1

/-- The places of the batch `batchIdx` are places of the buffer. Where not even one batch of the
last layer fits, the source takes `batchIdx` modulo 0. -/
def InBuffer (ioLayer batchIdx : Nat) : Prop :=
  0 < S.batchPerEnclave ioLayer ∧
    (batchIdx % S.batchPerEnclave ioLayer + 1) * (getVecProduct (S.waysOf ioLayer) * S.Z) ≤
      S.batchSize

instance (ioLayer batchIdx : Nat) : Decidable (S.InBuffer ioLayer batchIdx) :=
  inferInstanceAs (Decidable (_ ∧ _))

/-- The sort goes on with the batch `batchIdx` if it is in the buffer. -/
def enterBatch (ioLayer batchIdx : Nat) : State α σ → Except (Stop α σ) (State α σ) :=
  require (S.InBuffer ioLayer batchIdx) .overrun

/-- `CopyIn` of one page to the bucket at `p`. -/
def copyIn (V : Vector σ (List (TaggedT α))) (pageIdx p counter : Nat) (s : State α σ) :
    Except (Stop α σ) (State α σ) :=
  match V.read pageIdx counter s.vec with
  | (none, vec) => .error (.authentication, { s with vec })
  | (some bucket, vec) => .ok { s with vec, batch := Function.update s.batch p bucket }

/-- `CopyOut` of the bucket at `p` to one page. -/
def copyOut (V : Vector σ (List (TaggedT α))) (pageIdx p counter : Nat) (s : State α σ) :
    Except (Stop α σ) (State α σ) :=
  .ok { s with vec := V.write pageIdx (s.batch p) counter s.vec }

/-- Fetch the buckets of a batch from the intermediate vector. -/
def fetchBatch (V : Vector σ (List (TaggedT α))) (ioLayer begin batchIdx batchBegin : Nat)
    (s : State α σ) : Except (Stop α σ) (State α σ) :=
  if ioLayer = 0 then .ok s
  else forRange (getVecProduct (S.waysOf ioLayer)) (fun bucketIdx =>
    copyIn V (begin + (batchIdx + S.fetchInterval ioLayer * bucketIdx)) (batchBegin + bucketIdx)
      (ioLayer - 1)) s

/-- Write the buckets of a batch back to the intermediate vector. -/
def writeBatch (V : Vector σ (List (TaggedT α))) (ioLayer begin batchIdx : Nat) :
    State α σ → Except (Stop α σ) (State α σ) :=
  forRange (getVecProduct (S.waysOf ioLayer)) fun bucketIdx =>
    copyOut V (begin + (batchIdx + S.fetchInterval ioLayer * bucketIdx)) bucketIdx ioLayer

/-- What the last layer does with the batch `batchIdx` at `batchBegin`. -/
def outputBatch (stdSort : List (TaggedT α) → List (TaggedT α)) (ioLayer batchCount batchIdx
    batchBegin : Nat) (s : State α σ) : Except (Stop α σ) (State α σ) := do
  let numInternalWay := getVecProduct (S.waysOf ioLayer)
  let batchPerEnclave := S.batchPerEnclave ioLayer
  let lastBuckets := Store.putAll (fun i => batchIdx + S.fetchInterval ioLayer * i)
    (fun i => s.batch (batchBegin + i)) numInternalWay s.lastBuckets
  let s := { s with lastBuckets }
  let s ← forRange numInternalWay (fun i s => .ok (S.outputBucket (batchBegin + i) s)) s
  match S.task with
  | .kWayButterflyOShuffle => .ok s
  | .kWayButterflyOSort =>
    if batchIdx % batchPerEnclave = batchPerEnclave - 1 ∨ batchIdx = batchCount - 1 then
      let BNCountPerBatch :=
        if batchIdx = batchCount - 1 then batchIdx % batchPerEnclave + 1 else batchPerEnclave
      S.outputGroup stdSort (numInternalWay * BNCountPerBatch) s
    else .ok s

/-- One batch of a layer: fetch its buckets, route them, and output or write them back. -/
def sortBatch (V : Vector σ (List (TaggedT α))) (stdSort : List (TaggedT α) → List (TaggedT α))
    (ioLayer begin batchCount batchIdx : Nat) (s : State α σ) : Except (Stop α σ) (State α σ) := do
  let numInternalWay := getVecProduct (S.waysOf ioLayer)
  let batchBegin := batchIdx % S.batchPerEnclave ioLayer * numInternalWay
  let s ← S.enterBatch ioLayer batchIdx s
  let s ← S.fetchBatch V ioLayer begin batchIdx batchBegin s
  let s ← S.KWayButterflySortBasic ioLayer ((S.waysOf ioLayer).length - 1) batchBegin
    numInternalWay s
  if S.isLastLayer ioLayer then S.outputBatch stdSort ioLayer batchCount batchIdx batchBegin s
  else S.writeBatch V ioLayer begin batchIdx s

/-- `KWayButterflySort(begin, end, ioLayer)` on `size` buckets from `begin`. -/
def KWayButterflySort (V : Vector σ (List (TaggedT α)))
    (stdSort : List (TaggedT α) → List (TaggedT α)) :
    (ioLayer : Nat) → (begin size : Nat) → State α σ → Except (Stop α σ) (State α σ)
  | 0, begin, size, s =>
    let batchCount := divRoundUp size (getVecProduct (S.waysOf 0))
    forRange batchCount (S.sortBatch V stdSort 0 begin batchCount) s
  | ioLayer + 1, begin, size, s => do
    let numInternalWay := getVecProduct (S.waysOf (ioLayer + 1))
    let subSize := size / numInternalWay
    let s ← forRange numInternalWay (fun i =>
      KWayButterflySort V stdSort ioLayer (begin + i * subSize) subSize) s
    let batchCount := divRoundUp size numInternalWay
    forRange batchCount (S.sortBatch V stdSort (ioLayer + 1) begin batchCount) s

/-- `sort()`, after the constructor has allocated the buffer. -/
def sort (V : Vector σ (List (TaggedT α))) (stdSort : List (TaggedT α) → List (TaggedT α))
    (s : State α σ) : Except (Stop α σ) (State α σ) := do
  let s ← S.newBatch s
  S.KWayButterflySort V stdSort (S.KWayParams.ways.length - 1) 0 S.KWayParams.totalBucket s

end ButterflySorter

/-! ## The sort of a vector -/

/-- What the sort takes from the platform: the sizes of its types and the standard library. -/
structure Platform (α : Type) where
  sizeofT : Nat
  sizeofWrappedT : Nat
  /-- `std::sort` by `cmpVal`. -/
  stdSort : List (TaggedT α) → List (TaggedT α)
  heap : StdHeap (HeapEntry α)
  passWay : (rangeCount maxWay : Nat) → Nat

/-- How a sort fails. -/
inductive Failure
  | sorter (abort : Abort)
  | merge (abort : MergeAbort)
  deriving Repr, DecidableEq

namespace Platform

variable {α : Type} (M : Platform α)

/-- `NonCachedVector::Vector<T>::item_per_page`. -/
def itemPerPage : Nat :=
  getNextPowerOfTwo (max (2 ^ 14 - 32) (4 * M.sizeofT) / M.sizeofT / 2 + 1)

/-- The heap size that a sort of `N` elements uses. -/
def usedHeapSize (heapSize N : Nat) : Nat :=
  min heapSize (max N 4096 * M.sizeofWrappedT * 2 % 2 ^ 64)

/-- How many ranges are merged at once. -/
def maxWay (heapSize N : Nat) : Nat := M.usedHeapSize heapSize N / (M.sizeofT * M.itemPerPage * 2)

/-- The sorter for `N` elements. -/
def sorter (params : KWayButterflyParams) (heapSize N : Nat) : ButterflySorter :=
  .new .kWayButterflyOSort (params.ways.length == 1) params (M.usedHeapSize heapSize N)
    M.sizeofWrappedT N

end Platform

/-- `KWayButterflySort(reader, writer, heapSize)`; the result is what it writes. `batch` and `vec`
are the buffer and the pages as they happen to be. -/
def KWayButterflySort {α σ : Type} [SortKey α] (M : Platform α)
    (V : Vector σ (List (TaggedT α))) (params : KWayButterflyParams) (heapSize : Nat)
    (batch : Nat → List (TaggedT α)) (vec : σ) (input : List (BitVec 64 × α)) :
    Except Failure (List α) :=
  let N := input.length
  if N ≤ 512 then .ok (bitonicSortList SortKey.lt (input.map Prod.snd))
  else
    match (M.sorter params heapSize N).sort V M.stdSort (.start input batch vec) with
    | .error e => .error (.sorter e.1)
    | .ok s =>
      if params.ways.length = 1 then .ok s.written
      else
        let mergeRanges := s.mergeSortRanges.map fun range =>
          ((⟨0, range.1⟩, ⟨0, range.2⟩) : MergeRange)
        (ExtMergeSort M.heap M.passWay (M.maxWay heapSize N) (mergeRanges.length + 1) [s.written] N
          mergeRanges).mapError .merge

end EM.Algorithm
