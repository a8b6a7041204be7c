import OblSort.Algorithm.KWayButterflySort
import OblSort.Algorithm.MergeVector
import OblSort.Algorithm.OrShuffle

/-!
# The butterfly sort and shuffle of a vector

`KWayButterflySort(vec, inAuth, heapSize)` and `KWayButterflyOShuffle(vec, inAuth, heapSize)`
(`algorithm/kway_butterfly_sort.hpp`) on a vector without a cache, whose iterators have no random
access: the input is read with `inAuth`, the output is written with the counter after it. A sort in
several batches goes through `mergeSortFirstLayer`.

A sorter reads the input in its first layer and writes in its last one, so all of the vector has
been read before the first element is written. A `PrefetchReader` is a plain `Reader` here. The
parameters of a sort are given from outside.
-/

namespace EM.Algorithm.ButterflyVector

open NonCachedVector Paged

/-- How a sort stops early. -/
inductive SortAbort
  | sorter (abort : Abort)
  | merge (abort : MergeVector.Abort)
  deriving Repr, DecidableEq

/-- What a sort takes from its surroundings, for a vector with `m` elements a page and a first layer
of the merge with `n`: the platform, the heap functions for the readers that are merged, the random
draws, and memory as it happens to be. The heap of the platform is for merges of lists. -/
structure Surroundings (n m : Nat) (α : Type) where
  platform : Platform α
  heap : StdHeap (MergeVector.Entry n α)
  rand64 : Nat → BitVec 64
  /-- `UniformRandom` and `UniformRandomBit` in `OrShuffle`. -/
  tape : (N : Nat) → Tape N
  uninit : MergeVector.Uninit n α
  readerCache : Page m α
  writerCache : Page m α
  originalPage : Page m α

variable {n m : Nat} [NeZero n] [NeZero m] {α σ : Type}

/-- A failed access of a vector ends the sort. -/
def orAbort {β : Type} (result : Option β) : Except SortAbort β :=
  result.elim (.error (.sorter .authentication)) .ok

/-- `write` of the elements of a list, and `flush()`. -/
def writeAll (xs : List α) (o : MergeVector.Output m α) :
    Except SortAbort (MergeVector.Output m α) :=
  let (writer, vec) := o.writer.writeMany xs o.vec
  ({ o with writer, vec } : MergeVector.Output m α).flush.mapError .merge

namespace Surroundings

variable (A : Surroundings n m α)

/-- The input with the draws for the tags. -/
def withDraws (xs : List α) : List (BitVec 64 × α) := xs.zipIdx.map fun x => (A.rand64 x.2, x.1)

/-- How many ranges are merged at once. -/
def maxWay (heapSize N : Nat) : Nat :=
  A.platform.usedHeapSize heapSize N / (A.platform.sizeofT * n * 2)

/-- `KWayButterflySort(reader, writer, heapSize)`, for what the reader returns. `batch` and `vec`
are the buffer and the pages as they happen to be. -/
def KWayButterflySort [SortKey α] (V : EM.DynamicPageVector.Vector σ (List (TaggedT α)))
    (params : KWayButterflyParams) (heapSize : Nat) (batch : Nat → List (TaggedT α)) (vec : σ)
    (input : List α) (writer : MergeVector.Output m α) : Except SortAbort
      (MergeVector.Output m α) :=
  let N := input.length
  if N ≤ 512 then writeAll (bitonicSortList SortKey.lt input) writer
  else
    let sorter := A.platform.sorter params heapSize N
    match sorter.sort V A.platform.stdSort (.start (A.withDraws input) batch vec) with
    | .error e => .error (.sorter e.1)
    | .ok s =>
      if params.ways.length = 1 then writeAll s.written writer
      else do
        let mergeSortFirstLayer := newVector A.uninit.nounce A.uninit.vecPage N
        let firstLayerWriter ← orAbort (Writer.init A.uninit.writerCache 0 N 0 mergeSortFirstLayer)
        let firstLayer ← writeAll s.written ⟨firstLayerWriter, mergeSortFirstLayer,
          A.uninit.originalPage⟩
        let mergeRanges := s.mergeSortRanges.map fun range =>
          ((⟨0, range.1⟩, ⟨0, range.2⟩) : MergeRange)
        (MergeVector.ExtMergeSort A.heap A.uninit A.platform.passWay (A.maxWay heapSize N)
          (mergeRanges.length + 1) [firstLayer.vec] writer mergeRanges).mapError .merge

/-- The sorter of a shuffle of `N` elements. -/
def shuffler (params : KWayButterflyParams) (heapSize N : Nat) : ButterflySorter :=
  .new .kWayButterflyOShuffle (params.ways.length == 1) params (A.platform.usedHeapSize heapSize N)
    A.platform.sizeofWrappedT N

/-- `KWayButterflyOShuffle(reader, writer, heapSize)`, for what the reader returns. -/
def KWayButterflyOShuffle (V : EM.DynamicPageVector.Vector σ (List (TaggedT α)))
    (params : KWayButterflyParams) (heapSize : Nat) (batch : Nat → List (TaggedT α)) (vec : σ)
    (input : List α) (writer : MergeVector.Output m α) : Except SortAbort
      (MergeVector.Output m α) :=
  let N := input.length
  if N ≤ 512 then writeAll (orShuffle (A.tape N) input) writer
  else
    match (A.shuffler params heapSize N).sort V A.platform.stdSort
        (.start (A.withDraws input) batch vec) with
    | .error e => .error (.sorter e.1)
    | .ok s => writeAll s.written writer

/-- The reader of the whole vector, `task` for what it returns, and the writer of the whole
vector. -/
def overwrite (task : List α → MergeVector.Output m α → Except SortAbort (MergeVector.Output m α))
    (inAuth : Nat) (v : NonCachedVector.Vector m α) : Except SortAbort
      (NonCachedVector.Vector m α) := do
  let (input, _) ← orAbort ((Reader.new A.readerCache 0 v.N inAuth).readMany v v.N)
  let writer ← orAbort (Writer.init A.writerCache 0 v.N ((inAuth + 1) % 2 ^ 32) v)
  let o ← task input ⟨writer, v, A.originalPage⟩
  .ok o.vec

/-- `KWayButterflySort(vec, inAuth, heapSize)`. -/
def sortVec [SortKey α] (V : EM.DynamicPageVector.Vector σ (List (TaggedT α)))
    (params : KWayButterflyParams) (heapSize : Nat) (batch : Nat → List (TaggedT α)) (vec : σ)
    (inAuth : Nat) (v : NonCachedVector.Vector m α) : Except SortAbort
      (NonCachedVector.Vector m α) :=
  A.overwrite (A.KWayButterflySort V params heapSize batch vec) inAuth v

/-- `KWayButterflyOShuffle(vec, inAuth, heapSize)`. -/
def shuffleVec (V : EM.DynamicPageVector.Vector σ (List (TaggedT α)))
    (params : KWayButterflyParams) (heapSize : Nat) (batch : Nat → List (TaggedT α)) (vec : σ)
    (inAuth : Nat) (v : NonCachedVector.Vector m α) : Except SortAbort
      (NonCachedVector.Vector m α) :=
  A.overwrite (A.KWayButterflyOShuffle V params heapSize batch vec) inAuth v

end Surroundings

end EM.Algorithm.ButterflyVector
