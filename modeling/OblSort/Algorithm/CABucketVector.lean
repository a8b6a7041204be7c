import OblSort.Algorithm.CABucketSort
import OblSort.Algorithm.MergeVector

/-!
# The bucket shuffles and the bucket sort of a vector

`CABucketShuffleInternal(vec)`, `CABucketShuffle(vec, heapSize)` and `CABucketSort(vec, heapSize)`
(`algorithm/ca_bucket_sort.hpp`) on a vector without a cache: the input is read with the counter 0,
the shuffled elements are written back with the counter 1, and the merge sort keeps to that counter.

`tagAndPad` is done with the vector when it returns, and has read all of it, as the buckets have
room for more elements than there are. Before the first element of the output is written nothing
else happens to the vector.
-/

namespace EM.Algorithm.CABucketSort

open NonCachedVector Paged

/-- How a sort stops early. -/
inductive SortAbort
  | shuffle (abort : Abort)
  | merge (abort : MergeVector.Abort)
  deriving Repr, DecidableEq

/-- What a sort takes from its surroundings, for a vector with `m` elements a page, an intermediate
vector of the shuffle with `n` and those of the merge sort with `k`. -/
structure Surroundings (n m k : Nat) (α : Type) where
  uninit : Uninit n α
  sizeofTaggedT : Nat
  readerCache : Page m α
  merge : MergeVector.Surroundings k m α

namespace Surroundings

variable {n m k : Nat} [NeZero n] [NeZero m] [NeZero k] {α : Type} [Inhabited α]
  (A : Surroundings n m k α)

/-- `CABucketShuffleInternal(vec)`: its writer is not flushed. -/
def CABucketShuffleInternal (Z : Nat) (D : Draws α) (v : NonCachedVector.Vector m α) :
    Except Abort (NonCachedVector.Vector m α) := do
  let (input, _) ← orAbort ((Reader.new A.readerCache 0 v.N 0).readMany v v.N)
  let shuffled ← shuffleInternalOutput Z D input
  let outputWriter ← orAbort (Writer.init A.merge.writerCache 0 v.N 1 v)
  let (_, v) := outputWriter.writeMany shuffled v
  return v

/-- `CABucketShuffle(vec, heapSize)`. -/
def CABucketShuffle (Z heapSize : Nat) (D : Draws α) (v : NonCachedVector.Vector m α) :
    Except Abort (NonCachedVector.Vector m α) := do
  let (input, _) ← orAbort ((Reader.new A.readerCache 0 v.N 0).readMany v v.N)
  let shuffled ← shuffleOutput A.uninit Z A.sizeofTaggedT heapSize D input
  let outputWriter ← orAbort (Writer.init A.merge.writerCache 0 v.N 1 v)
  let (outputWriter, v) := outputWriter.writeMany shuffled v
  orAbort (outputWriter.flush A.merge.originalPage v)

/-- `CABucketSort(vec, heapSize)`. -/
def sortVec (Z heapSize : Nat) (D : Draws α) (v : NonCachedVector.Vector m α) :
    Except SortAbort (NonCachedVector.Vector m α) := do
  let v ← (A.CABucketShuffle Z heapSize D v).mapError .shuffle
  (A.merge.sortVec false heapSize 1 v).mapError .merge

end Surroundings

end EM.Algorithm.CABucketSort
