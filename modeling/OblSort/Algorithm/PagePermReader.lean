import OblSort.Algorithm.ExtMergeSort
import OblSort.NonCachedVector
import OblSort.Server.BatchFrontend

/-!
# Reading pages in a random order

`PagePermReader` (`algorithm/kway_distri_sort.hpp`): a `PrefetchReader` that asks `translatePageIdx`
for the page to fetch in place of the one it is at. The order of the pages is a random permutation
that leaves the last page in place. It is kept in the vector `perm`, and built in memory when it
fits, else by sorting the page numbers by random tags.

`onDisk` tells the two builds of `PrefetchReader` apart: with `DISK_IO` it fetches up to
`bufferCapacity` pages at once, without it one. The batching of these fetches changes nothing of
what is read (`NonCachedVector.runReaders_eq_plain`), so pages are read at once here, and the
readers of the permutation are plain `Reader`s. `rand64` are the draws of the random generator.
`none` is an abort, an endless loop or a value that is not defined.
-/

namespace EM.Algorithm

open Paged NonCachedVector

/-! ## The permutation -/

/-- The functions of the standard library that order entries by their tags. -/
structure TagOrder where
  /-- `std::sort` by `cmpTag`. -/
  sort : List (TaggedT Nat) → List (TaggedT Nat)
  heap : StdHeap (HeapEntry (TaggedT Nat))

def cmpTag (a b : TaggedT Nat) : Bool := a.tag.ult b.tag

/-- `cmpmerge`. -/
def cmpMergeTag (a b : HeapEntry (TaggedT Nat)) : Bool := cmpTag b.1 a.1

/-- What the pages of the two vectors, their readers and their writer hold before they are written,
and the nonces of the vectors. -/
structure Uninit (m m' : Nat) where
  permPage : Page m Nat
  taggedPage : Page m' (TaggedT Nat)
  permNounce : Nounce
  taggedNounce : Nounce

/-- The constructor of a vector without a default value. -/
def newVector {m : Nat} {β : Type} (nounce : Nounce) (page : Page m β) (N : Nat) :
    NonCachedVector.Vector m β :=
  ⟨N, false, page, ⟨nounce, page, fun _ => false, fun _ => none, []⟩⟩

/-- `permVec` after the shuffle of all but its last entry. -/
def shufflePages (rand64 : Nat → BitVec 64) (permSize : Nat) : Option (List Nat) :=
  let permVec := List.range permSize
  (fisherYatesShuffle rand64 (permVec.take (permSize - 1))).map (· ++ permVec.drop (permSize - 1))

section

variable {m m' : Nat} [NeZero m] [NeZero m']

/-- The loop over the batches from page `i` on: `mergeRanges` and `intermediateVec` after it. With
`batchSize` 0 it does not end; else every iteration is about a page at least. -/
def tagBatches (L : TagOrder) (rand64 : Nat → BitVec 64) (batchSize permSize : Nat) :
    (fuel i : Nat) → NonCachedVector.Vector m' (TaggedT Nat) →
      Option (List (Nat × Nat) × NonCachedVector.Vector m' (TaggedT Nat))
  | 0, _, _ => none
  | fuel + 1, i, intermediateVec =>
    if i < permSize then
      let batchEnd := min (i + batchSize) permSize
      let batch := (List.range' i (batchEnd - i)).map fun j => (⟨rand64 j, j⟩ : TaggedT Nat)
      (copyOut (L.sort batch) i 0 intermediateVec).bind fun intermediateVec =>
      (tagBatches L rand64 batchSize permSize fuel (i + batchSize) intermediateVec).map
        fun (mergeRanges, intermediateVec) => ((i, batchEnd) :: mergeRanges, intermediateVec)
    else some ([], intermediateVec)

/-- What a merge reader has in front of it. -/
def readMergeRange (cache : Page m' (TaggedT Nat)) (v : NonCachedVector.Vector m' (TaggedT Nat))
    (range : Nat × Nat) : Option (List (TaggedT Nat)) :=
  ((Reader.new cache range.1 range.2 0).readMany v (range.2 - range.1)).map Prod.fst

/-- The loop that empties the heap of the readers. -/
def mergeTagged (L : TagOrder) (readers : List (List (TaggedT Nat))) :
    Option (List (TaggedT Nat)) :=
  (readers.mapM heapEntry).toOption.bind fun heap =>
  (mergeLoop L.heap (readers.flatten.length + 1) (L.heap.makeHeap heap)).toOption

/-- The permutation by tags. -/
def permByTags (L : TagOrder) (rand64 : Nat → BitVec 64) (U : Uninit m m') (heapSize : Nat)
    (perm : NonCachedVector.Vector m Nat) : Option (NonCachedVector.Vector m Nat) :=
  (Writer.init U.permPage 0 perm.N 0 perm).bind fun permWriter =>
  let permSize := perm.N - 1
  let batchSize := heapSize / 16
  (tagBatches L rand64 batchSize permSize (permSize + 1) 0
    (newVector U.taggedNounce U.taggedPage permSize)).bind fun (mergeRanges, intermediateVec) =>
  (mergeRanges.mapM (readMergeRange U.taggedPage intermediateVec)).bind fun readers =>
  (mergeTagged L readers).bind fun merged =>
  let (permWriter, perm) := permWriter.writeMany (merged.map TaggedT.v ++ [permSize]) perm
  permWriter.flush U.permPage perm

/-- `perm` once the constructor has filled it. -/
def makePerm (L : TagOrder) (rand64 : Nat → BitVec 64) (U : Uninit m m')
    (heapSize pageCount : Nat) :
    Option (NonCachedVector.Vector m Nat) :=
  let perm := newVector U.permNounce U.permPage pageCount
  if 8 * perm.N < heapSize then
    (shufflePages rand64 perm.N).bind fun permVec => copyOut permVec 0 0 perm
  else permByTags L rand64 U heapSize perm

end

/-! ## The reader -/

/-- The buffers are one after the other: `curr` is the number of elements before it, and `none`
while it is `UINT64_MAX`. -/
structure PagePermReader (n m : Nat) (α : Type) where
  cache : Nat → Page n α
  it : Nat
  endPtr : Nat
  curr : Option Nat
  endPageIdx : Nat
  counter : Nat
  perm : NonCachedVector.Vector m Nat
  permReader : Reader m Nat
  nextPageIdx : Nat
  translatedPageIdx : Nat

namespace PagePermReader

variable {n m m' : Nat} [NeZero n] [NeZero m] [NeZero m'] {α : Type}

/-- The constructor. -/
def new (L : TagOrder) (rand64 : Nat → BitVec 64) (U : Uninit m m') (cache : Nat → Page n α)
    (beginPtr endPtr counter heapSize : Nat) : Option (PagePermReader n m α) :=
  (makePerm L rand64 U heapSize (divRoundUp (endPtr - beginPtr) n)).map fun perm =>
  ⟨cache, beginPtr, endPtr, none, (endPtr - 1) / n + 1, counter, perm,
    Reader.new U.permPage 0 perm.N 0, 0, 0⟩

def eof (r : PagePermReader n m α) : Bool := r.endPtr ≤ r.it

/-- The reader of the permutation moved to an entry other than the next. -/
def jumpTo (pageIdx : Nat) (r : PagePermReader n m α) : Reader m Nat :=
  { r.permReader with curr := none, it := r.permReader.it + pageIdx - r.nextPageIdx }

/-- `translatePageIdx(pageIdx)`: the result is `translatedPageIdx` of the reader after it. -/
def translatePageIdx (pageIdx : Nat) (r : PagePermReader n m α) : Option (PagePermReader n m α) :=
  let permReader := if pageIdx = r.nextPageIdx then r.permReader else r.jumpTo pageIdx
  if permReader.eof then none
  else
    (permReader.read r.perm).map fun (translatedPageIdx, permReader) =>
    { r with permReader, nextPageIdx := pageIdx + 1, translatedPageIdx }

/-- `getLastIdx()`. -/
def getLastIdx (r : PagePermReader n m α) : Nat := r.translatedPageIdx * n + (r.it - 1) % n

/-- `count` pages from `pageIdx` on, to the buffers from `cacheIdx` on. -/
def loadPages (v : NonCachedVector.Vector n α) : (count cacheIdx pageIdx : Nat) →
    PagePermReader n m α → Option (PagePermReader n m α)
  | 0, _, _, r => some r
  | count + 1, cacheIdx, pageIdx, r =>
    (r.translatePageIdx pageIdx).bind fun r =>
    (v.read r.translatedPageIdx r.counter).bind fun page =>
    loadPages v count (cacheIdx + 1) (pageIdx + 1)
      { r with cache := Function.update r.cache cacheIdx page }

/-- The number of buffers. -/
def cacheCapacity (onDisk : Bool) : Nat := if onDisk then bufferCapacity else 1

/-- Where a fetch that begins with `pageIdx` ends. -/
def cachePageEndIdx (onDisk : Bool) (pageIdx : Nat) (r : PagePermReader n m α) : Nat :=
  if onDisk then min (pageIdx + bufferCapacity) r.endPageIdx else pageIdx + 1

/-- `get()`: the reader once the page it needs is in a buffer. -/
def get (onDisk : Bool) (v : NonCachedVector.Vector n α) (r : PagePermReader n m α) :
    Option (PagePermReader n m α) :=
  if r.curr.all (cacheCapacity onDisk * n ≤ ·) then
    let pageIdx := r.it / n
    let curr := if r.curr ≠ some (cacheCapacity onDisk * n) then r.it % n else 0
    (r.loadPages v (r.cachePageEndIdx onDisk pageIdx - pageIdx) 0 pageIdx).map fun r =>
    { r with curr := some curr }
  else some r

/-- `*curr`, and the reader past it. -/
def next (r : PagePermReader n m α) : α × PagePermReader n m α :=
  let curr := r.curr.getD 0
  (r.cache (curr / n) (Fin.ofNat n curr), { r with it := r.it + 1, curr := some (curr + 1) })

/-- `read()`. -/
def read (onDisk : Bool) (v : NonCachedVector.Vector n α) (r : PagePermReader n m α) :
    Option (α × PagePermReader n m α) :=
  (r.get onDisk v).map next

/-- `read()` until `eof()`: the elements, each with what `getLastIdx()` is after it. -/
def readAll (onDisk : Bool) (v : NonCachedVector.Vector n α) : (fuel : Nat) →
    PagePermReader n m α → Option (List (α × Nat))
  | 0, _ => none
  | fuel + 1, r =>
    if r.eof then some []
    else
      (r.read onDisk v).bind fun (x, r) =>
      (readAll onDisk v fuel r).map ((x, r.getLastIdx) :: ·)

end PagePermReader

end EM.Algorithm
