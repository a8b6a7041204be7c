import OblSort.Algorithm.PagePermReader
import OblSort.Lib.Loop

/-!
# Merge sort of a vector

`ExtMergeSort` (`algorithm/sort_building_blocks.hpp`) on vectors without a cache, with the readers
of the ranges that are merged and the writer of the output:
`ExtMergeSort(outputWriter, mergeRanges, maxWay)` and
`ExtMergeSort<incAuth>(begin, end, heapSize, inAuth)`, which sorts batches first.

A `LazyPrefetchReader` is a plain `Reader` here: it returns the same
(`NonCachedVector.runReaders_eq_plain`). The readers are those of vectors with `n` elements a page,
the output may have another page size. An entry of the heap has the element that its pointer was
taken to. `Memory` is as for the merge of lists.
-/

namespace EM.Algorithm.MergeVector

open NonCachedVector Paged Loop

/-- How a merge of vectors stops early. -/
inductive Abort
  | merge (abort : MergeAbort)
  /-- A page fails to authenticate. -/
  | authentication
  deriving Repr, DecidableEq

/-- A failed access of a vector ends the merge. -/
def orAbort {β : Type} (result : Option β) : Except Abort β :=
    result.elim (.error .authentication) .ok

/-- The vectors that are alive. -/
abbrev Memory (n : Nat) (α : Type) := List (NonCachedVector.Vector n α)

/-- A reader, and the number of its vector. -/
structure MergeReader (n : Nat) (α : Type) where
  vec : Nat
  reader : Reader n α

/-- `std::pair<Reader*, T*>`. -/
abbrev Entry (n : Nat) (α : Type) := MergeReader n α × α

/-- `outputWriter` and its vector, and what `flush` writes past the last element. -/
structure Output (m : Nat) (α : Type) where
  writer : Writer m α
  vec : NonCachedVector.Vector m α
  originalPage : Page m α

/-- What readers, writers and vectors hold before they are written, and the nonce of the vectors. -/
structure Uninit (n : Nat) (α : Type) where
  readerCache : Page n α
  writerCache : Page n α
  originalPage : Page n α
  vecPage : Page n α
  nounce : Nounce

variable {n m : Nat} [NeZero n] [NeZero m] {α : Type}

/-- `cmpmerge`. -/
def cmpMerge [SortKey α] (a b : Entry n α) : Bool := SortKey.lt b.2 a.2

namespace MergeReader

/-- `mergeReaders.emplace_back(range.first, range.second)`. -/
def new (U : Uninit n α) (range : MergeRange) : MergeReader n α :=
  ⟨range.1.vec, Reader.new U.readerCache range.1.m_ptr range.2.m_ptr 0⟩

/-- What is left to read. -/
def size (r : MergeReader n α) : Nat := r.reader.endPtr - r.reader.it

/-- `heap.emplace_back(&reader, &reader.get())`. -/
def get (mem : Memory n α) (r : MergeReader n α) : Except Abort (Entry n α) :=
  if r.reader.eof then .error (.merge .pastEnd)
  else
    match mem[r.vec]? with
    | none => .error (.merge .destroyed)
    | some v => do
      let reader ← orAbort (r.reader.get v)
      .ok ({ r with reader }, reader.next.1)

/-- `read()`. -/
def read (mem : Memory n α) (r : MergeReader n α) : Except Abort (α × MergeReader n α) :=
  match mem[r.vec]? with
  | none => .error (.merge .destroyed)
  | some v => do
    let r' ← orAbort (r.reader.read v)
    .ok (r'.1, { r with reader := r'.2 })

end MergeReader

namespace Output

/-- `write(element)`. -/
def write (x : α) (o : Output m α) : Output m α :=
  let (writer, vec) := o.writer.write x o.vec
  { o with writer, vec }

/-- `flush()`. -/
def flush (o : Output m α) : Except Abort (Output m α) := do
  let vec ← orAbort (o.writer.flush o.originalPage o.vec)
  .ok { o with vec }

/-- `size()`. -/
def size (o : Output m α) : Nat := o.writer.endPtr - o.writer.it

end Output

/-! ## One pass -/

/-- The loop over the only reader. -/
def copyReader (mem : Memory n α) : (fuel : Nat) → MergeReader n α → Output m α →
    Except Abort (Output m α)
  | 0, _, _ => .error (.merge .noReturn)
  | fuel + 1, r, o =>
    if r.reader.eof then .ok o
    else do
      let (x, r) ← r.read mem
      copyReader mem fuel r (o.write x)

/-- The loop that empties the heap. -/
def mergeLoop (H : StdHeap (Entry n α)) (mem : Memory n α) : (fuel : Nat) → List (Entry n α) →
    Output m α → Except Abort (Output m α)
  | 0, _, _ => .error (.merge .noReturn)
  | _ + 1, [], o => .ok o
  | fuel + 1, top :: heap, o => do
    let (x, reader) ← top.1.read mem
    let next ← if reader.reader.eof then .ok [] else (reader.get mem).map ([·])
    mergeLoop H mem fuel (H.popHeap (top :: heap ++ next)).dropLast (o.write x)

/-- The merge of `ranges`, for the `rangeCount` ranges that were given. -/
def mergeReaders (H : StdHeap (Entry n α)) (U : Uninit n α) (mem : Memory n α) (rangeCount : Nat)
    (ranges : List MergeRange) (o : Output m α) : Except Abort (Output m α) :=
  let readers := ranges.map (MergeReader.new U)
  let fuel := (readers.map MergeReader.size).sum + 1
  if rangeCount = 1 then
    match readers with
    | [] => .error (.merge .pastEnd)
    | reader :: _ => copyReader mem fuel reader o >>= Output.flush
  else do
    let heap ← readers.mapM (·.get mem)
    mergeLoop H mem fuel (H.makeHeap heap) o >>= Output.flush

/-! ## Sub-merges -/

/-- The sub-merges of `subRangeCount` ranges each to the vector `temp`, each with a writer of its
own. -/
def subMerges (call : Memory n α → Output n α → List MergeRange → Except Abort (Output n α))
    (U : Uninit n α) (mem : Memory n α) (subRangeCount : Nat) :
    (way : Nat) → (subBegin : Nat) → (temp : NonCachedVector.Vector n α) → List MergeRange →
      Except Abort (List MergeRange)
  | 0, _, _, _ => .ok []
  | way + 1, subBegin, temp, ranges =>
    let subMergeRanges := ranges.take subRangeCount
    match subMergeRanges.head?, subMergeRanges.getLast? with
    | some first, some last => do
      let subEnd := subBegin + (last.2.m_ptr - first.1.m_ptr)
      let writer ← orAbort (Writer.init U.writerCache subBegin subEnd 0 temp)
      let o ← call (mem ++ [temp]) ⟨writer, temp, U.originalPage⟩ subMergeRanges
      let new := (⟨mem.length, subBegin⟩, ⟨mem.length, subEnd⟩)
      if subEnd = temp.N then .ok [new]
      else
        let rest ← subMerges call U mem subRangeCount way subEnd o.vec (ranges.drop subRangeCount)
        .ok (new :: rest)
    | _, _ => .error (.merge .pastEnd)

/-- `ExtMergeSort(outputWriter, mergeRanges, maxWay)`; `temp` is gone when the ranges are merged. -/
def ExtMergeSort (H : StdHeap (Entry n α)) (U : Uninit n α)
    (passWay : (rangeCount maxWay : Nat) → Nat) (maxWay : Nat) :
    (fuel : Nat) → {m : Nat} → [NeZero m] → Memory n α → Output m α → List MergeRange →
      Except Abort (Output m α)
  | 0, _, _, _, _, _ => .error (.merge .noReturn)
  | fuel + 1, _, _, mem, o, mergeRanges =>
    if mergeRanges.length > maxWay then
      let rangeCount := mergeRanges.length
      let way := passWay rangeCount maxWay
      if way = 0 then .error (.merge .divisionByZero)
      else do
        let subRangeCount := divRoundUp rangeCount way
        let way := divRoundUp rangeCount subRangeCount
        let temp := newVector U.nounce U.vecPage o.size
        let newMergeRanges ← subMerges (ExtMergeSort H U passWay maxWay fuel) U mem
          subRangeCount way 0 temp mergeRanges
        mergeReaders H U mem rangeCount newMergeRanges o
    else mergeReaders H U mem mergeRanges.length mergeRanges o

/-! ## The sort -/

/-- What a sort takes from its surroundings: the size of an element, the standard library, and
memory as it happens to be. -/
structure Surroundings (n m : Nat) (α : Type) where
  sizeofT : Nat
  stdSort : List α → List α
  heap : StdHeap (Entry n α)
  passWay : (rangeCount maxWay : Nat) → Nat
  uninit : Uninit n α
  writerCache : Page m α
  originalPage : Page m α

namespace Surroundings

variable (A : Surroundings n m α)

/-- The batch `batchIdx` is sorted to `batchSorted`. -/
def sortBatch (beginPtr size inAuth batchSize batchIdx : Nat)
    (s : NonCachedVector.Vector m α × NonCachedVector.Vector n α × List MergeRange) :
    Except Abort (NonCachedVector.Vector m α × NonCachedVector.Vector n α × List MergeRange) := do
  let (v, batchSorted, mergeRanges) := s
  let len := min batchSize (size - batchIdx * batchSize)
  let batchBegin := beginPtr + batchIdx * batchSize
  let (mem, v) ← orAbort (copyIn batchBegin (batchBegin + len) inAuth v)
  let batchSorted ← orAbort (copyOut (A.stdSort mem) (batchIdx * batchSize) 0 batchSorted)
  .ok (v, batchSorted,
    mergeRanges ++ [(⟨0, batchIdx * batchSize⟩, ⟨0, batchIdx * batchSize + len⟩)])

/-- `outAuth`. -/
def outAuth (incAuth : Bool) (inAuth : Nat) : Nat :=
    if incAuth then (inAuth + 1) % 2 ^ 32 else inAuth

/-- `ExtMergeSort<incAuth>(begin, end, heapSize, inAuth)`. -/
def ExtMergeSort (incAuth : Bool) (heapSize inAuth beginPtr endPtr : Nat)
    (v : NonCachedVector.Vector m α) : Except Abort (NonCachedVector.Vector m α) :=
  let size := endPtr - beginPtr
  let batchSize := heapSize / A.sizeofT
  if batchSize = 0 then .error (.merge .divisionByZero)
  else
    let batchCount := divRoundUp size batchSize
    let outAuth := outAuth incAuth inAuth
    if batchCount = 1 then do
      let (mem, v) ← orAbort (copyIn beginPtr endPtr inAuth v)
      orAbort (copyOut (A.stdSort mem) beginPtr outAuth v)
    else do
      let batchSorted := newVector A.uninit.nounce A.uninit.vecPage size
      let (v, batchSorted, mergeRanges) ←
        forRange batchCount (A.sortBatch beginPtr size inAuth batchSize) (v, batchSorted, [])
      let writer ← orAbort (Writer.init A.writerCache beginPtr endPtr outAuth v)
      let o ← MergeVector.ExtMergeSort A.heap A.uninit A.passWay (batchSize / (2 * n))
        (mergeRanges.length + 1) [batchSorted] ⟨writer, v, A.originalPage⟩ mergeRanges
      .ok o.vec

/-- `ExtMergeSort<incAuth>(vec, heapSize, inAuth)`. -/
def sortVec (incAuth : Bool) (heapSize inAuth : Nat) (v : NonCachedVector.Vector m α) :
    Except Abort (NonCachedVector.Vector m α) :=
  A.ExtMergeSort incAuth heapSize inAuth 0 v.N v

end Surroundings

end EM.Algorithm.MergeVector
