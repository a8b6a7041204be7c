import OblSort.Algorithm.KWayButterflySort
import OblSort.Algorithm.KWayDistriSort
import OblSort.Algorithm.PagePermReader

/-!
# Sorting a vector by distribution

The rest of `algorithm/kway_distri_sort.hpp`: `sampleForPivots`, the constructor of
`KWayDistriSorter` with its reader of the input vector and its writer to the same vector, and
`KWayDistriSort(begin, end, inAuth, heapSize)`.

`PageOp`s are the operations on the pages of the input vector, in order; the source does not keep
them. A `PrefetchReader` is a plain `Reader` here: it returns the same and reads the same pages with
the same counter. What the source computes with floating point (`SampleParams`), the search for the
parameters of a sort and the external sort of a sample that does not fit in memory are given from
outside.
-/

namespace EM.Algorithm

open NonCachedVector Paged Loop

/-! ## Samples -/

/-- The numbers that a sampling rate, a slack and a memory size give. -/
structure SampleParams where
  /-- The elements that fit in memory next to the sample. -/
  M : Nat
  expectedSampleSize : Nat
  /-- `slackSampling * alpha * M`. -/
  lenPerBatch : Nat
  deriving Repr, DecidableEq

section Sample

variable {α : Type}

/-- `realData` for every element of the input, tagged with `count`. -/
def sampleBlocks (input : List α) : List (Block α) :=
  input.zipIdx.map fun (data, count) => Block.setData data (BitVec.ofNat 32 count) false

/-- Whether an element is chosen: `UniformRandom(1, N)` is at most `expectedSampleSize`. -/
def isChosen (N expectedSampleSize : Nat) (r : BitVec 64) : Bool :=
  r.toNat % N + 1 ≤ expectedSampleSize

/-- What is put in memory for every element: its block if it is chosen, else `dummy`. -/
def sampleEntries (dummy : Block α) (N expectedSampleSize : Nat) (rand64 : Nat → BitVec 64)
    (input : List α) : List (Block α) :=
  (sampleBlocks input).zipIdx.map fun (realData, i) =>
    if isChosen N expectedSampleSize (rand64 i) then realData else dummy

/-- The loop over the batches: the front of each, compacted, goes to `Gamma`. The result is `Gamma`
up to `outIt`, and `Mem`. -/
def sampleBatches (M lenPerBatch : Nat) : (numBatch : Nat) → (entries Gamma Mem : List (Block α)) →
    List (Block α) × List (Block α)
  | 0, _, Gamma, Mem => (Gamma, Mem)
  | numBatch + 1, entries, Gamma, Mem =>
    let batch := orCompact (fun x => !x.dummyFlag) (entries.take M)
    sampleBatches M lenPerBatch numBatch (entries.drop M)
      (Gamma ++ batch.take (min batch.length lenPerBatch)) (batch ++ Mem.drop batch.length)

/-- `getPQuantile` of the first `n` elements. `size_t` wraps around at `2 ^ 64`. -/
def getPQuantile (xs : List (Block α)) (n p : Nat) : Option (List (Block α)) :=
  (List.range' 1 (p - 1)).mapM fun k => xs[n * k % 2 ^ 64 / p]?

/-- `KWayButterflySort(Gamma.begin(), outIt, 0, M * sizeof(Block<T>))`, with the draws for the tags;
`none` if it aborts. -/
def sortGamma [SortKey α] (A : Platform (Block α)) (params : KWayButterflyParams) (M : Nat)
    (batch vec : Nat → List (TaggedT (Block α))) (rand64 : Nat → BitVec 64)
    (Gamma : List (Block α)) : Option (List (Block α)) :=
  (KWayButterflySort A (EM.DynamicPageVector.Vector.plain _) params (M * A.sizeofT) batch vec
    (Gamma.zipIdx.map fun (x, i) => (rand64 i, x))).toOption

/-- `sampleForPivots` of what its reader returns. `Mem` is the memory as it is allocated, and
`gammaSort` the sort of a sample that does not fit in it. -/
def sampleForPivots [SortKey α] (P : SampleParams) (dummy : Block α) (Mem : List (Block α))
    (gammaSort : List (Block α) → Option (List (Block α))) (rand64 : Nat → BitVec 64)
    (input : List α) (p : Nat) : Option (List (Block α)) :=
  let N := input.length
  let entries := sampleEntries dummy N P.expectedSampleSize rand64 input
  let sampleSize := (List.range N).countP fun i => isChosen N P.expectedSampleSize (rand64 i)
  let (Gamma, Mem) := sampleBatches P.M P.lenPerBatch (divRoundUp N P.M) entries [] Mem
  if Gamma.length < P.M then
    getPQuantile (bitonicSortList Block.lt Gamma ++ Mem.drop Gamma.length) sampleSize p
  else (gammaSort Gamma).bind fun sorted => getPQuantile sorted sampleSize p

end Sample

/-! ## Reader and writer -/

/-- An operation on a page, with its counter. -/
inductive PageOp
  | read (pageIdx counter : Nat)
  | write (pageIdx counter : Nat)
  deriving Repr, DecidableEq

/-- `inputReader`, by `preshuffled`. -/
inductive InputReader (n m : Nat) (α : Type)
  | prefetch (r : Reader n α)
  | pagePerm (r : PagePermReader n m α)

/-- The input vector with the reader and the writer of a sorter, and what `flush` writes past the
last element. -/
structure SorterVector (n m : Nat) (α : Type) where
  vec : NonCachedVector.Vector n α
  inputReader : InputReader n m α
  outputWriter : Writer n α
  originalPage : Page n α
  log : List PageOp

variable {n m m' : Nat} [NeZero n] [NeZero m] [NeZero m'] {α : Type}

namespace InputReader

def eof : InputReader n m α → Bool
  | .prefetch r => r.eof
  | .pagePerm r => r.eof

/-- The pages that a fetch of `count` pages from `pageIdx` on asks for. -/
def requested : (count pageIdx : Nat) → PagePermReader n m α → List Nat
  | 0, _, _ => []
  | count + 1, pageIdx, r =>
    match r.translatePageIdx pageIdx with
    | none => []
    | some r => r.translatedPageIdx :: requested count (pageIdx + 1) r

/-- The page reads of the next `read()`. -/
def fetches (onDisk : Bool) : InputReader n m α → List PageOp
  | .prefetch r => if r.outOfPage then [.read (r.it / n) r.counter] else []
  | .pagePerm r =>
    if r.curr.all (PagePermReader.cacheCapacity onDisk * n ≤ ·) then
      (requested (r.cachePageEndIdx onDisk (r.it / n) - r.it / n) (r.it / n) r).map
        (.read · r.counter)
    else []

/-- `read()`, with what `getLastIdx()` is after it; a plain reader has none. -/
def read (onDisk : Bool) (v : NonCachedVector.Vector n α) :
    InputReader n m α → Option ((α × Nat) × InputReader n m α)
  | .prefetch r => (r.read v).map fun (x, r) => ((x, 0), .prefetch r)
  | .pagePerm r => (r.read onDisk v).map fun (x, r) => ((x, r.getLastIdx), .pagePerm r)

end InputReader

/-- The page written by the next `write`. -/
def writes (w : Writer n α) : List PageOp :=
  if w.curr + 1 = n then [.write ((w.it + 1) / n - 1) w.counter] else []

/-- The operations of `flush()`. -/
def flushes (w : Writer n α) (N : Nat) : List PageOp :=
  if w.it % n ≠ 0 then
    (if w.it ≠ N ∧ w.counter = 0 then [.read (w.it / n) w.counter] else []) ++
      [.write (w.it / n) w.counter]
  else []

/-- The input and the output of a sorter, in a build with or without `DISK_IO`. -/
def sorterVector (onDisk : Bool) : IOVector (SorterVector n m α) α where
  eof io := io.inputReader.eof
  read io :=
    let log := io.log ++ io.inputReader.fetches onDisk
    match io.inputReader.read onDisk io.vec with
    | none => .error { io with log }
    | some (x, inputReader) => .ok (x, { io with inputReader, log })
  write x io :=
    let (outputWriter, vec) := io.outputWriter.write x io.vec
    { io with vec, outputWriter, log := io.log ++ writes io.outputWriter }
  flush io :=
    let log := io.log ++ flushes io.outputWriter io.vec.N
    match io.outputWriter.flush io.originalPage io.vec with
    | none => .error { io with log }
    | some vec => .ok { io with vec, log }

/-! ## The constructor -/

/-- What a sort takes from its surroundings: the build, the parameters that the search gives, and
memory as it happens to be. -/
structure Surroundings (n m m' : Nat) (α : Type) where
  onDisk : Bool
  distriParams : DistriParams
  sampleParams : SampleParams
  dummy : Block α
  gammaSort : List (Block α) → Option (List (Block α))
  tagOrder : TagOrder
  uninit : Uninit m m'
  cache : Nat → Page n α
  Mem : List (Block α)
  inputCount : BitVec 64
  /-- The draws for the permutation of the pages. -/
  pageRand64 : Nat → BitVec 64
  /-- The draws of `sampleForPivots`. -/
  sampleRand64 : Nat → BitVec 64

/-- `count` elements read one after the other, with the page reads that were made. -/
def readInput (v : NonCachedVector.Vector n α) : (count : Nat) → Reader n α →
    List PageOp × Option (List α)
  | 0, _ => ([], some [])
  | count + 1, r =>
    let ops : List PageOp := if r.outOfPage then [.read (r.it / n) r.counter] else []
    match r.read v with
    | none => (ops, none)
    | some (x, r) =>
      let (rest, xs) := readInput v count r
      (ops ++ rest, xs.map (x :: ·))

/-- The page read by `init` of a writer. -/
def initOps (n beginPtr counter : Nat) : List PageOp :=
  if beginPtr % n ≠ 0 ∧ beginPtr ≠ 0 then [.read (beginPtr / n) counter] else []

namespace Surroundings

variable (A : Surroundings n m m' α)

/-- The constructor of `inputReader`. -/
def inputReader (preshuffled : Bool) (beginPtr endPtr inAuth heapSize : Nat) :
    Option (InputReader n m α) :=
  if preshuffled then some (.prefetch (Reader.new (A.cache 0) beginPtr endPtr inAuth))
  else (PagePermReader.new A.tagOrder A.pageRand64 A.uninit A.cache beginPtr endPtr
    inAuth heapSize).map .pagePerm

/-- The constructor of the sorter, and the state of its input and output. The samples are read by a
reader of their own, which is given no counter. -/
def construct [SortKey α] (preshuffled : Bool) (v : NonCachedVector.Vector n α)
    (beginPtr endPtr inAuth heapSize : Nat) :
    Except (DistriAbort × List PageOp) (KWayDistriSorter α × SorterVector n m α) :=
  match A.inputReader preshuffled beginPtr endPtr inAuth heapSize with
  | none => .error (.inputOutput, [])
  | some inputReader =>
    match readInput v (endPtr - beginPtr) (Reader.new (A.cache 0) beginPtr endPtr 0) with
    | (log, none) => .error (.inputOutput, log)
    | (log, some input) =>
      match sampleForPivots A.sampleParams A.dummy A.Mem A.gammaSort A.sampleRand64 input
        A.distriParams.totalPartition with
      | none => .error (.pivot, log)
      | some allPivots =>
        let log := log ++ initOps n beginPtr ((inAuth + 1) % 2 ^ 32)
        match Writer.init (A.cache 0) beginPtr endPtr ((inAuth + 1) % 2 ^ 32) v with
        | none => .error (.inputOutput, log)
        | some outputWriter =>
          .ok (.new preshuffled A.distriParams (endPtr - beginPtr) allPivots,
            ⟨v, inputReader, outputWriter, A.cache 0, log⟩)

/-- The sort of `KWayDistriSort(begin, end, inAuth, heapSize)` when the input does not fit in
memory. -/
def externalSort [SortKey α] {σ : Type} (V : EM.DynamicPageVector.Vector σ (List (Block α)))
    (batchUninit : Nat → Nat → List (Block α)) (vec : σ) (preshuffled : Bool)
    (v : NonCachedVector.Vector n α) (beginPtr endPtr inAuth heapSize : Nat) :
    Except (DistriAbort × List PageOp) (SorterVector n m α) :=
  match A.construct preshuffled v beginPtr endPtr inAuth heapSize with
  | .error e => .error e
  | .ok (S, io) =>
    match S.sort (sorterVector A.onDisk) V batchUninit (.start io A.inputCount vec) with
    | .error (abort, s) => .error (abort, s.io.log)
    | .ok s => .ok s.io

/-- `KWayDistriSort(begin, end, inAuth, heapSize)`, for a vector without random access. -/
def KWayDistriSort [SortKey α] {σ : Type} (V : EM.DynamicPageVector.Vector σ (List (Block α)))
    (batchUninit : Nat → Nat → List (Block α)) (vec : σ) (sizeofT : Nat) (preshuffled : Bool)
    (v : NonCachedVector.Vector n α) (beginPtr endPtr inAuth heapSize : Nat) :
    Except DistriAbort (NonCachedVector.Vector n α) :=
  if endPtr - beginPtr ≤ heapSize / sizeofT then
    match copyIn beginPtr endPtr inAuth v with
    | none => .error .inputOutput
    | some (Mem, v) =>
      match copyOut (bitonicSortList SortKey.lt Mem) beginPtr ((inAuth + 1) % 2 ^ 32) v with
      | none => .error .inputOutput
      | some v => .ok v
  else
    match A.externalSort V batchUninit vec preshuffled v beginPtr endPtr inAuth heapSize with
    | .error (abort, _) => .error abort
    | .ok io => .ok io.vec

/-- `KWayDistriSort(vec, inAuth, heapSize)`, which leaves `preshuffled` at its default. -/
def sortVec [SortKey α] {σ : Type} (V : EM.DynamicPageVector.Vector σ (List (Block α)))
    (batchUninit : Nat → Nat → List (Block α)) (vec : σ) (sizeofT : Nat)
    (v : NonCachedVector.Vector n α) (inAuth heapSize : Nat) :
    Except DistriAbort (NonCachedVector.Vector n α) :=
  A.KWayDistriSort V batchUninit vec sizeofT true v 0 v.N inAuth heapSize

end Surroundings

end EM.Algorithm
