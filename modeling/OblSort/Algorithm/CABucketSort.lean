import OblSort.Algorithm.Bitonic
import OblSort.Algorithm.PagePermReader
import OblSort.Lib.Loop
import OblSort.Lib.Store

/-!
# The cache-agnostic bucket shuffle

`algorithm/ca_bucket_sort.hpp`: the input is tagged at random and padded to buckets of `Z` elements,
a butterfly network routes every element to the bucket that the top bits of its tag name, and the
buckets are sorted by their tags. Here the dummy flag of a `TaggedT` is the least significant bit of
its tag.

The recursions `butterflyRouting` and `externalButterflyRouting` are the same but for the vectors
they run on and for where they end: both are `routing`. Vectors are numbered in the order of their
construction, and an iterator is the number of a vector with a position. A failed assertion is an
abort, as in a build without `NDEBUG`. What a shuffle reads and what it gives its writer are lists:
a `StdVector` takes an element when it is written, and the writer of a paged vector is that of
`CABucketVector`. `Z` is a parameter; the source fixes it to 512.
-/

namespace EM.Algorithm.CABucketSort

open Loop Store Paged NonCachedVector

/-- How a shuffle stops early. -/
inductive Abort
  /-- A bucket gets more than `Z` real elements. -/
  | overflow
  /-- The tags of the output decrease. -/
  | order
  /-- A page fails to authenticate, or an access is out of range. -/
  | access
  /-- The recursion does not end. -/
  | noReturn
  deriving Repr, DecidableEq

variable {α : Type}

/-- `element.tag & 1UL`. -/
def dummyFlag (x : TaggedT α) : Bool := x.tag &&& 1 != 0

/-- A failed access of a vector ends the shuffle. -/
def orAbort {β : Type} (result : Option β) : Except Abort β := result.elim (.error .access) .ok

/-! ## Bin packing -/

/-- The padding with `Z` elements for each of the buckets. -/
def fillers [Inhabited α] (numBucket Z : Nat) (baseMask : BitVec 64) : List (TaggedT α) :=
  gather numBucket fun i => List.replicate Z ⟨BitVec.ofNat 64 i * baseMask + 1, default⟩

/-- The loop that marks the elements of a bucket beyond the first `Z`. -/
def markExcess (Z : Nat) (rangeMask : BitVec 64) : (count : Nat) → (curr : BitVec 64) →
    List (TaggedT α) → Except Abort (List (TaggedT α))
  | _, _, [] => .ok []
  | count, curr, element :: rest =>
    let newCurr := element.tag &&& rangeMask
    let count := if newCurr ≠ curr then 0 else count
    if count ≥ Z ∧ dummyFlag element = false then .error .overflow
    else
      let marked := if count ≥ Z then { element with tag := -1 } else element
      (markExcess Z rangeMask (count + 1) newCurr rest).map (marked :: ·)

/-- `cmpTag` of `binPacking`. -/
def cmpMasked (mask : BitVec 64) (a b : TaggedT α) : Bool := (a.tag &&& mask).ult (b.tag &&& mask)

/-- `binPacking` of the elements of a range: what it writes to the output. -/
def binPacking [Inhabited α] (Z : Nat) (bitMask : BitVec 64) (elements : List (TaggedT α)) :
    Except Abort (List (TaggedT α)) :=
  let size := elements.length
  let numBucket := size / Z
  let logNumBucket := getLogBaseTwo numBucket
  let baseMask := (bitMask >>> logNumBucket) <<< 1
  let rangeMask := baseMask * BitVec.ofNat 64 (numBucket - 1)
  let rangeMaskWithDummyFlag := rangeMask + 1
  let temp := elements ++ fillers numBucket Z baseMask
  let temp := bitonicSortList (cmpMasked rangeMaskWithDummyFlag) temp
  (markExcess Z rangeMask 0 0 temp).map fun temp =>
    (bitonicSortList (cmpMasked rangeMaskWithDummyFlag) temp).take size

/-! ## Bin packing with `NDEBUG` -/

/-- The marking loop without its assertion. -/
def markExcessRelease (Z : Nat) (rangeMask : BitVec 64) :
    (count : Nat) → (curr : BitVec 64) → List (TaggedT α) → List (TaggedT α)
  | _, _, [] => []
  | count, curr, element :: rest =>
    let newCurr := element.tag &&& rangeMask
    let count := if newCurr ≠ curr then 0 else count
    let marked := if count ≥ Z then { element with tag := -1 } else element
    marked :: markExcessRelease Z rangeMask (count + 1) newCurr rest

def binPackingRelease [Inhabited α] (Z : Nat) (bitMask : BitVec 64) (elements : List (TaggedT α)) :
    List (TaggedT α) :=
  let size := elements.length
  let numBucket := size / Z
  let logNumBucket := getLogBaseTwo numBucket
  let baseMask := (bitMask >>> logNumBucket) <<< 1
  let rangeMask := baseMask * BitVec.ofNat 64 (numBucket - 1)
  let rangeMaskWithDummyFlag := rangeMask + 1
  let temp := elements ++ fillers numBucket Z baseMask
  let temp := bitonicSortList (cmpMasked rangeMaskWithDummyFlag) temp
  let temp := markExcessRelease Z rangeMask 0 0 temp
  (bitonicSortList (cmpMasked rangeMaskWithDummyFlag) temp).take size

/-! ## Routing -/

/-- The vectors of one kind. -/
structure Vectors (V β : Type) where
  /-- The constructor, of the vector with this number. -/
  new : (number size : Nat) → V
  copyIn : (beginPtr endPtr : Nat) → V → Option (List β × V)
  copyOut : (src : List β) → (toPtr : Nat) → V → Option V

/-- All vectors that have been constructed. -/
structure Heap (V : Type) where
  allocated : Nat
  vecs : Nat → V

structure Iter where
  vec : Nat
  ptr : Nat
  deriving Repr, DecidableEq

/-- `it + n`. -/
def Iter.add (it : Iter) (n : Nat) : Iter := { it with ptr := it.ptr + n }

variable {V β : Type} (K : Vectors V β)

namespace Heap

/-- The constructor of a vector; its number is `allocated`. -/
def alloc (size : Nat) (h : Heap V) : Heap V :=
  ⟨h.allocated + 1, Function.update h.vecs h.allocated (K.new h.allocated size)⟩

/-- `CopyIn(begin, begin + size, dest)`. -/
def copyIn (begin : Iter) (size : Nat) (h : Heap V) : Except Abort (List β × Heap V) :=
  match K.copyIn begin.ptr (begin.ptr + size) (h.vecs begin.vec) with
  | none => .error .access
  | some (xs, v) => .ok (xs, { h with vecs := Function.update h.vecs begin.vec v })

/-- `CopyOut(begin, end, dest)`. -/
def copyOut (src : List β) (dest : Iter) (h : Heap V) : Except Abort (Heap V) :=
  match K.copyOut src dest.ptr (h.vecs dest.vec) with
  | none => .error .access
  | some v => .ok { h with vecs := Function.update h.vecs dest.vec v }

/-- A copy of `Z` elements. -/
def copy (Z : Nat) (begin dest : Iter) (h : Heap V) : Except Abort (Heap V) :=
  h.copyIn K begin Z >>= fun (temp, h) => h.copyOut K temp dest

end Heap

/-- Both recursions: a range of a `size` with `isLeaf` is routed by `leaf`. The recursion halves the
number of layers, so one that has not ended after 64 calls does not end. -/
def routing (Z : Nat) (isLeaf : (size : Nat) → Bool)
    (leaf : (begin : Iter) → (size : Nat) → (outputBegin : Iter) → (bitMask : BitVec 64) →
      Heap V → Except Abort (Heap V)) :
    (fuel : Nat) → (begin : Iter) → (size : Nat) → (outputBegin : Iter) → (bitMask : BitVec 64) →
      Heap V → Except Abort (Heap V)
  | 0, _, _, _, _, _ => .error .noReturn
  | fuel + 1, begin, size, outputBegin, bitMask, h =>
    if isLeaf size then leaf begin size outputBegin bitMask h
    else
      let numLayer := getLogBaseTwo (size / Z)
      let halfNumLayer := numLayer / 2
      let numBucketPerBatch := 2 ^ halfNumLayer
      let batchSize := Z * numBucketPerBatch
      let batchCount := size / batchSize
      let nextLayer : Iter := ⟨h.allocated, 0⟩
      let nextLayerBucketPerBatch := 2 ^ (numLayer - halfNumLayer)
      let nextLayerBatchSize := nextLayerBucketPerBatch * Z
      let nextLayerBatchCount := size / nextLayerBatchSize
      forRange batchCount (fun batchIdx h =>
        let batchBegin := begin.add (batchIdx * batchSize)
        routing Z isLeaf leaf fuel batchBegin batchSize batchBegin bitMask h >>=
        forRange numBucketPerBatch fun bucketIdx h =>
          h.copy K Z (batchBegin.add (bucketIdx * Z))
            (nextLayer.add (bucketIdx * size % 2 ^ 64 / numBucketPerBatch + batchIdx * Z)))
        (h.alloc K size) >>=
      forRange nextLayerBatchCount fun batchIdx h =>
        routing Z isLeaf leaf fuel (nextLayer.add (batchIdx * nextLayerBatchSize))
        nextLayerBatchSize
          (outputBegin.add (batchIdx * nextLayerBatchSize)) (bitMask >>> halfNumLayer) h

/-- How deep a recursion that ends can go. -/
def maxDepth : Nat := 64

section

variable [Inhabited α]

/-! ### In memory -/

/-- `StdVector`. -/
def stdVectors : Vectors (List (TaggedT α)) (TaggedT α) where
  new _ size := List.replicate size ⟨0, default⟩
  copyIn beginPtr endPtr v :=
    if endPtr ≤ v.length then some ((v.drop beginPtr).take (endPtr - beginPtr), v) else none
  copyOut src toPtr v := if toPtr + src.length ≤ v.length then some (splice v toPtr src) else none

/-- `binPacking(begin, begin + size, outputBegin, Z, bitMask)`. -/
def packRange (Z : Nat) (begin : Iter) (size : Nat) (outputBegin : Iter) (bitMask : BitVec 64)
    (h : Heap (List (TaggedT α))) : Except Abort (Heap (List (TaggedT α))) :=
  h.copyIn stdVectors begin size >>= fun (elements, h) =>
  binPacking Z bitMask elements >>= fun packed => h.copyOut stdVectors packed outputBegin

def butterflyRouting (Z gamma : Nat) :
    (begin : Iter) → (size : Nat) → (outputBegin : Iter) → (bitMask : BitVec 64) →
      Heap (List (TaggedT α)) → Except Abort (Heap (List (TaggedT α))) :=
  routing stdVectors Z (fun size => size / Z ≤ gamma) (packRange Z) maxDepth

/-- `butterflyRouting` of a whole vector in place. -/
def routeInPlace (Z gamma : Nat) (bitMask : BitVec 64) (mem : List (TaggedT α)) :
    Except Abort (List (TaggedT α)) :=
  (butterflyRouting Z gamma ⟨0, 0⟩ mem.length ⟨0, 0⟩ bitMask ⟨1, fun _ => mem⟩).map
    fun h => h.vecs 0

/-! ### In external memory -/

variable {n : Nat} [NeZero n]

/-- What the memory of the vectors and of a writer holds before it is written, and the nonces of the
vectors. -/
structure Uninit (n : Nat) (α : Type) where
  page : (number : Nat) → Page n (TaggedT α)
  nounce : (number : Nat) → Nounce
  writerCache : Page n (TaggedT α)
  originalPage : Page n (TaggedT α)

/-- `NonCachedVector::Vector`, copied with the counter 0. -/
def extVectors (U : Uninit n α) : Vectors (NonCachedVector.Vector n (TaggedT α)) (TaggedT α) where
  new number size := newVector (U.nounce number) (U.page number) size
  copyIn beginPtr endPtr v := NonCachedVector.copyIn beginPtr endPtr 0 v
  copyOut src toPtr v := NonCachedVector.copyOut src toPtr 0 v

/-- Whether a range of this size is routed in memory. -/
def fitsInMemory (Z sizeofTaggedT heapSize size : Nat) : Bool :=
  (size * 2 + getLogBaseTwo size * Z) * sizeofTaggedT % 2 ^ 64 ≤ heapSize

/-- The part of `externalButterflyRouting` that routes in memory. -/
def routeInMemory (U : Uninit n α) (Z : Nat) (begin : Iter) (size : Nat) (outputBegin : Iter)
    (bitMask : BitVec 64) (h : Heap (NonCachedVector.Vector n (TaggedT α))) :
    Except Abort (Heap (NonCachedVector.Vector n (TaggedT α))) :=
  h.copyIn (extVectors U) begin size >>= fun (mem, h) =>
  routeInPlace Z (getLogBaseTwo size) bitMask mem >>= fun mem =>
  h.copyOut (extVectors U) mem outputBegin

def externalButterflyRouting (U : Uninit n α) (Z sizeofTaggedT heapSize : Nat) :
    (begin : Iter) → (size : Nat) → (outputBegin : Iter) → (bitMask : BitVec 64) →
      Heap (NonCachedVector.Vector n (TaggedT α)) →
      Except Abort (Heap (NonCachedVector.Vector n (TaggedT α))) :=
  routing (extVectors U) Z (fitsInMemory Z sizeofTaggedT heapSize) (routeInMemory U Z) maxDepth

end

/-! ## Tag and pad -/

/-- The random draws, and what the elements of the padding hold. -/
structure Draws (α : Type) where
  rand64 : Nat → BitVec 64
  uninit : Nat → α

/-- `count` elements of a bucket from `offset` on, with what is left of the input. `slot` draws have
been made before. -/
def tagSlots (D : Draws α) (numRealPerBucket : Nat) : (count offset slot : Nat) → (input : List α) →
    List (TaggedT α) × List α
  | 0, _, _, input => ([], input)
  | count + 1, offset, slot, input =>
    let tag := D.rand64 slot &&& -2
    let (tt, input) : TaggedT α × List α :=
      if offset < numRealPerBucket then
        match input with
        | x :: input => (⟨tag, x⟩, input)
        | [] => (⟨tag ||| 1, D.uninit slot⟩, [])
      else (⟨tag ||| 1, D.uninit slot⟩, input)
    let (rest, input) := tagSlots D numRealPerBucket count (offset + 1) (slot + 1) input
    (tt :: rest, input)

/-- `count` buckets. -/
def tagBuckets (D : Draws α) (Z numRealPerBucket : Nat) : (count slot : Nat) → (input : List α) →
    List (TaggedT α)
  | 0, _, _ => []
  | count + 1, slot, input =>
    let (bucket, input) := tagSlots D numRealPerBucket Z 0 slot input
    bucket ++ tagBuckets D Z numRealPerBucket count (slot + Z) input

/-- `intermidiateSize`. -/
def intermediateSize (Z inputSize : Nat) : Nat := max (getNextPowerOfTwo (2 * inputSize)) Z

/-- `tagAndPadInternal`, and the elements that `tagAndPad` writes. -/
def tagAndPadInternal (D : Draws α) (Z : Nat) (input : List α) : List (TaggedT α) :=
  let numBucket := intermediateSize Z input.length / Z
  let numRealPerBucket := divRoundUp input.length numBucket
  tagBuckets D Z numRealPerBucket numBucket 0 input

/-- A new vector with the elements that a writer is given. -/
def writeTagged {n : Nat} [NeZero n] (U : Uninit n α) (size : Nat) (elements : List (TaggedT α)) :
    Option (NonCachedVector.Vector n (TaggedT α)) :=
  let tv := newVector (U.nounce 0) (U.page 0) size
  (Writer.init U.writerCache 0 tv.N 0 tv).bind fun taggedTWriter =>
  let (taggedTWriter, tv) := taggedTWriter.writeMany elements tv
  taggedTWriter.flush U.originalPage tv

/-- `tagAndPad`. -/
def tagAndPad {n : Nat} [NeZero n] (U : Uninit n α) (D : Draws α) (Z : Nat) (input : List α) :
    Option (NonCachedVector.Vector n (TaggedT α)) :=
  writeTagged U (intermediateSize Z input.length) (tagAndPadInternal D Z input)

/-! ## The shuffles -/

/-- `a.tag < b.tag`. -/
def tagLess (a b : TaggedT α) : Bool := a.tag.ult b.tag

/-- The loop over a sorted bucket, on `prev` and what is written so far. The assertion sets `prev`
to `element.tag || true`, which is 1. -/
def writeBucket : (bucket : List (TaggedT α)) → (prev : BitVec 64) → (written : List α) →
    Except Abort (BitVec 64 × List α)
  | [], prev, written => .ok (prev, written)
  | element :: bucket, prev, written =>
    if dummyFlag element then writeBucket bucket prev written
    else if element.tag.ult prev then .error .order
    else writeBucket bucket 1 (written ++ [element.v])

section

variable [Inhabited α]

/-- What `CABucketShuffleInternal` gives its writer. -/
def shuffleInternalOutput (Z : Nat) (D : Draws α) (input : List α) : Except Abort (List α) :=
  let tv := tagAndPadInternal D Z input
  routeInPlace Z (getLogBaseTwo tv.length) (1#64 <<< 63) tv >>= fun tv =>
  (forRange (tv.length / Z) (fun bucketIdx (prev, written) =>
    writeBucket (bitonicSortList tagLess ((tv.drop (bucketIdx * Z)).take Z)) prev written)
    ((0, []) : BitVec 64 × List α)).map Prod.snd

variable {n : Nat} [NeZero n]

/-- One bucket of the output, on the vector and the state of `writeBucket`. -/
def outputBucket (Z bucketIdx : Nat)
    (s : NonCachedVector.Vector n (TaggedT α) × BitVec 64 × List α) :
    Except Abort (NonCachedVector.Vector n (TaggedT α) × BitVec 64 × List α) :=
  match NonCachedVector.copyIn (bucketIdx * Z) ((bucketIdx + 1) * Z) 0 s.1 with
  | none => .error .access
  | some (temp, tv) =>
    (writeBucket (bitonicSortList tagLess temp) s.2.1 s.2.2).map fun state => (tv, state)

/-- What is written, once `tv` is there. -/
def routeAndOutput (U : Uninit n α) (Z sizeofTaggedT heapSize : Nat)
    (tv : NonCachedVector.Vector n (TaggedT α)) : Except Abort (List α) :=
  externalButterflyRouting U Z sizeofTaggedT heapSize ⟨0, 0⟩ tv.N ⟨0, 0⟩ (1#64 <<< 63)
    ⟨1, fun _ => tv⟩ >>= fun h =>
  (forRange (tv.N / Z) (outputBucket Z) (h.vecs 0, 0, [])).map fun s => s.2.2

/-- What `CABucketShuffle` gives its writer. -/
def shuffleOutput (U : Uninit n α) (Z sizeofTaggedT heapSize : Nat) (D : Draws α)
    (input : List α) : Except Abort (List α) :=
  orAbort (tagAndPad U D Z input) >>= routeAndOutput U Z sizeofTaggedT heapSize

end

end EM.Algorithm.CABucketSort
