import OblSort.Algorithm.DistriVector
import OblSort.Algorithm.Instrumented
import OblSort.Algorithm.KWayButterflySort

/-!
# The accesses of a butterfly shuffle

The functions of `ButterflySorter` once more, for the task `KWAYBUTTERFLYOSHUFFLE`, recording what
an observer of the memory and of the storage sees: every access to a place of the buffer `batch` or
of the temporary arrays, every page that is copied in or out, and every call of the reader and of
the writer. Bucket `p` of the buffer is the array `.bucket p`.

A function with the suffix `T` has the result of the function without it. A merge-split that stops
early leaves no record of its own.
-/

namespace EM.Algorithm

open EM.DynamicPageVector Loop Trace Traced

/-- What is seen of a shuffle. -/
inductive Event
  | access (a : Access)
  /-- `CopyIn` of a page to bucket `p` of the buffer, or `CopyOut` from it. -/
  | transfer (op : PageOp) (p : Nat)
  /-- `inputReader.read()`. -/
  | input
  /-- `outputWriter.write()`. -/
  | output
  deriving DecidableEq, Repr

/-- The place in the buffer, when the range a function works on begins with bucket `p`, and its
bucket `j` is at `idx j`. -/
def Loc.at (p : Nat) (idx : Nat → Nat) (l : Loc) : Loc :=
  match l.arr with
  | .data => ⟨.bucket p, l.idx⟩
  | .bucket j => ⟨.bucket (idx j), l.idx⟩
  | _ => l

def Access.at (p : Nat) (idx : Nat → Nat) : Access → Access
  | .read l => .read (l.at p idx)
  | .write l => .write (l.at p idx)
  | .swap l r => .swap (l.at p idx) (r.at p idx)
  | .condSwap l r => .condSwap (l.at p idx) (r.at p idx)

namespace ButterflySorter

variable {α σ : Type} (S : ButterflySorter)

/-- A state with the events so far. -/
abbrev Logged (α σ : Type) := State α σ × List Event

/-- A part of the sort that records, and what it makes of the state. -/
def perform {β : Type} (c : Traced Event β) (f : β → State α σ → State α σ) (s : Logged α σ) :
    Except (Abort × Logged α σ) (Logged α σ) :=
  match c with
  | none => .error (.mergeSplit, s)
  | some (b, es) => .ok (f b s.1, s.2 ++ es)

def tagAndPadT (numRealPerBucket p : Nat) : (offset : Nat) → List (TaggedT α) →
    List (BitVec 64 × α) → Traced Event (List (TaggedT α) × List (BitVec 64 × α))
  | _, [], reader => pure ([], reader)
  | offset, it :: its, [] => do
    record (.access (.read ⟨.bucket p, offset⟩))
    record (.access (.write ⟨.bucket p, offset⟩))
    let rest ← tagAndPadT numRealPerBucket p (offset + 1) its []
    pure (it.setDummy :: rest.1, rest.2)
  | offset, it :: its, (r, data) :: reader =>
    if offset < numRealPerBucket then do
      record .input
      record (.access (.write ⟨.bucket p, offset⟩))
      let rest ← tagAndPadT numRealPerBucket p (offset + 1) its reader
      pure (TaggedT.setData r data :: rest.1, rest.2)
    else do
      record (.access (.read ⟨.bucket p, offset⟩))
      record (.access (.write ⟨.bucket p, offset⟩))
      let rest ← tagAndPadT numRealPerBucket p (offset + 1) its ((r, data) :: reader)
      pure (it.setDummy :: rest.1, rest.2)

def padBucketT (p : Nat) (s : Logged α σ) : Except (Abort × Logged α σ) (Logged α σ) :=
  perform (tagAndPadT S.numRealPerBucket p 0 (s.1.batch p) s.1.reader)
    (fun r s => { s with batch := Function.update s.batch p r.1, reader := r.2 }) s

def padBucketsT (ioLayer begin way wayBucket : Nat) (s : Logged α σ) :
    Except (Abort × Logged α σ) (Logged α σ) :=
  if ioLayer = 0 then forRange way (fun i => S.padBucketT (begin + i * wayBucket)) s else .ok s

def mergeSplitAtT (way : Nat) (idx : Nat → Nat) (s : Logged α σ) :
    Except (Abort × Logged α σ) (Logged α σ) :=
  perform ((mergeSplitKWayT way S.Z ((List.range way).map fun i => s.1.batch (idx i))).relabel
    fun a =>
      .access (a.at 0 idx))
    (fun out s => { s with batch := Store.putAll idx (fun i => out.getD i []) way s.batch }) s

def mergeSplitLayerT (begin way wayBucket : Nat) :
    Logged α σ → Except (Abort × Logged α σ) (Logged α σ) :=
  forRange wayBucket fun j => S.mergeSplitAtT way fun i => begin + i * wayBucket + j

def KWayButterflySortBasicT (ioLayer : Nat) : (innerLayer : Nat) → (begin numBucket : Nat) →
    Logged α σ → Except (Abort × Logged α σ) (Logged α σ)
  | 0, begin, numBucket, s => do
    let way := (S.waysOf ioLayer).getD 0 0
    let wayBucket := numBucket / way
    let s ← S.padBucketsT ioLayer begin way wayBucket s
    S.mergeSplitLayerT begin way wayBucket s
  | innerLayer + 1, begin, numBucket, s => do
    let way := (S.waysOf ioLayer).getD (innerLayer + 1) 0
    let wayBucket := numBucket / way
    let s ← forRange way (fun i =>
      KWayButterflySortBasicT ioLayer innerLayer (begin + i * wayBucket) wayBucket) s
    S.mergeSplitLayerT begin way wayBucket s

/-- The loop that writes out the real elements of bucket `p`, from the place `i` on. -/
def writeOutT (p : Nat) : (i : Nat) → List (TaggedT α) → Traced Event Unit
  | _, [] => pure ()
  | i, x :: xs => do
    record (.access (.read ⟨.bucket p, i⟩))
    if x.isDummy then pure () else do
      record (.access (.read ⟨.bucket p, i⟩))
      record .output
    writeOutT p (i + 1) xs

def tagSortT (p : Nat) (bucket : List (TaggedT α)) : Traced Event (List (TaggedT α)) := do
  let bucket ← (bitonicSortT (fun a b : TaggedT α => a.tag.ult b.tag) true bucket).relabel fun a =>
    Event.access (a.at p id)
  writeOutT p 0 bucket
  pure bucket

def outputBucketT (p : Nat) (s : Logged α σ) : Except (Abort × Logged α σ) (Logged α σ) :=
  perform (tagSortT p (s.1.batch p)) (fun bucket s => { s with
    batch := Function.update s.batch p bucket
    written := s.written ++ S.output bucket }) s

def copyInT (V : Vector σ (List (TaggedT α))) (pageIdx p counter : Nat) (s : Logged α σ) :
    Except (Abort × Logged α σ) (Logged α σ) :=
  let log := s.2 ++ [.transfer (.read pageIdx counter) p]
  match V.read pageIdx counter s.1.vec with
  | (none, vec) => .error (.authentication, ({ s.1 with vec }, log))
  | (some bucket, vec) => .ok ({ s.1 with vec, batch := Function.update s.1.batch p bucket }, log)

def copyOutT (V : Vector σ (List (TaggedT α))) (pageIdx p counter : Nat) (s : Logged α σ) :
    Except (Abort × Logged α σ) (Logged α σ) :=
  .ok ({ s.1 with vec := V.write pageIdx (s.1.batch p) counter s.1.vec },
    s.2 ++ [.transfer (.write pageIdx counter) p])

def fetchBatchT (V : Vector σ (List (TaggedT α))) (ioLayer begin batchIdx batchBegin : Nat)
    (s : Logged α σ) : Except (Abort × Logged α σ) (Logged α σ) :=
  if ioLayer = 0 then .ok s
  else forRange (getVecProduct (S.waysOf ioLayer)) (fun bucketIdx =>
    copyInT V (begin + (batchIdx + S.fetchInterval ioLayer * bucketIdx)) (batchBegin + bucketIdx)
      (ioLayer - 1)) s

def writeBatchT (V : Vector σ (List (TaggedT α))) (ioLayer begin batchIdx : Nat) :
    Logged α σ → Except (Abort × Logged α σ) (Logged α σ) :=
  forRange (getVecProduct (S.waysOf ioLayer)) fun bucketIdx =>
    copyOutT V (begin + (batchIdx + S.fetchInterval ioLayer * bucketIdx)) bucketIdx ioLayer

/-- What a shuffle does with the batch `batchIdx` at `batchBegin` in the last layer. -/
def outputBatchT (ioLayer batchIdx batchBegin : Nat) (s : Logged α σ) :
    Except (Abort × Logged α σ) (Logged α σ) :=
  let numInternalWay := getVecProduct (S.waysOf ioLayer)
  let lastBuckets := Store.putAll (fun i => batchIdx + S.fetchInterval ioLayer * i)
    (fun i => s.1.batch (batchBegin + i)) numInternalWay s.1.lastBuckets
  forRange numInternalWay (fun i => S.outputBucketT (batchBegin + i))
  ({ s.1 with lastBuckets }, s.2)

def enterBatchT (ioLayer batchIdx : Nat) :
    Logged α σ → Except (Abort × Logged α σ) (Logged α σ) :=
  require (S.InBuffer ioLayer batchIdx) .overrun

def sortBatchT (V : Vector σ (List (TaggedT α))) (ioLayer begin batchIdx : Nat) (s : Logged α σ) :
    Except (Abort × Logged α σ) (Logged α σ) := do
  let numInternalWay := getVecProduct (S.waysOf ioLayer)
  let batchBegin := batchIdx % S.batchPerEnclave ioLayer * numInternalWay
  let s ← S.enterBatchT ioLayer batchIdx s
  let s ← S.fetchBatchT V ioLayer begin batchIdx batchBegin s
  let s ← S.KWayButterflySortBasicT ioLayer ((S.waysOf ioLayer).length - 1) batchBegin
    numInternalWay s
  if S.isLastLayer ioLayer then S.outputBatchT ioLayer batchIdx batchBegin s
  else S.writeBatchT V ioLayer begin batchIdx s

def KWayButterflySortT (V : Vector σ (List (TaggedT α))) : (ioLayer : Nat) → (begin size : Nat) →
    Logged α σ → Except (Abort × Logged α σ) (Logged α σ)
  | 0, begin, size, s =>
    forRange (divRoundUp size (getVecProduct (S.waysOf 0))) (S.sortBatchT V 0 begin) s
  | ioLayer + 1, begin, size, s => do
    let numInternalWay := getVecProduct (S.waysOf (ioLayer + 1))
    let subSize := size / numInternalWay
    let s ← forRange numInternalWay (fun i =>
      KWayButterflySortT V ioLayer (begin + i * subSize) subSize) s
    forRange (divRoundUp size numInternalWay) (S.sortBatchT V (ioLayer + 1) begin) s

def newBatchT : Logged α σ → Except (Abort × Logged α σ) (Logged α σ) :=
  require (S.batchSize * S.sizeofWrappedT < 2 ^ 63) .badAlloc

def sortT (V : Vector σ (List (TaggedT α))) (s : Logged α σ) :
    Except (Abort × Logged α σ) (Logged α σ) := do
  let s ← S.newBatchT s
  S.KWayButterflySortT V (S.KWayParams.ways.length - 1) 0 S.KWayParams.totalBucket s

/-- What is seen of a run: how it ends, and the events up to there. -/
def seen : Except (Abort × Logged α σ) (Logged α σ) → Option Abort × List Event
  | .ok s => (none, s.2)
  | .error e => (some e.1, e.2.2)

end ButterflySorter

end EM.Algorithm
