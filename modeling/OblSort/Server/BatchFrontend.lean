import OblSort.Server.Frontend
import Mathlib.Data.Fin.Basic
import Mathlib.Data.List.FinRange

/-!
# The batching frontend

`NonCachedBatchServerFrontend` (`server/batchFrontend.hpp`) with `ENCRYPTED` and `AUTH` on, over the
lazy requests of `MemServerBackend` (`server/serverBackend.hpp`). A frontend keeps a ring of 16
requests that are all reads or all writes. The backend keeps a queue of reads and a queue of writes
that all frontends share; with the pointers to their states that the requests hand over, a flush of
the backend also changes the rings of other frontends.

The state is that of the whole process: all frontends `F`, the backend and the memory at the output
addresses `A`. `none` is the abort on an authentication failure. Assertions are compiled out, and a
job number does not reach the range of its 64-bit type.
-/

namespace EM

inductive PageSlotState
  | EMPTY_PAGE
  | PENDING_PAGE
  | DONE_PAGE
  deriving DecidableEq

/-- `bufferCapacity`. -/
abbrev bufferCapacity : Nat := 16

instance : NeZero bufferCapacity where
  out := by decide

/-- `maxChunkNum`. -/
def maxChunkNum : Nat := 16

/-- `sizeof(tmp)` of `Chunks`. -/
def chunksSize : Nat := 4096 * maxChunkNum

/-- What is fixed for each frontend once it is constructed: the members of its base class, and the
slot of the backend that it has been given for `numPage` pages. -/
structure Slots (F T : Type) where
  nounce : F → Nounce
  lateInit : F → Bool
  defaultVal : F → T
  base : F → Nat
  sizeOfT : F → Nat
  numPage : F → Nat
  sizeOfT_pos : ∀ f, 0 < sizeOfT f
  sizeOfT_le : ∀ f, sizeOfT f ≤ chunksSize
  disjoint : ∀ f g, f ≠ g → base f + numPage f * sizeOfT f ≤ base g ∨
    base g + numPage g * sizeOfT g ≤ base f

/-- `slot.base + i * sizeOfT`. -/
def Slots.offset {F T : Type} (slots : Slots F T) (f : F) (i : Nat) : Nat :=
  slots.base f + i * slots.sizeOfT f

/-- The members of a frontend that change. -/
structure BatchFrontend (A T : Type) where
  modified : Nat → Bool
  isRead : Bool
  bufferIdx : Fin bufferCapacity
  doneCounter : Nat
  jobCounter : Nat
  encs : Fin bufferCapacity → Option (FreshEncrypted T)
  outAddrs : Fin bufferCapacity → A
  nounces : Fin bufferCapacity → Nounce
  pageStates : Fin bufferCapacity → PageSlotState

/-- An entry of `readChunks`. `addrs` and `states` point to the entry `idx` of the ring of a
frontend. -/
structure ReadChunk (F : Type) where
  frontend : F
  idx : Fin bufferCapacity
  offset : Nat
  size : Nat

/-- An entry of `writeChunks`, with its part of `tmp`. -/
structure WriteChunk (F T : Type) where
  frontend : F
  idx : Fin bufferCapacity
  offset : Nat
  size : Nat
  tmp : FreshEncrypted T

structure World (F A T : Type) where
  frontends : F → BatchFrontend A T
  data : Nat → Option (FreshEncrypted T)
  readChunks : List (ReadChunk F)
  writeChunks : List (WriteChunk F T)
  mem : A → T

namespace World

variable {F A T : Type} [DecidableEq F] [DecidableEq A]

def update (f : F) (u : BatchFrontend A T → BatchFrontend A T) (s : World F A T) : World F A T :=
  { s with frontends := Function.update s.frontends f (u (s.frontends f)) }

def setState (f : F) (idx : Fin bufferCapacity) (state : PageSlotState) (s : World F A T) :
    World F A T :=
  s.update f fun b => { b with pageStates := Function.update b.pageStates idx state }

/-! ## The backend -/

/-- A chunk that has been read: its bytes go to the ring, and its request is done. -/
def readChunk (ch : ReadChunk F) (s : World F A T) : World F A T :=
  s.update ch.frontend fun b =>
    { b with
      encs := Function.update b.encs ch.idx (s.data ch.offset)
      pageStates := Function.update b.pageStates ch.idx .DONE_PAGE }

/-- `FlushRead` of the backend. -/
def backendFlushRead (s : World F A T) : World F A T :=
  { s.readChunks.foldl (fun s ch => s.readChunk ch) s with readChunks := [] }

/-- `ReadLazy` of the backend. -/
def backendReadLazy (ch : ReadChunk F) (s : World F A T) : World F A T :=
  let tmpOffset := (s.readChunks.map ReadChunk.size).sum
  let s := if tmpOffset + ch.size > chunksSize ∨ s.readChunks.length + 1 > maxChunkNum then
    s.backendFlushRead else s
  { s with readChunks := s.readChunks ++ [ch] }

/-- A chunk that is written, and its request is done. -/
def writeChunk (ch : WriteChunk F T) (s : World F A T) : World F A T :=
  { s with data := Function.update s.data ch.offset (some ch.tmp) }.setState ch.frontend
    ch.idx .DONE_PAGE

/-- `FlushWrite` of the backend. -/
def backendFlushWrite (s : World F A T) : World F A T :=
  { s.writeChunks.foldl (fun s ch => s.writeChunk ch) s with writeChunks := [] }

/-- `WriteLazy` of the backend. -/
def backendWriteLazy (ch : WriteChunk F T) (s : World F A T) : World F A T :=
  let tmpOffset := (s.writeChunks.map WriteChunk.size).sum
  let s := if tmpOffset + ch.size > chunksSize ∨ s.writeChunks.length + 1 > maxChunkNum then
    s.backendFlushWrite else s
  { s with writeChunks := s.writeChunks ++ [ch] }

/-! ## The frontends -/

/-- `encs[idx].Decrypt(*(outAddrs[idx]), nounces[idx])`, after which the entry of the ring is
empty. -/
def decrypt (f : F) (idx : Fin bufferCapacity) (s : World F A T) : Option (World F A T) :=
  let b := s.frontends f
  ((b.encs idx).bind (·.decrypt (b.nounces idx))).map fun x =>
    { s with mem := Function.update s.mem (b.outAddrs idx) x }.setState f idx .EMPTY_PAGE

/-- The body of the loop of `flushRead`. -/
def flushReadAt (f : F) (idx : Fin bufferCapacity) (s : World F A T) : Option (World F A T) :=
  let s := if (s.frontends f).pageStates idx = .PENDING_PAGE then s.backendFlushRead else s
  if (s.frontends f).pageStates idx = .DONE_PAGE then s.decrypt f idx else some s

/-- `doneCounter = jobCounter`. -/
def allDone (f : F) (s : World F A T) : World F A T :=
  s.update f fun b => { b with doneCounter := b.jobCounter }

/-- `flushRead`. -/
def flushRead (f : F) (s : World F A T) : Option (World F A T) :=
  ((List.finRange bufferCapacity).foldlM (fun (s : World F A T) idx => s.flushReadAt f idx) s).map
    (allDone f)

/-- The body of the loop of `flushWrite`. -/
def flushWriteAt (f : F) (idx : Fin bufferCapacity) (s : World F A T) : World F A T :=
  let s := if (s.frontends f).pageStates idx = .PENDING_PAGE then s.backendFlushWrite else s
  if (s.frontends f).pageStates idx = .DONE_PAGE then s.setState f idx .EMPTY_PAGE else s

/-- `flushWrite`. -/
def flushWrite (f : F) (s : World F A T) : World F A T :=
  ((List.finRange bufferCapacity).foldl (fun (s : World F A T) idx =>
    s.flushWriteAt f idx) s).allDone f

/-- The entry of the ring that the next request takes is made empty: a read. -/
def freeRead (f : F) (s : World F A T) : Option (World F A T) :=
  match (s.frontends f).pageStates (s.frontends f).bufferIdx with
  | .DONE_PAGE => s.decrypt f (s.frontends f).bufferIdx
  | .PENDING_PAGE => s.flushRead f
  | .EMPTY_PAGE => some s

/-- The entry of the ring that the next request takes is made empty: a write. -/
def freeWrite (f : F) (s : World F A T) : World F A T :=
  match (s.frontends f).pageStates (s.frontends f).bufferIdx with
  | .DONE_PAGE => (s.setState f (s.frontends f).bufferIdx .EMPTY_PAGE).update f fun b =>
      { b with doneCounter := b.doneCounter + 1 }
  | .PENDING_PAGE => s.flushWrite f
  | .EMPTY_PAGE => s

/-- `isRead = read`. -/
def setIsRead (f : F) (isRead : Bool) (s : World F A T) : World F A T :=
  s.update f fun b => { b with isRead }

/-- `bufferIdx` and `jobCounter` after a request. -/
def advance (f : F) (s : World F A T) : World F A T :=
  s.update f fun b => { b with bufferIdx := b.bufferIdx + 1, jobCounter := b.jobCounter + 1 }

variable (slots : Slots F T)

/-- The request of `ReadLazy`, in the empty entry of the ring. -/
def requestRead (f : F) (i : Nat) (out : A) (counter : Nat) (s : World F A T) : World F A T :=
  let idx := (s.frontends f).bufferIdx
  let s := s.update f fun b =>
    { b with
      pageStates := Function.update b.pageStates idx .PENDING_PAGE
      outAddrs := Function.update b.outAddrs idx out
      nounces := Function.update b.nounces idx ((slots.nounce f).forPage i counter) }
  (s.backendReadLazy ⟨f, idx, slots.offset f i, slots.sizeOfT f⟩).advance f

/-- `ReadLazy(i, out, auth_counter)`: the job number and the state. -/
def readLazy (f : F) (i : Nat) (out : A) (counter : Nat) (s : World F A T) :
    Option (Nat × World F A T) :=
  if slots.lateInit f && !(s.frontends f).modified i then
    some ((s.frontends f).doneCounter,
      { s with mem := Function.update s.mem out (slots.defaultVal f) })
  else
    let s := if (s.frontends f).isRead then s else s.flushWrite f
    ((s.setIsRead f true).freeRead f).map fun s =>
    let s := s.requestRead slots f i out counter
    ((s.frontends f).jobCounter, s)

/-- The request of `WriteLazy`, in the empty entry of the ring. -/
def requestWrite (f : F) (i : Nat) (x : T) (counter : Nat) (s : World F A T) : World F A T :=
  let idx := (s.frontends f).bufferIdx
  let enc : FreshEncrypted T := ⟨(slots.nounce f).forPage i counter, x⟩
  let s := s.update f fun b =>
    { b with
      pageStates := Function.update b.pageStates idx .PENDING_PAGE
      encs := Function.update b.encs idx (some enc) }
  (s.backendWriteLazy ⟨f, idx, slots.offset f i, slots.sizeOfT f, enc⟩).advance f

/-- `WriteLazy(i, in, auth_counter)`. -/
def writeLazy (f : F) (i : Nat) (x : T) (counter : Nat) (s : World F A T) : Option (World F A T) :=
  let s := if slots.lateInit f then
    s.update f fun b => { b with modified := Function.update b.modified i true } else s
  (if (s.frontends f).isRead then s.flushRead f else some s).map fun s =>
  ((s.setIsRead f false).freeWrite f).requestWrite slots f i x counter

/-- `isJobDone(job)`. -/
def isJobDone (f : F) (job : Nat) (s : World F A T) : Bool := job ≤ (s.frontends f).doneCounter

end World

end EM
