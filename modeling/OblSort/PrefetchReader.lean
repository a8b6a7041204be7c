import OblSort.NonCachedVector
import OblSort.Server.BatchFrontend

/-!
# Readers that prefetch

`PrefetchReader` and `LazyPrefetchReader` (`noncachedvector.hpp`) in a build with `DISK_IO`, where
the server of a vector is a batching frontend. The pages that a reader `k` caches are its buffers,
at the addresses `(k, 0)`, `(k, 1)`, … of the memory, one after the other: a pointer into them is
the number of elements before it. `curr` is `none` while it is `UINT64_MAX`.
-/

namespace EM.NonCachedVector

open Paged

variable {F K : Type} [DecidableEq F] [DecidableEq K] {n : Nat} {α : Type}

/-- A process with the buffers of the readers `K`. -/
abbrev Disk (F K : Type) (n : Nat) (α : Type) := World F (K × Nat) (Page n α)

/-- `*ptr` for a pointer into the buffers of a reader. -/
def deref [NeZero n] (k : K) (ptr : Nat) (w : Disk F K n α) : α :=
  w.mem (k, ptr / n) (Fin.ofNat n ptr)

section

variable (slots : Slots F (Page n α)) (f : F)

/-- `ReadLazy` of `count` pages from `pageIdx` on, to the buffers from `cacheIdx` on. The job
numbers go to `jobCounters`, if the reader keeps them. -/
def requestPages (k : K) (counter : Nat) : (count cacheIdx pageIdx : Nat) →
    (jobCounters : Nat → Nat) →
    Disk F K n α → Option ((Nat → Nat) × Disk F K n α)
  | 0, _, _, jobCounters, w => some (jobCounters, w)
  | count + 1, cacheIdx, pageIdx, jobCounters, w =>
    (w.readLazy slots f pageIdx (k, cacheIdx) counter).bind fun (job, w) =>
    requestPages k counter count (cacheIdx + 1) (pageIdx + 1)
      (Function.update jobCounters cacheIdx job) w

/-! ## `PrefetchReader` -/

structure PrefetchReader where
  it : Nat
  endPtr : Nat
  curr : Option Nat
  endPageIdx : Nat
  counter : Nat

namespace PrefetchReader

/-- The constructor. -/
def new (n beginPtr endPtr counter : Nat) : PrefetchReader :=
  ⟨beginPtr, endPtr, none, (endPtr - 1) / n + 1, counter⟩

def eof (r : PrefetchReader) : Bool := r.endPtr ≤ r.it

/-- `get()`: the reader once the page it needs is in a buffer. -/
def get (k : K) (r : PrefetchReader) (w : Disk F K n α) : Option (PrefetchReader × Disk F K n α) :=
  if r.curr.all (bufferCapacity * n ≤ ·) then
    let cachePageBeginIdx := r.it / n
    let cachePageEndIdx := min (cachePageBeginIdx + bufferCapacity) r.endPageIdx
    (requestPages slots f k r.counter (cachePageEndIdx - cachePageBeginIdx) 0 cachePageBeginIdx
      (fun _ => 0) w).bind fun (_, w) =>
    (w.flushRead f).map fun w =>
    ({ r with curr := some (if r.curr ≠ some (bufferCapacity * n) then r.it % n else 0) }, w)
  else some (r, w)

end PrefetchReader

/-! ## `LazyPrefetchReader` -/

structure LazyPrefetchReader where
  jobCounters : Nat → Nat
  cacheCapacity : Nat
  it : Nat
  endPtr : Nat
  curr : Option Nat
  currPageEnd : Option Nat
  endPageIdx : Nat
  counter : Nat

namespace LazyPrefetchReader

/-- The constructor. -/
def new (n beginPtr endPtr counter cacheCapacity : Nat) : LazyPrefetchReader :=
  ⟨fun _ => 0, cacheCapacity, beginPtr, endPtr, none, none, (endPtr - 1) / n + 1, counter⟩

def eof (r : LazyPrefetchReader) : Bool := r.endPtr ≤ r.it

/-- `init()`. -/
def init (k : K) (r : LazyPrefetchReader) (w : Disk F K n α) :
    Option (LazyPrefetchReader × Disk F K n α) :=
  let pageIdx := r.it / n
  (requestPages slots f k r.counter (min r.cacheCapacity (r.endPageIdx - pageIdx)) 0 pageIdx
    r.jobCounters w).bind fun (jobCounters, w) =>
  (w.flushRead f).map fun w =>
  ({ r with jobCounters, curr := some (r.it % n), currPageEnd := some n }, w)

/-- The next page is there: `isJobDone`, else `flushRead`. -/
def await (job : Nat) (w : Disk F K n α) : Option (Disk F K n α) :=
  if w.isJobDone f job then some w else w.flushRead f

/-- The step of `get()` to the next buffer. The buffer before it takes the next page that is not
requested yet. -/
def nextPage (k : K) (currPageEnd : Nat) (r : LazyPrefetchReader) (w : Disk F K n α) :
    Option (LazyPrefetchReader × Disk F K n α) :=
  let prevCacheIdx := currPageEnd / n - 1
  let currCacheIdx := (prevCacheIdx + 1) % r.cacheCapacity
  (await f (r.jobCounters currCacheIdx) w).bind fun w =>
  let nextPageIdx := r.it / n + r.cacheCapacity - 1
  (if nextPageIdx < r.endPageIdx then
    (w.readLazy slots f nextPageIdx (k, prevCacheIdx) r.counter).map fun (job, w) =>
      (Function.update r.jobCounters prevCacheIdx job, w)
  else some (r.jobCounters, w)).map fun (jobCounters, w) =>
  ({ r with
      jobCounters
      curr := some (currCacheIdx * n)
      currPageEnd := some (currCacheIdx * n + n) }, w)

/-- `get()`: the reader once the page it needs is in a buffer; `none` also before `init`. -/
def get (k : K) (r : LazyPrefetchReader) (w : Disk F K n α) :
    Option (LazyPrefetchReader × Disk F K n α) :=
  r.currPageEnd.bind fun currPageEnd =>
  if r.curr = some currPageEnd then r.nextPage slots f k currPageEnd w else some (r, w)

end LazyPrefetchReader

end

/-! ## Readers side by side -/

/-- A reader of one of the two kinds. -/
inductive DiskReader
  | prefetch (r : PrefetchReader)
  | lazyPrefetch (r : LazyPrefetchReader)

namespace DiskReader

def it : DiskReader → Nat
  | .prefetch r => r.it
  | .lazyPrefetch r => r.it

def eof : DiskReader → Bool
  | .prefetch r => r.eof
  | .lazyPrefetch r => r.eof

def curr : DiskReader → Option Nat
  | .prefetch r => r.curr
  | .lazyPrefetch r => r.curr

/-- `++it; ++curr`. -/
def next : DiskReader → DiskReader
  | .prefetch r => .prefetch { r with it := r.it + 1, curr := r.curr.map (· + 1) }
  | .lazyPrefetch r => .lazyPrefetch { r with it := r.it + 1, curr := r.curr.map (· + 1) }

variable (slots : Slots F (Page n α)) (f : F)

/-- `init()`; a `PrefetchReader` has none. -/
def init (k : K) (r : DiskReader) (w : Disk F K n α) : Option (DiskReader × Disk F K n α) :=
  match r with
  | .prefetch r => some (.prefetch r, w)
  | .lazyPrefetch r => (r.init slots f k w).map fun (r, w) => (.lazyPrefetch r, w)

/-- What `get()` does before it returns `*curr`. -/
def load (k : K) (r : DiskReader) (w : Disk F K n α) : Option (DiskReader × Disk F K n α) :=
  match r with
  | .prefetch r => (r.get slots f k w).map fun (r, w) => (.prefetch r, w)
  | .lazyPrefetch r => (r.get slots f k w).map fun (r, w) => (.lazyPrefetch r, w)

/-- `get()`: the element, and the state after. -/
def get [NeZero n] (k : K) (r : DiskReader) (w : Disk F K n α) :
    Option (α × DiskReader × Disk F K n α) :=
  (r.load slots f k w).map fun (r, w) => (deref k (r.curr.getD 0) w, r, w)

/-- `read()`. -/
def read [NeZero n] (k : K) (r : DiskReader) (w : Disk F K n α) :
    Option (α × DiskReader × Disk F K n α) :=
  (r.get slots f k w).map fun (x, r, w) => (x, r.next, w)

end DiskReader

/-- A call of one of the readers. -/
inductive ReaderOp (K : Type)
  | init (k : K)
  | get (k : K)
  | read (k : K)

/-- The calls in order, on readers of one vector. The elements that they return are listed with the
reader and with whether the call was `read`. -/
def runReaders [NeZero n] (slots : Slots F (Page n α)) (f : F) :
    List (ReaderOp K) → (K → DiskReader) → Disk F K n α →
    Option (List (K × Bool × α) × (K → DiskReader) × Disk F K n α)
  | [], readers, w => some ([], readers, w)
  | .init k :: ops, readers, w =>
    ((readers k).init slots f k w).bind fun (r, w) =>
    runReaders slots f ops (Function.update readers k r) w
  | .get k :: ops, readers, w =>
    ((readers k).get slots f k w).bind fun (x, r, w) =>
    (runReaders slots f ops (Function.update readers k r) w).map fun (xs, rest) =>
    ((k, false, x) :: xs, rest)
  | .read k :: ops, readers, w =>
    ((readers k).read slots f k w).bind fun (x, r, w) =>
    (runReaders slots f ops (Function.update readers k r) w).map fun (xs, rest) =>
    ((k, true, x) :: xs, rest)

/-- The same calls on plain readers. -/
def runPlainReaders [NeZero n] (v : Vector n α) :
    List (ReaderOp K) → (K → Reader n α) → Option (List (K × Bool × α) × (K → Reader n α))
  | [], readers => some ([], readers)
  | .init _ :: ops, readers => runPlainReaders v ops readers
  | .get k :: ops, readers =>
    ((readers k).get v).bind fun r =>
    (runPlainReaders v ops (Function.update readers k r)).map fun (xs, rest) =>
    ((k, false, r.next.1) :: xs, rest)
  | .read k :: ops, readers =>
    ((readers k).read v).bind fun (x, r) =>
    (runPlainReaders v ops (Function.update readers k r)).map fun (xs, rest) =>
    ((k, true, x) :: xs, rest)

end EM.NonCachedVector
