import OblSort.Common.Utils
import OblSort.Lib.Paged
import OblSort.Server.Frontend

/-!
# Vectors without a cache

`NonCachedVector::Vector` (`noncachedvector.hpp`) with `AUTH` on, over the authenticated frontend:
`CopyOut` and `CopyIn` of ranges, and the sequential `Reader` and `Writer`.

An iterator is its position `m_ptr`, a range of the source in memory is a list. `none` is an abort:
a page that was never written, or was last written with another counter, does not authenticate.
Without `DISK_IO` a lazy read or write is done at once and a flush does nothing. Pages that the
source declares without a value, `cachePage` of a vector and the caches of readers and writers, hold
anything.
-/

namespace EM.NonCachedVector

open Paged

/-- `Vector`: its length, its template parameter `LATE_INIT`, the page that it copies through and
its server. -/
structure Vector (itemPerPage : Nat) (α : Type) where
  N : Nat
  lateInit : Bool
  cachePage : Page itemPerPage α
  server : Frontend (Page itemPerPage α)

/-- `item_per_page`, for the template parameter `page_size`. -/
def Vector.itemPerPage (pageSize sizeofT : Nat) : Nat :=
  getNextPowerOfTwo (pageSize / sizeofT / 2 + 1)

variable {itemPerPage : Nat} {α : Type}

namespace Vector

/-- `server.Read(pageIdx, out, counter)`. -/
def read (pageIdx counter : Nat) (v : Vector itemPerPage α) : Option (Page itemPerPage α) :=
  v.server.read v.lateInit pageIdx counter

/-- `server.Write(pageIdx, in, counter)`. -/
def write (pageIdx : Nat) (page : Page itemPerPage α) (counter : Nat) (v : Vector itemPerPage α) :
    Vector itemPerPage α :=
  { v with server := v.server.write v.lateInit pageIdx page counter }

/-- A page read to the page that the vector copies through. -/
def readCache (pageIdx counter : Nat) (v : Vector itemPerPage α) : Option (Vector itemPerPage α) :=
  (v.read pageIdx counter).map fun page => { v with cachePage := page }

variable [NeZero itemPerPage]

/-- Write `xs` from `offset` on into the page that the vector copies through, and write that
page. -/
def writeCache (pageIdx offset : Nat) (xs : List α) (counter : Nat) (v : Vector itemPerPage α) :
    Vector itemPerPage α :=
  let cachePage := fill offset xs v.cachePage
  { v with cachePage }.write pageIdx cachePage counter

end Vector

variable [NeZero itemPerPage]

/-! ## Copying -/

/-- `CopyOut` to a range within one page. -/
def copyOutWithin (src : List α) (toPtr counter : Nat) (v : Vector itemPerPage α) :
    Option (Vector itemPerPage α) :=
  let pageIdx := toPtr / itemPerPage
  (if toPtr ≠ 0 ∨ toPtr + src.length ≠ v.N then
    if counter > 0 then v.readCache pageIdx (counter - 1) else some v
  else some v).bind fun v =>
  some (v.writeCache pageIdx (toPtr % itemPerPage) src counter)

/-- The part of a page that a range of several pages begins with. -/
def copyOutBegin (src : List α) (toPtr counter : Nat) (v : Vector itemPerPage α) :
    Option (Vector itemPerPage α) :=
  let pageIdx := toPtr / itemPerPage
  (if toPtr ≠ 0 then v.readCache pageIdx counter else some v).bind fun v =>
  some (v.writeCache pageIdx (toPtr % itemPerPage) src counter)

/-- `count` whole pages from `pageIdx` on. -/
def copyOutPages (counter : Nat) : (count pageIdx : Nat) → List α → Vector itemPerPage α →
    Option (Vector itemPerPage α)
  | 0, _, _, v => some v
  | count + 1, pageIdx, src, v =>
    (ofList itemPerPage src).bind fun page =>
    copyOutPages counter count (pageIdx + 1) (src.drop itemPerPage) (v.write pageIdx page counter)

/-- The part of a page that a range of several pages ends with. -/
def copyOutEnd (src : List α) (toEnd counter : Nat) (v : Vector itemPerPage α) :
    Option (Vector itemPerPage α) :=
  let pageIdx := toEnd / itemPerPage
  (if toEnd ≠ v.N then
    if counter > 0 then v.readCache pageIdx (counter - 1) else some v
  else some v).bind fun v =>
  some (v.writeCache pageIdx 0 src counter)

/-- `CopyOut(begin, end, to, counter)` of the elements `src`. -/
def copyOut (src : List α) (toPtr counter : Nat) (v : Vector itemPerPage α) :
    Option (Vector itemPerPage α) :=
  let toBeginOffset := toPtr % itemPerPage
  let toBeginPageIdx := toPtr / itemPerPage
  let toEnd := toPtr + src.length
  let toEndOffset := toEnd % itemPerPage
  let toEndPageIdx := toEnd / itemPerPage
  if toBeginPageIdx = toEndPageIdx then
    if src.length ≠ 0 then copyOutWithin src toPtr counter v else some v
  else
    let head := if toBeginOffset ≠ 0 then itemPerPage - toBeginOffset else 0
    let pageIdx := if toBeginOffset ≠ 0 then toBeginPageIdx + 1 else toBeginPageIdx
    (if toBeginOffset ≠ 0 then copyOutBegin (src.take head) toPtr counter v else some v).bind
      fun v =>
    let src := src.drop head
    (copyOutPages counter (toEndPageIdx - pageIdx) pageIdx src v).bind fun v =>
    let src := src.drop ((toEndPageIdx - pageIdx) * itemPerPage)
    if toEndOffset ≠ 0 then copyOutEnd src toEnd counter v else some v

/-- `count` whole pages, from `pageIdx` on. -/
def copyInPages (counter : Nat) : (count pageIdx : Nat) → Vector itemPerPage α → Option (List α)
  | 0, _, _ => some []
  | count + 1, pageIdx, v =>
    (v.read pageIdx counter).bind fun page =>
    (copyInPages counter count (pageIdx + 1) v).bind fun rest =>
    some (slice 0 itemPerPage page ++ rest)

/-- `CopyIn` of a range that begins at a page. -/
def copyInAligned (beginPageIdx endPtr counter : Nat) (v : Vector itemPerPage α) :
    Option (List α × Vector itemPerPage α) :=
  let endOffset := endPtr % itemPerPage
  let endPageIdx := endPtr / itemPerPage
  (copyInPages counter (endPageIdx - beginPageIdx) beginPageIdx v).bind fun pages =>
  if endOffset ≠ 0 then
    (v.readCache endPageIdx counter).bind fun v =>
    some (pages ++ slice 0 endOffset v.cachePage, v)
  else some (pages, v)

/-- `CopyIn(begin, end, to, counter)`: the elements of the range. -/
def copyIn (beginPtr endPtr counter : Nat) (v : Vector itemPerPage α) :
    Option (List α × Vector itemPerPage α) :=
  let beginOffset := beginPtr % itemPerPage
  let beginPageIdx := beginPtr / itemPerPage
  let endPageIdx := endPtr / itemPerPage
  if beginOffset ≠ 0 then
    let endPageOffset := if beginPageIdx = endPageIdx then endPtr % itemPerPage else itemPerPage
    (v.readCache beginPageIdx counter).bind fun v =>
    let first := slice beginOffset endPageOffset v.cachePage
    if beginPageIdx = endPageIdx then some (first, v)
    else
      (copyInAligned (beginPageIdx + 1) endPtr counter v).bind fun (rest, v) =>
      some (first ++ rest, v)
  else copyInAligned beginPageIdx endPtr counter v

/-! ## Reading and writing in order -/

/-- `Reader`. `curr` is an offset of the cache; it is `none` while it is `UINT64_MAX`. -/
structure Reader (itemPerPage : Nat) (α : Type) where
  cache : Page itemPerPage α
  it : Nat
  endPtr : Nat
  curr : Option Nat
  counter : Nat

namespace Reader

/-- The constructor; the cache holds anything. -/
def new (cache : Page itemPerPage α) (beginPtr endPtr counter : Nat) : Reader itemPerPage α :=
  ⟨cache, beginPtr, endPtr, none, counter⟩

def eof (r : Reader itemPerPage α) : Bool := r.endPtr ≤ r.it

/-- Whether `curr` is past the end of the cache. -/
def outOfPage (r : Reader itemPerPage α) : Bool := r.curr.all (itemPerPage ≤ ·)

/-- The cache filled with a page that was read for the position of the reader. -/
def refill (page : Page itemPerPage α) (r : Reader itemPerPage α) : Reader itemPerPage α :=
  { r with
    cache := page
    curr := some (if r.curr ≠ some itemPerPage then r.it % itemPerPage else 0) }

/-- `get()`: the reader once the page it needs is in its cache. -/
def get (v : Vector itemPerPage α) (r : Reader itemPerPage α) : Option (Reader itemPerPage α) :=
  if r.outOfPage then (v.read (r.it / itemPerPage) r.counter).map r.refill else some r

/-- The element that `*curr` is, and the reader past it. -/
def next (r : Reader itemPerPage α) : α × Reader itemPerPage α :=
  let curr := r.curr.getD 0
  (r.cache (Fin.ofNat itemPerPage curr), { r with it := r.it + 1, curr := some (curr + 1) })

/-- `read()`. -/
def read (v : Vector itemPerPage α) (r : Reader itemPerPage α) :
    Option (α × Reader itemPerPage α) :=
  (r.get v).map next

/-- `count` elements read one after the other. -/
def readMany (v : Vector itemPerPage α) : (count : Nat) → Reader itemPerPage α →
    Option (List α × Reader itemPerPage α)
  | 0, r => some ([], r)
  | count + 1, r =>
    (r.read v).bind fun (x, r) =>
    (readMany v count r).bind fun (xs, r) =>
    some (x :: xs, r)

end Reader

/-- `Writer`. `curr` is an offset of the cache. -/
structure Writer (itemPerPage : Nat) (α : Type) where
  cache : Page itemPerPage α
  it : Nat
  endPtr : Nat
  curr : Nat
  counter : Nat

namespace Writer

/-- `init`; the cache holds anything before. -/
def init (cache : Page itemPerPage α) (beginPtr endPtr counter : Nat) (v : Vector itemPerPage α) :
    Option (Writer itemPerPage α) :=
  let pageOffset := beginPtr % itemPerPage
  (if pageOffset ≠ 0 ∧ beginPtr ≠ 0 then v.read (beginPtr / itemPerPage) counter
  else some cache).map fun cache => ⟨cache, beginPtr, endPtr, pageOffset, counter⟩

/-- `write(element)`. -/
def write (x : α) (w : Writer itemPerPage α) (v : Vector itemPerPage α) :
    Writer itemPerPage α × Vector itemPerPage α :=
  let cache := Function.update w.cache (Fin.ofNat itemPerPage w.curr) x
  let it := w.it + 1
  if w.curr + 1 = itemPerPage then
    ({ w with cache, it, curr := 0 }, v.write (it / itemPerPage - 1) cache w.counter)
  else ({ w with cache, it, curr := w.curr + 1 }, v)

/-- `flush()`; `originalPage` holds anything before it is read. -/
def flush (originalPage : Page itemPerPage α) (w : Writer itemPerPage α)
    (v : Vector itemPerPage α) :
    Option (Vector itemPerPage α) :=
  let pageOffset := w.it % itemPerPage
  let pageIdx := w.it / itemPerPage
  if pageOffset ≠ 0 then
    (if w.it ≠ v.N ∧ w.counter = 0 then v.read pageIdx w.counter else some originalPage).map
      fun originalPage =>
        v.write pageIdx (fill 0 (slice 0 pageOffset w.cache) originalPage) w.counter
  else some v

/-- `write` of the elements of a list. -/
def writeMany : (xs : List α) → Writer itemPerPage α → Vector itemPerPage α →
    Writer itemPerPage α × Vector itemPerPage α
  | [], w, v => (w, v)
  | x :: xs, w, v =>
    let (w, v) := w.write x v
    writeMany xs w v

end Writer

end EM.NonCachedVector
