import OblSort.Server.Frontend
import OblSort.Algorithm.Bitonic

/-!
# The external-memory vector

`ExtVector::Vector` (`extemvector.hpp`): elements in pages of `item_per_page`, the pages behind a
direct-mapped cache of `DMCacheSize` slots over the authenticated frontend. Dereferencing an
iterator gives a reference into a cache slot (`Ref`). The reference stays with the slot: when a
later access puts another page there, it refers to an element of that page.

`condSwap` is `condSwap(dire != cmp(*l, *r), *l, *r)` on two iterators. C++ leaves the order in
which its arguments are evaluated open; `rightFirst` chooses between right to left and left to
right.
-/

namespace EM.ExtVector

open CACHE

/-- `DMCacheSize`: a power of two is avoided. -/
def dmCacheSize (cacheSize : Nat) : Nat :=
  if cacheSize ≠ getNextPowerOfTwo cacheSize then cacheSize else max 1 (cacheSize - 1)

instance (cacheSize : Nat) : NeZero (dmCacheSize cacheSize) where
  out := by
    unfold dmCacheSize
    split
    · rename_i h
      rintro rfl
      exact h (by decide)
    · omega

abbrev Page (itemPerPage : Nat) (α : Type) := Fin itemPerPage → α

/-- The state of a vector of elements of type `α`. -/
abbrev Vec (cacheSize itemPerPage : Nat) (α : Type) :=
  Cached (dmCacheSize cacheSize) (Page itemPerPage α) (Frontend (Page itemPerPage α))

/-- A reference to an element of the page in a cache slot. -/
structure Ref (cacheSize itemPerPage : Nat) where
  slot : Fin (dmCacheSize cacheSize)
  pageOffset : Fin itemPerPage
  deriving Repr, DecidableEq

variable {cacheSize itemPerPage : Nat} {α : Type}

/-- The value a reference refers to. -/
def load (ref : Ref cacheSize itemPerPage) (c : Vec cacheSize itemPerPage α) : α :=
  Cached.deref ref.slot c ref.pageOffset

/-- Assignment to a reference. -/
def assign (ref : Ref cacheSize itemPerPage) (v : α) (c : Vec cacheSize itemPerPage α) :
    Vec cacheSize itemPerPage α :=
  Cached.store ref.slot (Function.update (Cached.deref ref.slot c) ref.pageOffset v) c

/-- `obliSwap` of what two references refer to. -/
def swapRefs (a b : Ref cacheSize itemPerPage) (c : Vec cacheSize itemPerPage α) :
    Vec cacheSize itemPerPage α :=
  assign b (load a c) (assign a (load b c) c)

variable [NeZero itemPerPage]

/-- The reference to position `ptr` once its page is in the cache. -/
def refAt (cacheSize itemPerPage : Nat) [NeZero itemPerPage] (ptr : Nat) :
    Ref cacheSize itemPerPage :=
  ⟨Cached.mappedSlot _ (ptr / itemPerPage), Fin.ofNat itemPerPage ptr⟩

/-- `Iterator::operator*`. -/
def deref (ptr : Nat) (c : Vec cacheSize itemPerPage α) :
    Option (Ref cacheSize itemPerPage × Vec cacheSize itemPerPage α) :=
  (Cached.access (Frontend.server _) (ptr / itemPerPage) c).map fun p =>
    (⟨p.1, Fin.ofNat itemPerPage ptr⟩, p.2)

/-- `Iterator::operator* const`. -/
def derefConst (ptr : Nat) (c : Vec cacheSize itemPerPage α) :
    Option (Ref cacheSize itemPerPage × Vec cacheSize itemPerPage α) :=
  (Cached.accessReadOnly (Frontend.server _) (ptr / itemPerPage) c).map fun p =>
    (⟨p.1, Fin.ofNat itemPerPage ptr⟩, p.2)

/-- `*l` and `*r` as two arguments of one call. -/
def derefPair (rightFirst : Bool) (l r : Nat) (c : Vec cacheSize itemPerPage α) :
    Option ((Ref cacheSize itemPerPage × Ref cacheSize itemPerPage) ×
      Vec cacheSize itemPerPage α) :=
  if rightFirst then do
    let (b, c) ← deref r c
    let (a, c) ← deref l c
    pure ((a, b), c)
  else do
    let (a, c) ← deref l c
    let (b, c) ← deref r c
    pure ((a, b), c)

/-- `condSwap(dire != cmp(*l, *r), *l, *r)`: both references of the comparison are obtained before
it reads them, and both references of the swap before it swaps. -/
def condSwap (rightFirst : Bool) (cmp : α → α → Bool) (dire : Bool) (l r : Nat)
    (c : Vec cacheSize itemPerPage α) : Option (Vec cacheSize itemPerPage α) :=
  if rightFirst then do
    let (swapped, c) ← derefPair rightFirst l r c
    let (compared, c) ← derefPair rightFirst l r c
    pure (if dire != cmp (load compared.1 c) (load compared.2 c) then
      swapRefs swapped.1 swapped.2 c else c)
  else do
    let (compared, c) ← derefPair rightFirst l r c
    let flag := dire != cmp (load compared.1 c) (load compared.2 c)
    let (swapped, c) ← derefPair rightFirst l r c
    pure (if flag then swapRefs swapped.1 swapped.2 c else c)

/-- `*it = x` for the elements of `xs`, from position `ptr` on. -/
def write : (ptr : Nat) → (xs : List α) → Vec cacheSize itemPerPage α →
    Option (Vec cacheSize itemPerPage α)
  | _, [], c => some c
  | ptr, x :: xs, c => do
    let (ref, c) ← deref ptr c
    write (ptr + 1) xs (assign ref x c)

/-- The values of `count` elements, read from position `ptr` on. -/
def read : (ptr count : Nat) → Vec cacheSize itemPerPage α →
    Option (List α × Vec cacheSize itemPerPage α)
  | _, 0, c => some ([], c)
  | ptr, count + 1, c => do
    let (ref, c) ← derefConst ptr c
    let (xs, c') ← read (ptr + 1) count c
    pure (load ref c :: xs, c')

/-- `BitonicSort` on the vector's first `size` elements. -/
def bitonicSort (rightFirst : Bool) (cmp : α → α → Bool) (size : Nat)
    (c : Vec cacheSize itemPerPage α) : Option (Vec cacheSize itemPerPage α) :=
  Algorithm.bitonicSort (fun dire l r o => o.bind (condSwap rightFirst cmp dire l r)) true 0 size
    (some c)

/-- Write a list to a new vector, sort the vector, and read it back. -/
def writeSortRead [Inhabited α] (cacheSize itemPerPage : Nat) [NeZero itemPerPage]
    (nounce : Nounce) (defaultPage : Page itemPerPage α) (rightFirst : Bool)
    (cmp : α → α → Bool) (xs : List α) : Option (List α) := do
  let c : Vec cacheSize itemPerPage α :=
    ExtVector.new (dmCacheSize cacheSize) nounce itemPerPage xs.length defaultPage
  let c ← write 0 xs c
  let c ← bitonicSort rightFirst cmp xs.length c
  let (ys, _) ← read 0 xs.length c
  pure ys

end EM.ExtVector
