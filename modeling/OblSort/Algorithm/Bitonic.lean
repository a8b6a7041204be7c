import OblSort.Common.Utils
import OblSort.Lib.Network

/-!
# Bitonic sort

`BitonicMergePow2`, `BitonicMerge`, `BitonicSort` and `SlowBitonicSort` (`algorithm/bitonic.hpp`).
The source is generic in the iterator; here a range is `[begin, begin + size)` of a store of any
type, and `cs dire l r` is what `condSwap(dire != cmp(*l, *r), *l, *r)` does to the store. On a
plain array that is `Net.listExch cmp`.
-/

namespace EM.Algorithm

variable {σ α : Type}

/-- The loop of both merges: positions `begin + i` and `begin + halfSize + i`, for `i < count`. -/
def condSwapLoop (cs : Bool → Nat → Nat → σ → σ) (dire : Bool) (begin halfSize count : Nat)
    (s : σ) :
    σ :=
  (List.range count).foldl (fun s i => cs dire (begin + i) (begin + halfSize + i) s) s

def bitonicMergePow2 (cs : Bool → Nat → Nat → σ → σ) (dire : Bool) (begin size : Nat) (s : σ) : σ :=
  if size > 1 then
    let halfSize := size / 2
    let s := condSwapLoop cs dire begin halfSize halfSize s
    let s := bitonicMergePow2 cs dire begin halfSize s
    bitonicMergePow2 cs dire (begin + halfSize) (size - halfSize) s
  else s
termination_by size

def bitonicMerge (cs : Bool → Nat → Nat → σ → σ) (dire : Bool) (begin size : Nat) (s : σ) : σ :=
  if size > 1 then
    let halfSize := getNextPowerOfTwo size / 2
    let s := condSwapLoop cs dire begin halfSize (size - halfSize) s
    let s := bitonicMergePow2 cs dire begin halfSize s
    -- zero only for a size above `2 ^ 63`, for which the recursion would not end
    if 0 < halfSize then bitonicMerge cs dire (begin + halfSize) (size - halfSize) s else s
  else s
termination_by size

/-- `BitonicSort(begin, end, cmp, dire)`. -/
def bitonicSort (cs : Bool → Nat → Nat → σ → σ) (dire : Bool) (begin size : Nat) (s : σ) : σ :=
  if size > 1 then
    let halfSize := size / 2
    let s := bitonicSort cs (!dire) begin halfSize s
    let s := bitonicSort cs dire (begin + halfSize) (size - halfSize) s
    bitonicMerge cs dire begin size s
  else s
termination_by size

/-- `BitonicSort` on a plain array. -/
def bitonicSortList (cmp : α → α → Bool) (xs : List α) : List α :=
  bitonicSort (Net.listExch cmp) true 0 xs.length xs

/-- What lies between two iterators. Their distance is a `ptrdiff_t`. -/
structure Range (α : Type) where
  elems : List α
  length_lt : elems.length < 2 ^ 63

/-- `BitonicSort(begin, end, cmp, dire)` on a range of a plain array. -/
def bitonicSortRange (cmp : α → α → Bool) (dire : Bool) (r : Range α) : List α :=
  bitonicSort (Net.listExch cmp) dire 0 r.elems.length r.elems

/-! ## The triple loop

Here `cs dire i l` is what `condSwap` does to positions `i` and `l` when `(i & k) == 0` is `dire`.
-/

/-- The body of the loop over `i` of `SlowBitonicSort`. -/
def slowExch (cs : Bool → Nat → Nat → σ → σ) (k j i : Nat) (s : σ) : σ :=
  let l := i ^^^ j
  if l > i then cs (i &&& k == 0) i l s else s

/-- The loop over `i`. -/
def slowRound (cs : Bool → Nat → Nat → σ → σ) (n k j : Nat) (s : σ) : σ :=
  (List.range n).foldl (fun s i => slowExch cs k j i s) s

/-- The loop over `j`. -/
def slowMerge (cs : Bool → Nat → Nat → σ → σ) (n k j : Nat) (s : σ) : σ :=
  if j > 0 then slowMerge cs n k (j / 2) (slowRound cs n k j s) else s
termination_by j

/-- The loop over `k`. -/
def slowLoop (cs : Bool → Nat → Nat → σ → σ) (n k : Nat) (s : σ) : σ :=
  -- zero only after `k *= 2` has wrapped around, for `n ≥ 2 ^ 63`
  if 0 < k ∧ k ≤ n then slowLoop cs n (k * 2) (slowMerge cs n k (k / 2) s) else s
termination_by n + 1 - k

/-- `SlowBitonicSort(begin, end, cmp)`. The number of elements is a power of two. -/
def slowBitonicSort (cmp : α → α → Bool) (r : Range α) : List α :=
  let exch dire i l := Net.condSwap
    (fun a b =>
      let llti := cmp b a
      (dire && llti) || (!dire && !llti)) i l
  slowLoop exch r.elems.length 2 r.elems

/-! ## The network -/

/-- The comparators that `BitonicSort` goes through on `size` elements. They do not depend on the
contents. -/
def bitonicNet (dire : Bool) (begin size : Nat) : List Net.Comparator :=
  bitonicSort (fun dire i j net => net ++ [⟨dire, i, j⟩]) dire begin size []

end EM.Algorithm
