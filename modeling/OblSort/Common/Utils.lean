import Mathlib.Algebra.Group.Nat.Defs
import Mathlib.Data.Nat.Bits

/-!
# Helpers

The helpers of `common/utils.hpp` that the algorithms compute sizes with, and its shuffle. They work
on 64-bit words, so a value is a `Nat` below `2 ^ 64` and `n - 1`, `n + 1` are taken modulo
`2 ^ 64`.
-/

/-- `GetNextPowerOfTwo`: all bits below the highest bit of `n - 1` are set, then one is added. -/
def getNextPowerOfTwo (n : Nat) : Nat :=
  let n := (n + (2 ^ 64 - 1)) % 2 ^ 64
  let n := n ||| n >>> 1
  let n := n ||| n >>> 2
  let n := n ||| n >>> 4
  let n := n ||| n >>> 8
  let n := n ||| n >>> 16
  let n := n ||| n >>> 32
  (n + 1) % 2 ^ 64

/-- `GetLogBaseTwo`: a binary search for the highest bit. The mask of each round is the `c` bits
from bit `c` on. -/
def getLogBaseTwo (n : Nat) : Nat :=
  ([32, 16, 8, 4, 2, 1].foldl (fun (n, r) c =>
    if n &&& (2 ^ c - 1) <<< c != 0 then (n >>> c, r ||| c) else (n, r)) (n, 0)).2

/-- `CeilLog2`: the logarithm by a table of masks, and one more unless `x` is a power of two. -/
def ceilLog2 (x : Nat) : Nat :=
  let y := if x &&& (x + (2 ^ 64 - 1)) % 2 ^ 64 == 0 then 0 else 1
  ([0xFFFFFFFF00000000, 0x00000000FFFF0000, 0x000000000000FF00, 0x00000000000000F0,
      0x000000000000000C, 0x0000000000000002].foldl (fun (x, y, j) t =>
    let k := if x &&& t == 0 then 0 else j
    (x >>> k, y + k, j >>> 1)) (x, y, 32)).2.1

/-- `divRoundUp`: `x / y` rounded up. -/
def divRoundUp (x y : Nat) : Nat := (x + y - 1) / y

/-- `getVecProduct`. -/
def getVecProduct (v : List Nat) : Nat := v.foldl (· * ·) 1

/-! ## Shuffling -/

/-- `UniformRandom(right)`, when `rand64` draws `r`. -/
def uniformRandom (r : BitVec 64) (right : Nat) : Nat := r.toNat % (right + 1)

/-- `std::swap` of two entries. -/
def swapAt {α : Type} (i j : Nat) (xs : List α) : List α :=
  if h : i < xs.length ∧ j < xs.length then (xs.set i (xs.get ⟨j, h.2⟩)).set j (xs.get ⟨i, h.1⟩)
  else xs

/-- The loop of `fisherYatesShuffle` from `n` on; `rand64` are the draws to come. -/
def fisherYatesLoop {α : Type} : (rand64 : Nat → BitVec 64) → (n : Nat) → List α → List α
  | _, 0, xs => xs
  | rand64, n + 1, xs =>
    fisherYatesLoop (fun i => rand64 (i + 1)) n
      (swapAt (uniformRandom (rand64 0) (n + 1)) (n + 1) xs)

/-- `fisherYatesShuffle`. Of an empty range `n` begins at `2 ^ 64 - 1`, and the first draw is taken
modulo `n + 1`, which is 0. -/
def fisherYatesShuffle {α : Type} (rand64 : Nat → BitVec 64) (xs : List α) : Option (List α) :=
  if xs.isEmpty then none else some (fisherYatesLoop rand64 (xs.length - 1) xs)
