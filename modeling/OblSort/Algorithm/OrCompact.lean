import OblSort.Common.Utils

/-!
# Oblivious compaction

`OrCompact` (`algorithm/or_compact_shuffle.hpp`) moves the marked elements of a range to its front
by conditional swaps. `orOffCompactSeparateMark` is the recursion for a power of two, to the cyclic
positions from `z` on. The source passes the marks as prefix sums in words of some type, and
computes with a `size_t`: `orOffCompactPrefix`, `orCompactPrefix` and `orCompactMarkType` do so, the
others take the marks themselves and numbers without a bound. `GoodrichCompact` does the same by
moving every marked element to the left by the bits of its distance to go.
-/

namespace EM.Algorithm

variable {α : Type}

/-- `condSwap(b(i), *leftIt, *rightIt)` along two ranges, from the index `i` on. -/
def condSwapAll (b : Nat → Bool) : (i : Nat) → List α → List α → List α × List α
  | i, x :: xs, y :: ys =>
    let rest := condSwapAll b (i + 1) xs ys
    if b i then (y :: rest.1, x :: rest.2) else (x :: rest.1, y :: rest.2)
  | _, xs, ys => (xs, ys)

/-- `OrOffCompactSeparateMark` of `2 ^ k` elements. -/
def orOffCompactSeparateMark : (k z : Nat) → (marks : List Bool) → List α → List α
  | 0, _, _, xs => xs
  | 1, z, marks, xs =>
    let swapFlag := (!marks.getD 0 false && marks.getD 1 false).toNat != z
    let (left, right) := condSwapAll (fun _ => swapFlag) 0 (xs.take 1) (xs.drop 1)
    left ++ right
  | k + 2, z, marks, xs =>
    let half := 2 ^ (k + 1)
    let m := (marks.take half).count true
    let zLeft := z % half
    let zRight := (z + m) % half
    let left := orOffCompactSeparateMark (k + 1) zLeft (marks.take half) (xs.take half)
    let right := orOffCompactSeparateMark (k + 1) zRight (marks.drop half) (xs.drop half)
    let s := decide (half ≤ zLeft + m) != decide (half ≤ z)
    let (left, right) := condSwapAll (fun i => s != decide (zRight ≤ i)) 0 left right
    left ++ right

/-- `OrCompactSeparateMark`; `fuel` bounds the depth. -/
def orCompactSeparateMark : (fuel : Nat) → (marks : List Bool) → List α → List α
  | 0, _, xs => xs
  | fuel + 1, marks, xs =>
    let n := xs.length
    if n ≤ 1 then xs
    else
      let n1 := 2 ^ n.log2
      let n2 := n - n1
      if n2 = 0 then orOffCompactSeparateMark n.log2 0 marks xs
      else
        let m := (marks.take n2).count true
        let left := orCompactSeparateMark fuel (marks.take n2) (xs.take n2)
        let right := orOffCompactSeparateMark n.log2 ((n1 - n2 + m) % n1)
          (marks.drop n2) (xs.drop n2)
        let (left, last) := condSwapAll (fun i => decide (m ≤ i)) 0 left (right.drop (n1 - n2))
        left ++ right.take (n1 - n2) ++ last

/-- `OrCompact`. -/
def orCompact (isMarked : α → Bool) (xs : List α) : List α :=
  orCompactSeparateMark xs.length (xs.map isMarked) xs

/-! ## Prefix sums of the marks -/

/-- `markPrefix`: the sums of the marks up to every position, in words of `w` bits. -/
def markPrefix (w : Nat) (marks : List Bool) : List Nat :=
  marks.scanl (fun prefixSum mark => (prefixSum + mark.toNat) % 2 ^ w) 0

/-- `x - y` as a `size_t`. -/
def subWord (x y : Nat) : Nat := (x + (2 ^ 64 - y)) % 2 ^ 64

/-- `OrOffCompactSeparateMark` of `2 ^ k` elements with the sums from `markBegin` on. -/
def orOffCompactPrefix : (k z : Nat) → (markBegin : Nat → Nat) → List α → List α
  | 0, _, _, xs => xs
  | 1, z, markBegin, xs =>
    let valMarkMid := markBegin 1
    let m := subWord valMarkMid (markBegin 0)
    let swapFlag := (decide (m = 0)).toNat &&& subWord (markBegin 2) valMarkMid != z
    let (left, right) := condSwapAll (fun _ => swapFlag) 0 (xs.take 1) (xs.drop 1)
    left ++ right
  | k + 2, z, markBegin, xs =>
    let half := 2 ^ (k + 1)
    let m := subWord (markBegin half) (markBegin 0)
    let zLeft := z % half
    let zRight := (z + m) % 2 ^ 64 % half
    let left := orOffCompactPrefix (k + 1) zLeft markBegin (xs.take half)
    let right := orOffCompactPrefix (k + 1) zRight (fun i => markBegin (half + i)) (xs.drop half)
    let s := decide (half ≤ (zLeft + m) % 2 ^ 64) != decide (half ≤ z)
    let (left, right) := condSwapAll (fun i => s != decide (zRight ≤ i)) 0 left right
    left ++ right

/-- `OrCompactSeparateMark`; `fuel` bounds the depth. -/
def orCompactPrefix : (fuel : Nat) → (markBegin : Nat → Nat) → List α → List α
  | 0, _, xs => xs
  | fuel + 1, markBegin, xs =>
    let n := xs.length
    if n ≤ 1 then xs
    else
      let n1 := 2 ^ getLogBaseTwo n
      let n2 := n - n1
      if n2 = 0 then orOffCompactPrefix (getLogBaseTwo n) 0 markBegin xs
      else
        let m := subWord (markBegin n2) (markBegin 0)
        let left := orCompactPrefix fuel markBegin (xs.take n2)
        let right := orOffCompactPrefix (getLogBaseTwo n) ((n1 - n2 + m) % 2 ^ 64 % n1)
          (fun i => markBegin (n2 + i)) (xs.drop n2)
        let (left, last) := condSwapAll (fun i => decide (m ≤ i)) 0 left (right.drop (n1 - n2))
        left ++ right.take (n1 - n2) ++ last

/-- `OrCompact<MarkType>`, where a `MarkType` has `w` bits; 32 by default. -/
def orCompactMarkType (w : Nat) (isMarked : α → Bool) (xs : List α) : List α :=
  let sums := markPrefix w (xs.map isMarked)
  orCompactPrefix xs.length (fun i => sums.getD i 0) xs

/-! ## Compaction by distances -/

/-- The distances that the marked elements have to go, from the element `i` on. -/
def goodrichDist (isMarked : α → Bool) : (i numMarked : Nat) → List α → List Nat
  | _, _, [] => []
  | i, numMarked, x :: xs =>
    (i - numMarked) :: goodrichDist isMarked (i + 1)
    (if isMarked x then numMarked + 1 else numMarked) xs

/-- Move the element `j` by `2 ^ i` if it is marked and its distance has one of the low bits. The
state is the range and the distances. -/
def goodrichMove (isMarked : α → Bool) (i : Nat) (s : List α × List Nat) (j : Nat) :
    List α × List Nat :=
  let jMarked := s.1[j]?.any isMarked
  let dist := s.2.getD j 0
  let swapFlag := jMarked && dist &&& (2 ^ (i + 1) - 1) != 0
  if swapFlag then
    (swapAt j (j - 2 ^ i) s.1, s.2.set (j - 2 ^ i) (dist >>> (i + 1) <<< (i + 1)))
  else s

/-- One level. -/
def goodrichLevel (isMarked : α → Bool) (s : List α × List Nat) (i : Nat) : List α × List Nat :=
  (List.range' (2 ^ i) (s.1.length - 2 ^ i)).foldl (goodrichMove isMarked i) s

/-- The first `level` levels. -/
def goodrichLevels (isMarked : α → Bool) (level : Nat) (s : List α × List Nat) : List α :=
  ((List.range level).foldl (goodrichLevel isMarked) s).1

/-- `GoodrichCompact`. -/
def goodrichCompact (isMarked : α → Bool) (xs : List α) : List α :=
  goodrichLevels isMarked (getLogBaseTwo (getNextPowerOfTwo xs.length))
    (xs, goodrichDist isMarked 0 0 xs)

end EM.Algorithm
