import OblSort.Algorithm.KWayButterflySort

/-!
# Parameter selection

The part of `bestKWayButterflyParams` and of `ButterflyWaySolver` (`algorithm/param_select.hpp`)
that decides how much memory a batch takes: the search for a bucket count, the loop over the bucket
sizes with its guard, and the grouping of the chosen ways into layers.

`size_t` and `uint64_t` wrap around at `2 ^ 64`.
-/

namespace EM.Algorithm

/-- Subtraction of `size_t`. -/
def sub64 (a b : Nat) : Nat := (a + (2 ^ 64 - b % 2 ^ 64)) % 2 ^ 64

/-- `divRoundUp` of `size_t`. -/
def divRoundUp64 (x y : Nat) : Nat := (x + y - 1) % 2 ^ 64 / y

/-! ## Search -/

/-- `lowerBound(left, right, satisfy, prec)`; `none` when the fuel runs out. -/
def lowerBound (satisfy : Nat → Bool) (prec : Nat) : (fuel left right : Nat) → Option Nat
  | 0, _, _ => none
  | fuel + 1, left, right =>
    let mid := (left + right) % 2 ^ 64 / 2
    if satisfy mid then
      if sub64 mid left ≤ prec then some mid else lowerBound satisfy prec fuel left mid
    else
      if sub64 right mid ≤ prec then some right else lowerBound satisfy prec fuel mid right

/-! ## Element types -/

/-- Size and alignment of an element type. -/
structure ElemType where
  size : Nat
  align : Nat
  size_pos : 0 < size
  align_pos : 0 < align

/-- The next multiple of `align`. -/
def ElemType.roundUp (n align : Nat) : Nat := (n + align - 1) / align * align

/-- `sizeof(TaggedT<T>)`: the tag, the element and the padding, which depends on the build. -/
def ElemType.sizeofTaggedT (avx : Bool) (T : ElemType) : Nat :=
  let paddingSize := if avx && T.size % 32 == 16 then 8 else 0
  roundUp (roundUp 8 T.align + T.size + paddingSize) (max 8 T.align)

/-! ## Bucket sizes -/

/-- What is reserved for merge-splitting, in elements: `divRoundUp((b + 2) * Z * 8, b)`. -/
def reservedElements (b Z : Nat) : Nat := divRoundUp64 ((b + 2) * Z * 8 % 2 ^ 64) b

/-- A bucket size that the way solver is called for. -/
structure Candidate where
  Z : Nat
  M0 : Nat
  maxWayInternal : Nat
  deriving Repr, DecidableEq

/-- The loop over the bucket sizes, from `i` on. `none` is the abort on an input or a memory that is
too small. -/
def bucketSizeLoop (N M b : Nat) : (rounds i : Nat) → Option (List Candidate)
  | 0, _ => some []
  | rounds + 1, i =>
    let logZ := 8 + i
    let Z := 1 <<< logZ
    let M0 := sub64 M (reservedElements b Z)
    if Z > N / 2 ∨ 16 * Z > M0 then
      if i = 0 then none else some []
    else (bucketSizeLoop N M b rounds (i + 1)).map (⟨Z, M0, M0 / Z⟩ :: ·)

/-- The bucket sizes that `bestKWayButterflyParams(N, M, b)` passes on to the way solver. -/
def bucketSizes (N M b : Nat) : Option (List Candidate) := bucketSizeLoop N M b 7 0

/-! ## Layers -/

/-- The ways of a merge-split. -/
def choices : List Nat := [2, 3, 4, 5, 6, 7, 8]

/-- The loop of `ButterflyWaySolver::solve` that cuts the ways into layers; `layer` is the one in
progress and `accWays` its product. -/
def layersLoop (maxWayInternal : Nat) : (accWays : Nat) → (layer ways : List Nat) → List (List Nat)
  | _, layer, [] => [layer]
  | accWays, layer, way :: ways =>
    if accWays * way % 2 ^ 64 > maxWayInternal then
      if layer.isEmpty then layersLoop maxWayInternal way [way] ways
      else layer :: layersLoop maxWayInternal way [way] ways
    else layersLoop maxWayInternal (accWays * way % 2 ^ 64) (layer ++ [way]) ways

/-- The layers that `solve` returns for the ways it has found best. -/
def solverLayers (maxWayInternal : Nat) (optimalWays : List Nat) : List (List Nat) :=
  layersLoop maxWayInternal 1 [] optimalWays

end EM.Algorithm
