import OblSort.Algorithm.Bitonic
import OblSort.Algorithm.SortDef
import OblSort.Common.Utils

/-!
# Waksman shuffle

`WaksOnOff` (`algorithm/waks_on_off.hpp`): `ControlBits` computes the control bits of a Waksman
network for a permutation, `WaksShuffleOnline` applies them to data.

A range of the source is a list. What a run takes at random, the keys of its PRPs and its draws, is
a `Random`, used up in order as `Drawn` counts. `none` stands for an access out of range.
-/

namespace EM.Algorithm.WaksOnOff

variable {α : Type}

/-- `ControlCircuit`; `null` is the null pointer. -/
inductive ControlCircuit
  | null
  | node (inputs outputs : List Bool) (top bot : ControlCircuit)
  deriving Repr, DecidableEq

/-- The switches between `i` and `k + i`, for `i < count`. -/
def switchLayer (bits : List Bool) (k : Nat) : (count : Nat) → List α → Option (List α)
  | 0, xs => some xs
  | i + 1, xs => do
    let xs ← switchLayer bits k i xs
    let b ← bits[i]?
    some (Net.condSwap (fun _ _ => b) i (k + i) xs)

/-- `WaksShuffleOnline`. -/
def waksShuffleOnline : ControlCircuit → List α → Option (List α)
  | .null, xs => if xs.length = 1 then some xs else none
  | .node inputs outputs top bot, xs =>
    let n := xs.length
    let k := divRoundUp n 2
    (switchLayer inputs k (k - 1) xs).bind fun xs =>
    (if n > 2 then
      (waksShuffleOnline top (xs.take k)).bind fun left =>
      (waksShuffleOnline bot (xs.drop k)).bind fun right => some (left ++ right)
    else some xs).bind fun xs =>
    switchLayer outputs k (n - k) xs

/-! ## Randomness -/

/-- The PRPs of the calls of `InBits`, and the results of `UniformRandom(u - 1)`. -/
structure Random where
  forwardPrp : (call : Nat) → Nat → BitVec 64
  backwardPrp : (call : Nat) → Nat → BitVec 64
  uniformRandom : (draw u : Nat) → Nat

/-- How much of it has been used. -/
structure Drawn where
  calls : Nat
  draws : Nat
  deriving Repr, DecidableEq

/-! ## Look-up tables -/

/-- `ForwardLookUpStruct`. -/
abbrev ForwardLookUp := List (TaggedT (Nat × Nat))

/-- `CreateForwardLookUp`: the pairs `(i, P[i] >> d)` in the order of the PRP of `i`, with a pair
`(n, n)` more when `n` is odd. -/
def createForwardLookUp (P : List Nat) (d : Nat) (forwardPrp : Nat → BitVec 64) : ForwardLookUp :=
  let n := P.length
  let k := divRoundUp n 2
  let m := 2 * k
  bitonicSortList (fun a b => a.tag.ult b.tag)
    ((List.range m).map fun i => ⟨forwardPrp i, (i, (P.map (· >>> d)).getD i n)⟩)

/-- `CreateReverseLookUp`: by the PRP of the second component of a pair, the first one and where it
is; an absent key reads as zeros. -/
def createReverseLookUp (F : ForwardLookUp) (reversePrp : Nat → BitVec 64) :
    BitVec 64 → Nat × Nat :=
  F.zipIdx.foldl (fun R p => Function.update R (reversePrp p.1.v.2) (p.1.v.1, p.2)) fun _ => (0, 0)

/-! ## Counts of what is not selected -/

/-- `CreateUnselectedCountsHelper` on the `n` counts from `begin`: the last count of the first half
is its length. -/
def createUnselectedCountsHelper (begin n : Nat) (U : List Nat) : List Nat :=
  if n < 2 then U
  else
    let k := divRoundUp n 2
    createUnselectedCountsHelper (begin + k) (n - k)
      (createUnselectedCountsHelper begin k (U.set (begin + k - 1) k))
termination_by n
decreasing_by
  all_goals
    simp only [divRoundUp]
    omega

/-- `CreateUnselectedCounts`. -/
def createUnselectedCounts (n : Nat) : List Nat :=
  let U := (List.replicate n 0).set (n - 1) n
  if n < 2 then U else createUnselectedCountsHelper 0 n U

/-- `DecUnselectedCounts` on the `n` counts from `begin`, for their position `l`. -/
def decUnselectedCounts (begin n l : Nat) (U : List Nat) : Option (List Nat) :=
  if n = 0 then none
  else
    let k := divRoundUp n 2
    if l < k then
      let U := U.modify (begin + n - 1) (· - 1)
      if n > 1 then decUnselectedCounts begin k l U else some U
    else decUnselectedCounts (begin + k) (n - k) (l - k) U
termination_by n
decreasing_by
  all_goals
    simp only [divRoundUp]
    omega

/-! ## The walk -/

/-- The search of `ForwardOrRand` from `i` to `j`: for the tag `h`, or with `b` for the `rho`-th
position that is not selected. -/
def forwardOrRandLoop (F : ForwardLookUp) (U : List Nat) (h : BitVec 64) (b : Bool) :
    (fuel i j rho : Nat) → Option Nat
  | 0, _, _, _ => none
  | fuel + 1, i, j, rho =>
    let l := (i + j) / 2
    if i = j then some l
    else do
      let x ← F[l]?
      let u ← U[l]?
      if if b then u ≤ rho else x.tag.ult h then forwardOrRandLoop F U h b fuel (l + 1) j (rho - u)
      else forwardOrRandLoop F U h b fuel i l rho

/-! ### With the subtractions checked

The same functions with all of their variables. A subtraction on unsigned words that wraps around is
`none`.
-/

/-- `a - b`, if it does not wrap around. -/
def checkedSub (a b : Nat) : Option Nat := if b ≤ a then some (a - b) else none

/-- `DecUnselectedCounts`. -/
def decUnselectedCountsChecked (begin n l : Nat) (U : List Nat) : Option (List Nat) :=
  if n = 0 then none
  else
    let k := divRoundUp n 2
    if l < k then
      (U[begin + n - 1]?).bind fun count =>
      (checkedSub count 1).bind fun count =>
      let U := U.set (begin + n - 1) count
      if n > 1 then decUnselectedCountsChecked begin k l U else some U
    else
      (checkedSub l k).bind fun l => decUnselectedCountsChecked (begin + k) (n - k) l U
termination_by n
decreasing_by
  all_goals
    simp only [divRoundUp]
    omega

/-- The loop of `ForwardOrRand`; `u` is the number of positions from `i` to `j` that are not
selected. -/
def forwardOrRandLoopChecked (F : ForwardLookUp) (U : List Nat) (h : BitVec 64) (b : Bool) :
    (fuel i j u rho : Nat) → Option Nat
  | 0, _, _, _, _ => none
  | fuel + 1, i, j, u, rho =>
    let l := (i + j) / 2
    if i = j then some l
    else do
      let x ← F[l]?
      let count ← U[l]?
      if if b then count ≤ rho else x.tag.ult h then
        let u ← checkedSub u count
        let rho ← checkedSub rho count
        forwardOrRandLoopChecked F U h b fuel (l + 1) j u rho
      else forwardOrRandLoopChecked F U h b fuel i l count rho

/-- `ForwardOrRand`, when `UniformRandom(right)` draws `uniformRandom right`. -/
def forwardOrRandChecked (F : ForwardLookUp) (U : List Nat) (f : Nat) (b : Bool)
    (forwardPrp : Nat → BitVec 64) (uniformRandom : Nat → Nat) : Option Nat := do
  let n := F.length
  let h := forwardPrp f
  let j ← checkedSub n 1
  let u ← U[j]?
  let right ← checkedSub u 1
  forwardOrRandLoopChecked F U h b n 0 j u (uniformRandom right)

/-! ### Steps -/

/-- The associate of a position: the other one of its pair. -/
def associate (k x : Nat) : Nat := if x < k then x + k else x - k

/-- One step of the walk: from `f`, or from a random position with `b`, to the position `s` whose
value is the associate of the one of `f`. Both are marked as selected. -/
def visit (R : Random) (call draw k : Nat) (F : ForwardLookUp) (rev : BitVec 64 → Nat × Nat)
    (f : Nat) (b : Bool) (U : List Nat) : Option (Nat × Nat × List Nat) := do
  let n := F.length
  let u ← U[n - 1]?
  let l ← forwardOrRandLoop F U (R.forwardPrp call f) b n 0 (n - 1) (R.uniformRandom draw u)
  let x ← F[l]?
  let (f, g) := x.v
  let U ← decUnselectedCounts 0 n l U
  let r := associate k g
  let (s, l2) := rev (R.backwardPrp call r)
  let U ← decUnselectedCounts 0 n l2 U
  some (f, s, U)

/-- The state of the walk: the next position, the start of its cycle, the counts, and the control
bits with their switches. -/
structure Walk where
  f : Nat
  c : Nat
  U : List Nat
  bits : List (TaggedT Bool)

/-- One round of the loop of `InBits`. -/
def walkStep (R : Random) (call draw k : Nat) (F : ForwardLookUp) (rev : BitVec 64 → Nat × Nat)
    (w : Walk) : Option Walk := do
  let b := w.f == w.c
  let (f, s, U) ← visit R call draw k F rev w.f b w.U
  some {
    f := associate k s
    c := if b then f else w.c
    U := U
    bits := w.bits ++ [⟨BitVec.ofNat 64 (f - if f ≥ k then k else 0), decide (f ≥ k)⟩] }

/-- The loop of `InBits`. -/
def walkLoop (R : Random) (call draw k : Nat) (F : ForwardLookUp) (rev : BitVec 64 → Nat × Nat) :
    (count : Nat) → Walk → Option Walk
  | 0, w => some w
  | i + 1, w => do
    let w ← walkLoop R call draw k F rev i w
    walkStep R call (draw + i) k F rev w

/-- `InBits`. -/
def inBits (R : Random) (drawn : Drawn) (P : List Nat) (d : Nat) : Option (List Bool × Drawn) :=
  let n := P.length
  let k := divRoundUp n 2
  if n ≤ 2 then some (List.replicate (k - 1) false, drawn)
  else do
    let call := drawn.calls
    let F := createForwardLookUp P d (R.forwardPrp call)
    let rev := createReverseLookUp F (R.backwardPrp call)
    let U := createUnselectedCounts (2 * k)
    let (f, s, U) ← visit R call drawn.draws k F rev (k - 1) false U
    let w ← walkLoop R call (drawn.draws + 1) k F rev (k - 1) ⟨associate k s, f, U, []⟩
    let sorted := bitonicSortList (fun a b => a.tag.ult b.tag) w.bits
    some (sorted.map TaggedT.v, ⟨call + 1, drawn.draws + k⟩)

/-! ## Control bits -/

/-- Reduce a value modulo `k`, with a bit to undo it. -/
def reduce (k d x : Nat) : Nat :=
  let b := decide (x >>> d ≥ k)
  ((x + (2 ^ 64 - (if b then k else 0) <<< d % 2 ^ 64)) % 2 ^ 64) <<< 1 % 2 ^ 64 ||| b.toNat

/-- Undo the reduction. -/
def undo (k d x : Nat) : Nat :=
  let b := x &&& 1 == 1
  (x >>> 1 + (if b then k else 0) <<< d) % 2 ^ 64

/-- The control bits of the output layer, applied to `P`. -/
def outBits (k : Nat) : (count : Nat) → List Nat → Option (List Bool × List Nat)
  | 0, P => some ([], P)
  | i + 1, P => do
    let (out, P) ← outBits k i P
    let x ← P[i]?
    let b := x &&& 1 == 1
    some (out ++ [b], Net.condSwap (fun _ _ => b) i (k + i) P)

/-- `ControlBits` on the `n` values `P`: the circuit, and `P` afterwards. -/
def controlBits (R : Random) (n : Nat) (P : List Nat) (d : Nat) (drawn : Drawn) :
    Option (ControlCircuit × List Nat × Drawn) :=
  let k := divRoundUp n 2
  if n < 2 then some (.null, P, drawn)
  else
    (inBits R drawn P d).bind fun (inputs, drawn) =>
    (if n > 2 then switchLayer inputs k (k - 1) P else some P).bind fun P =>
    let P := P.map (reduce k d)
    (if _ : n > 2 then
      (controlBits R k (P.take k) (d + 1) drawn).bind fun (top, left, drawn) =>
      (controlBits R (n - k) (P.drop k) (d + 1) drawn).bind fun (bot, right, drawn) =>
      some (top, bot, left ++ right, drawn)
    else some (.null, .null, P, drawn)).bind fun (top, bot, P, drawn) =>
    (outBits k (n - k) P).bind fun (outputs, P) =>
    some (.node inputs outputs top bot, P.map (undo k d), drawn)
termination_by n
decreasing_by
  all_goals
    simp only [divRoundUp]
    omega

end EM.Algorithm.WaksOnOff
