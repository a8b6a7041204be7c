import OblSort.Algorithm.OrShuffle
import OblSort.Algorithm.WaksOnOff
import OblSort.Lib.Trace

/-!
# Shuffling with a Waksman network

`WaksOnOffShuffle` (`algorithm/waks_on_off.hpp`): the offline phase shuffles the numbers of the
positions and computes the control bits for them, the online phase applies them to the data.
`WaksShuffleMockOffline` makes a circuit without computing any bits.

The online phase a second time, with the suffix `T`, records every switch it comes to: the control
bit it reads and the two positions it passes to `condSwap`.
-/

namespace EM.Algorithm.WaksOnOff

open Trace Traced

variable {α : Type}

/-! ## The two phases -/

/-- `WaksShuffleOffline(permBegin, permEnd)`. -/
def waksShuffleOfflinePerm (R : Random) (P : List Nat) : Option ControlCircuit :=
  (controlBits R P.length P 0 ⟨0, 0⟩).map Prod.fst

/-- `WaksShuffleOffline(n)`; `t` has the draws of its `OrShuffle`. -/
def waksShuffleOffline (R : Random) {n : Nat} (t : Tape n) : Option ControlCircuit :=
  waksShuffleOfflinePerm R (orShuffle t (List.range n))

/-- `WaksOnOffShuffle`. -/
def waksOnOffShuffle (R : Random) {n : Nat} (t : Tape n) (xs : List α) : Option (List α) :=
  (waksShuffleOffline R t).bind fun C => waksShuffleOnline C xs

/-- `MockControlBits`. -/
def mockControlBits (n : Nat) : ControlCircuit :=
  let k := divRoundUp n 2
  if n < 2 then .null
  else
    .node (List.replicate (k - 1) false) (List.replicate (n - k) false)
      (if _ : n > 2 then mockControlBits k else .null)
      (if _ : n > 2 then mockControlBits (n - k) else .null)
termination_by n
decreasing_by
  all_goals
    simp only [divRoundUp]
    omega

/-! ## The switches that the online phase comes to -/

/-- Control bit `i` of the input or of the output layer, in the network of the `n` positions from
`begin`, for the positions `left` and `right`. -/
structure Switch where
  begin : Nat
  n : Nat
  isOutput : Bool
  i : Nat
  left : Nat
  right : Nat
  deriving DecidableEq, Repr

def switchLayerT (bits : List Bool) (begin n : Nat) (isOutput : Bool) (k : Nat) :
    (count : Nat) → List α → Traced Switch (List α)
  | 0, xs => pure xs
  | i + 1, xs => do
    let xs ← switchLayerT bits begin n isOutput k i xs
    match bits[i]? with
    | none => stop
    | some b => do
      record ⟨begin, n, isOutput, i, begin + i, begin + (k + i)⟩
      pure (Net.condSwap (fun _ _ => b) i (k + i) xs)

def waksShuffleOnlineT : ControlCircuit → (begin : Nat) → List α → Traced Switch (List α)
  | .null, _, xs => if xs.length = 1 then pure xs else stop
  | .node inputs outputs top bot, begin, xs => do
    let n := xs.length
    let k := divRoundUp n 2
    let xs ← switchLayerT inputs begin n false k (k - 1) xs
    let xs ← (if n > 2 then do
        let left ← waksShuffleOnlineT top begin (xs.take k)
        let right ← waksShuffleOnlineT bot (begin + k) (xs.drop k)
        pure (left ++ right)
      else pure xs)
    switchLayerT outputs begin n true k (n - k) xs

/-- The switches of the first `count` pairs of a layer. -/
def layer (begin n : Nat) (isOutput : Bool) (k count : Nat) : List Switch :=
  (List.range count).map fun i => ⟨begin, n, isOutput, i, begin + i, begin + (k + i)⟩

/-- The switches of a network for the `n` positions from `begin`. -/
def switches (begin n : Nat) : List Switch :=
  let k := divRoundUp n 2
  if n < 2 then []
  else
    layer begin n false k (k - 1) ++ (switches begin k ++ switches (begin + k) (n - k)) ++
      layer begin n true k (n - k)
termination_by n
decreasing_by
  all_goals
    simp only [divRoundUp]
    omega

end EM.Algorithm.WaksOnOff
