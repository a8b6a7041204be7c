import OblSort.Algorithm.OrCompact

/-!
# Oblivious shuffling

`OrShuffle` (`algorithm/or_compact_shuffle.hpp`) marks half of a range at random, compacts it and
goes on with both halves. A `Tape` has all random draws of a call, in the shape of its recursion;
the draws are ideal.
-/

namespace EM.Algorithm

/-- The draws `UniformRandom(0, N - 1)` of one call, for `N` from `n` down to 1. -/
def Draws : Nat → Type
  | 0 => Unit
  | n + 1 => Fin (n + 1) × Draws n

/-- The random tapes of a range of `n` elements. -/
inductive Tape : Nat → Type
  | small {n : Nat} (h : n ≤ 1) : Tape n
  /-- `UniformRandomBit()`. -/
  | bit (flag : Bool) : Tape 2
  | node {n : Nat} (h : 3 ≤ n) (draws : Draws n) (left : Tape (n / 2)) (right : Tape (n - n / 2)) :
    Tape n

/-- The loop that marks `k` of `n` elements: the prefix sums it writes, from `currsum` on. -/
def drawSums : {n : Nat} → (k currsum : Nat) → Draws n → List Nat
  | 0, _, currsum, _ => [currsum]
  | _ + 1, k, currsum, (draw, draws) =>
    let chooseFlag := decide (draw.val < k)
    currsum :: drawSums (if chooseFlag then k - 1 else k)
      (if chooseFlag then currsum + 1 else currsum) draws

variable {α : Type}

def orShuffle : {n : Nat} → Tape n → List α → List α
  | _, .small _, xs => xs
  | _, .bit flag, xs =>
    let (left, right) := condSwapAll (fun _ => flag) 0 (xs.take 1) (xs.drop 1)
    left ++ right
  | n, .node _ draws left right, xs =>
    let halfSize := n / 2
    let sums := drawSums halfSize 0 draws
    let xs := orCompactPrefix n (fun i => sums.getD i 0) xs
    orShuffle left (xs.take halfSize) ++ orShuffle right (xs.drop halfSize)

end EM.Algorithm
