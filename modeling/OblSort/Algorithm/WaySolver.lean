import Mathlib.Algebra.Order.Field.Basic
import Mathlib.Order.WithBot
import OblSort.Algorithm.ParamSelect

/-!
# The way solver

`ButterflyWaySolver` (`algorithm/param_select.hpp`). Costs are elements of an ordered field, with
`⊤` for `INFINITY`. `none` when the fuel runs out: it bounds the depth of the recursion of
`solverHelper`.
-/

namespace EM.Algorithm

/-- `ButterflyWaySolver`, as the constructor leaves it: the options are sorted. -/
structure ButterflyWaySolver (K : Type) where
  options : List Nat
  unitCosts : List K
  ioCost : K
  maxWayInternal : Nat
  sorted : options.Pairwise (· ≤ ·)
  length_eq : unitCosts.length = options.length

namespace ButterflyWaySolver

variable {K : Type} [Field K] [LinearOrder K]

/-- `options[optionIdx]`. -/
def option (S : ButterflyWaySolver K) (optionIdx : Nat) : Nat := S.options.getD optionIdx 0

/-- A cost and the ways it is for. -/
abbrev Solution (K : Type) : Type := WithTop K × List Nat

/-- The product of the ways, from `product` on. -/
def waysProduct (product : Nat) (ways : List Nat) : Nat :=
  ways.foldl (fun product way => product * way % 2 ^ 64) product

/-- The ways of the children and then the option. -/
def withOption (S : ButterflyWaySolver K) (optionIdx : Nat) (children : Solution K) : Solution K :=
  let option := S.option optionIdx
  let product := waysProduct option children.2
  (children.1.map fun costChildren =>
      costChildren * option + S.unitCosts.getD optionIdx 0 * product,
    children.2 ++ [option])

/-- `if (cost < minCost)`. -/
def better (best candidate : Solution K) : Solution K :=
  if candidate.1 < best.1 then candidate else best

end ButterflyWaySolver

end EM.Algorithm
