import OblSort.Common.Utils
import OblSort.Lib.Loop
import OblSort.Lib.Network

/-!
# Randomized Shellsort

`ShellSort` (`algorithm/randomized_shell_sort.hpp`). A position that is not in the range, which the
source reads and writes all the same, ends the run here; the error is the pair of positions. The
loops count in `int64_t`: a bound below zero is zero here.
-/

namespace EM.Algorithm.ShellSort

open Loop

variable {α : Type}

/-- `C`: how often two regions are compared. -/
def C : Nat := 4

/-- What the sort works on: the draws of `rand64` to come, and the range. -/
structure State (α : Type) where
  rand64 : Nat → BitVec 64
  elems : List α

/-- `compareExchange(i, j)`. -/
def compareExchange (lt : α → α → Bool) (i j : Nat) (s : State α) : Except (Nat × Nat) (State α) :=
  if i < s.elems.length ∧ j < s.elems.length then
    .ok { s with elems := Net.condSwap (fun a b => decide (i < j) != lt a b) i j s.elems }
  else .error (i, j)

/-- One round of `compareRegions(s, t, offset)`: `mate` is shuffled, with `offset - 1` draws, and
each position of the first region meets its mate of the second. -/
def compareRound (lt : α → α → Bool) (begin₁ begin₂ offset : Nat) (s : State α) :
    Except (Nat × Nat) (State α) :=
  let mate := (fisherYatesShuffle s.rand64 (List.range offset)).getD []
  let s := { s with rand64 := fun i => s.rand64 (i + (offset - 1)) }
  forRange offset (fun i => compareExchange lt (begin₁ + i) (begin₂ + mate.getD i 0)) s

/-- `compareRegions(s, t, offset)`. -/
def compareRegions (lt : α → α → Bool) (begin₁ begin₂ offset : Nat) (s : State α) :
    Except (Nat × Nat) (State α) :=
  forRange C (fun _ => compareRound lt begin₁ begin₂ offset) s

/-- The six passes for one `offset`. -/
def passes (lt : α → α → Bool) (n offset : Nat) (s : State α) : Except (Nat × Nat) (State α) := do
  let s ← forUp (n - offset) offset (fun i => compareRegions lt i (i + offset) offset) 0 s
  let s ← forDown offset offset (fun i => compareRegions lt (i - offset) i offset) (n - offset) s
  let s ← forUp (n - 3 * offset) offset (fun i => compareRegions lt i (i + 3 * offset) offset) 0 s
  let s ← forUp (n - 2 * offset) offset (fun i => compareRegions lt i (i + 2 * offset) offset) 0 s
  let s ← forUp n (2 * offset) (fun i => compareRegions lt i (i + offset) offset) 0 s
  forUp (n - offset) (2 * offset) (fun i => compareRegions lt i (i + offset) offset) offset s

/-- The loop over the offsets. -/
def offsetLoop (lt : α → α → Bool) (n offset : Nat) (s : State α) : Except (Nat × Nat) (State α) :=
  if offset > 0 then passes lt n offset s >>= offsetLoop lt n (offset / 2) else .ok s
termination_by offset

/-- `RandomizedShellSort`. -/
def randomizedShellSort (lt : α → α → Bool) (rand64 : Nat → BitVec 64) (xs : List α) :
    Except (Nat × Nat) (List α) :=
  (offsetLoop lt xs.length (xs.length / 2) ⟨rand64, xs⟩).map State.elems

end EM.Algorithm.ShellSort
