import OblSort.Lib.Network

/-!
# Partitioning off the dummies

`partitionDummy` (`algorithm/sort_building_blocks.hpp`): two pointers walk towards each other and
exchange a dummy on the left with a real element on the right.
-/

namespace EM.Algorithm

variable {E : Type}

/-- The loops of `partitionDummy` on the range `xs`. `scanRight` tells which of the two inner loops
is running; a step moves one pointer or exchanges two elements. `none` when the range is left on the
way or `fuel` is used up. -/
def partitionDummyLoop (isDummy : E → Bool) :
    (fuel : Nat) → (scanRight : Bool) → (left right : Nat) → List E → Option (List E × Nat)
  | 0, _, _, _, _ => none
  | fuel + 1, false, left, right, xs =>
    match xs[left]? with
    | none => none
    | some x =>
      if isDummy x then partitionDummyLoop isDummy fuel true left right xs
      else if right ≤ left + 1 then some (xs, left + 1)
      else partitionDummyLoop isDummy fuel false (left + 1) right xs
  | fuel + 1, true, left, right, xs =>
    match xs[right]? with
    | none => none
    | some x =>
      if isDummy x then
        if right - 1 ≤ left then some (xs, left)
        else partitionDummyLoop isDummy fuel true left (right - 1) xs
      else partitionDummyLoop isDummy fuel false left right
        (Net.condSwap (fun _ _ => true) left right xs)

/-- `partitionDummy`: the rearranged range and where its dummies begin. -/
def partitionDummy (isDummy : E → Bool) (xs : List E) : Option (List E × Nat) :=
  partitionDummyLoop isDummy (3 * xs.length + 1) false 0 (xs.length - 1) xs

end EM.Algorithm
