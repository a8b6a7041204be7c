import OblSort.Algorithm.Interleave
import OblSort.Algorithm.SortDef
import Mathlib.Data.Fintype.Basic

/-!
# Merge-split

`MergeSplitTwoWay` and `MergeSplitKWay` (`algorithm/sort_building_blocks.hpp`), which move the real
elements of `k` buckets to the bucket of their mark and fill up with dummies. Marks come from the
tag (`mergeSplitKWay`) or from `k - 1` pivots (`mergeSplitKWayPivot`). A call that finds too few
dummies aborts, here `none`.

`Lanes` are the eight 32-bit lanes of `m256i` in which the remaining counts of the marks are kept
(`common/mov_intrinsics.hpp`, with AVX2).
-/

namespace EM.Algorithm

/-! ## Lanes -/

abbrev Lanes := Fin 8 → BitVec 32

namespace Lanes

/-- `mm256_set1_epi32`. -/
def set1 (Z : Nat) : Lanes := fun _ => BitVec.ofNat 32 Z

/-- `mm256_decrement_epi32_var_indx`: no lane changes when `i` is none of their numbers. -/
def decrement (v : Lanes) (i : Nat) : Lanes := fun j => if j.val = i then v j - 1 else v j

/-- `mm256_contain_le_zero`, on signed lanes. -/
def containLeZero (v : Lanes) : Bool := decide (∃ j, (v j).toInt ≤ 0)

/-- `mm256_extract_epi32_var_indx`: the permutation reads the low three bits of the index. -/
def extract (v : Lanes) (i : Nat) : BitVec 32 := v (Fin.ofNat 8 i)

end Lanes

/-! ## Two ways -/

section TwoWay

variable {E Indicator : Type} [Markable E Indicator]

/-- The second loop of `MergeSplitTwoWay`: `diff` dummies whose mark is `dir` change it. -/
def changeMarks (indicator : Indicator) (dir : Bool) : (diff : Nat) → List E → Nat × List E
  | diff, [] => (diff, [])
  | diff, x :: xs =>
    let changeMark := Markable.isDummy x && decide (diff ≠ 0) &&
      Markable.isMarked indicator x == dir
    let x := Markable.condChangeMark changeMark indicator x
    let rest := changeMarks indicator dir (diff - changeMark.toNat) xs
    (rest.1, x :: rest.2)

/-- `MergeSplitTwoWay` with `INTERLEAVE_PARTITION`. -/
def mergeSplitTwoWay (Z : Nat) (indicator : Indicator) (left right : List E) :
    Option (List E × List E) :=
  let marked := (left ++ right).map (Markable.setAndGetMarked indicator)
  let markCount := marked.countP (·.1)
  let dir := decide (markCount > Z)
  let diff := if dir then markCount - Z else Z - markCount
  let (diff, xs) := changeMarks indicator dir diff (marked.map (·.2))
  if diff ≠ 0 then none
  else some (interleaveTwoWayPartition (Markable.isMarked indicator) (xs.take Z) (xs.drop Z))

end TwoWay

/-! ## Several ways -/

section Multi

variable {E : Type}

/-- The first loop of `MergeSplitKWay`: the elements with their marks, 255 for a dummy, and the
counts that remain. -/
def markElements (isDummy : E → Bool) (getMark : E → Nat × E) :
    List E → Lanes → List (Nat × E) × Lanes
  | [], remainCounts => ([], remainCounts)
  | x :: xs, remainCounts =>
    let (mark, x') := getMark x
    let mark := if isDummy x then 255 else mark
    let rest := markElements isDummy getMark xs (remainCounts.decrement mark)
    ((mark, x') :: rest.1, rest.2)

/-- The second loop: the dummies get the marks that remain, in order. -/
def assignMarks (remainCounts : Lanes) :
    (currMark : Nat) → (currRemain : BitVec 32) → List (Nat × E) → List (Nat × E)
  | _, _, [] => []
  | currMark, currRemain, (mark, x) :: xs =>
    let isDummy := mark == 255
    let mark := if isDummy then currMark % 256 else mark
    let currRemain := if isDummy then currRemain - 1 else currRemain
    let currMark := if currRemain = 0 then currMark + 1 else currMark
    let currRemain := if currRemain = 0 then remainCounts.extract currMark else currRemain
    (mark, x) :: assignMarks remainCounts currMark currRemain xs

/-- The copy back: position `p` of the interleaved range goes to bucket `p % k`. -/
def column (k j : Nat) (xs : List E) : List E :=
  (xs.zipIdx.filter fun p => p.2 % k == j).map Prod.fst

/-- `MergeSplitKWay` for `k ≥ 3`. -/
def mergeSplitMulti (isDummy : E → Bool) (getMark : E → Nat × E) (k Z : Nat)
    (buckets : List (List E)) : Option (List (List E)) := do
  let (marked, remainCounts) := markElements isDummy getMark buckets.flatten (Lanes.set1 Z)
  if remainCounts.containLeZero then none
  else
    let temp ← interleave k (assignMarks remainCounts 0 (remainCounts.extract 0) marked)
    pure ((List.range k).map fun j => column k j (temp.map Prod.snd))

end Multi

section KWay

variable {α : Type}

/-- `tag = (int64_t)tag >> 1`. -/
def TaggedT.shiftTag (x : TaggedT α) : TaggedT α := { x with tag := x.tag.sshiftRight 1 }

/-- `MergeSplitKWay` without pivots. -/
def mergeSplitKWay (k Z : Nat) (buckets : List (List (TaggedT α))) :
    Option (List (List (TaggedT α))) :=
  if k = 2 then
    (mergeSplitTwoWay Z 1#64 (buckets.getD 0 []) (buckets.getD 1 [])).map fun p =>
      [p.1.map TaggedT.shiftTag, p.2.map TaggedT.shiftTag]
  else mergeSplitMulti TaggedT.isDummy (TaggedT.getMarkAndUpdate k) k Z buckets

/-- The mark of an element by pivots: how many of them are below it. -/
def pivotMark [SortKey α] (pivots : List (Block α)) (x : Block α) : Nat :=
  pivots.countP fun pivot => pivot.lt x

/-- `MergeSplitKWay` with pivots. -/
def mergeSplitKWayPivot [SortKey α] (k Z : Nat) (pivots : List (Block α))
    (buckets : List (List (Block α))) : Option (List (List (Block α))) :=
  if k = 2 then do
    let pivot ← pivots.head?
    let p ← mergeSplitTwoWay Z pivot (buckets.getD 0 []) (buckets.getD 1 [])
    pure [p.1, p.2]
  else mergeSplitMulti Block.dummyFlag (fun x => (pivotMark (pivots.take (k - 1)) x, x)) k Z buckets

end KWay

end EM.Algorithm
