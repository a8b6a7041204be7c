import OblSort.Algorithm.Bitonic
import OblSort.Algorithm.MergeSplit
import OblSort.Algorithm.OrCompact

/-!
# Merge-split in place

`MergeSplitInPlace` (`algorithm/sort_building_blocks.hpp`) changes the marks of dummies until as
many elements are marked as not, and partitions the range by one of four methods. A call that finds
too few dummies aborts, here `none`.
-/

namespace EM.Algorithm

/-- `PartitionMethod` of `algorithm/sort_def.hpp`. -/
inductive PartitionMethod
  | interleavePartition
  | orCompact
  | goodrichCompact
  | bitonic
  deriving Repr, DecidableEq

variable {E Indicator : Type} [Markable E Indicator]

/-- `cmp` of the partition by sorting. -/
def cmpMarked (indicator : Indicator) (element1 element2 : E) : Bool :=
  (Markable.isMarked indicator element1 && !Markable.isMarked indicator element2) ||
    (Markable.isDummy element2 && !Markable.isMarked indicator element2)

/-- The `switch` over the method. -/
def partitionMarked (indicator : Indicator) (method : PartitionMethod) (xs : List E) : List E :=
  match method with
  | .interleavePartition => interleaveTwoWayPartitionRange (Markable.isMarked indicator) xs
  | .orCompact => orCompactMarkType 32 (Markable.isMarked indicator) xs
  | .goodrichCompact => goodrichCompact (Markable.isMarked indicator) xs
  | .bitonic => bitonicSortList (cmpMarked indicator) xs

/-- `diff`: `Z - markCount`, negated if `dir` is set. -/
def markDiff (Z markCount : BitVec 64) (dir : Bool) : BitVec 64 :=
  if dir then -(Z - markCount) else Z - markCount

def mergeSplitInPlace (indicator : Indicator) (method : PartitionMethod) (xs : List E) :
    Option (List E) :=
  let Z := xs.length / 2
  let marked := xs.map (Markable.setAndGetMarked indicator)
  let markCount := marked.countP (·.1)
  let dir := decide (markCount > Z)
  let diff := markDiff (BitVec.ofNat 64 Z) (BitVec.ofNat 64 markCount) dir
  let (diff, xs) := changeMarks indicator dir diff.toNat (marked.map (·.2))
  if diff ≠ 0 then none else some (partitionMarked indicator method xs)

end EM.Algorithm
