import OblSort.Algorithm.EdgeRec
import OblSort.Algorithm.StaticSort
import OblSort.Common.Utils

/-!
# Interleaving

`InterleaveTwoWay`, its partition and `Interleave` (`algorithm/sort_building_blocks.hpp`). A range
is a list. `Interleave` swaps elements and marks together; here each element is paired with its
mark.
-/

namespace EM.Algorithm

variable {α : Type}

/-! ## Two ways -/

/-- The loop of `InterleaveTwoWay` over the paired positions of the two halves: unequal marks are
put so that the left one is `targetBit`, which then changes. -/
def balanceMarks (isMarked : α → Bool) (targetBit : Bool) : List α → List α → List α × List α
  | a :: left, b :: right =>
    let swapFlag := isMarked a != targetBit
    let rest := balanceMarks isMarked (isMarked b != swapFlag) left right
    if swapFlag then (b :: rest.1, a :: rest.2) else (a :: rest.1, b :: rest.2)
  | left, right => (left, right)

theorem length_balanceMarks (isMarked : α → Bool) (targetBit : Bool) (left right : List α) :
    (balanceMarks isMarked targetBit left right).1.length = left.length ∧
      (balanceMarks isMarked targetBit left right).2.length = right.length := by
  induction left generalizing targetBit right with
  | nil => cases right <;> simp [balanceMarks]
  | cons a left ih =>
    cases right with
    | nil => simp [balanceMarks]
    | cons b right =>
      have := ih (isMarked b != (isMarked a != targetBit)) right
      simp only [balanceMarks]
      split <;> simpa using this

/-- How many elements of the left and of the right half the loop passes over. -/
def twoWaySkip (size : Nat) : Nat × Nat :=
  match size % 4 with
  | 0 => (1, 1)
  | 2 => (2, 0)
  | _ => (0, 0)

/-- The two halves after the loop of `InterleaveTwoWay`. -/
def twoWayHalves (isMarked : α → Bool) (xs : List α) : List α × List α :=
  let leftHalfSize := (xs.length + 2) / 4 * 2
  let left := xs.take leftHalfSize
  let right := xs.drop leftHalfSize
  let targetBit := !left.head?.any isMarked
  let skip := twoWaySkip xs.length
  let rest := balanceMarks isMarked targetBit (left.drop skip.1) (right.drop skip.2)
  (left.take skip.1 ++ rest.1, right.take skip.2 ++ rest.2)

theorem length_twoWayHalves (isMarked : α → Bool) (xs : List α) :
    (twoWayHalves isMarked xs).1.length = min ((xs.length + 2) / 4 * 2) xs.length ∧
      (twoWayHalves isMarked xs).2.length = xs.length - (xs.length + 2) / 4 * 2 := by
  simp only [twoWayHalves, List.length_append, length_balanceMarks, List.length_take,
    List.length_drop]
  omega

/-- `InterleaveTwoWay(begin, end, isMarked)`, on a range of even size. -/
def interleaveTwoWay (isMarked : α → Bool) (xs : List α) : List α :=
  match xs with
  | [a, b] => if isMarked a then [a, b] else [b, a]
  | xs =>
    -- the size of a range is even and not zero
    if xs.length < 4 then xs
    else
      let halves := twoWayHalves isMarked xs
      interleaveTwoWay isMarked halves.1 ++ interleaveTwoWay isMarked halves.2
termination_by xs.length
decreasing_by
  · rw [(length_twoWayHalves isMarked xs).1]; omega
  · rw [(length_twoWayHalves isMarked xs).2]; omega

/-- `InterleaveTwoWay(beginLeft, beginRight, Z, isMarked)`: the halves are two buckets. -/
def interleaveTwoWayBuckets (isMarked : α → Bool) (left right : List α) : List α × List α :=
  let targetBit := right.head?.any isMarked
  let rest := balanceMarks isMarked targetBit (left.drop 1) (right.drop 1)
  (interleaveTwoWay isMarked (left.take 1 ++ rest.1),
    interleaveTwoWay isMarked (right.take 1 ++ rest.2))

theorem interleaveTwoWay_of_ne (isMarked : α → Bool) {xs : List α} (h : xs.length ≠ 2) :
    interleaveTwoWay isMarked xs = if xs.length < 4 then xs else
      interleaveTwoWay isMarked (twoWayHalves isMarked xs).1 ++
        interleaveTwoWay isMarked (twoWayHalves isMarked xs).2 := by
  conv_lhs => unfold interleaveTwoWay
  split
  · exact absurd rfl h
  · rfl

/-- The runs of `InterleaveTwoWay` that come to an end: on a range of any size but two it calls
itself on both halves. -/
inductive InterleavesTwoWay (isMarked : α → Bool) : List α → List α → Prop
  | pair (a b : α) : InterleavesTwoWay isMarked [a, b] (if isMarked a then [a, b] else [b, a])
  | halves {xs left right : List α} (hsize : xs.length ≠ 2)
    (hleft : InterleavesTwoWay isMarked (twoWayHalves isMarked xs).1 left)
    (hright : InterleavesTwoWay isMarked (twoWayHalves isMarked xs).2 right) :
    InterleavesTwoWay isMarked xs (left ++ right)

/-- The runs on two buckets that come to an end. -/
def InterleavesTwoWayBuckets (isMarked : α → Bool) (left right : List α) (out : List α × List α) :
    Prop :=
  let targetBit := right.head?.any isMarked
  let rest := balanceMarks isMarked targetBit (left.drop 1) (right.drop 1)
  InterleavesTwoWay isMarked (left.take 1 ++ rest.1) out.1 ∧
    InterleavesTwoWay isMarked (right.take 1 ++ rest.2) out.2

/-- The loop of the two-way partition: every second position of the left bucket, from 1 on, is
swapped with one of the right bucket, from `Z % 2` on. -/
def swapAlternate : List α → List α → List α × List α
  | a :: b :: left, c :: d :: right =>
    let rest := swapAlternate left right
    (a :: c :: rest.1, b :: d :: rest.2)
  | left, right => (left, right)

/-- The loop stops when one of the buckets has fewer than two elements left. -/
theorem swapAlternate_short {left right : List α}
    (h : ∀ a b l c d r, left = a :: b :: l → right = c :: d :: r → False) :
    left.length < 2 ∨ right.length < 2 := by
  rcases left with _ | ⟨a, _ | ⟨b, left⟩⟩
  · exact .inl (by simp)
  · exact .inl (by simp)
  rcases right with _ | ⟨c, _ | ⟨d, right⟩⟩
  · exact .inr (by simp)
  · exact .inr (by simp)
  · exact absurd rfl (h a b left c d right rfl)

/-- `InterleaveTwoWayPartition(beginLeft, beginRight, Z, isMarked)`, for even `Z`. -/
def interleaveTwoWayPartition (isMarked : α → Bool) (left right : List α) : List α × List α :=
  let (left, right) := interleaveTwoWayBuckets isMarked left right
  swapAlternate left right

/-- `InterleaveTwoWayPartition(begin, end, isMarked)`: every second position of the left half is
swapped with one of the right half. -/
def interleaveTwoWayPartitionRange (isMarked : α → Bool) (xs : List α) : List α :=
  let Z := xs.length / 2
  let it2 := Z + Z % 2
  (List.range ((xs.length - it2 + 1) / 2)).foldl
    (fun xs t => swapAt (1 + 2 * t) (it2 + 2 * t) xs) (interleaveTwoWay isMarked xs)

/-! ## Several ways -/

/-- `InterleaveBaseCase`: `none` is the abort on a wrong number of ways. -/
def interleaveBaseCase (k : Nat) (xs : List (Nat × α)) : Option (List (Nat × α)) :=
  if 3 ≤ k ∧ k ≤ 8 then some (StaticSort.sortMarks k xs) else none

/-- The loop of `Interleave` over the paired positions of the two halves: a pair is swapped if its
edge points from the left mark to the right mark. -/
def swapPairs (path : EdgeRec) : List (Nat × α) → List (Nat × α) →
    List (Nat × α) × List (Nat × α)
  | l :: left, r :: right =>
    let (swapFlag, path) := path.retrieveAndFlipEdge l.1 r.1
    let rest := swapPairs path left right
    if swapFlag then (r :: rest.1, l :: rest.2) else (l :: rest.1, r :: rest.2)
  | left, right => (left, right)

theorem length_swapPairs (path : EdgeRec) (left right : List (Nat × α)) :
    (swapPairs path left right).1.length = left.length ∧
      (swapPairs path left right).2.length = right.length := by
  induction left generalizing path right with
  | nil => cases right <;> simp [swapPairs]
  | cons l left ih =>
    cases right with
    | nil => simp [swapPairs]
    | cons r right =>
      have := ih (path.retrieveAndFlipEdge l.1 r.1).2 right
      simp only [swapPairs]
      split <;> simpa using this

/-- The edges between the marks of the two halves: those that occur an odd number of times. -/
def recordEdges (k : Nat) (left right : List (Nat × α)) : EdgeRec :=
  (left.zip right).foldl (fun rec p => rec.flipEdge p.1.1 p.2.1) (EdgeRec.new k)

/-- The two halves after the loop of `Interleave`. The first pair is not swapped: the whole path is
reversed instead. -/
def interleaveHalves (k : Nat) (xs : List (Nat × α)) : List (Nat × α) × List (Nat × α) :=
  let left := xs.take (xs.length / 2)
  let right := xs.drop (xs.length / 2)
  let path := (recordEdges k left right).eulerPath (xs.length / 2)
  match left, right with
  | l :: left, r :: right =>
    let (reversePathMask, path) := path.retrieveAndFlipEdge l.1 r.1
    let path := path.flipEdges (if reversePathMask then BitVec.allOnes 64 else 0)
    let rest := swapPairs path left right
    (l :: rest.1, r :: rest.2)
  | left, right => (left, right)

theorem length_interleaveHalves (k : Nat) (xs : List (Nat × α)) :
    (interleaveHalves k xs).1.length = xs.length / 2 ∧
      (interleaveHalves k xs).2.length = xs.length - xs.length / 2 := by
  have h1 : (xs.take (xs.length / 2)).length = xs.length / 2 := by
    rw [List.length_take]; omega
  have h2 : (xs.drop (xs.length / 2)).length = xs.length - xs.length / 2 := List.length_drop
  unfold interleaveHalves
  dsimp only
  split
  · rename_i l left r right hl hr
    rw [hl] at h1
    rw [hr] at h2
    simp only [List.length_cons, length_swapPairs]
    exact ⟨h1, h2⟩
  · exact ⟨h1, h2⟩

/-- `Interleave`. -/
def interleave (k : Nat) (xs : List (Nat × α)) : Option (List (Nat × α)) :=
  if xs.length = k then interleaveBaseCase k xs
  -- the size divided by `k` is a power of two
  else if xs.length < 2 then some xs
  else do
    let halves := interleaveHalves k xs
    let left ← interleave k halves.1
    let right ← interleave k halves.2
    pure (left ++ right)
termination_by xs.length
decreasing_by
  · rw [(length_interleaveHalves k xs).1]; omega
  · rw [(length_interleaveHalves k xs).2]; omega

end EM.Algorithm
