import OblSort.Algorithm.Interleave

/-!
# Sorting by marks

`Permute` (`algorithm/sort_building_blocks.hpp`), on at most 16 elements. Elements and marks are
swapped together, so each element is paired with its mark. A mark is a byte: the low nibble is the
position the element has to go to in the range, bit `4 + level` says whether it was in the upper
half of the positions before the nibble was reduced at that level.
-/

namespace EM.Algorithm

variable {α : Type}

/-- `mark & 0xF`. -/
def lowNibble (mark : BitVec 8) : Nat := (mark &&& 0xF#8).toNat

/-- `0X10U << level`. -/
def levelBit (level : Nat) : BitVec 8 := 0x10#8 <<< level

/-- A mark of the upper half is reduced by `halfSize`, and the bit of the level says so. -/
def reduceMark (halfSize level : Nat) (mark : BitVec 8) : BitVec 8 :=
  let largeMask := if halfSize ≤ lowNibble mark then BitVec.allOnes 8 else 0
  (mark - (largeMask &&& BitVec.ofNat 8 halfSize)) ||| (levelBit level &&& largeMask)

/-- An element under the low nibble of its mark. -/
def underNibble (x : BitVec 8 × α) : Nat × (BitVec 8 × α) := (lowNibble x.1, x)

/-- The low nibble that is paired with the last one of the left half. An odd range has one element
less on the right: its place is taken by a mark that no element has. -/
def lastRight (size : Nat) (right : List (BitVec 8 × α)) : Nat :=
  if size % 2 = 1 then size - (size + 1) / 2 else (right.getLast?.map fun x => lowNibble x.1).getD 0

/-- The two halves before the recursive calls: each has every reduced mark once. The last pair is
not swapped: the whole path is reversed instead. -/
def permuteHalves (level : Nat) (xs : List (BitVec 8 × α)) :
    List (BitVec 8 × α) × List (BitVec 8 × α) :=
  let halfSize := (xs.length + 1) / 2
  let marked := xs.map fun x => (reduceMark halfSize level x.1, x.2)
  let left := marked.take halfSize
  let right := marked.drop halfSize
  match left.getLast? with
  | none => (left, right)
  | some last =>
    -- the loops over the pairs end before the last element of the left half
    let leftInit := left.dropLast.map underNibble
    let lastLeft := lowNibble last.1
    let lastRight := lastRight xs.length right
    let edges := (recordEdges halfSize leftInit (right.map underNibble)).flipEdge lastLeft lastRight
    let path := edges.eulerPath halfSize
    let (reversePathMask, path) := path.retrieveAndFlipEdge lastLeft lastRight
    let path := path.flipEdges (if reversePathMask then BitVec.allOnes 64 else 0)
    let rest := swapPairs path leftInit (right.map underNibble)
    (rest.1.map Prod.snd ++ [last], rest.2.map Prod.snd)

theorem length_permuteHalves (level : Nat) (xs : List (BitVec 8 × α)) :
    (permuteHalves level xs).1.length = (xs.length + 1) / 2 ∧
      (permuteHalves level xs).2.length = xs.length - (xs.length + 1) / 2 := by
  unfold permuteHalves
  dsimp only
  generalize hm : xs.map (fun x => (reduceMark ((xs.length + 1) / 2) level x.1, x.2)) = marked
  have hlen : marked.length = xs.length := by rw [← hm, List.length_map]
  split
  · rw [List.length_take, List.length_drop]
    omega
  · rename_i last hlast
    have hpos : 0 < (marked.take ((xs.length + 1) / 2)).length :=
      List.length_pos_of_mem (List.mem_of_getLast? hlast)
    simp only [List.length_append, List.length_map, length_swapPairs, List.length_dropLast,
      List.length_singleton, List.length_take, List.length_drop] at hpos ⊢
    omega

/-- The last loop: the element of a pair that was in the upper half goes to the right. -/
def undoReduce (level : Nat) : List (BitVec 8 × α) → List (BitVec 8 × α) →
    List (BitVec 8 × α) × List (BitVec 8 × α)
  | l :: left, r :: right =>
    let swapFlag := r.1 &&& levelBit level == 0
    let rest := undoReduce level left right
    if swapFlag then (r :: rest.1, l :: rest.2) else (l :: rest.1, r :: rest.2)
  | left, right => (left, right)

/-- `Permute(begin, end, marksBegin, marksEnd, level)`. -/
def permute (level : Nat) (xs : List (BitVec 8 × α)) : List (BitVec 8 × α) :=
  match xs with
  | [a, b] => if lowNibble a.1 ≠ 0 then [b, a] else [a, b]
  | xs =>
    -- a range has at least one element
    if xs.length < 3 then xs
    else
      let halves := permuteHalves level xs
      let halves := undoReduce level (permute (level + 1) halves.1) (permute (level + 1) halves.2)
      halves.1 ++ halves.2
termination_by xs.length
decreasing_by
  · rw [(length_permuteHalves level xs).1]; omega
  · rw [(length_permuteHalves level xs).2]; omega

end EM.Algorithm
