import OblSort.Algorithm.SortDef
import OblSort.Common.Utils
import Mathlib.Data.Nat.Log
import Mathlib.Data.Nat.NthRoot.Defs

/-!
# External merge sort

`ExtMergeSort(outputWriter, mergeRanges, maxWay)` (`algorithm/sort_building_blocks.hpp`): a heap
merges sorted ranges of a vector; with more than `maxWay` of them, sub-merges to a temporary vector
come first.

An iterator is a vector and a position. Vectors live as long as the block that declares them, so
`Memory` is a stack of their contents and a vector is named by its place in it. Two things are not
computed here: the number of sub-merges, which the source takes from floating-point `pow` and `log`
(`passWay`), and the heap functions of the standard library (`StdHeap`).
-/

namespace EM.Algorithm

/-- How a merge stops early. -/
inductive MergeAbort
  /-- A vector is read after its destruction. -/
  | destroyed
  /-- A range is read past its end. -/
  | pastEnd
  | divisionByZero
  /-- The recursion does not end. -/
  | noReturn
  deriving Repr, DecidableEq

/-- An iterator of a vector. -/
structure Iterator where
  vec : Nat
  m_ptr : Nat
  deriving Repr, DecidableEq

/-- A range to merge. -/
abbrev MergeRange := Iterator × Iterator

/-- The contents of the vectors that are alive. -/
abbrev Memory (α : Type) := List (List α)

/-- `std::make_heap` and `std::pop_heap` with a fixed comparison. -/
structure StdHeap (E : Type) where
  makeHeap : List E → List E
  popHeap : List E → List E

variable {α : Type}

/-! ## One pass -/

/-- What a reader of the range has in front of it. -/
def readRange (mem : Memory α) (range : MergeRange) : Except MergeAbort (List α) :=
  match mem[range.1.vec]? with
  | none => .error .destroyed
  | some xs => .ok ((xs.drop range.1.m_ptr).take (range.2.m_ptr - range.1.m_ptr))

/-- An entry of the heap: what the reader gives next, and what comes after it. -/
abbrev HeapEntry (α : Type) := α × List α

/-- `cmpmerge`. -/
def cmpMerge [SortKey α] (a b : HeapEntry α) : Bool := SortKey.lt b.1 a.1

/-- `heap.emplace_back(&reader, &reader.get())`. -/
def heapEntry : List α → Except MergeAbort (HeapEntry α)
  | [] => .error .pastEnd
  | x :: xs => .ok (x, xs)

/-- The heap with the next element of the reader at its front added at its end. -/
def pushNext (top : HeapEntry α) (heap : List (HeapEntry α)) : List (HeapEntry α) :=
  match top.2 with
  | [] => top :: heap
  | x :: xs => top :: heap ++ [(x, xs)]

/-- The loop that empties the heap. -/
def mergeLoop (H : StdHeap (HeapEntry α)) : (fuel : Nat) → List (HeapEntry α) →
    Except MergeAbort (List α)
  | 0, _ => .error .noReturn
  | _ + 1, [] => .ok []
  | fuel + 1, top :: heap => do
    let out ← mergeLoop H fuel (H.popHeap (pushNext top heap)).dropLast
    .ok (top.1 :: out)

/-- The merge of `ranges`, for the `rangeCount` ranges that were given. -/
def mergeReaders (H : StdHeap (HeapEntry α)) (mem : Memory α) (rangeCount : Nat)
    (ranges : List MergeRange) : Except MergeAbort (List α) := do
  let readers ← ranges.mapM (readRange mem)
  if rangeCount = 1 then .ok (readers.headD [])
  else
    let heap ← readers.mapM heapEntry
    mergeLoop H (readers.flatten.length + 1) (H.makeHeap heap)

/-! ## Sub-merges -/

/-- The sub-merges of `subRangeCount` ranges each to the vector `temp`, up to the first that ends at
its end `size`. The result is `newMergeRanges`. -/
def subMerges (call : Memory α → (size : Nat) → List MergeRange → Except MergeAbort (List α))
    (mem : Memory α) (size subRangeCount : Nat) :
    (way : Nat) → (subBegin : Nat) → (temp : List α) → List MergeRange →
      Except MergeAbort (List MergeRange)
  | 0, _, _, _ => .ok []
  | way + 1, subBegin, temp, ranges =>
    let subMergeRanges := ranges.take subRangeCount
    match subMergeRanges.head?, subMergeRanges.getLast? with
    | some first, some last => do
      let subEnd := subBegin + (last.2.m_ptr - first.1.m_ptr)
      let out ← call (mem ++ [temp]) (subEnd - subBegin) subMergeRanges
      let new := (⟨mem.length, subBegin⟩, ⟨mem.length, subEnd⟩)
      if subEnd = size then .ok [new]
      else
        let rest ← subMerges call mem size subRangeCount way subEnd (temp ++ out)
          (ranges.drop subRangeCount)
        .ok (new :: rest)
    | _, _ => .error .pastEnd

/-- `ExtMergeSort` to a writer of `size` elements; the result is what it writes. `temp` is gone when
the ranges are merged. -/
def ExtMergeSort (H : StdHeap (HeapEntry α)) (passWay : (rangeCount maxWay : Nat) → Nat)
    (maxWay : Nat) : (fuel : Nat) → Memory α → (size : Nat) → List MergeRange →
      Except MergeAbort (List α)
  | 0, _, _, _ => .error .noReturn
  | fuel + 1, mem, size, mergeRanges =>
    if mergeRanges.length > maxWay then
      let rangeCount := mergeRanges.length
      let way := passWay rangeCount maxWay
      if way = 0 then .error .divisionByZero
      else do
        let subRangeCount := divRoundUp rangeCount way
        let way := divRoundUp rangeCount subRangeCount
        let newMergeRanges ← subMerges (ExtMergeSort H passWay maxWay fuel) mem size
          subRangeCount way 0 [] mergeRanges
        mergeReaders H mem rangeCount newMergeRanges
    else mergeReaders H mem mergeRanges.length mergeRanges

/-! ## Passes -/

/-- `passNeeded` and `way`, with an exact logarithm and root. -/
def exactPassWay (rangeCount maxWay : Nat) : Nat :=
  let passNeeded := Nat.log maxWay rangeCount + 1
  passNeeded.nthRoot rangeCount

/-- `mergeRangesPtr`: the ranges that a call merges to its writer. -/
def mergeRangesPtr (passWay : (rangeCount maxWay : Nat) → Nat) (maxWay : Nat)
    (call : Memory α → (size : Nat) → List MergeRange → Except MergeAbort (List α))
    (mem : Memory α) (size : Nat) (mergeRanges : List MergeRange) :
    Except MergeAbort (List MergeRange) :=
  if mergeRanges.length > maxWay then
    let rangeCount := mergeRanges.length
    let way := passWay rangeCount maxWay
    if way = 0 then .error .divisionByZero
    else
      let subRangeCount := divRoundUp rangeCount way
      let way := divRoundUp rangeCount subRangeCount
      subMerges call mem size subRangeCount way 0 [] mergeRanges
  else .ok mergeRanges

/-- The `subMergeRanges` of the loop over the sub-merges. -/
def subMergeRanges (subRangeCount : Nat) : (way : Nat) → List MergeRange → List (List MergeRange)
  | 0, _ => []
  | way + 1, ranges =>
    ranges.take subRangeCount :: subMergeRanges subRangeCount way (ranges.drop subRangeCount)

/-- What the recursive calls are given. -/
def recursiveCalls (passWay : (rangeCount maxWay : Nat) → Nat) (maxWay : Nat)
    (mergeRanges : List MergeRange) : List (List MergeRange) :=
  if mergeRanges.length > maxWay then
    let rangeCount := mergeRanges.length
    let subRangeCount := divRoundUp rangeCount (passWay rangeCount maxWay)
    subMergeRanges subRangeCount (divRoundUp rangeCount subRangeCount) mergeRanges
  else []

end EM.Algorithm
