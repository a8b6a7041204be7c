import OblSort.Algorithm.Bitonic
import OblSort.Algorithm.MergeSplit
import OblSort.Algorithm.OrCompact
import OblSort.Lib.Trace

/-!
# The building blocks with their memory accesses

The functions of `Bitonic`, `OrCompact`, `Interleave` and `MergeSplit` once more, recording in order
every position of an array that the source reads, writes, swaps or conditionally swaps. Counters,
edge records and lanes are registers and are not recorded. A function with the suffix `T` has the
result of the function without it.

`condSwap` and the conditional `obliMove` touch their places whatever the condition is: `condSwap`
is recorded as such, `obliMove` into an array as a write.
-/

namespace EM.Algorithm

open Net Trace Traced

/-! ## Accesses -/

inductive Arr
  /-- The range that a function works on. -/
  | data
  /-- The marks of `Interleave`, or the prefix sums of `OrCompact`. -/
  | marks
  /-- The distances of `GoodrichCompact`. -/
  | dist
  /-- The temporary elements of `MergeSplitKWay`. -/
  | temp
  | pivots
  | bucket (j : Nat)
  deriving DecidableEq, Repr

structure Loc where
  arr : Arr
  idx : Nat
  deriving DecidableEq, Repr

namespace Loc

/-- `l + i`. -/
def shift (l : Loc) (i : Nat) : Loc := ⟨l.arr, l.idx + i⟩

def data (i : Nat) : Loc := ⟨.data, i⟩

def mark (i : Nat) : Loc := ⟨.marks, i⟩

def dist (i : Nat) : Loc := ⟨.dist, i⟩

def temp (i : Nat) : Loc := ⟨.temp, i⟩

def pivot (i : Nat) : Loc := ⟨.pivots, i⟩

/-- Place `t` of buckets of size `Z`, one after the other. -/
def bucket (Z t : Nat) : Loc := ⟨.bucket (t / Z), t % Z⟩

end Loc

inductive Access
  | read (l : Loc)
  | write (l : Loc)
  | swap (l r : Loc)
  | condSwap (l r : Loc)
  deriving DecidableEq, Repr

variable {α : Type}

/-! ## Bitonic sort -/

/-- `condSwap(dire != cmp(*l, *r), *l, *r)`. -/
def exchT (cmp : α → α → Bool) (dire : Bool) (i j : Nat) (c : Traced Access (List α)) :
    Traced Access (List α) := do
  let xs ← c
  record (.read (.data i))
  record (.read (.data j))
  record (.condSwap (.data i) (.data j))
  pure (listExch cmp dire i j xs)

/-- `BitonicSort(begin, end, cmp, dire)`. -/
def bitonicSortT (cmp : α → α → Bool) (dire : Bool) (xs : List α) : Traced Access (List α) :=
  bitonicSort (exchT cmp) dire 0 xs.length (pure xs)

/-! ## Compaction -/

def condSwapAllT (b : Nat → Bool) (l r : Loc) :
    (i : Nat) → List α → List α → Traced Access (List α × List α)
  | i, x :: xs, y :: ys => do
    record (.condSwap (l.shift i) (r.shift i))
    let rest ← condSwapAllT b l r (i + 1) xs ys
    pure (if b i then (y :: rest.1, x :: rest.2) else (x :: rest.1, y :: rest.2))
  | _, xs, ys => pure (xs, ys)

def orOffCompactSeparateMarkT :
    (k z begin : Nat) → (marks : List Bool) → List α → Traced Access (List α)
  | 0, _, _, _, xs => pure xs
  | 1, z, begin, marks, xs => do
    record (.read (.mark (begin + 1)))
    record (.read (.mark begin))
    record (.read (.mark (begin + 2)))
    let swapFlag := (!marks.getD 0 false && marks.getD 1 false).toNat != z
    let halves ← condSwapAllT (fun _ => swapFlag) (.data begin) (.data (begin + 1)) 0 (xs.take 1)
      (xs.drop 1)
    pure (halves.1 ++ halves.2)
  | k + 2, z, begin, marks, xs => do
    let half := 2 ^ (k + 1)
    record (.read (.mark (begin + half)))
    record (.read (.mark begin))
    let m := (marks.take half).count true
    let zLeft := z % half
    let zRight := (z + m) % half
    let left ← orOffCompactSeparateMarkT (k + 1) zLeft begin (marks.take half) (xs.take half)
    let right ← orOffCompactSeparateMarkT (k + 1) zRight (begin + half) (marks.drop half)
      (xs.drop half)
    let s := decide (half ≤ zLeft + m) != decide (half ≤ z)
    let halves ← condSwapAllT (fun i => s != decide (zRight ≤ i)) (.data begin)
      (.data (begin + half)) 0 left right
    pure (halves.1 ++ halves.2)

def orCompactSeparateMarkT :
    (fuel begin : Nat) → (marks : List Bool) → List α → Traced Access (List α)
  | 0, _, _, xs => pure xs
  | fuel + 1, begin, marks, xs =>
    let n := xs.length
    if n ≤ 1 then pure xs
    else
      let n1 := 2 ^ n.log2
      let n2 := n - n1
      if n2 = 0 then orOffCompactSeparateMarkT n.log2 0 begin marks xs
      else do
        record (.read (.mark (begin + n2)))
        record (.read (.mark begin))
        let m := (marks.take n2).count true
        let left ← orCompactSeparateMarkT fuel begin (marks.take n2) (xs.take n2)
        let right ← orOffCompactSeparateMarkT n.log2 ((n1 - n2 + m) % n1) (begin + n2)
          (marks.drop n2) (xs.drop n2)
        let halves ← condSwapAllT (fun i => decide (m ≤ i)) (.data begin)
          (.data (begin + n1)) 0 left (right.drop (n1 - n2))
        pure (halves.1 ++ right.take (n1 - n2) ++ halves.2)

/-- The loop of `OrCompact` that fills the prefix sums. -/
def markPrefixT (isMarked : α → Bool) : (i : Nat) → List α → Traced Access (List Bool)
  | _, [] => pure []
  | i, x :: xs => do
    record (.read (.data i))
    record (.write (.mark (i + 1)))
    let marks ← markPrefixT isMarked (i + 1) xs
    pure (isMarked x :: marks)

def orCompactT (isMarked : α → Bool) (xs : List α) : Traced Access (List α) :=
  if xs.length ≤ 1 then pure xs
  else do
    record (.write (.mark 0))
    let marks ← markPrefixT isMarked 0 xs
    orCompactSeparateMarkT xs.length 0 marks xs

def goodrichDistT (isMarked : α → Bool) : (i numMarked : Nat) → List α → Traced Access (List Nat)
  | _, _, [] => pure []
  | i, numMarked, x :: xs => do
    record (.write (.dist i))
    record (.read (.data i))
    let dist ← goodrichDistT isMarked (i + 1) (if isMarked x then numMarked + 1 else numMarked) xs
    pure ((i - numMarked) :: dist)

def goodrichMoveT (isMarked : α → Bool) (i : Nat) (s : List α × List Nat) (j : Nat) :
    Traced Access (List α × List Nat) := do
  record (.read (.data j))
  let jMarked := s.1[j]?.any isMarked
  record (.read (.dist j))
  let dist := s.2.getD j 0
  let swapFlag := jMarked && dist &&& (2 ^ (i + 1) - 1) != 0
  record (.condSwap (.data j) (.data (j - 2 ^ i)))
  record (.read (.dist j))
  record (.write (.dist (j - 2 ^ i)))
  pure (if swapFlag then
      (swapAt j (j - 2 ^ i) s.1, s.2.set (j - 2 ^ i) (dist >>> (i + 1) <<< (i + 1)))
    else s)

def goodrichLevelT (isMarked : α → Bool) (s : List α × List Nat) (i : Nat) :
    Traced Access (List α × List Nat) :=
  (List.range' (2 ^ i) (s.1.length - 2 ^ i)).foldlM (goodrichMoveT isMarked i) s

def goodrichLevelsT (isMarked : α → Bool) (level : Nat) (s : List α × List Nat) :
    Traced Access (List α) := do
  let s ← (List.range level).foldlM (goodrichLevelT isMarked) s
  pure s.1

def goodrichCompactT (isMarked : α → Bool) (xs : List α) : Traced Access (List α) := do
  let dist ← goodrichDistT isMarked 0 0 xs
  goodrichLevelsT isMarked (getLogBaseTwo (getNextPowerOfTwo xs.length)) (xs, dist)

/-! ## Interleaving two ways -/

def balanceMarksT (isMarked : α → Bool) (l r : Loc) :
    (i : Nat) → (targetBit : Bool) → List α → List α → Traced Access (List α × List α)
  | i, targetBit, a :: left, b :: right => do
    record (.read (l.shift i))
    record (.read (r.shift i))
    let swapFlag := isMarked a != targetBit
    record (.condSwap (l.shift i) (r.shift i))
    let rest ← balanceMarksT isMarked l r (i + 1) (isMarked b != swapFlag) left right
    pure (if swapFlag then (b :: rest.1, a :: rest.2) else (a :: rest.1, b :: rest.2))
  | _, _, left, right => pure (left, right)

def twoWayHalvesT (isMarked : α → Bool) (l : Loc) (xs : List α) :
    Traced Access (List α × List α) := do
  let leftHalfSize := (xs.length + 2) / 4 * 2
  let left := xs.take leftHalfSize
  let right := xs.drop leftHalfSize
  record (.read l)
  let targetBit := !left.head?.any isMarked
  let skip := twoWaySkip xs.length
  let rest ← balanceMarksT isMarked (l.shift skip.1) (l.shift (leftHalfSize + skip.2)) 0 targetBit
    (left.drop skip.1) (right.drop skip.2)
  pure (left.take skip.1 ++ rest.1, right.take skip.2 ++ rest.2)

/-- `InterleaveTwoWay(begin, end, isMarked)`; `fuel` bounds the depth. -/
def interleaveTwoWayT (isMarked : α → Bool) : (fuel : Nat) → Loc → List α → Traced Access (List α)
  | 0, _, xs => pure xs
  | fuel + 1, l, xs =>
    match xs with
    | [a, b] => do
      record (.read l)
      record (.condSwap l (l.shift 1))
      pure (if isMarked a then [a, b] else [b, a])
    | xs =>
      if xs.length < 4 then pure xs
      else do
        let halves ← twoWayHalvesT isMarked l xs
        let left ← interleaveTwoWayT isMarked fuel l halves.1
        let right ← interleaveTwoWayT isMarked fuel (l.shift ((xs.length + 2) / 4 * 2)) halves.2
        pure (left ++ right)

/-- `InterleaveTwoWay(beginLeft, beginRight, Z, isMarked)`. -/
def interleaveTwoWayBucketsT (isMarked : α → Bool) (l r : Loc) (left right : List α) :
    Traced Access (List α × List α) := do
  record (.read r)
  let targetBit := right.head?.any isMarked
  let rest ← balanceMarksT isMarked (l.shift 1) (r.shift 1) 0 targetBit (left.drop 1) (right.drop 1)
  let left' ← interleaveTwoWayT isMarked left.length l (left.take 1 ++ rest.1)
  let right' ← interleaveTwoWayT isMarked right.length r (right.take 1 ++ rest.2)
  pure (left', right')

def swapAlternateT (l r : Loc) : (i : Nat) → List α → List α → Traced Access (List α × List α)
  | i, a :: b :: left, c :: d :: right => do
    record (.swap (l.shift (1 + 2 * i)) (r.shift (2 * i)))
    let rest ← swapAlternateT l r (i + 1) left right
    pure (a :: c :: rest.1, b :: d :: rest.2)
  | _, left, right => pure (left, right)

/-- `InterleaveTwoWayPartition(beginLeft, beginRight, Z, isMarked)`, for even `Z`. -/
def interleaveTwoWayPartitionT (isMarked : α → Bool) (l r : Loc) (left right : List α) :
    Traced Access (List α × List α) := do
  let halves ← interleaveTwoWayBucketsT isMarked l r left right
  swapAlternateT l r 0 halves.1 halves.2

/-- `InterleaveTwoWayPartition(begin, end, isMarked)`. -/
def interleaveTwoWayPartitionRangeT (isMarked : α → Bool) (xs : List α) :
    Traced Access (List α) := do
  let Z := xs.length / 2
  let it2 := Z + Z % 2
  let ys ← interleaveTwoWayT isMarked xs.length (.data 0) xs
  (List.range ((xs.length - it2 + 1) / 2)).foldlM (fun ys t => do
    record (.swap (.data (1 + 2 * t)) (.data (it2 + 2 * t)))
    pure (swapAt (1 + 2 * t) (it2 + 2 * t) ys)) ys

/-! ## Interleaving several ways -/

/-- `Swap` of a static sort, of the elements in `arr` and the marks from `begin` on. -/
def exchMarksT (arr : Arr) (begin : Nat) (dire : Bool) (i j : Nat)
    (c : Traced Access (List (Nat × α))) : Traced Access (List (Nat × α)) := do
  let xs ← c
  record (.read (.mark (begin + i)))
  record (.read (.mark (begin + j)))
  record (.condSwap ⟨arr, begin + i⟩ ⟨arr, begin + j⟩)
  record (.condSwap (.mark (begin + i)) (.mark (begin + j)))
  pure (listExch (fun a b => decide (a.1 ≤ b.1)) dire i j xs)

def interleaveBaseCaseT (arr : Arr) (begin k : Nat) (xs : List (Nat × α)) :
    Traced Access (List (Nat × α)) :=
  if 3 ≤ k ∧ k ≤ 8 then run (exchMarksT arr begin) (StaticSort.ps 1 k) (pure xs) else stop

def recordEdgesT (l r : Nat) :
    (i : Nat) → EdgeRec → List (Nat × α) → List (Nat × α) → Traced Access EdgeRec
  | i, rec, a :: left, b :: right => do
    record (.read (.mark (l + i)))
    record (.read (.mark (r + i)))
    recordEdgesT l r (i + 1) (rec.flipEdge a.1 b.1) left right
  | _, rec, _, _ => pure rec

def swapPairsT (arr : Arr) (l r : Nat) : (i : Nat) → EdgeRec → List (Nat × α) → List (Nat × α) →
    Traced Access (List (Nat × α) × List (Nat × α))
  | i, path, a :: left, b :: right => do
    record (.read (.mark (l + i)))
    record (.read (.mark (r + i)))
    let edge := path.retrieveAndFlipEdge a.1 b.1
    record (.condSwap (.mark (l + i)) (.mark (r + i)))
    record (.condSwap ⟨arr, l + i⟩ ⟨arr, r + i⟩)
    let rest ← swapPairsT arr l r (i + 1) edge.2 left right
    pure (if edge.1 then (b :: rest.1, a :: rest.2) else (a :: rest.1, b :: rest.2))
  | _, _, left, right => pure (left, right)

def interleaveHalvesT (arr : Arr) (begin k : Nat) (xs : List (Nat × α)) :
    Traced Access (List (Nat × α) × List (Nat × α)) := do
  let half := xs.length / 2
  let left := xs.take half
  let right := xs.drop half
  let rec ← recordEdgesT begin (begin + half) 0 (EdgeRec.new k) left right
  let path := rec.eulerPath half
  match left, right with
  | a :: left, b :: right => do
    record (.read (.mark begin))
    record (.read (.mark (begin + half)))
    let edge := path.retrieveAndFlipEdge a.1 b.1
    let path := edge.2.flipEdges (if edge.1 then BitVec.allOnes 64 else 0)
    let rest ← swapPairsT arr begin (begin + half) 1 path left right
    pure (a :: rest.1, b :: rest.2)
  | left, right => pure (left, right)

/-- `Interleave` of the elements in `arr` from `begin` on; `fuel` bounds the depth. -/
def interleaveT (arr : Arr) (k : Nat) :
    (fuel begin : Nat) → List (Nat × α) → Traced Access (List (Nat × α))
  | 0, _, xs => pure xs
  | fuel + 1, begin, xs =>
    if xs.length = k then interleaveBaseCaseT arr begin k xs
    else if xs.length < 2 then pure xs
    else do
      let halves ← interleaveHalvesT arr begin k xs
      let left ← interleaveT arr k fuel begin halves.1
      let right ← interleaveT arr k fuel (begin + xs.length / 2) halves.2
      pure (left ++ right)

/-! ## Merge-split of two ways -/

section TwoWay

variable {E Indicator : Type} [Markable E Indicator]

/-- The first loop of `MergeSplitTwoWay`. `stores` says whether `setAndGetMarked` writes the mark to
the element, as `Block` does, or only reads it, as `TaggedT` does. -/
def setMarksT (stores : Bool) (Z : Nat) (indicator : Indicator) :
    (t : Nat) → List E → Traced Access (List (Bool × E))
  | _, [] => pure []
  | t, x :: xs => do
    record (.read (.bucket Z t))
    if stores then record (.write (.bucket Z t))
    let rest ← setMarksT stores Z indicator (t + 1) xs
    pure (Markable.setAndGetMarked indicator x :: rest)

def changeMarksT (Z : Nat) (indicator : Indicator) (dir : Bool) :
    (t diff : Nat) → List E → Traced Access (Nat × List E)
  | _, diff, [] => pure (diff, [])
  | t, diff, x :: xs => do
    record (.read (.bucket Z t))
    let changeMark := Markable.isDummy x && decide (diff ≠ 0) &&
      Markable.isMarked indicator x == dir
    record (.write (.bucket Z t))
    let x := Markable.condChangeMark changeMark indicator x
    let rest ← changeMarksT Z indicator dir (t + 1) (diff - changeMark.toNat) xs
    pure (rest.1, x :: rest.2)

/-- `MergeSplitTwoWay` with `INTERLEAVE_PARTITION`. -/
def mergeSplitTwoWayT (stores : Bool) (Z : Nat) (indicator : Indicator) (left right : List E) :
    Traced Access (List E × List E) := do
  let marked ← setMarksT stores Z indicator 0 (left ++ right)
  let markCount := marked.countP (·.1)
  let dir := decide (markCount > Z)
  let diff := if dir then markCount - Z else Z - markCount
  let changed ← changeMarksT Z indicator dir 0 diff (marked.map (·.2))
  if changed.1 ≠ 0 then stop
  else
    interleaveTwoWayPartitionT (Markable.isMarked indicator) ⟨.bucket 0, 0⟩ ⟨.bucket 1, 0⟩
      (changed.2.take Z) (changed.2.drop Z)

end TwoWay

/-! ## Merge-split of several ways -/

section Multi

variable {E : Type}

/-- The first loop of `MergeSplitKWay`, from the place `t` on. -/
def markElementsT (isDummy : E → Bool) (getMarkT : (t : Nat) → E → Traced Access (Nat × E))
    (Z : Nat) :
    (t : Nat) → List E → Lanes → Traced Access (List (Nat × E) × Lanes)
  | _, [], remainCounts => pure ([], remainCounts)
  | t, x :: xs, remainCounts => do
    record (.read (.bucket Z t))
    record (.write (.temp t))
    record (.read (.temp t))
    let marked ← getMarkT t x
    let mark := if isDummy x then 255 else marked.1
    record (.write (.mark t))
    let rest ← markElementsT isDummy getMarkT Z (t + 1) xs (remainCounts.decrement mark)
    pure ((mark, marked.2) :: rest.1, rest.2)

def assignMarksT (remainCounts : Lanes) :
    (t currMark : Nat) → (currRemain : BitVec 32) → List (Nat × E) → Traced Access (List (Nat × E))
  | _, _, _, [] => pure []
  | t, currMark, currRemain, (mark, x) :: xs => do
    record (.read (.mark t))
    let isDummy := mark == 255
    record (.write (.mark t))
    let mark := if isDummy then currMark % 256 else mark
    let currRemain := if isDummy then currRemain - 1 else currRemain
    let currMark := if currRemain = 0 then currMark + 1 else currMark
    let currRemain := if currRemain = 0 then remainCounts.extract currMark else currRemain
    let rest ← assignMarksT remainCounts (t + 1) currMark currRemain xs
    pure ((mark, x) :: rest)

/-- The copy back of the place `t` and those after it. -/
def copyBackT (k : Nat) : (t : Nat) → List E → Traced Access Unit
  | _, [] => pure ()
  | t, _ :: xs => do
    record (.read (.temp t))
    record (.write ⟨.bucket (t % k), t / k⟩)
    copyBackT k (t + 1) xs

def mergeSplitMultiT (isDummy : E → Bool) (getMarkT : (t : Nat) → E → Traced Access (Nat × E))
    (k Z : Nat) (buckets : List (List E)) : Traced Access (List (List E)) := do
  let marked ← markElementsT isDummy getMarkT Z 0 buckets.flatten (Lanes.set1 Z)
  let remainCounts := marked.2
  if remainCounts.containLeZero then stop
  else do
    let assigned ← assignMarksT remainCounts 0 0 (remainCounts.extract 0) marked.1
    let temp ← interleaveT .temp k (assigned.length + 1) 0 assigned
    copyBackT k 0 temp
    pure ((List.range k).map fun j => column k j (temp.map Prod.snd))

end Multi

/-- `getMarkAndUpdate` of the element at `temp[t]`. -/
def TaggedT.getMarkAndUpdateT (k t : Nat) (x : TaggedT α) : Traced Access (Nat × TaggedT α) := do
  record (.read (.temp t))
  record (.write (.temp t))
  pure (x.getMarkAndUpdate k)

/-- `tag = (int64_t)tag >> 1` for the elements of bucket `j` from the place `i` on. -/
def shiftTagsT (j : Nat) : (i : Nat) → List (TaggedT α) → Traced Access (List (TaggedT α))
  | _, [] => pure []
  | i, x :: xs => do
    record (.read ⟨.bucket j, i⟩)
    record (.write ⟨.bucket j, i⟩)
    let rest ← shiftTagsT j (i + 1) xs
    pure (x.shiftTag :: rest)

/-- `MergeSplitKWay` without pivots. -/
def mergeSplitKWayT (k Z : Nat) (buckets : List (List (TaggedT α))) :
    Traced Access (List (List (TaggedT α))) :=
  if k = 2 then do
    let p ← mergeSplitTwoWayT false Z 1#64 (buckets.getD 0 []) (buckets.getD 1 [])
    let left ← shiftTagsT 0 0 p.1
    let right ← shiftTagsT 1 0 p.2
    pure [left, right]
  else mergeSplitMultiT TaggedT.isDummy (TaggedT.getMarkAndUpdateT k) k Z buckets

/-- The mark of the element at `temp[t]` by the pivots from number `i` on. -/
def pivotMarkT [SortKey α] (t : Nat) (x : Block α) : (i : Nat) → List (Block α) → Traced Access Nat
  | _, [] => pure 0
  | i, pivot :: pivots => do
    record (.read (.pivot i))
    record (.read (.temp t))
    let mark ← pivotMarkT t x (i + 1) pivots
    pure (if pivot.lt x then mark + 1 else mark)

/-- `MergeSplitKWay` with pivots. -/
def mergeSplitKWayPivotT [SortKey α] (k Z : Nat) (pivots : List (Block α))
    (buckets : List (List (Block α))) : Traced Access (List (List (Block α))) :=
  if k = 2 then
    match pivots with
    | [] => stop
    | pivot :: _ => do
      record (.read (.pivot 0))
      let p ← mergeSplitTwoWayT true Z pivot (buckets.getD 0 []) (buckets.getD 1 [])
      pure [p.1, p.2]
  else
    mergeSplitMultiT Block.dummyFlag (fun t x => do
      let mark ← pivotMarkT t x 0 (pivots.take (k - 1))
      pure (mark, x)) k Z buckets

end EM.Algorithm
