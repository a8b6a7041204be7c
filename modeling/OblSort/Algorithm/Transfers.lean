import OblSort.Algorithm.DistriVector
import OblSort.Algorithm.KWayButterflySort

/-!
# Page transfers

The `CopyIn` and `CopyOut` calls that the sorters make on their intermediate vector.
`Vector.recording` is a vector that records them; the `transfers` of a sorter are the calls that its
loops make, read off the parameters alone.
-/

namespace EM.Algorithm

open EM.DynamicPageVector

/-- A vector that records the reads and the writes of its pages. -/
def recording {σ P : Type} (V : Vector σ P) : Vector (σ × List PageOp) P where
  write i p counter s := (V.write i p counter s.1, s.2 ++ [.write i counter])
  read i counter s :=
    let r := V.read i counter s.1
    (r.1, (r.2, s.2 ++ [.read i counter]))

/-- A page written with the counters below `n`, and read after each. -/
def pageTransfers (n page : Nat) : List PageOp :=
  Store.gather n fun counter => [.write page counter, .read page counter]

namespace ButterflySorter

variable (S : ButterflySorter)

/-- The transfers of a batch: nothing is fetched in the first layer, and nothing written back in the
last one. -/
def batchTransfers (ioLayer begin batchIdx : Nat) : List PageOp :=
  let buckets := (List.range (getVecProduct (S.waysOf ioLayer))).map fun bucketIdx =>
    begin + (batchIdx + S.fetchInterval ioLayer * bucketIdx)
  (if ioLayer = 0 then [] else buckets.map (.read · (ioLayer - 1))) ++
    (if S.isLastLayer ioLayer then [] else buckets.map (.write · ioLayer))

/-- The transfers of `KWayButterflySort(begin, end, ioLayer)` on `size` buckets from `begin`. -/
def layerTransfers : (ioLayer : Nat) → (begin size : Nat) → List PageOp
  | 0, begin, size =>
    Store.gather (divRoundUp size (getVecProduct (S.waysOf 0))) (S.batchTransfers 0 begin)
  | ioLayer + 1, begin, size =>
    let numInternalWay := getVecProduct (S.waysOf (ioLayer + 1))
    let subSize := size / numInternalWay
    (Store.gather numInternalWay fun i => layerTransfers ioLayer (begin + i * subSize) subSize) ++
      Store.gather (divRoundUp size numInternalWay) (S.batchTransfers (ioLayer + 1) begin)

/-- The transfers of `sort()`. -/
def transfers : List PageOp :=
  S.layerTransfers (S.KWayParams.ways.length - 1) 0 S.KWayParams.totalBucket

end ButterflySorter

namespace KWayDistriSorter

variable {α : Type} (S : KWayDistriSorter α)

/-- The pages of round `strideCount` of the loop over the strides from page `begin` on. -/
def stridePages (ioLayer stride begin strideCount : Nat) : List Nat :=
  (List.range (S.numInternalWay ioLayer)).map fun bucketIdx =>
    begin + (strideCount * S.numInternalWay ioLayer + bucketIdx) * stride

/-- The transfers of a stride. -/
def strideTransfers (ioLayer stride begin strideCount : Nat) : List PageOp :=
  (if ioLayer = 0 then []
    else (S.stridePages ioLayer stride begin strideCount).map (.read · (ioLayer - 1))) ++
    (if S.isLastLayer ioLayer then []
      else (S.stridePages ioLayer stride begin strideCount).map (.write · ioLayer))

/-- The transfers of the loop over the strides. -/
def stridesTransfers (ioLayer begin stride : Nat) : List PageOp :=
  Store.gather (S.numTotalBucket / (stride * S.numInternalWay ioLayer))
    (S.strideTransfers ioLayer stride begin)

/-- The transfers of `KWayDistriSort(begin, end, ioLayer, stride)`, with `begin` in pages. -/
def layerTransfers : (ioLayer : Nat) → (begin stride : Nat) → List PageOp
  | 0, begin, stride => S.stridesTransfers 0 begin stride
  | ioLayer + 1, begin, stride =>
    let numInternalWay := S.numInternalWay (ioLayer + 1)
    (Store.gather numInternalWay fun i =>
        layerTransfers ioLayer (begin + i * stride) (stride * numInternalWay)) ++
      S.stridesTransfers (ioLayer + 1) begin stride

/-- The transfers of `sort()`. -/
def transfers : List PageOp := S.layerTransfers S.distriParams.ways.length 0 1

end KWayDistriSorter

end EM.Algorithm
