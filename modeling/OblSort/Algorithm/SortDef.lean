import OblSort.Common.CmpIntrinsics
import Mathlib.Algebra.GroupWithZero.Nat
import Mathlib.Data.Nat.Notation

/-!
# Element types

The wrappers of `algorithm/sort_def.hpp`: `TaggedT` carries the random tag of the butterfly sort,
with the dummy flag in its top bit, and `Block` the tie breaker and the flags of the distribution
sort. `Markable` is what `MergeSplitTwoWay` uses of either of them; the indicator is a bit mask for
the first and a pivot for the second. The elements themselves are compared as `SortKey` says.
-/

namespace EM.Algorithm

/-- What a two-way merge-split uses of its elements. -/
class Markable (E : Type) (Indicator : outParam Type) where
  isDummy : E → Bool
  /-- `setAndGetMarked`: the mark, and the element with its mark updated. -/
  setAndGetMarked : Indicator → E → Bool × E
  isMarked : Indicator → E → Bool
  condChangeMark : Bool → Indicator → E → E

/-! ## Tagged elements -/

structure TaggedT (α : Type) where
  tag : BitVec 64
  v : α
  deriving Repr, DecidableEq

namespace TaggedT

variable {α : Type}

def isDummy (x : TaggedT α) : Bool := x.tag >>> 63 != 0

/-- `setData` with the random draw `r`. -/
def setData (r : BitVec 64) (data : α) : TaggedT α := ⟨r &&& 0x7fffffffffffffff#64, data⟩

def setDummy (x : TaggedT α) : TaggedT α := { x with tag := x.tag ||| 0x8000000000000000#64 }

def isMarked (bitMask : BitVec 64) (x : TaggedT α) : Bool := x.tag &&& bitMask == 0

def condChangeMark (cond : Bool) (bitMask : BitVec 64) (x : TaggedT α) : TaggedT α :=
  { x with tag := if cond then x.tag ^^^ bitMask else x.tag }

/-- `getMarkAndUpdate`: the mark is the tag modulo `k`; the tag is divided by `k` below its dummy
bit. -/
def getMarkAndUpdate (k : Nat) (x : TaggedT α) : Nat × TaggedT α :=
  let realTag := x.tag &&& 0x7fffffffffffffff#64
  let tag := x.tag &&& 0x8000000000000000#64
  ((realTag % BitVec.ofNat 64 k).toNat % 256, { x with tag := tag ||| realTag / BitVec.ofNat 64 k })

instance : Markable (TaggedT α) (BitVec 64) where
  isDummy := isDummy
  setAndGetMarked bitMask x := (isMarked bitMask x, x)
  isMarked := isMarked
  condChangeMark := condChangeMark

end TaggedT

/-! ## Sorted elements and blocks -/

/-- `operator<` and `operator==` of an element type. -/
class SortKey (α : Type) where
  lt : α → α → Bool
  eq : α → α → Bool

namespace SortKey

variable {α : Type} [SortKey α]

/-- `x < y`. -/
def Lt (x y : α) : Prop := lt x y = true

/-- Not `y < x`. -/
def Le (x y : α) : Prop := lt y x = false

end SortKey

/-- `SortElement`, compared by its key. -/
structure SortElement where
  key : BitVec 64
  payload : List (BitVec 8)
  deriving Repr, DecidableEq

instance : SortKey SortElement where
  lt x y := x.key.ult y.key
  eq x y := x.key == y.key

/-- `Bytes`, compared as a byte string. -/
structure Bytes (size : Nat) where
  data : Fin size → BitVec 8

namespace Bytes

variable {size : Nat}

/-- `GetData`. What is behind the array takes no part in a comparison. -/
def getData (x : Bytes size) : CmpIntrinsics.Ptr := fun i =>
  if h : i < size then x.data ⟨i, h⟩ else 0#8

instance : SortKey (Bytes size) where
  lt x y := CmpIntrinsics.obliCheckLess size x.getData y.getData
  eq x y := CmpIntrinsics.obliCheckEqual size x.getData y.getData

end Bytes

structure Block (α : Type) where
  data : α
  tag : BitVec 32
  dummyFlag : Bool
  lessFlag : Bool
  deriving Repr, DecidableEq

namespace Block

variable {α : Type} [SortKey α]

/-- `operator<`: by the data, then by the tag. -/
def lt (x y : Block α) : Bool :=
  SortKey.lt x.data y.data || (SortKey.eq x.data y.data && x.tag.ult y.tag)

/-- `operator==` looks at the data only. -/
instance : SortKey (Block α) where
  lt := lt
  eq x y := SortKey.eq x.data y.data

omit [SortKey α] in
/-- `setData(data, i)` on a block whose less flag is `lessFlag`. -/
def setData (data : α) (i : BitVec 32) (lessFlag : Bool) : Block α := ⟨data, i, false, lessFlag⟩

omit [SortKey α] in
def setDummy (x : Block α) : Block α := { x with dummyFlag := true }

/-- `setAndGetMarked`: marked when not greater than the pivot. -/
def setAndGetMarked (pivot x : Block α) : Bool × Block α :=
  let lessFlag := !pivot.lt x
  (lessFlag, { x with lessFlag })

instance : Markable (Block α) (Block α) where
  isDummy := dummyFlag
  setAndGetMarked := setAndGetMarked
  isMarked _ x := x.lessFlag
  condChangeMark cond _ x := { x with lessFlag := x.lessFlag ^^ cond }

end Block

end EM.Algorithm
