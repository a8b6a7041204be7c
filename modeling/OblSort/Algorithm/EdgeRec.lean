import Mathlib.Logic.Function.Iterate
import Mathlib.Data.Nat.Notation

/-!
# Edge records

`EdgeRec` (`algorithm/edge_rec.hpp`): a graph on at most eight vertices as a 64-bit set, the edge
from `v0` to `v1` at bit `8 * v0 + v1`. `EulerPath` orients the graph by walking it. Shift counts
are taken modulo 64, as x86 does.
-/

namespace EM.Algorithm

structure EdgeRec where
  edges : BitVec 64
  k : Nat
  deriving Repr, DecidableEq

/-- `1UL << offset`. -/
def bitAt (offset : Nat) : BitVec 64 := 1#64 <<< (offset % 64)

/-- `std::countr_zero`: 64 for zero. -/
def countrZero (x : BitVec 64) : Nat := ((List.range 64).find? (x.getLsbD ·)).getD 64

namespace EdgeRec

/-- The constructor: no edges. -/
def new (k : Nat) : EdgeRec := ⟨0, k⟩

def getEdgeOffset (v0 v1 : Nat) : Nat := v0 <<< 3 ||| v1

def getEdgesMask (v0 v1 : Nat) : BitVec 64 :=
  bitAt (getEdgeOffset v0 v1) ||| bitAt (getEdgeOffset v1 v0)

/-- `flipEdge(mask)`. -/
def flipEdges (mask : BitVec 64) (r : EdgeRec) : EdgeRec := { r with edges := r.edges ^^^ mask }

/-- `flipEdge(v0, v1)`. -/
def flipEdge (v0 v1 : Nat) (r : EdgeRec) : EdgeRec := r.flipEdges (getEdgesMask v0 v1)

/-- `retrieveEdge(v0, v1)`. -/
def retrieveEdge (v0 v1 : Nat) (r : EdgeRec) : Bool :=
  r.edges >>> (getEdgeOffset v0 v1 % 64) &&& 1#64 != 0#64

/-- `retrieveAndFlipEdge`: is the edge directed from `v0` to `v1`? Its direction is turned round. -/
def retrieveAndFlipEdge (v0 v1 : Nat) (r : EdgeRec) : Bool × EdgeRec :=
  let edges := r.edges ^^^ (bitAt (getEdgeOffset v0 v1) ||| bitAt (getEdgeOffset v1 v0))
  (edges &&& bitAt (getEdgeOffset v0 v1) == 0, { r with edges })

/-- The state of the loop of `EulerPath`. -/
structure EulerState where
  edges : BitVec 64
  path : BitVec 64
  v8 : Nat
  deriving Repr, DecidableEq

/-- One iteration: the walk follows the first edge at or after row `v8 / 8`. -/
def eulerStep (s : EulerState) : EulerState :=
  let choices := s.edges &&& (BitVec.allOnes 64 <<< s.v8)
  let trailingZeros := countrZero choices
  let next := trailingZeros &&& 7
  let v0 := trailingZeros >>> 3
  let v0ToNextMask := bitAt trailingZeros
  let v8 := next <<< 3
  let nextToV0Mask := bitAt (v8 ||| v0)
  { edges := s.edges &&& ~~~(v0ToNextMask ||| nextToV0Mask)
    path := s.path ||| v0ToNextMask
    v8 }

/-- `EulerPath(numEdge)`. -/
def eulerPath (numEdge : Nat) (r : EdgeRec) : EdgeRec :=
  let numEdge := min numEdge (r.k * (r.k - 1) / 2)
  let init : EulerState :=
    { edges := r.edges &&& ~~~0x8040201008040201#64
      path := ~~~r.edges &&& 0xFF7F3F1F0F070301#64
      v8 := 0 }
  ⟨(eulerStep^[numEdge] init).path, r.k⟩

end EdgeRec

end EM.Algorithm
