import OblSort.Lib.Lanes

/-!
# Oblivious comparisons

`obliCheckEqual` and `obliCheckLess` (`common/cmp_intrinsics.hpp`). What a `const uint8_t*` points
at is the sequence of the bytes from it on; words are little-endian.
-/

namespace CmpIntrinsics

open Lanes

/-- The bytes from a pointer on. -/
abbrev Ptr := Nat → BitVec 8

/-- `a + i`. -/
def Ptr.add (a : Ptr) (i : Nat) : Ptr := fun j => a (i + j)

/-- The word of `n` bytes that a cast pointer points at. -/
def word (n : Nat) (a : Ptr) : BitVec (8 * n) := ofLanes 8 n a

/-- A zero 64-bit word into which `sz` bytes are copied. -/
def aCopy (sz : Nat) (a : Ptr) : BitVec 64 := ofLanes 8 8 fun i => if i < sz then a i else 0#8

/-- `CE_internal<sz>`. -/
def ceInternal (sz : Nat) (a b : Ptr) : Bool :=
  if sz = 8 then word 8 a == word 8 b
  else if sz = 4 then word 4 a == word 4 b
  else if sz = 2 then word 2 a == word 2 b
  else if sz = 1 then word 1 a == word 1 b
  else aCopy sz a == aCopy sz b

/-- `CL_internal<sz>`. -/
def clInternal (sz : Nat) (a b : Ptr) : Bool :=
  if sz = 8 then (word 8 a).ult (word 8 b)
  else if sz = 4 then (word 4 a).ult (word 4 b)
  else if sz = 2 then (word 2 a).ult (word 2 b)
  else if sz = 1 then (word 1 a).ult (word 1 b)
  else (aCopy sz a).ult (aCopy sz b)

/-- The loop of `obliCheckEqual` from `i` on. -/
def checkEqualLoop (sz : Nat) (a b : Ptr) (i : Nat) (res : Bool) : Bool :=
  if i + 8 ≤ sz then checkEqualLoop sz a b (i + 8) (res && ceInternal 8 (a.add i) (b.add i))
  else res
termination_by sz - i

/-- `obliCheckEqual<sz>`. -/
def obliCheckEqual (sz : Nat) (a b : Ptr) : Bool :=
  let res := checkEqualLoop sz a b 0 true
  let rem := sz % 8
  if rem ≠ 0 then
    let last := sz - rem
    res && ceInternal rem (a.add last) (b.add last)
  else res

/-- The loop of `obliCheckLess` from `i` on. -/
def checkLessLoop (sz : Nat) (a b : Ptr) (i : Nat) (eq less : Bool) : Bool × Bool :=
  if i + 8 < sz then
    let less := less || (eq && clInternal 8 (a.add i) (b.add i))
    let eq := eq && ceInternal 8 (a.add i) (b.add i)
    checkLessLoop sz a b (i + 8) eq less
  else (eq, less)
termination_by sz - i

/-- `obliCheckLess<sz>`, for a size that is not zero. -/
def obliCheckLess (sz : Nat) (a b : Ptr) : Bool :=
  let (eq, less) := checkLessLoop sz a b 0 true false
  let rem := (sz - 1) % 8 + 1
  let last := sz - rem
  less || (eq && clInternal rem (a.add last) (b.add last))

end CmpIntrinsics
