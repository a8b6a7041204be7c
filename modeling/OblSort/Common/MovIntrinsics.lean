import OblSort.Lib.Memory

/-!
# Oblivious swaps and moves

`obliSwap` and `obliMove` (`common/mov_intrinsics.hpp`). A pointer is an address of a byte memory,
an access outside of it is `none`. Registers are words, the intrinsics are modelled lane by lane.
Which of the three paths a build takes, its `Target` says by the macros that the preprocessor tests.
-/

namespace MovIntrinsics

open Lanes Memory

/-- Which of `__AVX512VL__`, `__AVX2__` and `__SSE2__` are defined. -/
structure Target where
  avx512vl : Bool
  avx2 : Bool
  sse2 : Bool
  deriving Repr, DecidableEq

/-- An unsigned word of `w` bits that holds a `bool`. -/
def ofCond (w : Nat) (cond : Bool) : BitVec w := BitVec.ofNat w cond.toNat

/-! ## Conditional moves of a register -/

/-- `CMOV8_internal`: `cmovnz` moves when the `test` of `cond` with itself is not zero. -/
def cmov8Internal (cond guy1 guy2 : BitVec 64) : BitVec 64 :=
  if cond &&& cond != 0#64 then guy2 else guy1

/-- `CMOV4_internal`. -/
def cmov4Internal (cond : BitVec 64) (guy1 guy2 : BitVec 32) : BitVec 32 :=
  if cond &&& cond != 0#64 then guy2 else guy1

/-- `CMOV1`, by way of 32-bit registers. -/
def cmov1 (cond : Bool) (val1 val2 : BitVec 8) : BitVec 8 :=
  let r1 := 0#32 ||| val1.setWidth 32
  let r2 := 0#32 ||| val2.setWidth 32
  let r1 := cmov4Internal (ofCond 64 cond) r1 r2
  (r1 &&& 0xff#32).setWidth 8

/-- `CMOV2`. -/
def cmov2 (cond : Bool) (val1 val2 : BitVec 16) : BitVec 16 :=
  let r1 := 0#32 ||| val1.setWidth 32
  let r2 := 0#32 ||| val2.setWidth 32
  let r1 := cmov4Internal (ofCond 64 cond) r1 r2
  (r1 &&& 0xffff#32).setWidth 16

/-- `CMOV4`. -/
def cmov4 (cond : Bool) (val1 val2 : BitVec 32) : BitVec 32 :=
    cmov4Internal (ofCond 64 cond) val1 val2

/-- `CMOV8`. -/
def cmov8 (cond : Bool) (val1 val2 : BitVec 64) : BitVec 64 :=
    cmov8Internal (ofCond 64 cond) val1 val2

/-- Exchange by two conditional moves. -/
def cxchg {w : Nat} (cmov : Bool → BitVec w → BitVec w → BitVec w) (cond : BitVec 64)
    (A B : BitVec w) :
    BitVec w × BitVec w :=
  let C := A
  let A := cmov (cond != 0#64) A B
  let B := cmov (cond != 0#64) B C
  (A, B)

def cxchg1 (cond : BitVec 64) (A B : BitVec 8) : BitVec 8 × BitVec 8 := cxchg cmov1 cond A B

def cxchg2 (cond : BitVec 64) (A B : BitVec 16) : BitVec 16 × BitVec 16 := cxchg cmov2 cond A B

def cxchg4 (cond : BitVec 64) (A B : BitVec 32) : BitVec 32 × BitVec 32 := cxchg cmov4 cond A B

def cxchg8 (cond : BitVec 64) (A B : BitVec 64) : BitVec 64 × BitVec 64 := cxchg cmov8 cond A B

/-! ## Vector registers -/

/-- `_mm…_set1_…`: the same lane everywhere. -/
def set1 (n : Nat) {w : Nat} (x : BitVec w) : BitVec (w * n) := ofLanes w n fun _ => x

/-- `_mm…_mask_blend_pd`, and `_mm512_mask_mov_epi64`: the lanes of `y` where the mask is set, else
those of `x`. -/
def maskBlend (n : Nat) (mask : BitVec 8) (x y : BitVec (64 * n)) : BitVec (64 * n) :=
  ofLanes 64 n fun i => if mask.getLsbD i then lane 64 y i else lane 64 x i

/-- `_mm256_blendv_epi8`: the bytes of `y` where the highest bit of the mask's byte is set. -/
def blendv (n : Nat) (x y mask : BitVec (8 * n)) : BitVec (8 * n) :=
  ofLanes 8 n fun i => if (lane 8 mask i).msb then lane 8 y i else lane 8 x i

/-- `(__mmask8)(!cond) - 1`. -/
def blendMask (cond : Bool) : BitVec 8 := ofCond 8 (!cond) - 1#8

/-- Exchange by two blends. -/
def blendSwap (n : Nat) (cond : Bool) (x y : BitVec (64 * n)) : BitVec (64 * n) × BitVec (64 * n) :=
  (maskBlend n (blendMask cond) x y, maskBlend n (blendMask cond) y x)

/-- Exchange by adding the masked difference to both. -/
def xorSwap {w : Nat} (mask x y : BitVec w) : BitVec w × BitVec w :=
  let temp := (x ^^^ y) &&& mask
  (x ^^^ temp, y ^^^ temp)

/-- `_mm_or_si128(_mm_and_si128(mask, src), _mm_andnot_si128(mask, dest))`. -/
def andBlend {w : Nat} (mask dest src : BitVec w) : BitVec w :=
    (mask &&& src) ||| (~~~mask &&& dest)

/-! ## Pieces -/

/-- What is done with a piece at two addresses. -/
abbrev Piece := (p q : Nat) → Memory → Option Memory

/-- What `CXCHG_internal` and `CMOV_internal` do with the pieces. `none` for a piece of 64, 32 or 16
bytes means that it is done in two halves. -/
structure Pieces where
  piece64 : Option Piece
  piece32 : Option Piece
  piece16 : Option Piece
  piece8 : Piece
  piece4 : Piece
  piece2 : Piece
  piece1 : Piece

/-- `sz` bytes cut into pieces. The offsets are in units of 8, 8, 4, 2 and 1 bytes, as the pointers
are cast. -/
def Pieces.run (P : Pieces) (sz vec1 vec2 : Nat) (mem : Memory) : Option Memory :=
  if sz > 64 then none
  else if sz = 64 then
    match P.piece64 with
    | some piece => piece vec1 vec2 mem
    | none =>
      (P.run 32 vec1 vec2 mem).bind fun mem => P.run 32 (vec1 + 32) (vec2 + 32) mem
  else
    (if sz ≥ 32 then
      match P.piece32 with
      | some piece => piece vec1 vec2 mem
      | none => (P.run 16 vec1 vec2 mem).bind fun mem => P.run 16 (vec1 + 16) (vec2 + 16) mem
    else some mem).bind fun mem =>
    (if sz % 32 ≥ 16 then
      let offset := 4 * (sz / 32)
      match P.piece16 with
      | some piece => piece (vec1 + 8 * offset) (vec2 + 8 * offset) mem
      | none =>
        (P.run 8 (vec1 + 8 * offset) (vec2 + 8 * offset) mem).bind fun mem =>
        P.run 8 (vec1 + 8 * offset + 8) (vec2 + 8 * offset + 8) mem
    else some mem).bind fun mem =>
    (if sz % 16 ≥ 8 then
      let offset := 2 * (sz / 16)
      P.piece8 (vec1 + 8 * offset) (vec2 + 8 * offset) mem
    else some mem).bind fun mem =>
    (if sz % 8 ≥ 4 then
      let offset := 2 * (sz / 8)
      P.piece4 (vec1 + 4 * offset) (vec2 + 4 * offset) mem
    else some mem).bind fun mem =>
    (if sz % 4 ≥ 2 then
      let offset := 2 * (sz / 4)
      P.piece2 (vec1 + 2 * offset) (vec2 + 2 * offset) mem
    else some mem).bind fun mem =>
    if sz % 2 ≥ 1 then
      let offset := 2 * (sz / 2)
      P.piece1 (vec1 + offset) (vec2 + offset) mem
    else some mem
termination_by sz

/-- `CXCHG_internal<sz>`. The swap of 64 bytes at once is disabled. -/
def cxchgInternal (T : Target) (sz : Nat) (cond : Bool) : Piece :=
  Pieces.run {
    piece64 := none
    piece32 :=
      if T.avx512vl then some (onWords 32 (blendSwap 4 cond))
      else if T.avx2 then some (onWords 32 (xorSwap (set1 8 (-ofCond 32 cond))))
      else none
    piece16 :=
      if T.avx512vl then some (onWords 16 (blendSwap 2 cond))
      else if T.sse2 then some (onWords 16 (xorSwap (set1 8 (-ofCond 16 cond))))
      else none
    piece8 := onWords 8 (cxchg8 (ofCond 64 cond))
    piece4 := onWords 4 (cxchg4 (ofCond 64 cond))
    piece2 := onWords 2 (cxchg2 (ofCond 64 cond))
    piece1 := onWords 1 (cxchg1 (ofCond 64 cond)) } sz

/-- `CMOV_internal<sz>`, from the second address to the first. -/
def cmovInternal (T : Target) (sz : Nat) (cond : Bool) : Piece :=
  Pieces.run {
    piece64 := if T.avx512vl then some (onDest 64 (maskBlend 8 (blendMask cond))) else none
    piece32 :=
      if T.avx2 then
        some (onDest 32 fun dest src => blendv 32 dest src (set1 4 (-ofCond 64 (!!cond))))
      else none
    piece16 :=
      if T.sse2 then some (onDest 16 (andBlend (set1 2 (-ofCond 64 (!!cond))))) else none
    piece8 := onDest 8 (cmov8 cond)
    piece4 := onDest 4 (cmov4 cond)
    piece2 := onDest 2 (cmov2 cond)
    piece1 := onDest 1 (cmov1 cond) } sz

/-! ## Objects -/

/-- The loop over the blocks of 64 bytes; it ends with the two pointers behind them. -/
def blocks (step : (sz : Nat) → Piece) : (count curr1 curr2 : Nat) → Memory →
    Option (Nat × Nat × Memory)
  | 0, curr1, curr2, mem => some (curr1, curr2, mem)
  | i + 1, curr1, curr2, mem =>
    (step 64 curr1 curr2 mem).bind fun mem => blocks step i (curr1 + 64) (curr2 + 64) mem

/-- An object of `size` bytes in blocks of 64, then what remains. -/
def inBlocks (step : (sz : Nat) → Piece) (size guy1 guy2 : Nat) (mem : Memory) : Option Memory :=
  (blocks step (size / 64) guy1 guy2 mem).bind fun (curr1, curr2, mem) =>
  let remSize := size % 64
  if remSize > 0 then step remSize curr1 curr2 mem else some mem

/-- `obliSwap` of two objects of `size` bytes. -/
def obliSwap (T : Target) (size : Nat) (mov : Bool) (guy1 guy2 : Nat) (mem : Memory) :
    Option Memory :=
  inBlocks (fun sz => cxchgInternal T sz mov) size guy1 guy2 mem

/-- `obliMove` of an object of `size` bytes; it returns `mov`. -/
def obliMove (T : Target) (size : Nat) (mov : Bool) (dest src : Nat) (mem : Memory) :
    Option (Bool × Memory) :=
  (inBlocks (fun sz => cmovInternal T sz mov) size dest src mem).map fun mem => (mov, mem)

end MovIntrinsics
