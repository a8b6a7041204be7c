import OblSort.Lib.Lanes

/-!
# Random numbers in an enclave

`RandGen` with `ENCLAVE_MODE` (`common/encutils.cpp`): the generator of BearSSL fills a buffer,
which is handed out in words. The generator is not part of the program; `Drbg` has what is called of
it. A word that is not all in the buffer is `none`.
-/

/-- The random bit generator, with a context in `σ`. -/
structure Drbg (σ : Type) where
  /-- `br_aesctr_drbg_init`, for the 8 bytes of a seed. -/
  init : BitVec 64 → σ
  /-- `br_aesctr_drbg_generate`. -/
  generate : σ → (len : Nat) → List (BitVec 8) × σ

structure RandGen (σ : Type) where
  ctx : σ
  idx : Nat
  buffer : List (BitVec 8)

namespace RandGen

variable {σ : Type} (G : Drbg σ)

/-- `RandGen::RandGen(seed)`. -/
def new (seed : BitVec 64) : RandGen σ :=
  let r := G.generate (G.init seed) 4096
  { ctx := r.2, idx := 0, buffer := r.1 }

/-- Fill the buffer again when `idx` is above `last`. -/
def refill (last : Nat) (g : RandGen σ) : RandGen σ :=
  if g.idx > last then
    let r := G.generate g.ctx 4096
    { ctx := r.2, idx := 0, buffer := r.1 }
  else g

/-- The word of `n` bytes at `buffer + idx`. -/
def load (n : Nat) (g : RandGen σ) : Option (BitVec (8 * n)) :=
  if g.idx + n ≤ g.buffer.length then some (Lanes.ofLanes 8 n fun i => g.buffer.getD (g.idx + i) 0)
    else none

/-- Take `n` bytes, which are in the buffer if they begin at `last` or before. -/
def draw (last n : Nat) (g : RandGen σ) : Option (BitVec (8 * n) × RandGen σ) :=
  let g := g.refill G last
  (g.load n).map fun output => (output, { g with idx := g.idx + n })

def rand64 : RandGen σ → Option (BitVec 64 × RandGen σ) := draw G 4088 8

def rand32 : RandGen σ → Option (BitVec 32 × RandGen σ) := draw G 4092 4

def rand1 (g : RandGen σ) : Option (BitVec 8 × RandGen σ) :=
  (draw G 4095 1 g).map fun r => (r.1 &&& 1, r.2)

/-! ## Runs -/

inductive Request
  | rand64
  | rand32
  | rand1
  deriving DecidableEq, Repr

/-- The result of a call, as a number, and the generator after it. -/
def call (g : RandGen σ) : Request → Option (Nat × RandGen σ)
  | .rand64 => (g.rand64 G).map fun r => (r.1.toNat, r.2)
  | .rand32 => (g.rand32 G).map fun r => (r.1.toNat, r.2)
  | .rand1 => (g.rand1 G).map fun r => (r.1.toNat, r.2)

/-- Calls in a row. -/
def calls : RandGen σ → List Request → Option (List Nat × RandGen σ)
  | g, [] => some ([], g)
  | g, r :: rs => do
    let (x, g) ← g.call G r
    let (xs, g) ← calls g rs
    some (x :: xs, g)

end RandGen
