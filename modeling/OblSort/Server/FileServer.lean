import Mathlib.Algebra.Group.Nat.Defs
import Mathlib.Logic.Function.Basic

/-!
# The file server

`server/enclaveFileServer_untrusted.hpp`: the disk backend keeps its bytes in one file, and a batch
of chunks is read or written after adjacent chunks have been merged in place (`compressChunks`). The
memory backend goes through the chunks as they are.

`uint64_t` wraps around at `2 ^ 64`. Assertions are compiled out.
-/

namespace EM

/-- The arrays that a batch is handed over in. -/
structure ChunkArrays where
  offsets : Nat → Nat
  sizes : Nat → Nat

/-! ## Merging chunks -/

/-- The variables of the loop of `compressChunks`. -/
structure CompressState extends ChunkArrays where
  endOffset : Nat
  j : Nat

/-- `sizes[j] = endOffset - offsets[j]`. -/
def CompressState.closeRun (s : CompressState) : CompressState :=
  { s with sizes := Function.update s.sizes s.j ((s.endOffset + 2 ^ 64 - s.offsets s.j) % 2 ^ 64) }

/-- The body of the loop of `compressChunks`. -/
def CompressState.step (i : Nat) (s : CompressState) : CompressState :=
  let offset := s.offsets i
  let size := s.sizes i
  let s := if offset ≠ s.endOffset then
      let s := s.closeRun
      { s with offsets := Function.update s.offsets (s.j + 1) offset, j := s.j + 1 }
    else s
  { s with endOffset := (offset + size) % 2 ^ 64 }

/-- `compressChunks`: the number of chunks that are left, and the arrays. -/
def compressChunks (c : ChunkArrays) (chunkNum : Nat) : Nat × ChunkArrays :=
  if chunkNum = 0 then (0, c)
  else
    let s : CompressState :=
      { c with endOffset := (c.offsets 0 + c.sizes 0) % 2 ^ 64, j := 0 }
    let s := (List.range' 1 (chunkNum - 1)).foldl (fun s i => s.step i) s
    (s.j + 1, s.closeRun.toChunkArrays)

/-! ## The file -/

/-- `lbios`: the bytes of the file and whether an operation on it has failed. -/
@[ext] structure FileStream where
  data : Nat → UInt8
  size : Nat
  failed : Bool
  zero_above : ∀ a, size ≤ a → data a = 0

/-- `ocall_Read` to `page = tmp + p`. A read past the end of the file leaves the stream failed, and
from then on nothing is read or written. -/
def ocallRead (pos length p : Nat) (s : FileStream × (Nat → UInt8)) : FileStream × (Nat → UInt8) :=
  let (lbios, tmp) := s
  if lbios.failed then s
  else
    let gcount := min length (lbios.size - pos)
    ({ lbios with failed := gcount < length },
      fun a => if p ≤ a ∧ a < p + gcount then lbios.data (pos + (a - p)) else tmp a)

/-- `ocall_Write` from `page = tmp + p`. What is skipped past the end of the file reads as zeros. -/
def ocallWrite (tmp : Nat → UInt8) (pos length p : Nat) (lbios : FileStream) : FileStream :=
  if lbios.failed then lbios
  else if h : length = 0 then lbios
  else
    { lbios with
      data := fun a => if pos ≤ a ∧ a < pos + length then tmp (p + (a - pos)) else lbios.data a
      size := max lbios.size (pos + length)
      zero_above := fun a ha => by
        rw [if_neg (by omega)]
        exact lbios.zero_above a (by omega) }

/-! ## Batches -/

/-- The loop over the chunks of a batch: one `ocall` for each, at the place in `tmp` where the one
before has ended. -/
def forChunks {S : Type} (ocall : (offset size pos : Nat) → S → S) (c : ChunkArrays)
    (chunkNum : Nat) (s : S) : S × Nat :=
  (List.range chunkNum).foldl
    (fun sp i => (ocall (c.offsets i) (c.sizes i) sp.2 sp.1, sp.2 + c.sizes i)) (s, 0)

/-- `ocall_Read_Batch`, the arrays and what has been read. -/
def ocallReadBatch (c : ChunkArrays) (chunkNum : Nat) (lbios : FileStream) (tmp : Nat → UInt8) :
    ChunkArrays × FileStream × (Nat → UInt8) :=
  let (chunkNum, c) := compressChunks c chunkNum
  (c, (forChunks ocallRead c chunkNum (lbios, tmp)).1)

/-- `ocall_Write_Batch`, the arrays and the file. -/
def ocallWriteBatch (c : ChunkArrays) (chunkNum : Nat) (lbios : FileStream) (tmp : Nat → UInt8) :
    ChunkArrays × FileStream :=
  let (chunkNum, c) := compressChunks c chunkNum
  (c, (forChunks (ocallWrite tmp) c chunkNum lbios).1)

end EM
