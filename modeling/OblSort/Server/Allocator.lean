import Mathlib.Algebra.Group.Nat.Defs
import Mathlib.Data.List.Basic

/-!
# The large block allocator

`LargeBlockAllocator` (`server/serverAllocator.hpp`): the allocator every server backend contains.
It keeps a list of free blocks `[base, base + size)` of one address range. `allocate` carves the
request from the front of the best fitting block, `free` inserts the slot in place by swapping
along the list and then merges adjacent blocks with an in-place loop over two indices.

Sizes are 64-bit words: additions are taken modulo `2 ^ 64`, and `noIdx = 2 ^ 64 - 1` is the
source's `(uint64_t)-1`. A failed allocation calls `abort()`, here `none`.
-/

namespace EM

/-- A block `[base, base + size)` of the address range (`AllocatorSlot`). -/
structure AllocatorSlot where
  base : Nat
  size : Nat
  deriving Repr, DecidableEq

structure LargeBlockAllocator where
  size : Nat
  freeList : List AllocatorSlot
  deriving Repr, DecidableEq

namespace LargeBlockAllocator

/-- `(uint64_t)-1`: "no block found yet". -/
def noIdx : Nat := 2 ^ 64 - 1

/-- The constructor: one free block that is the whole range. -/
def new (size : Nat) : LargeBlockAllocator := { size, freeList := [⟨0, size⟩] }

/-- `Allocate`'s search loop from index `i` with the best index and size found so far. -/
def bestFit (size : Nat) : List AllocatorSlot → Nat → Nat → Nat → Nat × Nat
  | [], _, bestIdx, bestSize => (bestIdx, bestSize)
  | f :: fs, i, bestIdx, bestSize =>
    if size ≤ f.size then
      if f.size < bestSize then
        -- an exact fit ends the search
        if f.size = size then (i, f.size) else bestFit size fs (i + 1) i f.size
      else bestFit size fs (i + 1) bestIdx bestSize
    else bestFit size fs (i + 1) bestIdx bestSize

/-- `Allocate`: the slot and the new state, or `none` when the source aborts. -/
def allocate (a : LargeBlockAllocator) (size : Nat) :
    Option (AllocatorSlot × LargeBlockAllocator) :=
  let bestIdx := (bestFit size a.freeList 0 noIdx noIdx).1
  if bestIdx = noIdx then none
  else
    match a.freeList[bestIdx]? with
    | none => none
    | some f =>
      let ret : AllocatorSlot := ⟨f.base, size⟩
      let f' : AllocatorSlot := ⟨(f.base + size) % 2 ^ 64, f.size - size⟩
      let freeList := if f'.size = 0 then a.freeList.eraseIdx bestIdx else a.freeList.set bestIdx f'
      some (ret, { a with freeList })

/-- `Free`'s insertion loop: at every index the block is exchanged with `tmp` when it starts after
`tmp`; the last `tmp` is pushed at the back. -/
def insertSwap : List AllocatorSlot → AllocatorSlot → List AllocatorSlot
  | [], tmp => [tmp]
  | f :: fs, tmp =>
    if tmp.base < f.base then tmp :: insertSwap fs f else f :: insertSwap fs tmp

/-- `freeList[i]`; the loops below stay in range. -/
def blockAt (fl : List AllocatorSlot) (i : Nat) : AllocatorSlot := fl.getD i ⟨0, 0⟩

/-- `Free`'s coalescing loop with `k` iterations left: `i` reads, `j` is the last kept block. -/
def coalesceLoop : Nat → Nat → Nat → List AllocatorSlot → List AllocatorSlot × Nat
  | 0, _, j, fl => (fl, j)
  | k + 1, i, j, fl =>
    let bj := blockAt fl j
    let bi := blockAt fl i
    if (bj.base + bj.size) % 2 ^ 64 = bi.base then
      coalesceLoop k (i + 1) j (fl.set j ⟨bj.base, (bj.size + bi.size) % 2 ^ 64⟩)
    else
      coalesceLoop k (i + 1) (j + 1) (if i ≠ j + 1 then fl.set (j + 1) bi else fl)

/-- The coalescing pass: the loop from `i = 1`, `j = 0`, then `resize(j + 1)`. -/
def coalesce (fl : List AllocatorSlot) : List AllocatorSlot :=
  let r := coalesceLoop (fl.length - 1) 1 0 fl
  r.1.take (r.2 + 1)

/-- `Free`. -/
def free (a : LargeBlockAllocator) (slot : AllocatorSlot) : LargeBlockAllocator :=
  if slot.size = 0 then a else { a with freeList := coalesce (insertSwap a.freeList slot) }

end LargeBlockAllocator
end EM
