import Mathlib.Data.List.Basic

/-!
# Ranges of a byte store

A store is what each address holds. A range that is written reads back as it was written, and a
range that lies apart from it is as before.
-/

namespace Bytes

variable {B : Type}

/-- The `n` bytes from `offset` on. -/
def readRange (offset n : Nat) (data : Nat → B) : List B :=
    (List.range n).map fun i => data (offset + i)

/-- The bytes from `offset` on are replaced by `bytes`. -/
def writeRange (offset : Nat) (bytes : List B) (data : Nat → B) : Nat → B := fun a =>
  if offset ≤ a then bytes[a - offset]?.getD (data a) else data a

theorem readRange_congr {offset n : Nat} {data data' : Nat → B}
    (h : ∀ i < n, data (offset + i) = data' (offset + i)) :
    readRange offset n data = readRange offset n data' :=
  List.map_congr_left fun i hi => h i (List.mem_range.1 hi)

theorem writeRange_of_outside {offset a : Nat} {bytes : List B} (data : Nat → B)
    (h : a < offset ∨ offset + bytes.length ≤ a) : writeRange offset bytes data a = data a := by
  rw [writeRange]
  by_cases ha : offset ≤ a
  · rw [if_pos ha, List.getElem?_eq_none (by omega), Option.getD_none]
  · rw [if_neg ha]

/-- **What is written** is read back. -/
theorem readRange_writeRange (offset : Nat) (bytes : List B) (data : Nat → B) :
    readRange offset bytes.length (writeRange offset bytes data) = bytes := by
  refine List.ext_getElem (by simp [readRange]) fun i h1 h2 => ?_
  simp only [readRange, List.getElem_map, List.getElem_range, writeRange]
  rw [if_pos (Nat.le_add_right offset i), Nat.add_sub_cancel_left, List.getElem?_eq_getElem h2,
    Option.getD_some]

/-- **A range apart** from what is written keeps its bytes. -/
theorem readRange_writeRange_apart {offset p n : Nat} {bytes : List B} (data : Nat → B)
    (h : p + n ≤ offset ∨ offset + bytes.length ≤ p) :
    readRange p n (writeRange offset bytes data) = readRange p n data :=
  readRange_congr fun i hi => writeRange_of_outside data (by omega)

end Bytes
