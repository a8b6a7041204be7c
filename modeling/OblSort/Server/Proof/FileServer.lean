import Mathlib.Tactic.SplitIfs
import OblSort.Lib.Store
import OblSort.Server.FileServer

/-!
# Merged chunks

`compressChunks` writes behind the index that it reads at: the chunks that are finished and the run
that is open cover the addresses of the chunks read so far, in order (`CompressState.Run`). A read
or a write of a chunk is that of its bytes one after the other, so a batch only depends on the
addresses.
-/

namespace EM

open Store

/-- The addresses of the first `n` chunks, in order. -/
def ChunkArrays.addresses (c : ChunkArrays) (n : Nat) : List Nat :=
  gather n fun i => List.range' (c.offsets i) (c.sizes i)

theorem ChunkArrays.addresses_succ (c : ChunkArrays) (n : Nat) :
    c.addresses (n + 1) = c.addresses n ++ List.range' (c.offsets n) (c.sizes n) := gather_succ ..

/-! ## Merging chunks -/

namespace CompressState

/-- The invariant of `compressChunks` before chunk `i` of `c` is read. -/
structure Run (c : ChunkArrays) (i : Nat) (s : CompressState) : Prop where
  j_lt : s.j < i
  offsets_eq : ∀ k, i ≤ k → s.offsets k = c.offsets k
  sizes_eq : ∀ k, i ≤ k → s.sizes k = c.sizes k
  start_le : s.offsets s.j ≤ s.endOffset
  end_lt : s.endOffset < 2 ^ 64
  addresses_eq : s.addresses s.j ++ List.range' (s.offsets s.j) (s.endOffset - s.offsets s.j) =
    c.addresses i

variable {c : ChunkArrays} {i : Nat} {s : CompressState}

/-- The open run becomes a chunk. -/
theorem Run.closeRun_addresses (h : s.Run c i) :
    s.closeRun.addresses (s.j + 1) = c.addresses i := by
  have hsub : (s.endOffset + 2 ^ 64 - s.offsets s.j) % 2 ^ 64 = s.endOffset - s.offsets s.j := by
    have := h.start_le
    have := h.end_lt
    omega
  rw [← h.addresses_eq, ChunkArrays.addresses, gather_succ]
  simp only [closeRun, Function.update_self, hsub]
  congr 1
  exact gather_congr fun k hk => by rw [Function.update_of_ne (Nat.ne_of_lt hk)]

/-- One chunk is read. -/
theorem Run.step (h : s.Run c i) (hi : c.offsets i + c.sizes i < 2 ^ 64) :
    (s.step i).Run c (i + 1) := by
  have ho : s.offsets i = c.offsets i := h.offsets_eq i (Nat.le_refl i)
  have hs : s.sizes i = c.sizes i := h.sizes_eq i (Nat.le_refl i)
  have hend : (c.offsets i + c.sizes i) % 2 ^ 64 = c.offsets i + c.sizes i := Nat.mod_eq_of_lt hi
  have hj := h.j_lt
  by_cases hne : c.offsets i = s.endOffset
  · -- the chunk continues the open run
    have hstep : s.step i = { s with endOffset := c.offsets i + c.sizes i } := by
      simp only [CompressState.step, ho, hs, hend, not_not.2 hne, if_false]
    have hle := h.start_le
    rw [hstep]
    exact {
      j_lt := Nat.lt_succ_of_lt hj
      offsets_eq := fun k hk => h.offsets_eq k (by omega)
      sizes_eq := fun k hk => h.sizes_eq k (by omega)
      start_le := by dsimp only; omega
      end_lt := hi
      addresses_eq := by
        have hlen : c.offsets i + c.sizes i - s.offsets s.j =
            (s.endOffset - s.offsets s.j) + c.sizes i := by omega
        have hstart : c.offsets i = s.offsets s.j + 1 * (s.endOffset - s.offsets s.j) := by omega
        dsimp only
        rw [c.addresses_succ, ← h.addresses_eq, hlen, ← List.range'_append, ← hstart,
          List.append_assoc] }
  · -- the open run is closed, and the chunk starts the next one
    have hstep : s.step i = { s.closeRun with
        offsets := Function.update s.offsets (s.j + 1) (c.offsets i)
        j := s.j + 1
        endOffset := c.offsets i + c.sizes i } := by
      simp only [CompressState.step, ho, hs, hend, ne_eq, hne, not_false_eq_true, if_true]
      rfl
    rw [hstep]
    exact {
      j_lt := Nat.succ_lt_succ hj
      offsets_eq := fun k hk => by
        dsimp only
        rw [Function.update_of_ne (by omega), h.offsets_eq k (by omega)]
      sizes_eq := fun k hk => by
        dsimp only [closeRun]
        rw [Function.update_of_ne (by omega), h.sizes_eq k (by omega)]
      start_le := by
        dsimp only
        rw [Function.update_self]
        omega
      end_lt := hi
      addresses_eq := by
        dsimp only
        rw [c.addresses_succ, ← h.closeRun_addresses, Function.update_self, Nat.add_sub_cancel_left]
        congr 1
        refine gather_congr fun k hk => ?_
        dsimp only
        rw [Function.update_of_ne (by omega)]
        rfl }

/-- The loop up to chunk `i`. -/
theorem Run.loop {chunkNum : Nat} (hc : ∀ i, i < chunkNum → c.offsets i + c.sizes i < 2 ^ 64)
    (h : s.Run c 1) : ∀ m, m + 1 ≤ chunkNum →
      ((List.range' 1 m).foldl (fun s i => s.step i) s).Run c (m + 1)
  | 0, _ => h
  | m + 1, hm => by
    rw [List.range'_concat, List.foldl_append, Nat.one_mul, Nat.add_comm 1 m]
    exact (Run.loop hc h m (by omega)).step (hc (m + 1) (by omega))

end CompressState

/-- The chunks that are left have the addresses of all chunks, in order. -/
theorem compressChunks_addresses (c : ChunkArrays) (chunkNum : Nat)
    (hc : ∀ i, i < chunkNum → c.offsets i + c.sizes i < 2 ^ 64) :
    (compressChunks c chunkNum).2.addresses (compressChunks c chunkNum).1 =
      c.addresses chunkNum := by
  by_cases h0 : chunkNum = 0
  · rw [compressChunks, if_pos h0, h0]
  · have hend : (c.offsets 0 + c.sizes 0) % 2 ^ 64 = c.offsets 0 + c.sizes 0 :=
      Nat.mod_eq_of_lt (hc 0 (by omega))
    have hfirst : CompressState.Run c 1
        { c with endOffset := (c.offsets 0 + c.sizes 0) % 2 ^ 64, j := 0 } := {
      j_lt := Nat.one_pos
      offsets_eq := fun _ _ => rfl
      sizes_eq := fun _ _ => rfl
      start_le := by dsimp only; omega
      end_lt := Nat.mod_lt _ (by decide)
      addresses_eq := by
        rw [c.addresses_succ, hend, Nat.add_sub_cancel_left] }
    have hloop := hfirst.loop hc (chunkNum - 1) (by omega)
    rw [Nat.sub_add_cancel (by omega)] at hloop
    rw [compressChunks, if_neg h0]
    exact hloop.closeRun_addresses

/-! ## Byte by byte -/

/-- An `ocall` for a chunk does the same as one for each of its bytes in turn. -/
structure Bytewise {S : Type} (ocall : (offset size pos : Nat) → S → S) : Prop where
  zero : ∀ o p s, ocall o 0 p s = s
  succ : ∀ o n p s, ocall o (n + 1) p s = ocall (o + 1) n (p + 1) (ocall o 1 p s)

/-- One `ocall` for each address, at consecutive places from `p` on. -/
def perByte {S : Type} (ocall : (offset size pos : Nat) → S → S) : List Nat → Nat → S → S
  | [], _, s => s
  | a :: as, p, s => perByte ocall as (p + 1) (ocall a 1 p s)

section Bytewise

variable {S : Type} {ocall : (offset size pos : Nat) → S → S}

theorem perByte_append (as bs : List Nat) (p : Nat) (s : S) :
    perByte ocall (as ++ bs) p s = perByte ocall bs (p + as.length) (perByte ocall as p s) := by
  induction as generalizing p s with
  | nil => rfl
  | cons a as ih =>
    rw [List.cons_append, perByte, perByte, ih, List.length_cons]
    congr 1
    omega

theorem Bytewise.chunk (h : Bytewise ocall) (o n p : Nat) (s : S) :
    ocall o n p s = perByte ocall (List.range' o n) p s := by
  induction n generalizing o p s with
  | zero => exact h.zero o p s
  | succ n ih => rw [h.succ, ih, List.range'_succ, perByte]

/-- A batch only depends on the addresses of its chunks. -/
theorem Bytewise.batch (h : Bytewise ocall) (c : ChunkArrays) (n : Nat) (s : S) :
    forChunks ocall c n s = (perByte ocall (c.addresses n) 0 s, (c.addresses n).length) := by
  induction n with
  | zero => rfl
  | succ n ih =>
    have hstep : forChunks ocall c (n + 1) s =
        (ocall (c.offsets n) (c.sizes n) (forChunks ocall c n s).2 (forChunks ocall c n s).1,
          (forChunks ocall c n s).2 + c.sizes n) := by
      rw [forChunks, List.range_succ, List.foldl_append]
      rfl
    rw [hstep, ih, c.addresses_succ, perByte_append, List.length_append,
      List.length_range', h.chunk, Nat.zero_add]

end Bytewise

theorem ocallRead_of_failed {lbios : FileStream} (h : lbios.failed = true) (o n p : Nat)
    (tmp : Nat → UInt8) : ocallRead o n p (lbios, tmp) = (lbios, tmp) := by
  simp only [ocallRead, h, if_true]

theorem ocallRead_of_not_failed {lbios : FileStream} (h : lbios.failed = false) (o n p : Nat)
    (tmp : Nat → UInt8) :
    ocallRead o n p (lbios, tmp) =
      ({ lbios with failed := decide (lbios.size - o < n) },
        fun a => if p ≤ a ∧ a < p + min n (lbios.size - o) then lbios.data (o + (a - p))
        else tmp a) := by
  have hshort : min n (lbios.size - o) < n ↔ lbios.size - o < n := by omega
  simp only [ocallRead, h, Bool.false_eq_true, if_false, hshort]

theorem ocallRead_bytewise : Bytewise ocallRead where
  zero o p s := by
    obtain ⟨lbios, tmp⟩ := s
    cases hf : lbios.failed with
    | true => exact ocallRead_of_failed hf ..
    | false =>
      rw [ocallRead_of_not_failed hf]
      refine Prod.ext (FileStream.ext rfl rfl ?_) (funext fun a => if_neg (by omega))
      simp [hf]
  succ o n p s := by
    obtain ⟨lbios, tmp⟩ := s
    cases hf : lbios.failed with
    | true => rw [ocallRead_of_failed hf, ocallRead_of_failed hf, ocallRead_of_failed hf]
    | false =>
      by_cases ho : o < lbios.size
      · -- the first byte is there
        have hone : decide (lbios.size - o < 1) = false := decide_eq_false (by omega)
        have hshort : lbios.size - o < n + 1 ↔ lbios.size - (o + 1) < n := by omega
        rw [ocallRead_of_not_failed hf, ocallRead_of_not_failed hf, hone,
          ocallRead_of_not_failed rfl]
        refine Prod.ext (FileStream.ext rfl rfl (decide_eq_decide.2 hshort)) (funext fun a => ?_)
        dsimp only
        by_cases ha : a = p
        · rw [if_pos (by omega), if_neg (by omega), if_pos (by omega)]
        · have hsame : (p ≤ a ∧ a < p + min (n + 1) (lbios.size - o)) ↔
              (p + 1 ≤ a ∧ a < p + 1 + min n (lbios.size - (o + 1))) := by omega
          rw [if_neg (show ¬ (p ≤ a ∧ a < p + min 1 (lbios.size - o)) by omega)]
          exact ite_congr (propext hsame) (fun h => congrArg lbios.data (by omega)) fun _ => rfl
      · -- the file has ended
        have hend : lbios.size - o = 0 := by omega
        rw [ocallRead_of_not_failed hf, ocallRead_of_not_failed hf]
        simp only [hend, Nat.min_zero, Nat.add_zero]
        rw [ocallRead_of_failed (by simp)]
        simp

section Write

variable {lbios : FileStream} {tmp : Nat → UInt8} (o n p : Nat)

theorem ocallWrite_of_failed (h : lbios.failed = true) : ocallWrite tmp o n p lbios = lbios := by
  rw [ocallWrite, if_pos h]

theorem ocallWrite_failed : (ocallWrite tmp o n p lbios).failed = lbios.failed := by
  unfold ocallWrite
  split_ifs <;> rfl

theorem ocallWrite_size (h : lbios.failed = false) :
    (ocallWrite tmp o n p lbios).size = if n = 0 then lbios.size else max lbios.size (o + n) := by
  unfold ocallWrite
  rw [if_neg (by simp [h])]
  split_ifs <;> rfl

theorem ocallWrite_data (h : lbios.failed = false) (a : Nat) :
    (ocallWrite tmp o n p lbios).data a =
      if o ≤ a ∧ a < o + n then tmp (p + (a - o)) else lbios.data a := by
  unfold ocallWrite
  rw [if_neg (by simp [h])]
  by_cases hn : n = 0
  · rw [dif_pos hn, if_neg (by omega)]
  · rw [dif_neg hn]

end Write

theorem ocallWrite_bytewise (tmp : Nat → UInt8) : Bytewise (ocallWrite tmp) where
  zero o p s := by
    simp only [ocallWrite, dite_true, ite_self]
  succ o n p s := by
    cases hf : s.failed with
    | true =>
      rw [ocallWrite_of_failed _ _ _ hf, ocallWrite_of_failed _ _ _ hf,
        ocallWrite_of_failed _ _ _ hf]
    | false =>
      have hf' : (ocallWrite tmp o 1 p s).failed = false := by rw [ocallWrite_failed, hf]
      refine FileStream.ext (funext fun a => ?_) ?_ ?_
      · rw [ocallWrite_data _ _ _ hf, ocallWrite_data _ _ _ hf', ocallWrite_data _ _ _ hf]
        by_cases ha : a = o
        · rw [if_pos (by omega), if_neg (by omega), if_pos (by omega)]
        · have hsame : (o ≤ a ∧ a < o + (n + 1)) ↔ (o + 1 ≤ a ∧ a < o + 1 + n) := by omega
          rw [if_neg (show ¬ (o ≤ a ∧ a < o + 1) by omega)]
          exact ite_congr (propext hsame) (fun h => congrArg tmp (by omega)) fun _ => rfl
      · rw [ocallWrite_size _ _ _ hf, ocallWrite_size _ _ _ hf', ocallWrite_size _ _ _ hf,
          if_neg (Nat.succ_ne_zero n), if_neg Nat.one_ne_zero]
        split <;> omega
      · rw [ocallWrite_failed, ocallWrite_failed, ocallWrite_failed]

/-! ## The batches -/

/-- **The chunks that `compressChunks` leaves have the same byte stream, and a batch of merged
chunks moves the same bytes as the chunks one by one.** -/
theorem compressChunks_stream (c : ChunkArrays) (chunkNum : Nat)
    (hc : ∀ i, i < chunkNum → c.offsets i + c.sizes i < 2 ^ 64) :
    (compressChunks c chunkNum).2.addresses (compressChunks c chunkNum).1 = c.addresses chunkNum ∧
      (∀ lbios tmp, (ocallReadBatch c chunkNum lbios tmp).2 =
        (forChunks ocallRead c chunkNum (lbios, tmp)).1) ∧
      ∀ lbios tmp, (ocallWriteBatch c chunkNum lbios tmp).2 =
        (forChunks (ocallWrite tmp) c chunkNum lbios).1 := by
  have h := compressChunks_addresses c chunkNum hc
  refine ⟨h, fun lbios tmp => ?_, fun lbios tmp => ?_⟩
  · dsimp only [ocallReadBatch]
    rw [ocallRead_bytewise.batch, ocallRead_bytewise.batch, h]
  · dsimp only [ocallWriteBatch]
    rw [(ocallWrite_bytewise tmp).batch, (ocallWrite_bytewise tmp).batch, h]

/-- A chunk, one that continues it, and one before them. -/
theorem compressChunks_stream_three :
    let c : ChunkArrays := ⟨fun i => [8, 10, 0].getD i 0, fun i => [2, 3, 4].getD i 0⟩
    (compressChunks c 3).2.addresses (compressChunks c 3).1 = c.addresses 3 ∧
      (∀ lbios tmp, (ocallReadBatch c 3 lbios tmp).2 = (forChunks ocallRead c 3 (lbios, tmp)).1) ∧
      ∀ lbios tmp, (ocallWriteBatch c 3 lbios tmp).2 = (forChunks (ocallWrite tmp) c 3 lbios).1 :=
  compressChunks_stream _ 3 (by decide)

end EM
