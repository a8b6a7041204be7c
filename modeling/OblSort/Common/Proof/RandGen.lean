import Mathlib.Data.List.Basic
import OblSort.Common.RandGen

/-!
# Proofs for the random numbers of an enclave

The blocks that the generator returns are one `stream` of bytes, and a `RandGen` is a position in it
(`At`). A call takes the next bytes that lie in one block (`next`), and their word is its result
(`call_spec`). Over a run of calls no byte is taken twice, and less is skipped before a call than it
takes (`calls_stream`).
-/

namespace RandGen

open Lanes

variable {σ : Type}

/-! ## The stream -/

/-- The context after `k` blocks. -/
def ctxAt (G : Drbg σ) (seed : BitVec 64) : Nat → σ
  | 0 => G.init seed
  | k + 1 => (G.generate (ctxAt G seed k) 4096).2

/-- Block `k`. -/
def block (G : Drbg σ) (seed : BitVec 64) (k : Nat) : List (BitVec 8) :=
    (G.generate (ctxAt G seed k) 4096).1

/-- The blocks one after the other. -/
def stream (G : Drbg σ) (seed : BitVec 64) (p : Nat) : BitVec 8 :=
    (block G seed (p / 4096)).getD (p % 4096) 0

def Request.width : Request → Nat
  | .rand64 => 8
  | .rand32 => 4
  | .rand1 => 1

/-- The result of a call that takes the bytes from `p` on. -/
def Request.value (bytes : Nat → BitVec 8) (p : Nat) (r : Request) : Nat :=
  let word := (ofLanes 8 r.width fun i => bytes (p + i)).toNat
  match r with
  | .rand1 => word &&& 1
  | _ => word

/-- The first place from `p` on with `n` bytes in one block. -/
def next (p n : Nat) : Nat := if p % 4096 + n ≤ 4096 then p else 4096 * (p / 4096 + 1)

/-- Where the calls take their bytes, from `p` on. -/
def starts : (p : Nat) → List Request → List Nat
  | _, [] => []
  | p, r :: rs => next p r.width :: starts (next p r.width + r.width) rs

theorem le_next (p n : Nat) : p ≤ next p n := by
  unfold next
  split <;> omega

theorem next_lt {p n : Nat} (hn : 0 < n) : next p n < p + n := by
  unfold next
  split <;> omega

theorem next_in_block {p n : Nat} (hn : n ≤ 4096) : next p n % 4096 + n ≤ 4096 := by
  unfold next
  split
  · assumption
  · rw [Nat.mul_mod_right]
    omega

theorem Request.width_pos (r : Request) : 0 < r.width := by cases r <;> decide

theorem Request.width_le (r : Request) : r.width ≤ 4096 := by cases r <;> decide

theorem le_of_mem_starts {p : Nat} {rs : List Request} {a : Nat × Request}
    (h : a ∈ (starts p rs).zip rs) :
    p ≤ a.1 := by
  induction rs generalizing p with
  | nil => cases h
  | cons r rs ih =>
    have hle := le_next p r.width
    unfold starts at h
    rw [List.zip_cons_cons] at h
    rcases List.mem_cons.1 h with rfl | h
    · exact hle
    · have := ih h
      omega

/-- No byte is taken twice. -/
theorem starts_disjoint (p : Nat) (rs : List Request) :
    ((starts p rs).zip rs).Pairwise fun a b => a.1 + a.2.width ≤ b.1 := by
  induction rs generalizing p with
  | nil => exact .nil
  | cons r rs ih => exact .cons (fun b hb => le_of_mem_starts hb) (ih _)

theorem starts_in_block {p : Nat} {rs : List Request} {a : Nat × Request}
    (h : a ∈ (starts p rs).zip rs) :
    a.1 % 4096 + a.2.width ≤ 4096 := by
  induction rs generalizing p with
  | nil => cases h
  | cons r rs ih =>
    unfold starts at h
    rw [List.zip_cons_cons] at h
    rcases List.mem_cons.1 h with rfl | h
    · exact next_in_block r.width_le
    · exact ih h

/-- Little is skipped. -/
theorem starts_close (p : Nat) (rs : List Request) :
    ((starts p rs).zip rs).IsChain fun a b => b.1 < a.1 + a.2.width + b.2.width := by
  induction rs generalizing p with
  | nil => exact .nil
  | cons r rs ih =>
    cases rs with
    | nil => exact .singleton _
    | cons r' rs => exact .cons_cons (next_lt r'.width_pos) (ih _)

/-! ## A generator as a position -/

/-- `g` is at the place `p` of the stream. -/
structure At (G : Drbg σ) (seed : BitVec 64) (p : Nat) (g : RandGen σ) : Prop where
  idx_le : g.idx ≤ 4096
  exists_block : ∃ k, p = 4096 * k + g.idx ∧ g.buffer = block G seed k ∧
    g.ctx = ctxAt G seed (k + 1)

variable {G : Drbg σ} {seed : BitVec 64}

theorem new_at : At G seed 0 (new G seed) := ⟨Nat.zero_le _, 0, rfl, rfl, rfl⟩

/-- After the refill the next `n` bytes are in the buffer. -/
theorem refill_at {p n last : Nat} {g : RandGen σ} (h : At G seed p g) (hlast : last + n = 4096)
    (hn : 0 < n) :
    At G seed (next p n) (g.refill G last) ∧ (g.refill G last).idx + n ≤ 4096 := by
  obtain ⟨hidx, k, rfl, hbuffer, hctx⟩ := h
  unfold refill
  by_cases hgt : g.idx > last
  · rw [if_pos hgt]
    have hnext : next (4096 * k + g.idx) n = 4096 * (k + 1) := by
      unfold next
      split <;> omega
    rw [hnext]
    refine ⟨⟨Nat.zero_le _, k + 1, rfl, ?_, ?_⟩, by dsimp only; omega⟩
    · rw [hctx]
      rfl
    · rw [hctx]
      rfl
  · rw [if_neg hgt]
    have hnext : next (4096 * k + g.idx) n = 4096 * k + g.idx := if_pos (by omega)
    rw [hnext]
    exact ⟨⟨hidx, k, rfl, hbuffer, hctx⟩, by omega⟩

section Spec

variable (hG : ∀ ctx len, (G.generate ctx len).1.length = len)

include hG

/-- **A draw** takes the next `n` bytes of one block. -/
theorem draw_spec {p n last : Nat} {g : RandGen σ} (h : At G seed p g) (hlast : last + n = 4096)
    (hn : 0 < n) :
    ∃ g', g.draw G last n = some (ofLanes 8 n fun i => stream G seed (next p n + i), g') ∧
      At G seed (next p n + n) g' := by
  obtain ⟨hat, hfits⟩ := refill_at h hlast hn
  unfold draw
  generalize g.refill G last = f at hat hfits
  obtain ⟨-, k, hp, hbuffer, hctx⟩ := hat
  have hlen : f.buffer.length = 4096 := by rw [hbuffer]; exact hG _ _
  have hword : f.load n = some (ofLanes 8 n fun i => stream G seed (next p n + i)) := by
    unfold load
    rw [if_pos (by omega)]
    refine congrArg some (ofLanes_congr fun i hi => ?_)
    unfold stream
    rw [hp, hbuffer, show (4096 * k + f.idx + i) / 4096 = k by omega,
      show (4096 * k + f.idx + i) % 4096 = f.idx + i by omega]
  refine ⟨{ f with idx := f.idx + n }, ?_, hfits, k, ?_, hbuffer, hctx⟩
  · dsimp only
    rw [hword]
    rfl
  · rw [hp, Nat.add_assoc]

/-- **A call.** -/
theorem call_spec {p : Nat} {g : RandGen σ} (h : At G seed p g) (r : Request) :
    ∃ g', g.call G r = some (r.value (stream G seed) (next p r.width), g') ∧
      At G seed (next p r.width + r.width) g' := by
  cases r with
  | rand64 =>
    obtain ⟨g', hdraw, hat⟩ := draw_spec hG h (show 4088 + 8 = 4096 from rfl) (by decide)
    refine ⟨g', ?_, hat⟩
    unfold call rand64
    rw [hdraw]
    rfl
  | rand32 =>
    obtain ⟨g', hdraw, hat⟩ := draw_spec hG h (show 4092 + 4 = 4096 from rfl) (by decide)
    refine ⟨g', ?_, hat⟩
    unfold call rand32
    rw [hdraw]
    rfl
  | rand1 =>
    obtain ⟨g', hdraw, hat⟩ := draw_spec hG h (show 4095 + 1 = 4096 from rfl) (by decide)
    refine ⟨g', ?_, hat⟩
    unfold call rand1
    rw [hdraw]
    exact congrArg (fun x => some (x, g')) (BitVec.toNat_and _ _)

theorem calls_spec {p : Nat} {g : RandGen σ} (h : At G seed p g) (rs : List Request) :
    ∃ g', g.calls G rs = some (List.zipWith (Request.value (stream G seed))
      (starts p rs) rs, g') := by
  induction rs generalizing p g with
  | nil => exact ⟨g, rfl⟩
  | cons r rs ih =>
    obtain ⟨g₁, hcall, hat⟩ := call_spec hG h r
    obtain ⟨g₂, hcalls⟩ := ih hat
    refine ⟨g₂, ?_⟩
    unfold calls
    rw [hcall]
    change (g₁.calls G rs).bind _ = _
    rw [hcalls]
    rfl

/-- **Any run of calls** reads inside the buffer, and its results are the words at successive places
of the stream: no byte is taken twice, and fewer bytes are skipped before a call than it takes. -/
theorem calls_stream (seed : BitVec 64) (requests : List Request) :
    ((starts 0 requests).zip requests).Pairwise (fun a b => a.1 + a.2.width ≤ b.1) ∧
      ((starts 0 requests).zip requests).IsChain (fun a b => b.1 < a.1 + a.2.width + b.2.width) ∧
      (∀ a ∈ (starts 0 requests).zip requests, a.1 % 4096 + a.2.width ≤ 4096) ∧
      ∃ g, (new G seed).calls G requests =
        some (List.zipWith (Request.value (stream G seed)) (starts 0 requests) requests, g) :=
  ⟨starts_disjoint 0 requests, starts_close 0 requests, fun _ ha => starts_in_block ha,
    calls_spec hG new_at requests⟩

end Spec

/-- A generator that counts the bytes. -/
def countingDrbg : Drbg Nat where
  init seed := seed.toNat
  generate ctx len := ((List.range len).map fun i => BitVec.ofNat 8 (ctx + i), ctx + len)

theorem length_countingDrbg (ctx len : Nat) : (countingDrbg.generate ctx len).1.length = len := by
  rw [countingDrbg, List.length_map, List.length_range]

/-- 512 words fill the first block. -/
def secondBlock : List Request := List.replicate 512 .rand64 ++ [.rand1, .rand32]

theorem calls_stream_counting :
    (starts 0 secondBlock).drop 512 = [4096, 4097] ∧
    ∃ g, (new countingDrbg 7).calls countingDrbg secondBlock =
      some (List.zipWith (Request.value (stream countingDrbg 7))
        (starts 0 secondBlock) secondBlock, g) :=
  ⟨by decide +kernel, (calls_stream length_countingDrbg 7 secondBlock).2.2.2⟩

end RandGen
