import OblSort.Common.MovIntrinsics

/-!
# Swaps and moves are exact

Every instruction used is a choice between its two operands (`cmov1_eq`, …, `xorSwap_eq`). The
pieces of an object follow each other without gap or overlap, in whatever units their offsets are
given (`Pieces.run_does`); so whichever path is taken, a swap exchanges the bytes of the objects and
nothing else, and a move copies them (`obliSwap_obliMove_exact`).
-/

namespace MovIntrinsics

open Lanes Memory

/-! ## Instructions -/

theorem ofCond_ne_zero (cond : Bool) : (ofCond 64 cond != 0#64) = cond := by
  cases cond <;> rfl

theorem cmov4Internal_eq (cond : Bool) (x y : BitVec 32) :
    cmov4Internal (ofCond 64 cond) x y = if cond then y else x := by
  rw [cmov4Internal, BitVec.and_self, ofCond_ne_zero]

theorem cmov8_eq (cond : Bool) (x y : BitVec 64) : cmov8 cond x y = if cond then y else x := by
  rw [cmov8, cmov8Internal, BitVec.and_self, ofCond_ne_zero]

theorem cmov4_eq (cond : Bool) (x y : BitVec 32) : cmov4 cond x y = if cond then y else x :=
  cmov4Internal_eq cond x y

/-- A narrow value comes back from a wide register. -/
theorem setWidth_masked {w v : Nat} (h : w ≤ v) (x : BitVec w) :
    ((0#v ||| x.setWidth v) &&& (BitVec.allOnes w).setWidth v).setWidth w = x := by
  rw [BitVec.zero_or, BitVec.setWidth_and, BitVec.setWidth_setWidth_of_le _ h,
    BitVec.setWidth_setWidth_of_le _ h, BitVec.setWidth_eq, BitVec.setWidth_eq, BitVec.and_allOnes]

theorem cmov1_eq (cond : Bool) (x y : BitVec 8) : cmov1 cond x y = if cond then y else x := by
  rw [cmov1, cmov4Internal_eq, show 0xff#32 = (BitVec.allOnes 8).setWidth 32 by decide]
  split <;> exact setWidth_masked (by decide) _

theorem cmov2_eq (cond : Bool) (x y : BitVec 16) : cmov2 cond x y = if cond then y else x := by
  rw [cmov2, cmov4Internal_eq, show 0xffff#32 = (BitVec.allOnes 16).setWidth 32 by decide]
  split <;> exact setWidth_masked (by decide) _

/-- Two moves that are exact exchange. -/
theorem cxchg_eq {w : Nat} {cmov : Bool → BitVec w → BitVec w → BitVec w}
    (hcmov : ∀ cond x y, cmov cond x y = if cond then y else x) (cond : Bool) (x y : BitVec w) :
    cxchg cmov (ofCond 64 cond) x y = if cond then (y, x) else (x, y) := by
  simp only [cxchg, ofCond_ne_zero, hcmov]
  cases cond <;> rfl

theorem set1_neg_ofCond (n : Nat) {w : Nat} (cond : Bool) :
    set1 n (-ofCond w cond) = if cond then BitVec.allOnes (w * n) else 0#(w * n) := by
  cases cond with
  | false =>
    rw [ofCond, Bool.toNat_false, BitVec.neg_zero]
    exact ofLanes_zero
  | true =>
    rw [ofCond, Bool.toNat_true, BitVec.neg_one_eq_allOnes]
    exact ofLanes_allOnes

theorem maskBlend_eq {n : Nat} (hn : n ≤ 8) (cond : Bool) (x y : BitVec (64 * n)) :
    maskBlend n (blendMask cond) x y = if cond then y else x := by
  have hmask : ∀ i < 8, (blendMask cond).getLsbD i = cond := by cases cond <;> decide
  rw [maskBlend, ofLanes_congr fun i hi => by rw [hmask i (by omega)]]
  cases cond
  · exact ofLanes_lane x
  · exact ofLanes_lane y

theorem blendSwap_eq {n : Nat} (hn : n ≤ 8) (cond : Bool) (x y : BitVec (64 * n)) :
    blendSwap n cond x y = if cond then (y, x) else (x, y) := by
  rw [blendSwap, maskBlend_eq hn, maskBlend_eq hn]
  cases cond <;> rfl

theorem blendv_eq (n : Nat) (cond : Bool) (x y : BitVec (8 * n)) :
    blendv n x y (if cond then BitVec.allOnes (8 * n) else 0#(8 * n)) = if cond then y else x := by
  cases cond with
  | false =>
    have hmask : ∀ i, (lane 8 0#(8 * n) i).msb = false := fun i => by
      rw [lane, BitVec.extractLsb'_zero]
      rfl
    simp only [blendv, Bool.false_eq_true, if_false, hmask]
    exact ofLanes_lane x
  | true =>
    have hmask : ∀ i < n, (lane 8 (BitVec.allOnes (8 * n)) i).msb = true := fun i hi => by
      rw [← ofLanes_allOnes, lane_ofLanes _ hi]
      decide
    rw [blendv, if_pos rfl, ofLanes_congr fun i hi => if_pos (hmask i hi)]
    exact ofLanes_lane y

theorem xorSwap_eq {w : Nat} (cond : Bool) (x y : BitVec w) :
    xorSwap (if cond then BitVec.allOnes w else 0#w) x y = if cond then (y, x) else (x, y) := by
  cases cond with
  | false => simp [xorSwap]
  | true =>
    have hx : x ^^^ (x ^^^ y) = y := by rw [← BitVec.xor_assoc, BitVec.xor_self, BitVec.zero_xor]
    have hy : y ^^^ (x ^^^ y) = x := by
      rw [BitVec.xor_comm x, ← BitVec.xor_assoc, BitVec.xor_self, BitVec.zero_xor]
    simp [xorSwap, hx, hy]

theorem andBlend_eq {w : Nat} (cond : Bool) (x y : BitVec w) :
    andBlend (if cond then BitVec.allOnes w else 0#w) x y = if cond then y else x := by
  cases cond <;> simp [andBlend]

/-! ## Pieces -/

/-- All pieces do the transfer `E`. -/
structure Pieces.Do (P : Pieces) (E : (p q n : Nat) → Memory → Memory) : Prop where
  piece64 : ∀ piece ∈ P.piece64, Does piece E 64
  piece32 : ∀ piece ∈ P.piece32, Does piece E 32
  piece16 : ∀ piece ∈ P.piece16, Does piece E 16
  piece8 : Does P.piece8 E 8
  piece4 : Does P.piece4 E 4
  piece2 : Does P.piece2 E 2
  piece1 : Does P.piece1 E 1

/-- A piece at an offset, under a condition on the size. -/
def pieceIf (c : Prop) [Decidable c] (offset : Nat) (piece : Piece) : Piece := fun p q mem =>
  if c then piece (p + offset) (q + offset) mem else some mem

/-- A piece in two halves of `k` bytes. -/
def Pieces.halves (P : Pieces) (k : Nat) : Piece := fun p q mem =>
  (P.run k p q mem).bind (P.run k (p + k) (q + k))

theorem Pieces.run_64 (P : Pieces) : P.run 64 = P.piece64.getD (P.halves 32) := by
  funext p q mem
  rw [Pieces.run, if_neg (by decide), if_pos rfl]
  cases P.piece64 <;> rfl

theorem Pieces.run_eq (P : Pieces) {sz : Nat} (hsz : sz < 64) : P.run sz = fun p q mem =>
    ((((((some mem).bind (pieceIf (sz ≥ 32) 0 (P.piece32.getD (P.halves 16)) p q)).bind
      (pieceIf (sz % 32 ≥ 16) (8 * (4 * (sz / 32))) (P.piece16.getD (P.halves 8)) p q)).bind
      (pieceIf (sz % 16 ≥ 8) (8 * (2 * (sz / 16))) P.piece8 p q)).bind
      (pieceIf (sz % 8 ≥ 4) (4 * (2 * (sz / 8))) P.piece4 p q)).bind
      (pieceIf (sz % 4 ≥ 2) (2 * (2 * (sz / 4))) P.piece2 p q)).bind
      (pieceIf (sz % 2 ≥ 1) (2 * (sz / 2)) P.piece1 p q) := by
  funext p q mem
  rw [Pieces.run, if_neg (by omega), if_neg (by omega)]
  simp only [Option.bind_assoc, Option.bind_some]
  cases P.piece32 <;> cases P.piece16 <;> rfl

section Transfer

variable {E : (p q n : Nat) → Memory → Memory} (hE : Transfer E)

include hE

/-- A piece goes on where the pieces before it end. -/
theorem does_pieceIf {op piece : Piece} {o k offset total : Nat} {c : Prop} [Decidable c]
    (h : Does op E o) (hpiece : c → Does piece E k) (hoffset : c → offset = o)
    (htotal : total = o + if c then k else 0) :
    Does (fun p q mem => (op p q mem).bind (pieceIf c offset piece p q)) E total := by
  subst htotal
  by_cases hc : c
  · obtain rfl := hoffset hc
    have hstage : (fun p q mem => (op p q mem).bind (pieceIf c offset piece p q)) =
        fun p q mem => (op p q mem).bind (piece (p + offset) (q + offset)) := by
      funext p q mem
      congr 1
      funext mem
      exact if_pos hc
    rw [hstage, if_pos hc]
    exact h.append hE (hpiece hc)
  · have hstage : (fun p q mem => (op p q mem).bind (pieceIf c offset piece p q)) = op := by
      funext p q mem
      have hnone : pieceIf c offset piece p q = some := by
        funext mem
        exact if_neg hc
      rw [hnone, Option.bind_fun_some]
    rw [hstage, if_neg hc]
    exact h

variable {P : Pieces} (h : P.Do E)

include h

/-- **The pieces of `sz` bytes** follow each other without gap or overlap. -/
theorem Pieces.run_does {sz : Nat} (hsz : sz ≤ 64) : Does (P.run sz) E sz := by
  induction sz using Nat.strongRecOn with
  | ind sz ih =>
    have hhalves : ∀ k, k < sz → Does (P.halves k) E (k + k) := fun k hk =>
      (ih k hk (by omega)).append hE (ih k hk (by omega))
    have hwhole : ∀ (piece : Option Piece) k, k < sz → (∀ f ∈ piece, Does f E (k + k)) →
        Does (piece.getD (P.halves k)) E (k + k) := by
      intro piece k hk hpiece
      cases piece with
      | none => exact hhalves k hk
      | some f => exact hpiece f rfl
    by_cases h64 : sz = 64
    · subst h64
      rw [P.run_64]
      exact hwhole _ 32 (by decide) h.piece64
    · rw [P.run_eq (by omega)]
      refine does_pieceIf hE (o := 2 * (sz / 2)) ?_ (fun _ => h.piece1) (fun _ => rfl)
        (by split <;> omega)
      refine does_pieceIf hE (o := 4 * (sz / 4)) ?_ (fun _ => h.piece2) (fun _ => by omega)
        (by split <;> omega)
      refine does_pieceIf hE (o := 8 * (sz / 8)) ?_ (fun _ => h.piece4) (fun _ => by omega)
        (by split <;> omega)
      refine does_pieceIf hE (o := 16 * (sz / 16)) ?_ (fun _ => h.piece8) (fun _ => by omega)
        (by split <;> omega)
      refine does_pieceIf hE (o := 32 * (sz / 32)) ?_ (fun _ => hwhole _ 8 (by omega) h.piece16)
        (fun _ => by omega) (by split <;> omega)
      exact does_pieceIf hE (Does.skip hE) (fun _ => hwhole _ 16 (by omega) h.piece32)
        (fun _ => rfl) (by split <;> omega)

end Transfer

/-- All paths exchange. -/
theorem cxchgInternal_does (T : Target) (cond : Bool) {sz : Nat} (hsz : sz ≤ 64) :
    Does (cxchgInternal T sz cond) (fun p q n m => if cond then exchange p q n m else m) sz := by
  refine Pieces.run_does (transfer_exchange.ite cond) ?_ hsz
  constructor
  · intro piece h
    cases h
  · intro piece h
    dsimp only at h
    split at h
    · cases h
      exact onWords_exchange (blendSwap_eq (n := 4) (by decide) cond)
    · split at h
      · cases h
        exact onWords_exchange fun x y => by rw [set1_neg_ofCond]; exact xorSwap_eq cond x y
      · cases h
  · intro piece h
    dsimp only at h
    split at h
    · cases h
      exact onWords_exchange (blendSwap_eq (n := 2) (by decide) cond)
    · split at h
      · cases h
        exact onWords_exchange fun x y => by rw [set1_neg_ofCond]; exact xorSwap_eq cond x y
      · cases h
  · exact onWords_exchange (cxchg_eq cmov8_eq cond)
  · exact onWords_exchange (cxchg_eq cmov4_eq cond)
  · exact onWords_exchange (cxchg_eq cmov2_eq cond)
  · exact onWords_exchange (cxchg_eq cmov1_eq cond)

/-- All paths copy. -/
theorem cmovInternal_does (T : Target) (cond : Bool) {sz : Nat} (hsz : sz ≤ 64) :
    Does (cmovInternal T sz cond) (fun p q n m => if cond then copy p q n m else m) sz := by
  refine Pieces.run_does (transfer_copy.ite cond) ?_ hsz
  constructor
  · intro piece h
    dsimp only at h
    split at h
    · cases h
      exact onDest_copy (maskBlend_eq (n := 8) (by decide) cond)
    · cases h
  · intro piece h
    dsimp only at h
    split at h
    · cases h
      refine onDest_copy fun x y => ?_
      rw [Bool.not_not, set1_neg_ofCond]
      exact blendv_eq 32 cond x y
    · cases h
  · intro piece h
    dsimp only at h
    split at h
    · cases h
      refine onDest_copy fun x y => ?_
      rw [Bool.not_not, set1_neg_ofCond]
      exact andBlend_eq cond x y
    · cases h
  · exact onDest_copy (cmov8_eq cond)
  · exact onDest_copy (cmov4_eq cond)
  · exact onDest_copy (cmov2_eq cond)
  · exact onDest_copy (cmov1_eq cond)

/-! ## Objects -/

section Blocks

variable {E : (p q n : Nat) → Memory → Memory} (hE : Transfer E) {step : (sz : Nat) → Piece}
  (hstep : ∀ sz ≤ 64, Does (step sz) E sz)

include hE hstep

/-- The loop over the blocks of 64 bytes. -/
theorem blocks_eq (count : Nat) {p q : Nat} {m : Memory} (h : Ranges p q (64 * count) m) :
    blocks step count p q m =
      some (p + 64 * count, q + 64 * count, E p q (64 * count) m) := by
  induction count generalizing p q m with
  | zero => simp only [blocks, Nat.mul_zero, hE.zero, Nat.add_zero]
  | succ count ih =>
    rw [show 64 * (count + 1) = 64 + 64 * count by omega] at h ⊢
    rw [blocks, hstep 64 (Nat.le_refl 64) p q m h.first, Option.bind_some, ih (h.rest hE),
      hE.append h.apart, Nat.add_assoc, Nat.add_assoc]

/-- **An object in blocks**, then what remains of it. -/
theorem inBlocks_does (size : Nat) : Does (inBlocks step size) E size := by
  intro p q m h
  have hsize : size = 64 * (size / 64) + size % 64 := (Nat.div_add_mod size 64).symm
  have hcut : Ranges p q (64 * (size / 64) + size % 64) m := by rwa [← hsize]
  rw [inBlocks, blocks_eq hE hstep _ hcut.first, Option.bind_some]
  dsimp only
  have hdone : step (size % 64) (p + 64 * (size / 64)) (q + 64 * (size / 64))
      (E p q (64 * (size / 64)) m) = some (E p q size m) := by
    rw [hstep _ (by omega) _ _ _ (hcut.rest hE), hE.append hcut.apart, ← hsize]
  split
  · exact hdone
  · rename_i hrem
    have h0 : size % 64 = 0 := by omega
    have hfull : 64 * (size / 64) = size := by omega
    rw [hfull]

end Blocks

theorem obliSwap_eq (T : Target) (mov : Bool) {size p q : Nat} {m : Memory}
    (h : Ranges p q size m) :
    obliSwap T size mov p q m = some (if mov then exchange p q size m else m) :=
  inBlocks_does (transfer_exchange.ite mov) (fun _ hsz => cxchgInternal_does T mov hsz) size p q m h

theorem obliMove_eq (T : Target) (mov : Bool) {size p q : Nat} {m : Memory}
    (h : Ranges p q size m) :
    obliMove T size mov p q m = some (mov, if mov then copy p q size m else m) := by
  rw [obliMove, inBlocks_does (transfer_copy.ite mov) (fun _ hsz =>
    cmovInternal_does T mov hsz) size p q m h]
  rfl

/-- **`obliSwap` and `obliMove` are exact** for every object size and on every path. The memory may
hold nothing but the two objects, and then an access to any other byte would fail. -/
theorem obliSwap_obliMove_exact (size p q : Nat) (mov : Bool) (m : Memory)
    (h : Ranges p q size m) :
    (∃ m', (∀ T, obliSwap T size mov p q m = some m') ∧
      (∀ i < size, m' (p + i) = if mov then m (q + i) else m (p + i)) ∧
      (∀ i < size, m' (q + i) = if mov then m (p + i) else m (q + i)) ∧
      ∀ a, ¬(p ≤ a ∧ a < p + size) → ¬(q ≤ a ∧ a < q + size) → m' a = m a) ∧
    ∃ m', (∀ T, obliMove T size mov p q m = some (mov, m')) ∧
      (∀ i < size, m' (p + i) = if mov then m (q + i) else m (p + i)) ∧
      ∀ a, ¬(p ≤ a ∧ a < p + size) → m' a = m a := by
  constructor
  · refine ⟨_, fun T => obliSwap_eq T mov h, fun i hi => ?_, fun i hi => ?_, fun a h1 h2 => ?_⟩
    · cases mov with
      | false => rfl
      | true =>
        simp only [if_true]
        rw [exchange_left (by omega), Nat.add_sub_cancel_left]
    · cases mov with
      | false => rfl
      | true =>
        simp only [if_true]
        rw [exchange_right h.apart (by omega), Nat.add_sub_cancel_left]
    · cases mov with
      | false => rfl
      | true => exact exchange_frame h1 h2
  · refine ⟨_, fun T => obliMove_eq T mov h, fun i hi => ?_, fun a h1 => ?_⟩
    · cases mov with
      | false => rfl
      | true =>
        simp only [if_true]
        rw [copy_dest (by omega), Nat.add_sub_cancel_left]
    · cases mov with
      | false => rfl
      | true => exact copy_frame h1

/-- Two objects of 123 bytes next to each other and nothing else. -/
def twoObjects : Memory := fun a => if a < 246 then some (BitVec.ofNat 8 a) else none

theorem twoObjects_ranges : Ranges 0 123 123 twoObjects where
  apart := .inl (Nat.le_refl 123)
  left i hi := by rw [twoObjects, if_pos (by omega)]; rfl
  right i hi := by rw [twoObjects, if_pos (by omega)]; rfl

theorem obliSwap_obliMove_exact_twoObjects :
    (∃ m', (∀ T, obliSwap T 123 true 0 123 twoObjects = some m') ∧
      (∀ i < 123, m' (0 + i) = twoObjects (123 + i)) ∧
      (∀ i < 123, m' (123 + i) = twoObjects (0 + i)) ∧
      ∀ a, ¬(0 ≤ a ∧ a < 0 + 123) → ¬(123 ≤ a ∧ a < 123 + 123) → m' a = twoObjects a) ∧
    ∃ m', (∀ T, obliMove T 123 true 0 123 twoObjects = some (true, m')) ∧
      (∀ i < 123, m' (0 + i) = twoObjects (123 + i)) ∧
      ∀ a, ¬(0 ≤ a ∧ a < 0 + 123) → m' a = twoObjects a :=
  obliSwap_obliMove_exact 123 0 123 true twoObjects twoObjects_ranges

end MovIntrinsics
