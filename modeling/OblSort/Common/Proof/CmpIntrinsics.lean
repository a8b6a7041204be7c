import OblSort.Common.CmpIntrinsics
import Mathlib.Order.PiLex

/-!
# Comparing byte strings

A comparison of `sz` bytes is one of a number, `pieceValue`. The two functions cut the array
differently, but `obliCheckLess` compares the `words` of the array lexicographically
(`obliCheckLess_iff`), and these are equal exactly when all bytes are, which is what
`obliCheckEqual` finds (`obliCheckEqual_iff`).
-/

namespace CmpIntrinsics

open Lanes

variable {sz : Nat} {a b c : Ptr}

/-! ## One piece -/

/-- The number that `CE_internal<sz>` and `CL_internal<sz>` compare. -/
def pieceValue (sz : Nat) (a : Ptr) : Nat :=
  if sz = 8 then (word 8 a).toNat
  else if sz = 4 then (word 4 a).toNat
  else if sz = 2 then (word 2 a).toNat
  else if sz = 1 then (word 1 a).toNat
  else (aCopy sz a).toNat

theorem ceInternal_eq (sz : Nat) (a b : Ptr) :
    ceInternal sz a b = decide (pieceValue sz a = pieceValue sz b) := by
  have hword : ∀ {w : Nat} (x y : BitVec w), (x == y) = decide (x.toNat = y.toNat) := by
    intro w x y
    rw [Bool.eq_iff_iff, beq_iff_eq, decide_eq_true_iff, BitVec.toNat_inj]
  simp only [ceInternal, pieceValue]
  repeat' split
  all_goals exact hword _ _

theorem clInternal_eq (sz : Nat) (a b : Ptr) :
    clInternal sz a b = decide (pieceValue sz a < pieceValue sz b) := by
  simp only [clInternal, pieceValue]
  repeat' split
  all_goals exact BitVec.ult_eq_decide

theorem word_inj (n : Nat) : (word n a).toNat = (word n b).toNat ↔ ∀ i < n, a i = b i := by
  rw [BitVec.toNat_inj, word, word, ofLanes_inj]

/-- **A piece** of at most eight bytes is equal when its bytes are. -/
theorem pieceValue_inj (hsz : sz ≤ 8) : pieceValue sz a = pieceValue sz b ↔
    ∀ i < sz, a i = b i := by
  unfold pieceValue
  split
  · rename_i h
    rw [h, word_inj]
  · split
    · rename_i h
      rw [h, word_inj]
    · split
      · rename_i h
        rw [h, word_inj]
      · split
        · rename_i h
          rw [h, word_inj]
        · rw [BitVec.toNat_inj, aCopy, aCopy, ofLanes_inj]
          constructor
          · intro h i hi
            simpa [hi] using h i (by omega)
          · intro h i _
            split
            · exact h i ‹_›
            · rfl

/-! ## The words of an array -/

/-- The pieces that `obliCheckLess` compares: words of eight bytes, and what is left for the last
one. -/
def words (sz : Nat) (a : Ptr) : Lex (Nat → Nat) :=
  toLex fun t => pieceValue (min 8 (sz - 8 * t)) (a.add (8 * t))

theorem words_eq_iff_piece (t : Nat) :
    words sz a t = words sz b t ↔ ∀ i, 8 * t ≤ i → i < 8 * t + 8 → i < sz → a i = b i := by
  have h := pieceValue_inj (a := a.add (8 * t)) (b := b.add (8 * t))
    (Nat.min_le_left 8 (sz - 8 * t))
  refine h.trans ⟨fun h i h1 h2 h3 => ?_, fun h i hi => h (8 * t + i) (by omega)
    (by omega) (by omega)⟩
  have := h (i - 8 * t) (by omega)
  rwa [Ptr.add, Ptr.add, Nat.add_sub_cancel' h1] at this

/-- Arrays have the same words exactly when they have the same bytes. -/
theorem words_eq_iff : words sz a = words sz b ↔ ∀ i < sz, a i = b i := by
  constructor
  · intro h i hi
    exact (words_eq_iff_piece (i / 8)).1 (congrFun h (i / 8)) i (by omega) (by omega) hi
  · intro h
    funext t
    exact (words_eq_iff_piece t).2 fun i _ _ hi => h i hi

/-! ## Equality -/

theorem checkEqualLoop_iff (sz : Nat) (a b : Ptr) (i : Nat) (res : Bool) :
    checkEqualLoop sz a b i res = true ↔
      res = true ∧ ∀ j, i ≤ j → j < i + 8 * ((sz - i) / 8) → a j = b j := by
  induction i, res using checkEqualLoop.induct sz a b with
  | case1 i res h ih =>
    rw [checkEqualLoop, if_pos h, ih, Bool.and_eq_true, ceInternal_eq, decide_eq_true_iff,
      pieceValue_inj (Nat.le_refl 8), and_assoc]
    refine and_congr_right fun _ => ⟨?_, fun h1 => ⟨fun j hj => ?_, ?_⟩⟩
    · rintro ⟨h1, h2⟩ j hij hj
      by_cases hlow : j < i + 8
      · have := h1 (j - i) (by omega)
        rwa [Ptr.add, Ptr.add, Nat.add_sub_cancel' hij] at this
      · exact h2 j (by omega) (by omega)
    · exact h1 (i + j) (by omega) (by omega)
    · exact fun j hij hj => h1 j (by omega) (by omega)
  | case2 i res h =>
    rw [checkEqualLoop, if_neg h]
    exact ⟨fun hres => ⟨hres, fun j hij hj => absurd hj (by omega)⟩, fun h => h.1⟩

/-- **`obliCheckEqual`** finds whether all bytes agree. -/
theorem obliCheckEqual_iff : obliCheckEqual sz a b = true ↔ ∀ i < sz, a i = b i := by
  unfold obliCheckEqual
  dsimp only
  split
  · rename_i hrem
    rw [Bool.and_eq_true, checkEqualLoop_iff, ceInternal_eq, decide_eq_true_iff,
      pieceValue_inj (by omega)]
    constructor
    · rintro ⟨⟨-, h1⟩, h2⟩ i hi
      by_cases hlow : i < sz - sz % 8
      · exact h1 i (Nat.zero_le i) (by omega)
      · have := h2 (i - (sz - sz % 8)) (by omega)
        rwa [Ptr.add, Ptr.add, Nat.add_sub_cancel' (by omega)] at this
    · intro h
      exact ⟨⟨rfl, fun i _ hi => h i (by omega)⟩, fun i hi => h _ (by omega)⟩
  · rw [checkEqualLoop_iff]
    constructor
    · rintro ⟨-, h⟩ i hi
      exact h i (Nat.zero_le i) (by omega)
    · intro h
      exact ⟨rfl, fun i _ hi => h i (by omega)⟩

/-! ## Order -/

/-- The first `t` words agree. -/
def AgreeBelow (sz : Nat) (a b : Ptr) (t : Nat) : Prop := ∀ s < t, words sz a s = words sz b s

/-- One of the first `t` words is less, and those before it agree. -/
def LessBelow (sz : Nat) (a b : Ptr) (t : Nat) : Prop :=
  ∃ s < t, AgreeBelow sz a b s ∧ words sz a s < words sz b s

theorem agreeBelow_succ (t : Nat) :
    AgreeBelow sz a b (t + 1) ↔ AgreeBelow sz a b t ∧ words sz a t = words sz b t := by
  refine ⟨fun h => ⟨fun s hs => h s (by omega), h t (by omega)⟩, ?_⟩
  rintro ⟨h1, h2⟩ s hs
  rcases Nat.lt_or_eq_of_le (Nat.le_of_lt_succ hs) with h | rfl
  · exact h1 s h
  · exact h2

theorem lessBelow_succ (t : Nat) : LessBelow sz a b (t + 1) ↔
    LessBelow sz a b t ∨ AgreeBelow sz a b t ∧ words sz a t < words sz b t := by
  constructor
  · rintro ⟨s, hs, h⟩
    rcases Nat.lt_or_eq_of_le (Nat.le_of_lt_succ hs) with hst | rfl
    · exact .inl ⟨s, hst, h⟩
    · exact .inr h
  · rintro (⟨s, hs, h⟩ | h)
    · exact ⟨s, by omega, h⟩
    · exact ⟨t, by omega, h⟩

/-- The flags of `obliCheckLess` at `8 * t`. -/
def Flags (sz : Nat) (a b : Ptr) (t : Nat) (eq less : Bool) : Prop :=
  (eq = true ↔ AgreeBelow sz a b t) ∧ (less = true ↔ LessBelow sz a b t)

theorem Flags.step {t : Nat} {eq less : Bool} (h : Flags sz a b t eq less) (ht : 8 * t + 8 ≤ sz) :
    Flags sz a b (t + 1) (eq && ceInternal 8 (a.add (8 * t)) (b.add (8 * t)))
      (less || (eq && clInternal 8 (a.add (8 * t)) (b.add (8 * t)))) := by
  have hmin : min 8 (sz - 8 * t) = 8 := by omega
  have hword : ∀ a, words sz a t = pieceValue 8 (a.add (8 * t)) := fun a =>
    congrArg (pieceValue · (a.add (8 * t))) hmin
  refine ⟨?_, ?_⟩
  · rw [Bool.and_eq_true, h.1, ceInternal_eq, decide_eq_true_iff, agreeBelow_succ, hword, hword]
  · rw [Bool.or_eq_true, Bool.and_eq_true, h.1, h.2, clInternal_eq, decide_eq_true_iff,
      lessBelow_succ, hword, hword]

theorem checkLessLoop_flags {t : Nat} {eq less : Bool} (h : Flags sz a b t eq less)
    (ht : t ≤ (sz - 1) / 8) :
    Flags sz a b ((sz - 1) / 8) (checkLessLoop sz a b (8 * t) eq less).1
      (checkLessLoop sz a b (8 * t) eq less).2 := by
  induction hk : (sz - 1) / 8 - t generalizing t eq less with
  | zero =>
    obtain rfl : t = (sz - 1) / 8 := by omega
    rw [checkLessLoop, if_neg (by omega)]
    exact h
  | succ k ih =>
    rw [checkLessLoop, if_pos (by omega)]
    exact ih (h.step (by omega)) (by omega) (by omega)

/-- **`obliCheckLess`** compares the words lexicographically. -/
theorem obliCheckLess_iff (hsz : 1 ≤ sz) : obliCheckLess sz a b = true ↔
    words sz a < words sz b := by
  have hstart : Flags sz a b 0 true false :=
    ⟨⟨fun _ s hs => absurd hs (Nat.not_lt_zero s), fun _ => rfl⟩,
      ⟨fun h => absurd h (by decide), by rintro ⟨s, hs, _⟩; exact absurd hs (Nat.not_lt_zero s)⟩⟩
  have hflags := checkLessLoop_flags hstart (Nat.zero_le _)
  have hlast : sz - ((sz - 1) % 8 + 1) = 8 * ((sz - 1) / 8) := by omega
  have hpiece : min 8 (sz - 8 * ((sz - 1) / 8)) = (sz - 1) % 8 + 1 := by omega
  have hless : obliCheckLess sz a b = true ↔ LessBelow sz a b ((sz - 1) / 8 + 1) := by
    rw [obliCheckLess]
    dsimp only
    rw [Bool.or_eq_true, Bool.and_eq_true, hflags.1, hflags.2, clInternal_eq, decide_eq_true_iff,
      lessBelow_succ, hlast, ← hpiece]
    rfl
  rw [hless]
  constructor
  · rintro ⟨t, -, hagree, hlt⟩
    exact ⟨t, hagree, hlt⟩
  · rintro ⟨t, hagree, hlt⟩
    refine ⟨t, ?_, hagree, hlt⟩
    by_contra hge
    -- behind the last piece there are no bytes to differ in
    have : words sz a t = words sz b t := (words_eq_iff_piece t).2 fun i h1 h2 h3 => by omega
    exact hlt.ne this

end CmpIntrinsics
