import Mathlib.Data.Fintype.BigOperators
import Mathlib.Data.Fintype.Perm
import Mathlib.Data.Nat.Factorial.BigOperators
import OblSort.Common.Proof.Utils

/-!
# The shuffle as a map from draws to permutations

`fisherYatesShuffle` of a range of `N` elements draws `r n` in `[0, n]` for `n = N - 1, …, 1`. The
loop from `n` on applies the permutation `drawsPerm`, a swap followed by the permutation of the loop
from `n - 1` on. That one leaves position `n` alone, so the last position tells the draw
(`drawsPerm_top`) and different draws give different permutations; there are as many of one as of
the other.
-/

/-! ## The permutation of the loop -/

/-- The permutation of the loop from `n` on; `r k` is the draw for position `k + 1`. -/
def drawsPerm (r : Nat → Nat) : (n : Nat) → Equiv.Perm Nat
  | 0 => 1
  | n + 1 => Equiv.swap (r n) (n + 1) * drawsPerm r n

section drawsPerm

variable {r r' : Nat → Nat} {n : Nat}

theorem drawsPerm_above (hr : ∀ k, k < n → r k ≤ k + 1) {m : Nat} (hm : n < m) :
    drawsPerm r n m = m := by
  induction n with
  | zero => rfl
  | succ n ih =>
    have hdraw : r n ≤ n + 1 := hr n (by omega)
    rw [drawsPerm, Equiv.Perm.mul_apply, ih (fun k hk => hr k (by omega)) (by omega),
      Equiv.swap_apply_of_ne_of_ne (by omega) (by omega)]

/-- The last position gets the element that was drawn for it. -/
theorem drawsPerm_top (hr : ∀ k, k < n → r k ≤ k + 1) : drawsPerm r (n + 1) (n + 1) = r n := by
  rw [drawsPerm, Equiv.Perm.mul_apply, drawsPerm_above hr (Nat.lt_succ_self n),
    Equiv.swap_apply_right]

theorem drawsPerm_injective (hr : ∀ k, k < n → r k ≤ k + 1) (hr' : ∀ k, k < n → r' k ≤ k + 1)
    (h : drawsPerm r n = drawsPerm r' n) : ∀ k, k < n → r k = r' k := by
  induction n with
  | zero => exact fun k hk => absurd hk (Nat.not_lt_zero k)
  | succ n ih =>
    have hlow : ∀ k, k < n → r k ≤ k + 1 := fun k hk => hr k (by omega)
    have hlow' : ∀ k, k < n → r' k ≤ k + 1 := fun k hk => hr' k (by omega)
    have htop : r n = r' n := by rw [← drawsPerm_top hlow, h, drawsPerm_top hlow']
    rw [drawsPerm, drawsPerm, htop, mul_right_inj] at h
    intro k hk
    obtain hk | rfl : k < n ∨ k = n := by omega
    · exact ih hlow hlow' h k hk
    · exact htop

/-- A range of more than `n` positions is mapped to itself. -/
theorem drawsPerm_lt_iff (hr : ∀ k, k < n → r k ≤ k + 1) {N : Nat} (hn : n < N) (i : Nat) :
    drawsPerm r n i < N ↔ i < N := by
  constructor
  · intro h
    by_contra hi
    rw [drawsPerm_above hr (by omega)] at h
    exact hi h
  · intro hi
    by_contra h
    have hfix : drawsPerm r n (drawsPerm r n i) = drawsPerm r n i := drawsPerm_above hr (by omega)
    have := (drawsPerm r n).injective hfix
    omega

/-- What the loop computes. -/
theorem fisherYatesLoop_getElem? {α : Type} (rand64 : Nat → BitVec 64)
    (hr : ∀ k, k < n → r k ≤ k + 1)
    (hdraws : ∀ k, k < n → uniformRandom (rand64 (n - 1 - k)) (k + 1) = r k) (xs : List α)
    (hlen : n < xs.length) (i : Nat) :
    (fisherYatesLoop rand64 n xs)[i]? = xs[drawsPerm r n i]? := by
  induction n generalizing rand64 xs with
  | zero => rfl
  | succ n ih =>
    have hdraw : uniformRandom (rand64 0) (n + 1) = r n := by simpa using hdraws n (by omega)
    have hrn : r n ≤ n + 1 := hr n (by omega)
    have hlen' : (swapAt (r n) (n + 1) xs).length = xs.length := (swapAt_perm _ _ xs).length_eq
    rw [fisherYatesLoop, hdraw, ih (fun i => rand64 (i + 1)) (fun k hk => hr k (by omega))
      (fun k hk => by rw [← hdraws k (by omega)]; congr 2; omega) _ (by omega),
      getElem?_swapAt (by omega) (by omega), drawsPerm, Equiv.Perm.mul_apply]
    by_cases htop : drawsPerm r n i = n + 1
    · rw [if_pos htop, htop, Equiv.swap_apply_right]
    · by_cases hdr : drawsPerm r n i = r n
      · rw [if_neg htop, if_pos hdr, hdr, Equiv.swap_apply_left]
      · rw [if_neg htop, if_neg hdr, Equiv.swap_apply_of_ne_of_ne hdr htop]

end drawsPerm

/-! ## Draws -/

/-- The draws for a range of `N` elements: `r n` in `[0, n + 1]` is the one for position `n + 1`. -/
abbrev Draws (N : Nat) : Type := (n : Fin (N - 1)) → Fin (n + 2)

namespace Draws

variable {N : Nat}

/-- `rand64` makes these draws. -/
def MadeBy (r : Draws N) (rand64 : Nat → BitVec 64) : Prop :=
  ∀ n : Fin (N - 1), uniformRandom (rand64 (N - 2 - n)) (n + 1) = r n

/-- The draws as a function on all numbers. -/
def toNat (r : Draws N) (n : Nat) : Nat := if h : n < N - 1 then r ⟨n, h⟩ else 0

theorem toNat_eq (r : Draws N) (n : Fin (N - 1)) : r.toNat n = r n := dif_pos n.2

theorem toNat_le (r : Draws N) (n : Nat) (hn : n < N - 1) : r.toNat n ≤ n + 1 := by
  rw [r.toNat_eq ⟨n, hn⟩]
  exact Nat.le_of_lt_succ (r ⟨n, hn⟩).2

/-- The permutation of the shuffle with these draws. -/
def perm (hN : 1 ≤ N) (r : Draws N) : Equiv.Perm (Fin N) :=
  Fin.equivSubtype.symm.permCongr
    ((drawsPerm r.toNat (N - 1)).subtypePerm
      fun i => drawsPerm_lt_iff r.toNat_le (by omega) i)

theorem perm_apply (hN : 1 ≤ N) (r : Draws N) (i : Fin N) :
    (r.perm hN i : Nat) = drawsPerm r.toNat (N - 1) i := rfl

theorem perm_injective (hN : 1 ≤ N) : Function.Injective (perm hN) := by
  intro r r' h
  have hperm : drawsPerm r.toNat (N - 1) = drawsPerm r'.toNat (N - 1) := by
    ext i
    by_cases hi : i < N
    · rw [← perm_apply hN r ⟨i, hi⟩, ← perm_apply hN r' ⟨i, hi⟩, h]
    · rw [drawsPerm_above r.toNat_le (by omega), drawsPerm_above r'.toNat_le (by omega)]
  funext n
  apply Fin.ext
  rw [← r.toNat_eq, ← r'.toNat_eq]
  exact drawsPerm_injective r.toNat_le r'.toNat_le hperm n n.2

theorem card_eq (hN : 1 ≤ N) : Fintype.card (Draws N) = N.factorial := by
  obtain ⟨m, rfl⟩ : ∃ m, N = m + 1 := ⟨N - 1, by omega⟩
  calc Fintype.card (Draws (m + 1)) = ∏ n : Fin m, ((n : Nat) + 2) := by
        rw [show Fintype.card (Draws (m + 1)) = Fintype.card ((n : Fin m) → Fin (n + 2)) from rfl,
          Fintype.card_pi]
        exact Finset.prod_congr rfl fun n _ => Fintype.card_fin _
    _ = ∏ n ∈ Finset.range m, (n + 1 + 1) := Fin.prod_univ_eq_prod_range (fun n => n + 2) m
    _ = (m + 1).factorial := by
        rw [← Finset.prod_range_add_one_eq_factorial, Finset.prod_range_succ']
        simp

theorem perm_bijective (hN : 1 ≤ N) : Function.Bijective (perm hN) := by
  rw [Fintype.bijective_iff_injective_and_card]
  exact ⟨perm_injective hN, by rw [card_eq hN, Fintype.card_perm, Fintype.card_fin]⟩

/-- Words of 64 bits make all draws for a range whose size is a `size_t`. -/
theorem exists_madeBy (hN : N < 2 ^ 64) (r : Draws N) : ∃ rand64, r.MadeBy rand64 := by
  refine ⟨fun k => BitVec.ofNat 64 (r.toNat (N - 2 - k)), fun n => ?_⟩
  have hn := n.2
  have hlt := (r n).2
  have hpos : N - 2 - (N - 2 - n) = n := by omega
  dsimp only
  rw [hpos, toNat_eq, uniformRandom, BitVec.toNat_ofNat, Nat.mod_eq_of_lt (by omega),
    Nat.mod_eq_of_lt (by omega)]

end Draws

/-! ## The shuffle -/

/-- **The permutations that `fisherYatesShuffle` applies are all permutations of the range, each for
exactly one sequence of draws.** -/
theorem fisherYatesShuffle_bijective (N : Nat) (hN : 1 ≤ N) (hsize : N < 2 ^ 64) :
    ∃ perm : Draws N → Equiv.Perm (Fin N), Function.Bijective perm ∧
      (∀ r : Draws N, ∃ rand64, r.MadeBy rand64) ∧
      ∀ (r : Draws N) (rand64 : Nat → BitVec 64), r.MadeBy rand64 →
        ∀ (α : Type) (xs : List α), xs.length = N →
          ∃ ys, fisherYatesShuffle rand64 xs = some ys ∧ ys.length = N ∧
            ∀ i : Fin N, ys[i]? = xs[perm r i]? := by
  refine ⟨Draws.perm hN, Draws.perm_bijective hN, Draws.exists_madeBy hsize,
    fun r rand64 hr α xs hxs => ?_⟩
  have hne : xs ≠ [] := fun h => by simp [h] at hxs; omega
  refine ⟨fisherYatesLoop rand64 (xs.length - 1) xs, ?_, ?_, fun i => ?_⟩
  · rw [fisherYatesShuffle, List.isEmpty_eq_false_iff.2 hne]
    rfl
  · rw [(fisherYatesLoop_perm rand64 _ xs).length_eq, hxs]
  · rw [hxs]
    refine fisherYatesLoop_getElem? rand64 r.toNat_le (fun k hk => ?_) xs (by omega) i
    rw [show N - 1 - 1 - k = N - 2 - k by omega, hr ⟨k, hk⟩, r.toNat_eq ⟨k, hk⟩]

/-- A range of three elements. -/
theorem fisherYatesShuffle_bijective_three :
    ∃ perm : Draws 3 → Equiv.Perm (Fin 3), Function.Bijective perm ∧
      (∀ r : Draws 3, ∃ rand64, r.MadeBy rand64) ∧
      ∀ (r : Draws 3) (rand64 : Nat → BitVec 64), r.MadeBy rand64 →
        ∀ (α : Type) (xs : List α), xs.length = 3 →
          ∃ ys, fisherYatesShuffle rand64 xs = some ys ∧ ys.length = 3 ∧
            ∀ i : Fin 3, ys[i]? = xs[perm r i]? :=
  fisherYatesShuffle_bijective 3 (by decide) (by decide)
