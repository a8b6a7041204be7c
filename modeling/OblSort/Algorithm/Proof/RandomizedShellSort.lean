import Mathlib.Data.List.GetD
import OblSort.Algorithm.RandomizedShellSort
import OblSort.Common.Proof.Utils

/-!
# Where randomized Shellsort stays in range

The shuffle only orders the mates: all positions of both regions are met (`compareRegions_checks`).
Of the six passes the fifth goes furthest. Its regions start at the multiples of `2 * offset` below
`n`, and the last of them ends in range only if `2 * offset` divides `n`; then the other passes are
in range too (`passes_checks`).
-/

namespace EM.Algorithm.ShellSort

open Loop

variable {α : Type} {lt : α → α → Bool} {xs : List α}

/-- The range holds a permutation of the input. -/
def Permuted (xs : List α) (s : State α) : Prop := List.Perm s.elems xs

theorem compareExchange_checks (i j : Nat) {s : State α} (hs : Permuted xs s) :
    Checks (Permuted xs) (i < xs.length ∧ j < xs.length) (compareExchange lt i j s) := by
  have hlen : s.elems.length = xs.length := List.Perm.length_eq hs
  rw [← hlen, compareExchange]
  split
  · rename_i h
    exact ⟨(Net.condSwap_perm _ _ _ _).trans hs, h⟩
  · rename_i h
    exact h

/-- Two regions, the second after the first, are in range exactly if the second is. -/
theorem compareRound_checks {begin₁ begin₂ offset : Nat} (hoff : 0 < offset)
    (hle : begin₁ + offset ≤ begin₂) {s : State α} (hs : Permuted xs s) :
    Checks (Permuted xs) (begin₂ + offset ≤ xs.length)
    (compareRound lt begin₁ begin₂ offset s) := by
  have hne : List.range offset ≠ [] := by simp; omega
  obtain ⟨mate, hmate, hperm⟩ := fisherYatesShuffle_perm s.rand64 hne
  have hlen : mate.length = offset := by rw [hperm.length_eq, List.length_range]
  have hround : Checks (Permuted xs)
      (∀ i < offset, begin₁ + i < xs.length ∧ begin₂ + mate.getD i 0 < xs.length)
      (compareRound lt begin₁ begin₂ offset s) := by
    rw [compareRound, hmate]
    exact forRange_checks (fun i _ s hs => compareExchange_checks _ _ hs) hs
  refine hround.congr ⟨fun h => ?_, fun h i hi => ?_⟩
  · -- the last position of the second region is somebody's mate
    have hlast : offset - 1 ∈ mate := hperm.mem_iff.2 (List.mem_range.2 (by omega))
    obtain ⟨i, hi, hget⟩ := List.getElem_of_mem hlast
    have hin := (h i (by omega)).2
    rw [List.getD_eq_getElem _ _ hi, hget] at hin
    omega
  · have hmem : mate.getD i 0 ∈ mate := by
      rw [List.getD_eq_getElem _ _ (by omega)]
      exact List.getElem_mem _
    have hlt := List.mem_range.1 (hperm.mem_iff.1 hmem)
    omega

theorem compareRegions_checks {begin₁ begin₂ offset : Nat} (hoff : 0 < offset)
    (hle : begin₁ + offset ≤ begin₂) {s : State α} (hs : Permuted xs s) :
    Checks (Permuted xs) (begin₂ + offset ≤ xs.length) (compareRegions lt begin₁ begin₂ offset s) :=
  (forRange_checks (fun _ _ _ hs => compareRound_checks hoff hle hs) hs).congr
    ⟨fun h => h 0 (by decide), fun h _ _ => h⟩

/-- A pass that goes up, with regions at the distance `d`. -/
theorem forUp_regions {offset : Nat} (hoff : 0 < offset) {step d : Nat} (hstep : 0 < step)
    (hd : offset ≤ d) (bound start : Nat) {s : State α} (hs : Permuted xs s) :
    Checks (Permuted xs)
      (∀ k, start + k * step < bound → start + k * step + d + offset ≤ xs.length)
      (forUp bound step (fun i => compareRegions lt i (i + d) offset) start s) :=
  forUp_checks hstep (fun _ _ hs => compareRegions_checks hoff (by omega) hs) start hs

/-- A multiple of `offset` below `n - d` is one of the positions `0`, …, `n - d - offset`. -/
theorem add_le_of_dvd {n offset i d : Nat} (hn : offset ∣ n) (hi : offset ∣ i) (hd : offset ∣ d)
    (hlt : i < n - d) : i + d + offset ≤ n := by
  obtain ⟨c, hc⟩ := Nat.dvd_sub hn (Nat.dvd_add hi hd)
  have hpos : 0 < offset * c := by omega
  have := Nat.le_mul_of_pos_right offset (Nat.pos_of_mul_pos_left hpos)
  omega

theorem passes_checks {offset : Nat} (hoff : 0 < offset) {s : State α} (hs : Permuted xs s) :
    Checks (Permuted xs) (2 * offset ∣ xs.length) (passes lt xs.length offset s) := by
  refine Checks.congr (Checks.bind (forUp_regions hoff hoff (Nat.le_refl _) _ _ hs) fun s hs =>
    .bind (forDown_checks hoff hoff
      (fun i hi s hs => compareRegions_checks hoff (by omega) hs) _ hs) fun s hs =>
    .bind (forUp_regions hoff hoff (by omega) _ _ hs) fun s hs =>
    .bind (forUp_regions hoff hoff (by omega) _ _ hs) fun s hs =>
    .bind (forUp_regions hoff (by omega) (Nat.le_refl _) _ _ hs) fun s hs =>
    forUp_regions hoff (by omega) (Nat.le_refl _) _ _ hs) ⟨fun h => ?_, fun h => ?_⟩
  · -- the last region of the fifth pass
    have hlast := h.2.2.2.2.1 (xs.length / (2 * offset))
    have hdiv := Nat.div_add_mod xs.length (2 * offset)
    have hmod := Nat.mod_lt xs.length (show 0 < 2 * offset by omega)
    rw [Nat.mul_comm] at hdiv
    apply Nat.dvd_of_mod_eq_zero
    by_contra hne
    have := hlast (by omega)
    omega
  · have hn : offset ∣ xs.length := (Nat.dvd_mul_left offset 2).trans h
    have hmul : ∀ k, offset ∣ 0 + k * offset :=
      fun k => by rw [Nat.zero_add]; exact Nat.dvd_mul_left ..
    refine ⟨fun k hk => add_le_of_dvd hn (hmul k) (Nat.dvd_refl _) hk, fun k hk => by omega,
      fun k hk => add_le_of_dvd hn (hmul k) (Nat.dvd_mul_left _ _) hk,
      fun k hk => add_le_of_dvd hn (hmul k) (Nat.dvd_mul_left _ _) hk, fun k hk => ?_,
      fun k hk => ?_⟩
    · have := add_le_of_dvd (d := 0) h (Nat.dvd_mul_left (2 * offset) k) (Nat.dvd_zero _) (by omega)
      omega
    · have hi : offset ∣ offset + k * (2 * offset) :=
        Nat.dvd_add (Nat.dvd_refl _) ((Nat.dvd_mul_left offset 2).trans (Nat.dvd_mul_left _ k))
      exact add_le_of_dvd hn hi (Nat.dvd_refl _) hk

/-! ## All offsets -/

theorem offsetLoop_checks (offset : Nat) {s : State α} (hs : Permuted xs s) :
    Checks (Permuted xs) (∀ k, 0 < offset / 2 ^ k → 2 * (offset / 2 ^ k) ∣ xs.length)
      (offsetLoop lt xs.length offset s) := by
  induction offset using Nat.strongRecOn generalizing s with
  | ind offset ih =>
    unfold offsetLoop
    by_cases hoff : 0 < offset
    · rw [if_pos hoff]
      refine ((passes_checks hoff hs).bind fun s hs => ih (offset / 2) (by omega) hs).congr
        ⟨fun h k hk => ?_, fun h => ⟨?_, fun k hk => ?_⟩⟩
      · cases k with
        | zero => simpa using h.1
        | succ k =>
          rw [Nat.pow_succ', ← Nat.div_div_eq_div_mul] at hk ⊢
          exact h.2 k hk
      · simpa using h 0 (by simpa using hoff)
      · rw [Nat.div_div_eq_div_mul, ← Nat.pow_succ'] at hk ⊢
        exact h (k + 1) hk
    · obtain rfl : offset = 0 := by omega
      rw [if_neg hoff]
      exact ⟨hs, fun k hk => by simp at hk⟩

theorem randomizedShellSort_checks (lt : α → α → Bool) (rand64 : Nat → BitVec 64) (xs : List α) :
    Checks (fun ys => List.Perm ys xs)
      (∀ k, 0 < xs.length / 2 ^ (k + 1) → 2 * (xs.length / 2 ^ (k + 1)) ∣ xs.length)
      (randomizedShellSort lt rand64 xs) := by
  have hloop := @offsetLoop_checks α lt xs (xs.length / 2) ⟨rand64, xs⟩ (List.Perm.refl xs)
  simp only [Nat.div_div_eq_div_mul, ← Nat.pow_succ'] at hloop
  exact hloop.map State.elems fun s hs => hs

/-- Powers of two are such lengths. -/
theorem two_pow_offsets (p k : Nat) (hk : 0 < 2 ^ p / 2 ^ (k + 1)) :
    2 * (2 ^ p / 2 ^ (k + 1)) ∣ 2 ^ p := by
  have hle : k + 1 ≤ p := by
    by_contra hlt
    rw [Nat.div_eq_of_lt (Nat.pow_lt_pow_right (by decide) (by omega))] at hk
    exact absurd hk (Nat.lt_irrefl 0)
  rw [Nat.pow_div hle (by decide), ← Nat.pow_succ']
  exact Nat.pow_dvd_pow 2 (by omega)

/-- **Randomized Shellsort stays in range, and then permutes its input, exactly for the lengths that
are multiples of twice each of their offsets.** -/
theorem randomizedShellSort_in_range_iff (lt : α → α → Bool) (rand64 : Nat → BitVec 64)
    (xs : List α) :
    (∃ ys, randomizedShellSort lt rand64 xs = .ok ys ∧ List.Perm ys xs) ↔
      ∀ k, 0 < xs.length / 2 ^ (k + 1) → 2 * (xs.length / 2 ^ (k + 1)) ∣ xs.length :=
  (randomizedShellSort_checks lt rand64 xs).exists_ok_iff

/-- A power of two. -/
theorem randomizedShellSort_in_range_eight :
    ∃ ys, randomizedShellSort (fun a b : Nat => decide (a < b)) (fun i => BitVec.ofNat 64 (i * i))
        [5, 2, 8, 1, 7, 3, 6, 4] = .ok ys ∧ List.Perm ys [5, 2, 8, 1, 7, 3, 6, 4] :=
  (randomizedShellSort_in_range_iff _ _ [5, 2, 8, 1, 7, 3, 6, 4]).2 fun k hk =>
    two_pow_offsets 3 k hk

/-- Of three elements, the fifth pass compares the last one with position 3. -/
theorem randomizedShellSort_leaves_range :
    ¬ ∃ ys, randomizedShellSort (fun a b : Nat => decide (a < b)) (fun _ => 0#64)
    [1, 2, 3] = .ok ys ∧
      List.Perm ys [1, 2, 3] := by
  rw [(randomizedShellSort_checks _ _ _).exists_ok_iff]
  exact fun h => absurd (h 0 (by decide)) (by decide)

end EM.Algorithm.ShellSort
