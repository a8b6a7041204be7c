import OblSort.Algorithm.OrShuffle
import OblSort.Algorithm.Proof.OrCompact
import Mathlib.Algebra.BigOperators.Ring.Finset
import Mathlib.Data.Fintype.BigOperators
import Mathlib.Data.List.FinRange
import Mathlib.Data.List.Permutation
import Mathlib.SetTheory.Cardinal.Finite
import Mathlib.Tactic.Ring

/-!
# The shuffle is uniform

Every set of `k` positions out of `n` is marked by `k! * (n - k)!` sequences of draws
(`card_drawMarks`). The compaction scrambles the elements that are not marked, but the halves are
shuffled after it, so it only matters which elements come to the left half: `card_node` counts the
tapes for one result by those of the halves.
-/

namespace EM.Algorithm

open Compact
open scoped Nat

variable {α : Type}

/-! ## Marks -/

/-- The marks that the loop draws. -/
def drawMarks : {n : Nat} → (k : Nat) → Draws n → List Bool
  | 0, _, _ => []
  | _ + 1, k, (draw, draws) =>
    decide (draw.val < k) :: drawMarks (if draw.val < k then k - 1 else k) draws

theorem length_drawMarks {n : Nat} (k : Nat) (draws : Draws n) :
    (drawMarks k draws).length = n := by
  induction n generalizing k with
  | zero => rfl
  | succ n ih =>
    obtain ⟨draw, draws⟩ := draws
    rw [drawMarks, List.length_cons, ih]

/-- **As many marks as asked for** are drawn. -/
theorem count_drawMarks {n k : Nat} (hk : k ≤ n) (draws : Draws n) :
    (drawMarks k draws).count true = k := by
  induction n generalizing k with
  | zero =>
    obtain rfl : k = 0 := by omega
    rfl
  | succ n ih =>
    obtain ⟨draw, draws⟩ := draws
    have hdraw := draw.isLt
    rw [drawMarks]
    by_cases hlt : draw.val < k
    · rw [if_pos hlt, decide_eq_true hlt, List.count_cons_self, ih (by omega)]
      omega
    · rw [if_neg hlt, decide_eq_false hlt, List.count_cons_of_ne (by decide), ih (by omega)]

theorem getD_drawSums {n : Nat} (k currsum : Nat) (draws : Draws n) {i : Nat} (hi : i ≤ n) :
    (drawSums k currsum draws).getD i 0 = currsum + ((drawMarks k draws).take i).count true := by
  induction n generalizing k currsum i with
  | zero =>
    obtain rfl : i = 0 := by omega
    rfl
  | succ n ih =>
    obtain ⟨draw, draws⟩ := draws
    cases i with
    | zero => rfl
    | succ i =>
      rw [drawSums, List.getD_cons_succ, ih _ _ _ (by omega), drawMarks, List.take_succ_cons]
      by_cases hlt : draw.val < k
      · simp [hlt, Nat.add_assoc, Nat.add_comm 1]
      · simp [hlt]

theorem drawSums_sums {n k : Nat} (hk : k ≤ n) (hn : n < 2 ^ 64) (draws : Draws n) :
    PrefixSums (drawMarks k draws) fun i => (drawSums k 0 draws).getD i 0 := by
  intro i hi
  rw [length_drawMarks] at hi
  have hle := ((drawMarks k draws).take_sublist i).count_le true
  rw [count_drawMarks hk] at hle
  show (drawSums k 0 draws).getD i 0 = (drawSums k 0 draws).getD 0 0 + _ ∧
    (drawSums k 0 draws).getD i 0 < _
  rw [getD_drawSums _ _ _ hi, getD_drawSums _ _ _ (Nat.zero_le _), List.take_zero, List.count_nil]
  omega

/-- A node brings the elements that were drawn to the front. -/
theorem orCompactPrefix_drawSums {n k : Nat} (hk : k ≤ n) (hn : n < 2 ^ 64) (draws : Draws n)
    {xs : List α} (hlen : xs.length = n) :
    (orCompactPrefix n (fun i => (drawSums k 0 draws).getD i 0) xs).Perm xs ∧
      (orCompactPrefix n (fun i => (drawSums k 0 draws).getD i 0) xs).take k =
        selected (drawMarks k draws) xs := by
  have hmarks : (drawMarks k draws).length = xs.length := by rw [length_drawMarks, hlen]
  have hselected := orCompactPrefix_selected hmarks (by omega) (drawSums_sums hk hn draws)
  rwa [count_drawMarks hk, hlen] at hselected

/-! ## Counting the draws -/

instance Draws.fintype : (n : Nat) → Fintype (Draws n)
  | 0 => inferInstanceAs (Fintype Unit)
  | n + 1 =>
    have := Draws.fintype n
    inferInstanceAs (Fintype (Fin (n + 1) × Draws n))

theorem card_draws (n : Nat) : Nat.card (Draws n) = n ! := by
  induction n with
  | zero => exact (Nat.card_unique : Nat.card Unit = 1)
  | succ n ih =>
    rw [Nat.factorial_succ, ← ih]
    exact (Nat.card_prod (Fin (n + 1)) (Draws n)).trans (by rw [Nat.card_fin])

/-- The draws of `n + 1` elements with a condition on the first and on the others. -/
theorem card_draws_succ {n : Nat} {P : Draws (n + 1) → Prop} {p : Fin (n + 1) → Prop}
    {q : Draws n → Prop} (h : ∀ draw draws, P (draw, draws) ↔ p draw ∧ q draws) :
    Nat.card {draws // P draws} = Nat.card {draw // p draw} * Nat.card {draws // q draws} := by
  rw [← Nat.card_prod]
  refine Nat.card_congr (Equiv.trans (Equiv.subtypeEquivRight fun draws => ?_)
    (Equiv.subtypeProdEquivProd (p := p) (q := q)))
  exact h draws.1 draws.2

/-- **Every choice of `k` positions** is drawn equally often. -/
theorem card_drawMarks {n k : Nat} {marks : List Bool} (hlen : marks.length = n)
    (hcount : marks.count true = k) :
    Nat.card {draws : Draws n // drawMarks k draws = marks} = k ! * (n - k)! := by
  induction n generalizing k marks with
  | zero =>
    obtain rfl := List.length_eq_zero_iff.1 hlen
    obtain rfl : k = 0 := hcount.symm
    exact (Nat.card_congr (Equiv.subtypeUnivEquiv fun _ => rfl)).trans (card_draws 0)
  | succ n ih =>
    cases marks with
    | nil => cases hlen
    | cons mark marks =>
      have hlen' : marks.length = n := Nat.succ.inj hlen
      have hle := List.count_le_length (a := true) (l := marks)
      cases mark with
      | true =>
        rw [List.count_cons_self] at hcount
        rw [card_draws_succ (p := fun draw => draw.val < k)
          (q := fun draws => drawMarks (k - 1) draws = marks) fun draw draws => ?_,
          ih hlen' (by omega), Nat.card_eq_fintype_card, Fintype.card_fin_lt_of_le (by omega)]
        · obtain ⟨k, rfl⟩ := Nat.exists_eq_add_of_le' (show 1 ≤ k by omega)
          rw [Nat.add_sub_cancel, Nat.factorial_succ, Nat.add_sub_add_right, Nat.mul_assoc]
        · by_cases hlt : draw.val < k <;> simp [drawMarks, hlt]
      | false =>
        rw [List.count_cons_of_ne (by decide)] at hcount
        rw [card_draws_succ (p := fun draw => ¬ draw.val < k)
          (q := fun draws => drawMarks k draws = marks) fun draw draws => ?_, ih hlen' hcount,
          Nat.card_eq_fintype_card, Fintype.card_subtype_compl, Fintype.card_fin,
          Fintype.card_fin_lt_of_le (by omega)]
        · rw [show n + 1 - k = n - k + 1 by omega, Nat.factorial_succ]
          ring
        · by_cases hlt : draw.val < k <;> simp [drawMarks, hlt]

/-! ## One call -/

theorem orShuffle_perm {n : Nat} (hn : n < 2 ^ 64) (t : Tape n) {xs : List α}
    (hlen : xs.length = n) :
    (orShuffle t xs).Perm xs := by
  induction t generalizing xs with
  | small => exact .refl _
  | bit flag => exact (condSwapAll_perm _ _ _ _).trans (.of_eq (List.take_append_drop 1 xs))
  | @node n h draws left right ihl ihr =>
    obtain ⟨hperm, -⟩ := orCompactPrefix_drawSums (Nat.div_le_self n 2) hn draws hlen
    have hlen' := hperm.length_eq
    simp only [orShuffle]
    refine ((ihl (by omega) (by rw [List.length_take]; omega)).append
      (ihr (by omega) (by rw [List.length_drop]; omega))).trans ?_
    rwa [List.take_append_drop]

/-! ## Counting the tapes -/

theorem Tape.eq_small {n : Nat} (h : n ≤ 1) (t : Tape n) : t = .small h := by
  cases t with
  | small => rfl
  | bit => omega
  | node => omega

def Tape.bitEquiv : Tape 2 ≃ Bool where
  toFun
    | .bit flag => flag
    | .small _ => false
    | .node _ _ _ _ => false
  invFun := .bit
  left_inv t := by
    cases t with
    | small => omega
    | bit => rfl
    | node => omega
  right_inv _ := rfl

def Tape.nodeEquiv {n : Nat} (h : 3 ≤ n) :
    Tape n ≃ Draws n × Tape (n / 2) × Tape (n - n / 2) where
  toFun t := match n, h, t with
    | _, h, .small h' => absurd h' (by omega)
    | _, h, .bit _ => absurd h (by decide)
    | _, _, .node _ draws left right => (draws, left, right)
  invFun p := .node h p.1 p.2.1 p.2.2
  left_inv t := by
    cases t with
    | small => omega
    | bit => omega
    | node => rfl
  right_inv _ := rfl

instance Tape.finite (n : Nat) : Finite (Tape n) := by
  induction n using Nat.strongRecOn with
  | ind n ih =>
    by_cases h1 : n ≤ 1
    · have : Subsingleton (Tape n) := ⟨fun t t' => (t.eq_small h1).trans (t'.eq_small h1).symm⟩
      infer_instance
    · by_cases h2 : n = 2
      · subst h2
        exact .of_equiv _ Tape.bitEquiv.symm
      · have := ih (n / 2) (by omega)
        have := ih (n - n / 2) (by omega)
        exact .of_equiv _ (Tape.nodeEquiv (by omega)).symm

/-- The marks of the elements that a permutation has in its left part. -/
theorem count_marks [DecidableEq α] {xs ys : List α} (hnodup : xs.Nodup) (hperm : ys.Perm xs)
    {k : Nat} (hk : k ≤ xs.length) :
    (xs.map fun x => decide (x ∈ ys.take k)).count true = k := by
  have hlen := hperm.length_eq
  have hys : (ys.take k ++ ys.drop k).Nodup := by
    rw [List.take_append_drop]
    exact hperm.nodup_iff.2 hnodup
  obtain ⟨-, -, hdisjoint⟩ := List.nodup_append.1 hys
  have htake : (ys.take k).countP (fun x => decide (x ∈ ys.take k)) = k := by
    rw [List.countP_eq_length.2 (by simp), List.length_take]
    omega
  have hdrop : (ys.drop k).countP (fun x => decide (x ∈ ys.take k)) = 0 := by
    refine List.countP_eq_zero.2 fun x hx hmem => ?_
    exact hdisjoint x (of_decide_eq_true hmem) x hx rfl
  calc
    _ = xs.countP fun x => decide (x ∈ ys.take k) := by
      rw [List.count_eq_countP, List.countP_map]
      exact List.countP_congr (by simp)
    _ = (ys.take k ++ ys.drop k).countP fun x => decide (x ∈ ys.take k) := by
      rw [List.take_append_drop, hperm.countP_eq]
    _ = k := by rw [List.countP_append, htake, hdrop, Nat.add_zero]

section
variable {n : Nat} (hn : n < 2 ^ 64) {xs ys zs : List α} {a b : Nat}
  (hleft : ∀ us vs : List α, us.Nodup → us.length = n / 2 → vs.Perm us →
    Nat.card {t : Tape (n / 2) // orShuffle t us = vs} = a)
  (hright : ∀ us vs : List α, us.Nodup → us.length = n - n / 2 → vs.Perm us →
    Nat.card {t : Tape (n - n / 2) // orShuffle t us = vs} = b)
include hn hleft hright

/-- After the compaction, the halves can only get to a result if each of them has its elements. -/
theorem card_halves (hlen : zs.length = n) (hnodup : zs.Nodup) (hperm : ys.Perm zs)
    [Decidable ((ys.take (n / 2)).Perm (zs.take (n / 2)))] :
    Nat.card {t : Tape (n / 2) × Tape (n - n / 2) //
        orShuffle t.1 (zs.take (n / 2)) ++ orShuffle t.2 (zs.drop (n / 2)) = ys} =
      if (ys.take (n / 2)).Perm (zs.take (n / 2)) then a * b else 0 := by
  have hl : (zs.take (n / 2)).length = n / 2 := by
    rw [List.length_take]
    omega
  have hr : (zs.drop (n / 2)).length = n - n / 2 := by
    rw [List.length_drop]
    omega
  have hiff : ∀ t : Tape (n / 2) × Tape (n - n / 2),
      orShuffle t.1 (zs.take (n / 2)) ++ orShuffle t.2 (zs.drop (n / 2)) = ys ↔
        orShuffle t.1 (zs.take (n / 2)) = ys.take (n / 2) ∧
          orShuffle t.2 (zs.drop (n / 2)) = ys.drop (n / 2) := by
    intro t
    have hlen' := (orShuffle_perm (by omega) t.1 hl).length_eq.trans hl
    constructor
    · rintro rfl
      exact ⟨(List.take_left' hlen').symm, (List.drop_left' hlen').symm⟩
    · rintro ⟨h1, h2⟩
      rw [h1, h2, List.take_append_drop]
  rw [Nat.card_congr ((Equiv.subtypeEquivRight hiff).trans (Equiv.subtypeProdEquivProd
    (p := fun t => orShuffle t (zs.take (n / 2)) = ys.take (n / 2))
    (q := fun t => orShuffle t (zs.drop (n / 2)) = ys.drop (n / 2)))), Nat.card_prod]
  split
  · rename_i htake
    have hdrop : (ys.drop (n / 2)).Perm (zs.drop (n / 2)) := by
      rw [← List.perm_append_left_iff (ys.take (n / 2)), List.take_append_drop]
      refine hperm.trans (.trans (.of_eq (List.take_append_drop (n / 2) zs).symm) ?_)
      exact htake.symm.append_right _
    rw [hleft _ _ (hnodup.sublist (List.take_sublist _ _)) hl htake,
      hright _ _ (hnodup.sublist (List.drop_sublist _ _)) hr hdrop]
  · rename_i htake
    have : IsEmpty {t : Tape (n / 2) // orShuffle t (zs.take (n / 2)) = ys.take (n / 2)} := by
      refine ⟨fun t => htake ?_⟩
      rw [← t.2]
      exact orShuffle_perm (by omega) t.1 hl
    rw [Nat.card_of_isEmpty, Nat.zero_mul]

/-- The tapes of a node for one result. -/
theorem card_node (h : 3 ≤ n) (hlen : xs.length = n) (hnodup : xs.Nodup) (hperm : ys.Perm xs) :
    Nat.card {t : Tape n // orShuffle t xs = ys} = (n / 2)! * (n - n / 2)! * (a * b) := by
  classical
  have hhalf : n / 2 ≤ n := Nat.div_le_self n 2
  let compacted := fun draws : Draws n =>
    orCompactPrefix n (fun i => (drawSums (n / 2) 0 draws).getD i 0) xs
  -- the marks that bring the elements of the left half to the left
  let marks := xs.map fun x => decide (x ∈ ys.take (n / 2))
  have hys : ys.Nodup := hperm.nodup_iff.2 hnodup
  have hcount : marks.count true = n / 2 := count_marks hnodup hperm (by omega)
  have hmarks : ∀ draws : Draws n,
      (ys.take (n / 2)).Perm ((compacted draws).take (n / 2)) ↔
        drawMarks (n / 2) draws = marks := by
    intro draws
    rw [(orCompactPrefix_drawSums hhalf hn draws hlen).2]
    constructor
    · intro hfront
      rw [marks_eq_map hnodup (show (drawMarks (n / 2) draws).length = xs.length by
        rw [length_drawMarks, hlen])]
      exact List.map_congr_left fun x _ => by simp only [hfront.mem_iff]
    · intro hdraws
      rw [hdraws, selected_map, List.perm_ext_iff_of_nodup (hys.sublist (List.take_sublist _ _))
        (hnodup.filter _)]
      intro x
      simpa using fun hx => hperm.mem_iff.1 (List.mem_of_mem_take hx)
  calc
    _ = Nat.card (Σ draws : Draws n, {t : Tape (n / 2) × Tape (n - n / 2) //
          orShuffle t.1 ((compacted draws).take (n / 2)) ++
            orShuffle t.2 ((compacted draws).drop (n / 2)) = ys}) := by
      refine Nat.card_congr (Equiv.trans ?_ (Equiv.subtypeProdEquivSigmaSubtype _))
      exact ((Tape.nodeEquiv h).symm.subtypeEquiv fun _ => Iff.rfl).symm
    _ = ∑ draws : Draws n, if drawMarks (n / 2) draws = marks then a * b else 0 := by
      rw [Nat.card_sigma]
      refine Finset.sum_congr rfl fun draws _ => ?_
      obtain ⟨hz, -⟩ := orCompactPrefix_drawSums hhalf hn draws hlen
      rw [card_halves hn hleft hright (hz.length_eq.trans hlen) (hz.nodup_iff.2 hnodup)
        (hperm.trans hz.symm)]
      exact if_congr (hmarks draws) rfl rfl
    _ = (n / 2)! * (n - n / 2)! * (a * b) := by
      rw [← card_drawMarks (by rw [List.length_map, hlen]) hcount, Finset.sum_ite,
        Finset.sum_const, Finset.sum_const_zero, Nat.add_zero, nsmul_eq_mul, Nat.cast_id,
        Nat.card_eq_fintype_card, Fintype.card_subtype]

end

theorem card_two {xs ys : List α} (hnodup : xs.Nodup) (hlen : xs.length = 2) (hperm : ys.Perm xs) :
    Nat.card {t : Tape 2 // orShuffle t xs = ys} = 1 := by
  obtain ⟨x, y, rfl⟩ := List.length_eq_two.1 hlen
  have hne : x ≠ y := by simpa using hnodup
  have hunique : ∀ flag flag', orShuffle (.bit flag) [x, y] = orShuffle (.bit flag') [x, y] →
      flag = flag' := by
    intro flag flag' h
    cases flag <;> cases flag' <;> simp_all [orShuffle, condSwapAll]
  obtain ⟨flag, hflag⟩ : ∃ flag, orShuffle (.bit flag) [x, y] = ys := by
    rcases List.perm_pair.1 hperm with h | h
    · exact ⟨false, h.symm⟩
    · exact ⟨true, h.symm⟩
  refine Nat.card_eq_one_iff_exists.2 ⟨⟨.bit flag, hflag⟩, fun s => Subtype.ext ?_⟩
  obtain ⟨t, ht⟩ := s
  cases t with
  | small => omega
  | bit flag' => exact congrArg Tape.bit (hunique flag' flag (ht.trans hflag.symm))
  | node => omega

/-- Every permutation of a list without duplicates has the same number of tapes. -/
theorem card_orShuffle {n : Nat} (hn : n < 2 ^ 64) : ∃ c, 0 < c ∧ Nat.card (Tape n) = n ! * c ∧
    ∀ xs ys : List α, xs.Nodup → xs.length = n → ys.Perm xs →
      Nat.card {t : Tape n // orShuffle t xs = ys} = c := by
  induction n using Nat.strongRecOn with
  | ind n ih =>
    by_cases h1 : n ≤ 1
    · refine ⟨1, Nat.one_pos, ?_, fun xs ys _ hlen hperm => ?_⟩
      · have hfact : n ! = 1 := Nat.factorial_eq_one.2 h1
        rw [hfact]
        exact Nat.card_eq_one_iff_exists.2 ⟨.small h1, fun t => t.eq_small h1⟩
      · refine Nat.card_eq_one_iff_exists.2 ⟨⟨.small h1, ?_⟩, fun t =>
          Subtype.ext (t.1.eq_small h1)⟩
        cases xs with
        | nil => exact hperm.eq_nil.symm
        | cons x xs =>
          obtain rfl : xs = [] := List.length_eq_zero_iff.1 (by simp at hlen; omega)
          exact (List.perm_singleton.1 hperm).symm
    · by_cases h2 : n = 2
      · subst h2
        refine ⟨1, Nat.one_pos, ?_, fun xs ys hnodup hlen hperm => ?_⟩
        · rw [Nat.card_congr Tape.bitEquiv, Nat.card_eq_fintype_card, Fintype.card_bool]
          rfl
        · exact card_two hnodup hlen hperm
      · obtain ⟨a, ha, hcarda, hleft⟩ := ih (n / 2) (by omega) (by omega)
        obtain ⟨b, hb, hcardb, hright⟩ := ih (n - n / 2) (by omega) (by omega)
        refine ⟨(n / 2)! * (n - n / 2)! * (a * b), ?_, ?_, fun xs ys hnodup hlen hperm =>
          card_node hn hleft hright (by omega) hlen hnodup hperm⟩
        · exact Nat.mul_pos (Nat.mul_pos (Nat.factorial_pos _) (Nat.factorial_pos _))
            (Nat.mul_pos ha hb)
        · rw [Nat.card_congr (Tape.nodeEquiv (by omega)), Nat.card_prod, Nat.card_prod, card_draws,
            hcarda, hcardb]
          ring

/-! ## Uniformity -/

/-- Every node of the recursion marks half of its elements. -/
def Tape.HalfMarked : {n : Nat} → Tape n → Prop
  | _, .small _ => True
  | _, .bit _ => True
  | n, .node _ draws left right =>
    (∃ marks : List Bool, marks.length = n ∧ marks.count true = n / 2 ∧
      PrefixSums marks fun i => (drawSums (n / 2) 0 draws).getD i 0) ∧
    left.HalfMarked ∧ right.HalfMarked

theorem Tape.halfMarked {n : Nat} (hn : n < 2 ^ 64) (t : Tape n) : t.HalfMarked := by
  induction t with
  | small => trivial
  | bit => trivial
  | @node n h draws left right ihl ihr =>
    have hhalf : n / 2 ≤ n := Nat.div_le_self n 2
    exact ⟨⟨drawMarks (n / 2) draws, length_drawMarks _ _, count_drawMarks hhalf draws,
      drawSums_sums hhalf hn draws⟩, ihl (by omega), ihr (by omega)⟩

/-- **`OrShuffle` is uniform**: it marks half of the elements at every node, and each of the `n!`
permutations of the positions comes from the same number of tapes. -/
theorem orShuffle_uniform {n : Nat} (hn : n < 2 ^ 64) :
    (∀ t : Tape n, t.HalfMarked) ∧ 0 < Nat.card (Tape n) ∧
      ∀ σ : Equiv.Perm (Fin n),
        n ! * Nat.card {t : Tape n // orShuffle t (List.finRange n) = (List.finRange n).map σ} =
          Nat.card (Tape n) := by
  obtain ⟨c, hc, hcard, hfiber⟩ := card_orShuffle (α := Fin n) hn
  refine ⟨Tape.halfMarked hn, ?_, fun σ => ?_⟩
  · rw [hcard]
    exact Nat.mul_pos (Nat.factorial_pos n) hc
  · rw [hcard, hfiber _ _ (List.nodup_finRange n) List.length_finRange σ.map_finRange_perm]

theorem orShuffle_uniform_six :
    (6 : Nat) < 2 ^ 64 ∧ ∀ σ : Equiv.Perm (Fin 6),
      6 ! * Nat.card {t : Tape 6 // orShuffle t (List.finRange 6) = (List.finRange 6).map σ} =
        Nat.card (Tape 6) :=
  ⟨by decide, (orShuffle_uniform (by decide)).2.2⟩

end EM.Algorithm
