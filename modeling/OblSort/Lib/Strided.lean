import OblSort.Lib.Store
import Mathlib.Algebra.BigOperators.Group.Finset.Sigma
import Mathlib.Algebra.Order.Group.Multiset
import Mathlib.Tactic.Ring

/-!
# Strided routing

A store of buckets, where `f` is what a bucket contains and `dest` the destination of an element. A
range with stride `st` is the buckets `begin`, `begin + st`, `begin + 2 * st`, …, and it is routed
in units of `u` when its bucket `k` contains the elements whose destination is in unit `a + k`.

A range with stride `st` is `w` ranges with stride `st * w`, its columns. When the columns are
routed in units of `u * w`, a layer that splits each row into units of `u` routes the whole range
(`ColumnsRouted.layer`, `LayerUpTo.next`, `LayerUpTo.routed`).
-/

namespace Strided

open Store

variable {β γ : Type} (f : β → Multiset γ) (dest : γ → Nat)

/-! ## Units of destinations -/

/-- The elements with destinations in unit `g`. -/
def unit (u g : Nat) (ents : Multiset γ) : Multiset γ := ents.filter fun y => dest y / u = g

variable {f dest} {u g w a begin st F i k n : Nat} {ents ents' : Multiset γ} {m m' : Nat → β}

@[simp] theorem unit_zero : unit dest u g 0 = 0 := rfl

theorem unit_add (ents ents' : Multiset γ) :
    unit dest u g (ents + ents') = unit dest u g ents + unit dest u g ents' :=
  Multiset.filter_add ..

theorem mem_unit {y : γ} : y ∈ unit dest u g ents ↔ y ∈ ents ∧ dest y / u = g :=
  Multiset.mem_filter

theorem unit_le : unit dest u g ents ≤ ents := Multiset.filter_le ..

theorem unit_eq_self (h : ∀ y ∈ ents, dest y / u = g) : unit dest u g ents = ents :=
  Multiset.filter_eq_self.2 h

/-- A unit of `w` smaller ones holds each of them. -/
theorem unit_unit (hi : i < w) (g : Nat) (ents : Multiset γ) :
    unit dest u (g * w + i) (unit dest (u * w) g ents) = unit dest u (g * w + i) ents := by
  rw [unit, unit, unit, Multiset.filter_filter]
  refine Multiset.filter_congr fun y _ => and_iff_left_of_imp fun h => ?_
  rw [← Nat.div_div_eq_div_mul, h, Nat.add_comm, Nat.add_mul_div_right _ _ (by omega),
    Nat.div_eq_of_lt hi, Nat.zero_add]

/-! ## Ranges -/

variable (f dest)

/-- Bucket `k` of the range contains what of `ents` belongs to unit `a + k`. -/
def RangeRouted (u a begin st F : Nat) (ents : Multiset γ) (m : Nat → β) : Prop :=
  ∀ k < F, f (m (begin + k * st)) = unit dest u (a + k) ents

/-- The first `i` of `w` columns are routed: together their buckets `k` contain what of `ents`
belongs to unit `a + k`. -/
def ColumnsRouted (u a begin st w F i : Nat) (ents : Multiset γ) (m : Nat → β) : Prop :=
  ∀ k < F, ∑ j ∈ Finset.range i, f (m (begin + (k * w + j) * st)) = unit dest u (a + k) ents

/-- The first `n` rows of a range have been split, the others have not. -/
structure LayerUpTo (u a begin st w F n : Nat) (ents : Multiset γ) (m : Nat → β) : Prop where
  split : ∀ q < n * w, f (m (begin + q * st)) = unit dest u (a * w + q) ents
  ahead : ∀ k < F, n ≤ k →
    ∑ j ∈ Finset.range w, f (m (begin + (k * w + j) * st)) = unit dest (u * w) (a + k) ents

variable {f dest}

/-- Bucket `k` of a column. -/
theorem column_eq (begin st w j k : Nat) :
    begin + j * st + k * (st * w) = begin + (k * w + j) * st := by
  ring

theorem column_lt (hb : begin < st) {j : Nat} (hj : j < w) : begin + j * st < st * w := by
  calc begin + j * st < st + j * st := by omega
    _ = st * (j + 1) := by ring
    _ ≤ st * w := Nat.mul_le_mul_left st hj

theorem column_mod (hb : begin < st) {j : Nat} (hj : j < w) (k : Nat) :
    (begin + (k * w + j) * st) % (st * w) = begin + j * st := by
  rw [← column_eq, Nat.add_mul_mod_self_right, Nat.mod_eq_of_lt (column_lt hb hj)]

theorem row_mod (hb : begin < st) (q : Nat) : (begin + q * st) % st = begin := by
  rw [Nat.add_mul_mod_self_right, Nat.mod_eq_of_lt hb]

theorem row_inj (hb : begin < st) {q q' : Nat} (h : begin + q * st = begin + q' * st) : q = q' :=
  Nat.eq_of_mul_eq_mul_right (show 0 < st by omega) (by omega)

/-- Outside of a range is outside of its columns. -/
theorem ne_column (hb : begin < st) {p : Nat} (h : p % st ≠ begin) (j : Nat) :
    p % (st * w) ≠ begin + j * st := by
  intro hp
  apply h
  rw [← Nat.mod_mul_right_mod p st w, hp, row_mod hb]

theorem ColumnsRouted.zero : ColumnsRouted f dest u a begin st w F 0 0 m := fun _ _ => by simp

/-- One column more. -/
theorem ColumnsRouted.next (h : ColumnsRouted f dest u a begin st w F i ents m) (hb : begin < st)
    (hi : i < w) (hr : RangeRouted f dest u a (begin + i * st) (st * w) F ents' m')
    (hframe : ∀ p, p % (st * w) ≠ begin + i * st → m' p = m p) :
    ColumnsRouted f dest u a begin st w F (i + 1) (ents + ents') m' := by
  intro k hk
  rw [Finset.sum_range_succ, unit_add, ← h k hk, ← hr k hk, column_eq]
  congr 1
  refine Finset.sum_congr rfl fun j hj => ?_
  have hj := Finset.mem_range.1 hj
  rw [hframe]
  rw [column_mod hb (by omega)]
  intro heq
  have := row_inj hb heq
  omega

theorem ColumnsRouted.layer (h : ColumnsRouted f dest (u * w) a begin st w F w ents m) :
    LayerUpTo f dest u a begin st w F 0 ents m :=
  ⟨fun q hq => absurd hq (by omega), fun k hk _ => h k hk⟩

/-- One row more. -/
theorem LayerUpTo.next (h : LayerUpTo f dest u a begin st w F n ents m) (hb : begin < st)
    (hn : n < F) {vals : Nat → β} (hvals : ∀ i < w, f (vals i) = unit dest u ((a + n) * w + i)
      (∑ j ∈ Finset.range w, f (m (begin + (n * w + j) * st)))) :
    LayerUpTo f dest u a begin st w F (n + 1) ents
      (putAll (fun i => begin + (n * w + i) * st) vals w m) where
  split q hq := by
    rw [Nat.succ_mul] at hq
    by_cases hlt : q < n * w
    · rw [putAll_of_ne fun i _ heq => ?_]
      · exact h.split q hlt
      · have := row_inj hb heq
        omega
    · obtain ⟨i, rfl⟩ := Nat.exists_eq_add_of_le (show n * w ≤ q by omega)
      have hi : i < w := by omega
      rw [putAll_idx (fun i _ i' _ heq => by have := row_inj hb heq; omega) hi, hvals i hi,
        h.ahead n hn (Nat.le_refl n), unit_unit hi, Nat.add_mul, Nat.add_assoc]
  ahead k hk hle := by
    rw [← h.ahead k hk (by omega)]
    refine Finset.sum_congr rfl fun j _ => ?_
    rw [putAll_of_ne fun i hi heq => ?_]
    have hrow := row_inj hb heq
    have hle' : (n + 1) * w ≤ k * w := Nat.mul_le_mul_right w hle
    rw [Nat.succ_mul] at hle'
    omega

theorem LayerUpTo.routed (h : LayerUpTo f dest u a begin st w F F ents m) :
    RangeRouted f dest u (a * w) begin st (F * w) ents m := h.split

/-- What is put in a row is outside of the other ranges. -/
theorem putAll_row (hb : begin < st) {p : Nat} (hp : p % st ≠ begin) (vals : Nat → β) :
    putAll (fun i => begin + (n * w + i) * st) vals w m p = m p :=
  putAll_of_ne fun i _ heq => hp (by rw [← heq, row_mod hb])

/-! ## Sums -/

/-- The buckets of a range are those of its columns. -/
theorem sum_columns (h : Nat → Multiset γ) (F w : Nat) :
    ∑ q ∈ Finset.range (F * w), h q =
      ∑ j ∈ Finset.range w, ∑ k ∈ Finset.range F, h (k * w + j) := by
  rw [Finset.sum_comm]
  induction F with
  | zero => simp
  | succ F ih => rw [Nat.succ_mul, Finset.sum_range_add, ih, Finset.sum_range_succ]

/-- The units of the destinations together. -/
theorem sum_units (ents : Multiset γ) (n : Nat) :
    ∑ g ∈ Finset.range n, unit dest u g ents = ents.filter fun y => dest y / u < n := by
  induction n with
  | zero => simp
  | succ n ih =>
    rw [Finset.sum_range_succ, ih, unit, Multiset.filter_add_filter]
    have hnone : ents.filter (fun y => dest y / u < n ∧ dest y / u = n) = 0 :=
      Multiset.filter_eq_nil.2 fun y _ h => by omega
    rw [hnone, add_zero]
    exact Multiset.filter_congr fun y _ => by omega

end Strided
