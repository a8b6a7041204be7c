import OblSort.Algorithm.CABucketSort
import OblSort.Algorithm.Proof.Bitonic
import OblSort.Algorithm.Proof.MergeSplit
import OblSort.Common.Proof.Utils

/-!
# Bin packing

`digit o L x` are the `L` bits of a tag after its first `o`. `binPacking_routed`: bin packing of
`2 ^ L` buckets with the bit mask of position `o` brings every real element to the bucket that its
digit names, unless a bucket would get more than `Z` of them (`binPacking_overflow_iff`).

The masks of `binPacking` order the elements by their digit, real ones first (`and_rangeMask`,
`and_rangeMask_flag`). `keep` are the elements that `markExcess` leaves unmarked: of each class the
first `Z`. Whatever is marked joins the padding of the last bucket.
-/

namespace EM.Algorithm.CABucketSort

open Store Net

variable {α : Type}

/-! ## Masks -/

/-- The bit mask with which the routing begins at bit `o` of the tags, from the top. -/
def maskAt (o : Nat) : BitVec 64 := (1#64 <<< 63) >>> o

/-- The `L` bits of the tag after the first `o`. -/
def digit (o L : Nat) (x : TaggedT α) : Nat := x.tag.toNat / 2 ^ (64 - o - L) % 2 ^ L

theorem digit_lt (o L : Nat) (x : TaggedT α) : digit o L x < 2 ^ L :=
    Nat.mod_lt _ (Nat.two_pow_pos L)

/-- `x` with the bits of a field, and some bits below it. -/
theorem and_field {s : Nat} (x L : Nat) {b : Nat} (hb : b < 2 ^ s) :
    x &&& (2 ^ s * (2 ^ L - 1) + b) = 2 ^ s * (x / 2 ^ s % 2 ^ L) + (x &&& b) := by
  apply Nat.eq_of_testBit_eq
  intro j
  have hand : x &&& b < 2 ^ s := Nat.lt_of_le_of_lt Nat.and_le_right hb
  rw [Nat.testBit_and, Nat.testBit_two_pow_mul_add _ hb, Nat.testBit_two_pow_mul_add _ hand]
  by_cases hj : j < s
  · rw [if_pos hj, if_pos hj, Nat.testBit_and]
  · rw [if_neg hj, if_neg hj, Nat.testBit_two_pow_sub_one, Nat.testBit_mod_two_pow,
      Nat.testBit_div_two_pow, Nat.sub_add_cancel (Nat.not_lt.1 hj), Bool.and_comm]

/-- `rangeMask` of `binPacking`. -/
def rangeMask (o L : Nat) : BitVec 64 := (maskAt o >>> L) <<< 1 * BitVec.ofNat 64 (2 ^ L - 1)

section Masks

variable {o L : Nat}

theorem toNat_baseMask (h : o + L ≤ 63) (hpos : 0 < o + L) :
    ((maskAt o >>> L) <<< 1).toNat = 2 ^ (64 - o - L) := by
  have hdiv : 2 ^ 63 / 2 ^ o / 2 ^ L = 2 ^ (63 - o - L) := by
    rw [Nat.div_div_eq_div_mul, ← Nat.pow_add, Nat.pow_div h (by decide), Nat.sub_sub]
  have hlt : 2 ^ (64 - o - L) < 2 ^ 64 := Nat.pow_lt_pow_right (by decide) (by omega)
  have hone : (1#64 <<< 63).toNat = 2 ^ 63 := by decide
  rw [BitVec.toNat_shiftLeft, BitVec.toNat_ushiftRight, maskAt, BitVec.toNat_ushiftRight, hone,
    Nat.shiftRight_eq_div_pow, Nat.shiftRight_eq_div_pow, hdiv, Nat.shiftLeft_eq, ← Nat.pow_add,
    show 63 - o - L + 1 = 64 - o - L by omega, Nat.mod_eq_of_lt hlt]

theorem toNat_rangeMask (h : o + L ≤ 63) :
    (rangeMask o L).toNat = 2 ^ (64 - o - L) * (2 ^ L - 1) := by
  rcases Nat.eq_zero_or_pos L with rfl | hL
  · simp [rangeMask]
  · have hpow : 2 ^ (64 - o - L) * 2 ^ L = 2 ^ (64 - o) := by
      rw [← Nat.pow_add, show 64 - o - L + L = 64 - o by omega]
    have hle : 2 ^ (64 - o) ≤ 2 ^ 64 := Nat.pow_le_pow_right (by decide) (by omega)
    have hlt : 2 ^ L - 1 < 2 ^ 64 := by
      have : 2 ^ L < 2 ^ 64 := Nat.pow_lt_pow_right (by decide) (by omega)
      omega
    have hpos : 0 < 2 ^ (64 - o - L) := Nat.two_pow_pos _
    rw [rangeMask, BitVec.toNat_mul, toNat_baseMask h (by omega), BitVec.toNat_ofNat,
      Nat.mod_eq_of_lt hlt, Nat.mod_eq_of_lt]
    rw [Nat.mul_sub, hpow]
    omega

theorem toNat_rangeMask_flag (h : o + L ≤ 63) :
    (rangeMask o L + 1).toNat = 2 ^ (64 - o - L) * (2 ^ L - 1) + 1 := by
  have hrange := toNat_rangeMask h
  have hlt := (rangeMask o L).isLt
  have heven : 2 ^ (64 - o - L) * (2 ^ L - 1) = 2 * (2 ^ (63 - o - L) * (2 ^ L - 1)) := by
    rw [show 64 - o - L = 63 - o - L + 1 by omega, Nat.pow_succ, Nat.mul_comm (2 ^ (63 - o - L)),
      Nat.mul_assoc]
  rw [BitVec.toNat_add, hrange, show (1 : BitVec 64).toNat = 1 from rfl, Nat.mod_eq_of_lt]
  omega

theorem and_rangeMask (h : o + L ≤ 63) (x : TaggedT α) :
    (x.tag &&& rangeMask o L).toNat = 2 ^ (64 - o - L) * digit o L x := by
  have hand := and_field x.tag.toNat L (Nat.two_pow_pos (64 - o - L))
  rw [Nat.add_zero, Nat.and_zero, Nat.add_zero] at hand
  rw [BitVec.toNat_and, toNat_rangeMask h, hand, digit]

theorem and_rangeMask_flag (h : o + L ≤ 63) (x : TaggedT α) :
    (x.tag &&& (rangeMask o L + 1)).toNat = 2 ^ (64 - o - L) * digit o L x + x.tag.toNat % 2 := by
  have hone : 1 < 2 ^ (64 - o - L) := Nat.one_lt_two_pow (by omega)
  rw [BitVec.toNat_and, toNat_rangeMask_flag h, and_field _ _ hone, Nat.and_one_is_mod, digit]

theorem dummyFlag_eq (x : TaggedT α) : dummyFlag x = decide (x.tag.toNat % 2 = 1) := by
  have hand : (x.tag &&& 1).toNat = x.tag.toNat % 2 := by
    rw [BitVec.toNat_and, show (1 : BitVec 64).toNat = 1 from rfl, Nat.and_one_is_mod]
  rw [dummyFlag, Bool.eq_iff_iff, bne_iff_ne, ne_eq, decide_eq_true_iff, ← hand,
    ← BitVec.toNat_inj, show (0 : BitVec 64).toNat = 0 from rfl]
  have : (x.tag &&& 1).toNat < 2 := by
    rw [hand]
    exact Nat.mod_lt _ (by decide)
  omega

/-- The elements of one digit are those with one value under the mask. -/
theorem digit_eq_iff (h : o + L ≤ 63) {x : TaggedT α} {j : Nat} :
    digit o L x = j ↔ (x.tag &&& rangeMask o L).toNat = 2 ^ (64 - o - L) * j := by
  rw [and_rangeMask h, Nat.mul_left_cancel_iff (Nat.two_pow_pos _)]

/-- The order of `binPacking`: by the digit, real elements first. -/
def PackLe (o L : Nat) (a b : TaggedT α) : Prop :=
  (a.tag &&& (rangeMask o L + 1)).toNat ≤ (b.tag &&& (rangeMask o L + 1)).toNat

theorem packLe_iff (h : o + L ≤ 63) {a b : TaggedT α} :
    PackLe o L a b ↔ digit o L a < digit o L b ∨
      digit o L a = digit o L b ∧ a.tag.toNat % 2 ≤ b.tag.toNat % 2 := by
  have hone : 1 < 2 ^ (64 - o - L) := Nat.one_lt_two_pow (by omega)
  have ha := Nat.mod_lt a.tag.toNat (show 0 < 2 by decide)
  have hb := Nat.mod_lt b.tag.toNat (show 0 < 2 by decide)
  rw [PackLe, and_rangeMask_flag h, and_rangeMask_flag h]
  generalize digit o L a = d at *
  generalize digit o L b = e at *
  generalize 2 ^ (64 - o - L) = q at *
  constructor
  · intro hle
    rcases Nat.lt_trichotomy d e with hlt | heq | hgt
    · exact .inl hlt
    · subst heq
      exact .inr ⟨rfl, by omega⟩
    · have hmul : q * (e + 1) ≤ q * d := Nat.mul_le_mul_left q hgt
      rw [Nat.mul_succ] at hmul
      omega
  · rintro (hlt | ⟨rfl, hle⟩)
    · have hmul : q * (d + 1) ≤ q * e := Nat.mul_le_mul_left q hlt
      rw [Nat.mul_succ] at hmul
      omega
    · omega

theorem cmpMasked_decides (mask : BitVec 64) :
    Decides (fun a b : TaggedT α => (a.tag &&& mask).toNat ≤ (b.tag &&& mask).toNat)
      (cmpMasked mask) where
  trans a b c := Nat.le_trans
  le_of_cmp a b h := by
    rw [cmpMasked, BitVec.ult_eq_decide, decide_eq_true_iff] at h
    exact h.le
  le_of_not a b h := by
    rw [cmpMasked, BitVec.ult_eq_decide, decide_eq_false_iff_not] at h
    exact Nat.not_lt.1 h

end Masks

/-! ## Marking -/

/-- The real elements. -/
def reals (xs : List (TaggedT α)) : List (TaggedT α) := xs.filter fun x => !dummyFlag x

/-- The elements with digit `j`. -/
def ofDigit (o L j : Nat) (xs : List (TaggedT α)) : List (TaggedT α) :=
  xs.filter fun x => decide (digit o L x = j)

theorem reals_append (xs ys : List (TaggedT α)) : reals (xs ++ ys) = reals xs ++ reals ys :=
  List.filter_append ..

theorem reals_ofDigit (o L j : Nat) (xs : List (TaggedT α)) :
    reals (ofDigit o L j xs) = ofDigit o L j (reals xs) := List.filter_comm ..

/-- The elements that `markExcess` does not mark. -/
def keep (o L Z : Nat) : (count curr : Nat) → List (TaggedT α) → List (TaggedT α)
  | _, _, [] => []
  | count, curr, x :: xs =>
    let newCurr := digit o L x
    let count := if newCurr ≠ curr then 0 else count
    if count ≥ Z then keep o L Z (count + 1) newCurr xs
    else x :: keep o L Z (count + 1) newCurr xs

section Marking

variable {o L Z : Nat}

/-- What is kept of a class: the first `Z`, together with the `count` elements of `curr` before. -/
theorem ofDigit_keep (hZ : 0 < Z) {count curr : Nat} {xs : List (TaggedT α)}
    (hsorted : xs.Pairwise fun a b => digit o L a ≤ digit o L b)
    (hge : ∀ x ∈ xs, curr ≤ digit o L x) (j : Nat) :
    ofDigit o L j (keep o L Z count curr xs) =
      (ofDigit o L j xs).take (Z - if j = curr then count else 0) := by
  induction xs generalizing count curr with
  | nil => rw [keep, ofDigit, List.filter_nil, List.take_nil]
  | cons x xs ih =>
    obtain ⟨hx, hxs⟩ := List.pairwise_cons.1 hsorted
    have hcurr := hge x List.mem_cons_self
    have ih := @ih ((if digit o L x ≠ curr then 0 else count) + 1) (digit o L x) hxs hx
    -- once the class of `x` has begun, the class before it is over
    have hover : digit o L x ≠ curr → ofDigit o L curr xs = [] := fun hne =>
      List.filter_eq_nil_iff.2 fun y hy => by
        have := hx y hy
        simp only [decide_eq_true_eq]
        omega
    simp only [ofDigit] at ih hover ⊢
    rw [keep]
    by_cases hj : digit o L x = j
    · subst hj
      rw [List.filter_cons_of_pos (by simp), apply_ite (List.filter _),
        List.filter_cons_of_pos (by simp), ih, if_pos rfl]
      by_cases hne : digit o L x ≠ curr
      · rw [if_neg hne, if_pos hne, if_neg (by omega), Nat.zero_add, Nat.sub_zero]
        obtain ⟨Z, rfl⟩ := Nat.exists_eq_add_of_le' hZ
        rfl
      · rw [if_pos (not_not.1 hne), if_neg hne]
        by_cases hc : count ≥ Z
        · rw [if_pos hc,
            show Z - (count + 1) = 0 by omega, show Z - count = 0 by omega, List.take_zero,
            List.take_zero]
        · rw [if_neg hc, show Z - count = Z - (count + 1) + 1 by omega, List.take_succ_cons]
    · rw [List.filter_cons_of_neg (by simpa using hj), apply_ite (List.filter _),
        List.filter_cons_of_neg (by simpa using hj), ite_self, ih, if_neg fun h => hj h.symm,
        Nat.sub_zero]
      by_cases hjc : j = curr
      · subst hjc
        rw [hover hj, List.take_nil, List.take_nil]
      · rw [if_neg hjc, Nat.sub_zero]

/-- The value that `markExcess` compares. -/
theorem and_rangeMask_eq_iff (h : o + L ≤ 63) {x : TaggedT α} {curr : BitVec 64} {j : Nat}
    (hcurr : curr.toNat = 2 ^ (64 - o - L) * j) :
    x.tag &&& rangeMask o L = curr ↔ digit o L x = j := by
  rw [digit_eq_iff h, ← hcurr, BitVec.toNat_inj]

/-- **Marking** moves nothing but the elements that are not kept, none of which is real. -/
theorem markExcess_ok (h : o + L ≤ 63) {count j : Nat} {curr : BitVec 64} {xs ys : List (TaggedT α)}
    (hcurr : curr.toNat = 2 ^ (64 - o - L) * j)
    (hrun : markExcess Z (rangeMask o L) count curr xs = .ok ys) :
    reals (keep o L Z count j xs) = reals xs ∧
      ∃ marked, List.Perm ys (keep o L Z count j xs ++ marked) ∧ ∀ x ∈ marked, x.tag = -1 := by
  induction xs generalizing count j curr ys with
  | nil =>
    cases hrun
    exact ⟨rfl, [], List.Perm.refl _, fun x hx => by cases hx⟩
  | cons x xs ih =>
    have hne : x.tag &&& rangeMask o L ≠ curr ↔ digit o L x ≠ j :=
      not_congr (and_rangeMask_eq_iff h hcurr)
    have hcount : (if x.tag &&& rangeMask o L ≠ curr then 0 else count) =
        if digit o L x ≠ j then 0 else count := if_congr hne rfl rfl
    rw [markExcess] at hrun
    simp only [hcount] at hrun
    rw [keep]
    generalize (if digit o L x ≠ j then 0 else count) = c at hrun ⊢
    by_cases hover : c ≥ Z ∧ dummyFlag x = false
    · rw [if_pos hover] at hrun
      cases hrun
    · rw [if_neg hover] at hrun
      cases hrest : markExcess Z (rangeMask o L) (c + 1) (x.tag &&& rangeMask o L) xs with
      | error e =>
        rw [hrest] at hrun
        cases hrun
      | ok zs =>
        rw [hrest] at hrun
        obtain ⟨hreals, marked, hperm, hmarked⟩ := ih (and_rangeMask h x) hrest
        by_cases hc : c ≥ Z
        · have hdummy : dummyFlag x = true := by
            cases hd : dummyFlag x with
            | true => rfl
            | false => exact absurd ⟨hc, hd⟩ hover
          simp only [if_pos hc] at hrun ⊢
          cases hrun
          refine ⟨?_, { x with tag := -1 } :: marked, ?_, ?_⟩
          · rw [hreals, reals, reals, List.filter_cons_of_neg (by simp [hdummy])]
          · exact (hperm.cons _).trans List.perm_middle.symm
          · intro y hy
            rcases List.mem_cons.1 hy with rfl | hy
            · rfl
            · exact hmarked y hy
        · simp only [if_neg hc] at hrun ⊢
          cases hrun
          refine ⟨?_, marked, hperm.cons _, hmarked⟩
          cases hd : dummyFlag x with
          | true => rw [reals, reals, List.filter_cons_of_neg (by simp [hd]),
              List.filter_cons_of_neg (by simp [hd]), ← reals, ← reals, hreals]
          | false => rw [reals, reals, List.filter_cons_of_pos (by simp [hd]),
              List.filter_cons_of_pos (by simp [hd]), ← reals, ← reals, hreals]

theorem markExcess_ends {mask curr : BitVec 64} {count : Nat} {xs : List (TaggedT α)} :
    Loop.Ends (fun ys => ys.length = xs.length) (fun e => e = .overflow)
      (markExcess Z mask count curr xs) := by
  induction xs generalizing count curr with
  | nil => exact rfl
  | cons x xs ih =>
    rw [markExcess]
    generalize (if x.tag &&& mask ≠ curr then 0 else count) = c
    by_cases hover : c ≥ Z ∧ dummyFlag x = false
    · rw [if_pos hover]
      exact rfl
    · rw [if_neg hover]
      have ih := @ih (x.tag &&& mask) (c + 1)
      cases hrest : markExcess Z mask (c + 1) (x.tag &&& mask) xs with
      | error e =>
        rw [hrest] at ih
        exact ih
      | ok zs =>
        rw [hrest] at ih
        exact congrArg (· + 1) ih

/-- **No overflow** when no class has more than `Z` real elements. The `count` elements of the class
`j` before are real if any after them is. -/
theorem markExcess_isOk (h : o + L ≤ 63) (hZ : 0 < Z) {count j : Nat} {curr : BitVec 64}
    {xs : List (TaggedT α)} (hcurr : curr.toNat = 2 ^ (64 - o - L) * j)
    (hsorted : xs.Pairwise (PackLe o L)) (hge : ∀ x ∈ xs, j ≤ digit o L x)
    (hfits : ∀ i, ofDigit o L i (reals xs) ≠ [] →
      (ofDigit o L i (reals xs)).length + (if i = j then count else 0) ≤ Z) :
    ∃ ys, markExcess Z (rangeMask o L) count curr xs = .ok ys := by
  induction xs generalizing count j curr with
  | nil => exact ⟨[], rfl⟩
  | cons x xs ih =>
    obtain ⟨hx, hxs⟩ := List.pairwise_cons.1 hsorted
    have hle : ∀ y ∈ xs, digit o L x ≤ digit o L y := fun y hy => by
      rcases (packLe_iff h).1 (hx y hy) with hlt | ⟨heq, -⟩
      · exact hlt.le
      · exact heq.le
    have hne : x.tag &&& rangeMask o L ≠ curr ↔ digit o L x ≠ j :=
      not_congr (and_rangeMask_eq_iff h hcurr)
    have hcount : (if x.tag &&& rangeMask o L ≠ curr then 0 else count) =
        if digit o L x ≠ j then 0 else count := if_congr hne rfl rfl
    have hxj := hge x List.mem_cons_self
    -- the classes of the rest
    have hrest : ∀ i, ofDigit o L i (reals xs) ≠ [] →
        (ofDigit o L i (reals xs)).length +
          (if i = digit o L x then (if digit o L x ≠ j then 0 else count) + 1 else 0) ≤ Z := by
      intro i hi
      obtain ⟨y, hy⟩ := List.exists_mem_of_ne_nil _ hi
      obtain ⟨hymem, hyi⟩ := List.mem_filter.1 hy
      obtain ⟨hymem, hyreal⟩ := List.mem_filter.1 hymem
      have hyi : digit o L y = i := by simpa using hyi
      have hyx := hle y hymem
      by_cases hix : i = digit o L x
      · -- a real element after `x` in its class: `x` is real
        have hreal : dummyFlag x = false := by
          rcases (packLe_iff h).1 (hx y hymem) with hlt | ⟨-, hflag⟩
          · omega
          · rw [dummyFlag_eq] at hyreal ⊢
            simp only [Bool.not_eq_true', decide_eq_false_iff_not] at hyreal ⊢
            omega
        have hcons : ofDigit o L i (reals (x :: xs)) = x :: ofDigit o L i (reals xs) := by
          rw [reals, List.filter_cons_of_pos (by simp [hreal]), ofDigit,
            List.filter_cons_of_pos (by simp [hix])]
          rfl
        have := hfits i (by rw [hcons]; exact List.cons_ne_nil _ _)
        rw [hcons, List.length_cons] at this
        rw [if_pos hix]
        by_cases hj : digit o L x ≠ j
        · rw [if_pos hj]
          rw [if_neg (by omega)] at this
          omega
        · rw [if_neg hj]
          rw [if_pos (by omega)] at this
          omega
      · have hcons : ofDigit o L i (reals (x :: xs)) = ofDigit o L i (reals xs) := by
          cases hd : dummyFlag x with
          | true => rw [reals, List.filter_cons_of_neg (by simp [hd])]; rfl
          | false =>
            rw [reals, List.filter_cons_of_pos (by simp [hd]), ofDigit,
              List.filter_cons_of_neg (by simpa using fun h => hix h.symm)]
            rfl
        have := hfits i (by rw [hcons]; exact hi)
        rw [hcons] at this
        rw [if_neg hix]
        omega
    obtain ⟨ys, hys⟩ := ih (and_rangeMask h x) hxs hle hrest
    rw [markExcess]
    simp only [hcount]
    rw [if_neg, hys]
    · exact ⟨_, rfl⟩
    · rintro ⟨hfull, hreal⟩
      have hcons : ofDigit o L (digit o L x) (reals (x :: xs)) =
          x :: ofDigit o L (digit o L x) (reals xs) := by
        rw [reals, List.filter_cons_of_pos (by simp [hreal]), ofDigit,
          List.filter_cons_of_pos (by simp)]
        rfl
      have := hfits (digit o L x) (by rw [hcons]; exact List.cons_ne_nil _ _)
      rw [hcons, List.length_cons] at this
      by_cases hj : digit o L x ≠ j
      · rw [if_pos hj] at hfull
        omega
      · rw [if_neg hj] at hfull
        rw [if_pos (by omega)] at this
        omega

end Marking

/-! ## Packing -/

/-- Bucket `j`. -/
def bucket (Z j : Nat) (xs : List (TaggedT α)) : List (TaggedT α) := (xs.drop (j * Z)).take Z

/-- `ys` are `2 ^ L` buckets, with the real elements of `xs` in the bucket that their digit
names. -/
structure Routed (o L Z : Nat) (xs ys : List (TaggedT α)) : Prop where
  size : ys.length = 2 ^ L * Z
  buckets : ∀ j < 2 ^ L, List.Perm (reals (bucket Z j ys)) (ofDigit o L j (reals xs))

theorem reals_perm {xs ys : List (TaggedT α)} (h : List.Perm xs ys) :
    List.Perm (reals xs) (reals ys) :=
  h.filter _

theorem ofDigit_perm {xs ys : List (TaggedT α)} (o L j : Nat) (h : List.Perm xs ys) :
    List.Perm (ofDigit o L j xs) (ofDigit o L j ys) := h.filter _

/-- The elements by their digits. -/
theorem gather_ofDigit_perm (o L : Nat) (xs : List (TaggedT α)) :
    List.Perm (gather (2 ^ L) fun j => ofDigit o L j xs) xs := by
  refine (List.Perm.of_eq ?_).trans (flatMap_filter_perm (digit o L) fun x _ => digit_lt o L x)
  refine gather_congr fun j _ => List.filter_congr fun x _ => ?_
  rw [Bool.eq_iff_iff, decide_eq_true_iff, beq_iff_eq]

theorem reals_eq_nil {xs : List (TaggedT α)} (h : ∀ x ∈ xs, dummyFlag x = true) : reals xs = [] :=
  List.filter_eq_nil_iff.2 fun x hx => by simp [h x hx]

/-- Real elements that come first survive a cut that they fit before. -/
theorem reals_take {Z : Nat} {xs : List (TaggedT α)}
    (hsorted : xs.Pairwise fun a b => a.tag.toNat % 2 ≤ b.tag.toNat % 2)
    (hfit : (reals xs).length ≤ Z) : reals (xs.take Z) = reals xs := by
  have hreals : reals xs = xs.filter fun x => decide (x.tag.toNat % 2 < 1) :=
    List.filter_congr fun x _ => by
      rw [dummyFlag_eq, ← decide_not]
      exact decide_eq_decide.2 ⟨fun h => by omega, fun h => by omega⟩
  have hrest : ∀ k, reals ((xs.filter fun x => decide (1 ≤ x.tag.toNat % 2)).take k) =
    [] := fun k =>
    reals_eq_nil fun x hx => by
      have := (List.mem_filter.1 (List.mem_of_mem_take hx)).2
      rw [dummyFlag_eq]
      simp only [decide_eq_true_eq] at this ⊢
      omega
  have hself : reals (reals xs) = reals xs := by rw [reals, reals, List.filter_filter]; simp
  have hsplit := sorted_eq_append hsorted 1
  rw [← hreals] at hsplit
  conv_lhs => rw [hsplit]
  rw [List.take_append, List.take_of_length_le hfit, reals_append, hself, hrest, List.append_nil]

theorem digit_all_ones {o L : Nat} (h : o + L ≤ 63) (x : TaggedT α) (hx : x.tag = -1) :
    digit o L x = 2 ^ L - 1 := by
  have hone : (-1 : BitVec 64).toNat = 2 ^ 64 - 1 := by decide
  rw [digit, hx, hone]
  apply Nat.eq_of_testBit_eq
  intro i
  rw [Nat.testBit_mod_two_pow, Nat.testBit_div_two_pow, Nat.testBit_two_pow_sub_one,
    Nat.testBit_two_pow_sub_one]
  by_cases hi : i < L
  · simp [hi, show i + (64 - o - L) < 64 by omega]
  · simp [hi]

section Packing

variable [Inhabited α] {o L Z : Nat}

theorem fillers_dummy (numBucket : Nat) :
    ∀ x ∈ (fillers numBucket Z ((maskAt o >>> L) <<< 1) : List (TaggedT α)),
    dummyFlag x = true := by
  intro x hx
  obtain ⟨i, -, hx⟩ := mem_gather.1 hx
  obtain ⟨-, rfl⟩ := List.mem_replicate.1 hx
  -- the base mask is even, also when it is cut to 0
  have heven : ((maskAt o >>> L) <<< 1).toNat % 2 = 0 := by
    rw [BitVec.toNat_shiftLeft, Nat.shiftLeft_eq]
    omega
  rw [dummyFlag_eq, decide_eq_true_iff]
  simp only [BitVec.toNat_add, BitVec.toNat_mul, show (1 : BitVec 64).toNat = 1 from rfl]
  have hmul : (BitVec.ofNat 64 i).toNat * ((maskAt o >>> L) <<< 1).toNat % 2 = 0 := by
    rw [Nat.mul_mod, heven, Nat.mul_zero, Nat.zero_mod]
  omega

theorem fillers_digit (h : o + L ≤ 63) {j : Nat} (hj : j < 2 ^ L) :
    digit o L (⟨BitVec.ofNat 64 j * (maskAt o >>> L) <<< 1 + 1, default⟩ : TaggedT α) = j := by
  have hone : 1 < 2 ^ (64 - o - L) := Nat.one_lt_two_pow (by omega)
  rcases Nat.eq_zero_or_pos L with rfl | hL
  · obtain rfl : j = 0 := by simpa using hj
    simp [digit, Nat.mod_one]
  · have hpow : 2 ^ (64 - o - L) * 2 ^ L ≤ 2 ^ 64 := by
      rw [← Nat.pow_add]
      exact Nat.pow_le_pow_right (by decide) (by omega)
    have hj64 : j < 2 ^ 64 := Nat.lt_trans hj (Nat.pow_lt_pow_right (by decide) (by omega))
    have hmul : 2 ^ (64 - o - L) * (j + 1) ≤ 2 ^ (64 - o - L) * 2 ^ L := Nat.mul_le_mul_left _ hj
    rw [Nat.mul_succ] at hmul
    rw [digit, BitVec.toNat_add, BitVec.toNat_mul, toNat_baseMask h (by omega), BitVec.toNat_ofNat,
      Nat.mod_eq_of_lt hj64, show (1 : BitVec 64).toNat = 1 from rfl, Nat.mul_comm j,
      Nat.mod_eq_of_lt (show 2 ^ (64 - o - L) * j < 2 ^ 64 by omega),
      Nat.mod_eq_of_lt (show 2 ^ (64 - o - L) * j + 1 < 2 ^ 64 by omega),
      Nat.mul_add_div (by omega), Nat.div_eq_of_lt hone, Nat.add_zero, Nat.mod_eq_of_lt hj]

theorem length_fillers (numBucket : Nat) (baseMask : BitVec 64) :
    (fillers numBucket Z baseMask : List (TaggedT α)).length = numBucket * Z := by
  induction numBucket with
  | zero => simp [fillers]
  | succ k ih =>
    rw [fillers] at ih ⊢
    rw [gather_succ, List.length_append, ih, List.length_replicate, Nat.succ_mul]

/-- There is padding for each bucket. -/
theorem le_length_ofDigit_fillers (h : o + L ≤ 63) {j : Nat} (hj : j < 2 ^ L) :
    Z ≤ (ofDigit o L j (fillers (2 ^ L) Z ((maskAt o >>> L) <<< 1) : List (TaggedT α))).length := by
  have hsub := (sublist_gather hj fun i =>
    List.replicate Z (⟨BitVec.ofNat 64 i * (maskAt o >>> L) <<< 1 + 1, default⟩ : TaggedT α)).filter
      fun x => decide (digit o L x = j)
  have hself : (List.replicate Z
      (⟨BitVec.ofNat 64 j * (maskAt o >>> L) <<< 1 + 1, default⟩ : TaggedT α)).filter
        (fun x => decide (digit o L x = j)) = List.replicate Z _ :=
    List.filter_eq_self.2 fun x hx => by
      obtain ⟨-, rfl⟩ := List.mem_replicate.1 hx
      rw [fillers_digit h hj, decide_eq_true_iff]
  rw [hself] at hsub
  have := hsub.length_le
  rwa [List.length_replicate] at this

/-- The list that is marked: the elements and the padding, in order. -/
def packed (o L Z : Nat) (xs : List (TaggedT α)) : List (TaggedT α) :=
  bitonicSortList (cmpMasked (rangeMask o L + 1)) (xs ++ fillers (2 ^ L) Z ((maskAt o >>> L) <<< 1))

theorem binPacking_eq (h : o + L ≤ 63) (hZ : 0 < Z) {xs : List (TaggedT α)}
    (hlen : xs.length = 2 ^ L * Z) :
    binPacking Z (maskAt o) xs = (markExcess Z (rangeMask o L) 0 0 (packed o L Z xs)).map
      fun temp =>
      (bitonicSortList (cmpMasked (rangeMask o L + 1)) temp).take (2 ^ L * Z) := by
  have hdiv : xs.length / Z = 2 ^ L := by rw [hlen, Nat.mul_div_cancel _ hZ]
  rw [binPacking, hdiv, getLogBaseTwo_two_pow L (by omega), hlen]
  rfl

section

variable (h : o + L ≤ 63) (hZ : 0 < Z) {xs : List (TaggedT α)} (hlen : xs.length = 2 ^ L * Z)
  (hsize : 2 * (2 ^ L * Z) ≤ 2 ^ 63)

theorem reals_packed_perm : List.Perm (reals (packed o L Z xs)) (reals xs) := by
  refine (reals_perm (bitonicSortList_perm _ _)).trans (List.Perm.of_eq ?_)
  rw [reals_append, reals_eq_nil (fillers_dummy _), List.append_nil]

include hlen hsize in
theorem packed_sorted : (packed o L Z xs).Pairwise (PackLe o L) := by
  refine bitonicSortList_sorted (cmpMasked_decides _) ?_
  rw [List.length_append, length_fillers, hlen]
  omega

include h in
theorem le_length_ofDigit_packed {j : Nat} (hj : j < 2 ^ L) :
    Z ≤ (ofDigit o L j (packed o L Z xs)).length := by
  have hperm := ofDigit_perm o L j (bitonicSortList_perm (cmpMasked (rangeMask o L + 1))
    (xs ++ fillers (2 ^ L) Z ((maskAt o >>> L) <<< 1)))
  have hfill := le_length_ofDigit_fillers (α := α) (Z := Z) h hj
  have := hperm.length_eq
  rw [ofDigit, ofDigit, List.filter_append, List.length_append, ← ofDigit, ← ofDigit,
    ← ofDigit] at this
  rw [packed]
  omega

/-- The real elements that are kept are those of `xs`, so none was marked. -/
theorem reals_ofDigit_keep_perm {j : Nat}
    (hreals : reals (keep o L Z 0 0 (packed o L Z xs)) = reals (packed o L Z xs)) :
    List.Perm (reals (ofDigit o L j (keep o L Z 0 0 (packed o L Z xs))))
    (ofDigit o L j (reals xs)) := by
  rw [reals_ofDigit, hreals]
  exact ofDigit_perm o L j reals_packed_perm

include h hZ hlen hsize

/-- Of each class `Z` elements are kept. -/
theorem length_ofDigit_keep {j : Nat} (hj : j < 2 ^ L) :
    (ofDigit o L j (keep o L Z 0 0 (packed o L Z xs))).length = Z := by
  have hsorted : (packed o L Z xs).Pairwise fun a b => digit o L a ≤ digit o L b :=
    (packed_sorted hlen hsize).imp fun hab => by
      rcases (packLe_iff h).1 hab with hlt | ⟨heq, -⟩
      · exact hlt.le
      · exact heq.le
  rw [ofDigit_keep hZ hsorted (fun x _ => Nat.zero_le _), ite_self, Nat.sub_zero, List.length_take]
  exact Nat.min_eq_left (le_length_ofDigit_packed h hj)

/-- **Overflow**: bin packing stops exactly when some bucket would get more than `Z` real
elements. -/
theorem binPacking_overflow_iff :
    binPacking Z (maskAt o) xs = .error .overflow ↔ ∃ j < 2 ^ L, Z <
      (ofDigit o L j (reals xs)).length := by
  have hzero : (0 : BitVec 64).toNat = 2 ^ (64 - o - L) * 0 := by rw [Nat.mul_zero]; rfl
  rw [binPacking_eq h hZ hlen]
  cases hrun : markExcess Z (rangeMask o L) 0 0 (packed o L Z xs) with
  | ok ys =>
    refine ⟨(fun herr => nomatch herr), ?_⟩
    rintro ⟨j, hj, hlt⟩
    have hkeep := (reals_ofDigit_keep_perm (j := j) (markExcess_ok h hzero hrun).1).length_eq
    have hle : (reals (ofDigit o L j (keep o L Z 0 0 (packed o L Z xs)))).length ≤
        (ofDigit o L j (keep o L Z 0 0 (packed o L Z xs))).length := List.length_filter_le ..
    rw [length_ofDigit_keep h hZ hlen hsize hj] at hle
    omega
  | error e =>
    refine ⟨fun _ => ?_, fun _ => ?_⟩
    · by_contra hnone
      have hfits : ∀ i, ofDigit o L i (reals (packed o L Z xs)) ≠ [] →
          (ofDigit o L i (reals (packed o L Z xs))).length + (if i = 0 then 0 else 0) ≤ Z := by
        intro i hi
        have hperm : List.Perm (ofDigit o L i (reals (packed o L Z xs)))
          (ofDigit o L i (reals xs)) :=
          ofDigit_perm o L i reals_packed_perm
        obtain ⟨y, hy⟩ := List.exists_mem_of_ne_nil _ hi
        have hyi : digit o L y = i := by simpa using (List.mem_filter.1 hy).2
        have hle : ¬ Z < (ofDigit o L i (reals xs)).length := fun hlt =>
          hnone ⟨i, hyi ▸ digit_lt o L y, hlt⟩
        rw [ite_self, hperm.length_eq]
        omega
      obtain ⟨ys, hys⟩ := markExcess_isOk h hZ hzero (packed_sorted hlen hsize)
        (fun x _ => Nat.zero_le _) hfits
      rw [hrun] at hys
      cases hys
    · have herror : Loop.Ends _ (fun e => e = Abort.overflow)
          (markExcess Z (rangeMask o L) 0 0 (packed o L Z xs)) := markExcess_ends
      rw [hrun] at herror
      rw [show e = .overflow from herror]
      rfl

/-- **Bin packing** brings every real element to the bucket that its digit names. -/
theorem binPacking_routed {ys : List (TaggedT α)} (hrun : binPacking Z (maskAt o) xs = .ok ys) :
    Routed o L Z xs ys := by
  have hzero : (0 : BitVec 64).toNat = 2 ^ (64 - o - L) * 0 := by rw [Nat.mul_zero]; rfl
  have hpos : 0 < 2 ^ L := Nat.two_pow_pos L
  rw [binPacking_eq h hZ hlen] at hrun
  cases hmark : markExcess Z (rangeMask o L) 0 0 (packed o L Z xs) with
  | error e =>
    rw [hmark] at hrun
    cases hrun
  | ok temp =>
    rw [hmark] at hrun
    cases hrun
    obtain ⟨hreals, marked, hperm, hmarked⟩ := markExcess_ok h hzero hmark
    have htemp : temp.length = 2 * (2 ^ L * Z) := by
      rw [markExcess_ends.of_ok hmark, packed, (bitonicSortList_perm _ _).length_eq,
        List.length_append, length_fillers, hlen]
      omega
    have hsort := bitonicSortList_sorted (cmpMasked_decides (rangeMask o L + 1))
      (show temp.length ≤ 2 ^ 63 by omega)
    have hall := (bitonicSortList_perm (cmpMasked (rangeMask o L + 1)) temp).trans hperm
    change Routed o L Z xs ((bitonicSortList (cmpMasked (rangeMask o L + 1)) temp).take (2 ^ L * Z))
    generalize bitonicSortList (cmpMasked (rangeMask o L + 1)) temp = s at hsort hall ⊢
    have hdigits : s.Pairwise fun a b => digit o L a ≤ digit o L b := hsort.imp fun hab => by
      rcases (packLe_iff h).1 hab with hlt | ⟨heq, -⟩
      · exact hlt.le
      · exact heq.le
    -- the classes of the sorted list: what was kept, and in the last one also what was marked
    have hclass : ∀ j, List.Perm (ofDigit o L j s)
        (ofDigit o L j (keep o L Z 0 0 (packed o L Z xs)) ++ ofDigit o L j marked) := fun j => by
      rw [ofDigit, ofDigit, ofDigit, ← List.filter_append]
      exact hall.filter _
    have hlens : ∀ j < 2 ^ L, (ofDigit o L j s).length = Z + (ofDigit o L j marked).length :=
      fun j hj => by
        rw [(hclass j).length_eq, List.length_append, length_ofDigit_keep h hZ hlen hsize hj]
    have hdummy : ∀ x ∈ marked, dummyFlag x = true := fun x hx => by
      rw [dummyFlag, hmarked x hx]
      decide
    have hreal : ∀ j, List.Perm (reals (ofDigit o L j s)) (ofDigit o L j (reals xs)) := fun j => by
      refine (reals_perm (hclass j)).trans ?_
      rw [reals_append, reals_ofDigit o L j marked, reals_eq_nil hdummy, ofDigit, ofDigit,
        List.filter_nil, List.append_nil]
      exact reals_ofDigit_keep_perm hreals
    have hgather := sorted_eq_gather hdigits fun x _ => digit_lt o L x
    have hslen : s.length = 2 * (2 ^ L * Z) := by
      rw [hall.length_eq, ← hperm.length_eq, htemp]
    refine ⟨by rw [List.length_take, hslen]; omega, fun j hj => ?_⟩
    have hbucket : bucket Z j (s.take (2 ^ L * Z)) = (ofDigit o L j s).take Z := by
      conv_lhs => rw [hgather]
      refine take_drop_gather (fun i hi hlast => ?_) (fun i hi => ?_) hj
      · have hempty : ofDigit o L i marked = [] := List.filter_eq_nil_iff.2 fun x hx => by
          rw [digit_all_ones h x (hmarked x hx), decide_eq_true_iff]
          omega
        have := hlens i hi
        rwa [hempty, List.length_nil, Nat.add_zero] at this
      · exact (hlens i hi).ge.trans' (Nat.le_add_right _ _)
    have hfits : (reals (ofDigit o L j s)).length ≤ Z := by
      have hle : (reals (ofDigit o L j (keep o L Z 0 0 (packed o L Z xs)))).length ≤
          (ofDigit o L j (keep o L Z 0 0 (packed o L Z xs))).length := List.length_filter_le ..
      rw [length_ofDigit_keep h hZ hlen hsize hj, (reals_ofDigit_keep_perm hreals).length_eq] at hle
      rwa [(hreal j).length_eq]
    have hflags : (ofDigit o L j s).Pairwise fun a b => a.tag.toNat % 2 ≤ b.tag.toNat % 2 := by
      refine (hsort.filter _).imp_of_mem fun {a b} ha hb hab => ?_
      have ha : digit o L a = j := by simpa using (List.mem_filter.1 ha).2
      have hb : digit o L b = j := by simpa using (List.mem_filter.1 hb).2
      rcases (packLe_iff h).1 hab with hlt | ⟨-, hle⟩
      · omega
      · exact hle
    rw [hbucket, reals_take hflags hfits]
    exact hreal j

theorem binPacking_ends :
    Loop.Ends (Routed o L Z xs) (fun e => e = .overflow) (binPacking Z (maskAt o) xs) := by
  cases hrun : binPacking Z (maskAt o) xs with
  | ok ys => exact binPacking_routed h hZ hlen hsize hrun
  | error e =>
    have herror : Loop.Ends _ (fun e => e = Abort.overflow)
        (markExcess Z (rangeMask o L) 0 0 (packed o L Z xs)) := markExcess_ends
    rw [binPacking_eq h hZ hlen] at hrun
    cases hmark : markExcess Z (rangeMask o L) 0 0 (packed o L Z xs) with
    | ok temp =>
      rw [hmark] at hrun
      cases hrun
    | error e' =>
      rw [hmark] at hrun herror
      cases hrun
      exact herror

end

end Packing

end EM.Algorithm.CABucketSort
