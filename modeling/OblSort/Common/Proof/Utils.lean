import OblSort.Common.Utils
import Mathlib.Algebra.BigOperators.Group.List.Basic
import Mathlib.Algebra.Order.BigOperators.GroupWithZero.List
import Mathlib.Data.Nat.Log
import Mathlib.Data.Nat.Size
import Mathlib.Tactic.IntervalCases

/-!
# What the arithmetic helpers compute

`getNextPowerOfTwo_eq`: for `1 ≤ n ≤ 2 ^ 63` the bit smearing gives `2 ^ Nat.clog 2 n`. Each of
its lines doubles the reach of a bit (`Smear`): after the last one a bit is set exactly when some
bit at or above it was. The two logarithms cut the width in half with each line (`log2_rounds`,
`ceilLog2_rounds`). `fisherYatesShuffle_perm`: the shuffle of a range that is not empty permutes it.
-/

/-! ## The next power of two -/

/-- `y` is `x` with every bit spread over the `w` positions at and below it. -/
def Smear (x y w : Nat) : Prop := ∀ i, y.testBit i = true ↔ ∃ t < w, x.testBit (i + t) = true

theorem Smear.refl (x : Nat) : Smear x x 1 := by
  refine fun i => ⟨fun h => ⟨0, Nat.one_pos, h⟩, ?_⟩
  rintro ⟨t, ht, h⟩
  obtain rfl : t = 0 := by omega
  exact h

theorem Smear.double {x y w : Nat} (h : Smear x y w) : Smear x (y ||| y >>> w) (w + w) := by
  intro i
  rw [Nat.testBit_or, Nat.testBit_shiftRight, Bool.or_eq_true, h i, h (w + i)]
  constructor
  · rintro (⟨t, ht, hx⟩ | ⟨t, ht, hx⟩)
    · exact ⟨t, by omega, hx⟩
    · exact ⟨w + t, by omega, by rwa [show i + (w + t) = w + i + t by omega]⟩
  · rintro ⟨t, ht, hx⟩
    by_cases htw : t < w
    · exact .inl ⟨t, htw, hx⟩
    · exact .inr ⟨t - w, by omega, by rwa [show w + i + (t - w) = i + t by omega]⟩

/-- Spread over 64 positions, a 64-bit word becomes all ones up to its highest bit. -/
theorem Smear.eq_two_pow {x y : Nat} (h : Smear x y 64) (hx : x < 2 ^ 64) :
    y = 2 ^ x.size - 1 := by
  apply Nat.eq_of_testBit_eq
  intro i
  rw [Nat.testBit_two_pow_sub_one, Bool.eq_iff_iff, h i, decide_eq_true_iff]
  constructor
  · rintro ⟨t, -, ht⟩
    have : i + t < x.size := by
      by_contra hc
      rw [Nat.testBit_lt_two_pow
        (Nat.lt_of_lt_of_le (Nat.lt_size_self x) (Nat.pow_le_pow_right (by decide) (by omega)))]
        at ht
      cases ht
    omega
  · intro hi
    have hs : x.size ≤ 64 := Nat.size_le.2 hx
    refine ⟨x.size - 1 - i, by omega, ?_⟩
    rw [show i + (x.size - 1 - i) = x.size - 1 by omega]
    -- the top bit of `x` is set: otherwise `x` would be below `2 ^ (size - 1)`
    by_contra hc
    have hlt : x < 2 ^ (x.size - 1) := by
      apply Nat.lt_pow_two_of_testBit
      intro j hj
      rcases Nat.lt_or_ge j x.size with hj' | hj'
      · obtain rfl : j = x.size - 1 := by omega
        simpa using hc
      · exact Nat.testBit_lt_two_pow
          (Nat.lt_of_lt_of_le (Nat.lt_size_self x) (Nat.pow_le_pow_right (by decide) hj'))
    have := Nat.size_le.2 hlt
    omega

theorem getNextPowerOfTwo_eq_size {n : Nat} (h1 : 1 ≤ n) (h2 : n ≤ 2 ^ 63) :
    getNextPowerOfTwo n = 2 ^ (n - 1).size := by
  have hn : (n + (2 ^ 64 - 1)) % 2 ^ 64 = n - 1 := by omega
  have hs := ((((((Smear.refl (n - 1)).double).double).double).double).double).double
  have hsize : (n - 1).size ≤ 63 := Nat.size_le.2 (by omega)
  have hpow : 2 ^ (n - 1).size ≤ 2 ^ 63 := Nat.pow_le_pow_right (by decide) hsize
  have hpos : 0 < 2 ^ (n - 1).size := Nat.two_pow_pos _
  simp only [getNextPowerOfTwo, hn]
  rw [hs.eq_two_pow (by omega)]
  omega

/-- **The next power of two** of `1 ≤ n ≤ 2 ^ 63` is the least power of two not below `n`. -/
theorem getNextPowerOfTwo_eq {n : Nat} (h1 : 1 ≤ n) (h2 : n ≤ 2 ^ 63) :
    getNextPowerOfTwo n = 2 ^ Nat.clog 2 n := by
  rw [getNextPowerOfTwo_eq_size h1 h2]
  congr 1
  apply Nat.le_antisymm
  · apply Nat.size_le.2
    have := Nat.le_pow_clog (b := 2) (by decide) n
    omega
  · apply Nat.clog_le_of_le_pow
    have := Nat.lt_size_self (n - 1)
    omega

/-- **The page capacity**: the next power of two of `q / 2 + 1` is the largest power of two that
does not exceed `q`. -/
theorem getNextPowerOfTwo_capacity {q : Nat} (h1 : 1 ≤ q) (h2 : q < 2 ^ 64) :
    ∃ p, getNextPowerOfTwo (q / 2 + 1) = 2 ^ p ∧ 2 ^ p ≤ q ∧ q < 2 ^ (p + 1) := by
  have hle := Nat.le_pow_clog (b := 2) (by decide) (q / 2 + 1)
  refine ⟨Nat.clog 2 (q / 2 + 1), getNextPowerOfTwo_eq (by omega) (by omega), ?_, ?_⟩
  · cases hp : Nat.clog 2 (q / 2 + 1) with
    | zero => exact h1
    | succ p =>
      have hlt := Nat.pow_lt_of_lt_clog (show p < Nat.clog 2 (q / 2 + 1) by omega)
      rw [Nat.pow_succ]
      omega
  · rw [Nat.pow_succ]
    omega

/-- The largest power of two below `n`, as `BitonicMerge` computes it. -/
theorem getNextPowerOfTwo_half {n : Nat} (h1 : 1 < n) (h2 : n ≤ 2 ^ 63) :
    ∃ p, getNextPowerOfTwo n / 2 = 2 ^ p ∧ 2 ^ p < n ∧ n ≤ 2 ^ (p + 1) := by
  have hc : 0 < Nat.clog 2 n := Nat.clog_pos (by decide) h1
  refine ⟨Nat.clog 2 n - 1, ?_, Nat.pow_pred_clog_lt_self (by decide) h1, ?_⟩
  · rw [getNextPowerOfTwo_eq (by omega) h2]
    conv_lhs => rw [show Nat.clog 2 n = Nat.clog 2 n - 1 + 1 by omega, Nat.pow_succ]
    omega
  · rw [show Nat.clog 2 n - 1 + 1 = Nat.clog 2 n by omega]
    exact Nat.le_pow_clog (by decide) n

theorem getNextPowerOfTwo_half_le (n : Nat) : getNextPowerOfTwo n / 2 ≤ n := by
  rcases Nat.lt_or_ge n (2 ^ 63) with hn | hn
  · rcases Nat.lt_or_ge 1 n with h1 | h1
    · obtain ⟨p, hp, hlt, -⟩ := getNextPowerOfTwo_half h1 (Nat.le_of_lt hn)
      omega
    · interval_cases n <;> decide
  · have : getNextPowerOfTwo n < 2 ^ 64 := Nat.mod_lt _ (by decide)
    omega

/-! ## The logarithm -/

/-- The bits of a mask of `c` bits from bit `c` on tell whether a number of `2 * c` bits is at least
`2 ^ c`. -/
theorem and_mask_ne_zero {n c : Nat} (hn : n < 2 ^ (c + c)) :
    (n &&& (2 ^ c - 1) <<< c != 0) = decide (2 ^ c ≤ n) := by
  have hshift : (n &&& (2 ^ c - 1) <<< c) >>> c = n / 2 ^ c := by
    have hdiv : n / 2 ^ c < 2 ^ c := Nat.div_lt_of_lt_mul (by rwa [← Nat.pow_add])
    rw [Nat.shiftRight_and_distrib, Nat.shiftLeft_shiftRight, Nat.and_two_pow_sub_one_eq_mod,
      Nat.shiftRight_eq_div_pow, Nat.mod_eq_of_lt hdiv]
  by_cases hle : 2 ^ c ≤ n
  · have hpos : 0 < n / 2 ^ c := Nat.div_pos hle (Nat.two_pow_pos c)
    rw [decide_eq_true hle, bne_iff_ne]
    intro h0
    rw [h0, Nat.zero_shiftRight] at hshift
    omega
  · have h0 : n &&& (2 ^ c - 1) <<< c = 0 := by
      apply Nat.eq_of_testBit_eq
      intro i
      rw [Nat.testBit_and, Nat.testBit_shiftLeft, Nat.zero_testBit]
      by_cases hi : c ≤ i
      · rw [Nat.testBit_lt_two_pow (Nat.lt_of_lt_of_le (Nat.lt_of_not_le hle)
          (Nat.pow_le_pow_right (by decide) hi)), Bool.false_and]
      · rw [decide_eq_false hi, Bool.false_and, Bool.and_false]
    rw [h0, decide_eq_false hle]
    rfl

/-- A bit above the low `c` ones is `c` of the logarithm. -/
theorem log2_shiftRight {n c : Nat} (hle : 2 ^ c ≤ n) : n.log2 = (n >>> c).log2 + c := by
  have hpos := Nat.two_pow_pos c
  have hdiv : n / 2 ^ c ≠ 0 := (Nat.div_pos hle hpos).ne'
  have hlow := Nat.log2_self_le hdiv
  have hhigh := Nat.lt_log2_self (n := n / 2 ^ c)
  rw [Nat.shiftRight_eq_div_pow, Nat.log2_eq_iff (by omega)]
  generalize (n / 2 ^ c).log2 = l at *
  rw [Nat.pow_add, Nat.add_right_comm, Nat.pow_add]
  exact ⟨(Nat.le_div_iff_mul_le hpos).1 hlow, (Nat.div_lt_iff_lt_mul hpos).1 hhigh⟩

/-- One round of a search: above the mask's lower bits the number is shifted down. -/
theorem log2_round {n c : Nat} (hn : n < 2 ^ (c + c)) :
    (if 2 ^ c ≤ n then n >>> c else n) < 2 ^ c ∧
      (if 2 ^ c ≤ n then c else 0) + (if 2 ^ c ≤ n then n >>> c else n).log2 = n.log2 := by
  by_cases hle : 2 ^ c ≤ n
  · have hshift : n >>> c < 2 ^ c := by
      rw [Nat.shiftRight_eq_div_pow]
      exact Nat.div_lt_of_lt_mul (by rwa [← Nat.pow_add])
    rw [if_pos hle, if_pos hle, log2_shiftRight hle]
    exact ⟨hshift, Nat.add_comm c _⟩
  · rw [if_neg hle, if_neg hle, Nat.zero_add]
    exact ⟨Nat.lt_of_not_le hle, rfl⟩

theorem log2_of_lt_two {n : Nat} (hn : n < 2) : n.log2 = 0 := by
  obtain rfl | rfl : n = 0 ∨ n = 1 := by omega
  all_goals decide

/-- The rounds of the search for the masks of `2 ^ (e - 1)`, …, `2`, `1` bits. -/
theorem log2_rounds (e : Nat) {n r : Nat} (hn : n < 2 ^ 2 ^ e) (hr : r % 2 ^ e = 0) :
    (((List.range e).reverse.map (2 ^ ·)).foldl (fun (n, r) c =>
      if n &&& (2 ^ c - 1) <<< c != 0 then (n >>> c, r ||| c) else (n, r)) (n, r)).2 =
        r + n.log2 := by
  induction e generalizing n r with
  | zero => simp [log2_of_lt_two hn]
  | succ e ih =>
    have hpow : 2 ^ (e + 1) = 2 ^ e + 2 ^ e := by omega
    have hpos := Nat.two_pow_pos e
    rw [hpow] at hn
    obtain ⟨hlt, hlog⟩ := log2_round hn
    rw [List.range_succ, List.reverse_append, List.map_append, List.foldl_append]
    simp only [List.reverse_singleton, List.map_cons, List.map_nil, List.foldl_cons, List.foldl_nil,
      and_mask_ne_zero hn, decide_eq_true_eq]
    obtain ⟨q, rfl⟩ := Nat.dvd_of_mod_eq_zero hr
    by_cases hle : 2 ^ 2 ^ e ≤ n
    · have hor : 2 ^ (e + 1) * q ||| 2 ^ e = 2 ^ (e + 1) * q + 2 ^ e :=
        (Nat.two_pow_add_eq_or_of_lt (by omega) q).symm
      have hmod : (2 ^ (e + 1) * q + 2 ^ e) % 2 ^ e = 0 := by
        rw [Nat.add_mod_right, Nat.pow_succ, Nat.mul_assoc, Nat.mul_mod_right]
      rw [if_pos hle] at hlt hlog
      rw [if_pos hle] at hlog
      rw [if_pos hle, hor, ih hlt hmod]
      omega
    · have hmod : 2 ^ (e + 1) * q % 2 ^ e = 0 := by
        rw [Nat.pow_succ, Nat.mul_assoc, Nat.mul_mod_right]
      rw [if_neg hle] at hlt
      rw [if_neg hle, ih hlt hmod]

/-- **The logarithm** of a 64-bit word is that of its highest bit. -/
theorem getLogBaseTwo_eq_log2 {n : Nat} (hn : n < 2 ^ 64) : getLogBaseTwo n = n.log2 :=
  (log2_rounds 6 hn (Nat.zero_mod _)).trans (Nat.zero_add _)

theorem getLogBaseTwo_two_pow : ∀ L < 64, getLogBaseTwo (2 ^ L) = L := fun L hL => by
  rw [getLogBaseTwo_eq_log2 (Nat.pow_lt_pow_right (by decide) hL), Nat.log2_two_pow]

/-- The rounds of `CeilLog2` for the masks of `2 ^ (e - 1)`, …, `2`, `1` bits. -/
theorem ceilLog2_rounds (e : Nat) {x y : Nat} (hx : x < 2 ^ 2 ^ e) :
    (((List.range e).reverse.map fun i => (2 ^ 2 ^ i - 1) <<< 2 ^ i).foldl (fun (x, y, j) t =>
      let k := if x &&& t == 0 then 0 else j
      (x >>> k, y + k, j >>> 1)) (x, y, 2 ^ e >>> 1)).2.1 = y + x.log2 := by
  induction e generalizing x y with
  | zero => simp [log2_of_lt_two hx]
  | succ e ih =>
    have hpow : 2 ^ (e + 1) = 2 ^ e + 2 ^ e := by omega
    have hhalf : 2 ^ (e + 1) >>> 1 = 2 ^ e := by
      rw [Nat.shiftRight_eq_div_pow]
      omega
    rw [hpow] at hx
    obtain ⟨hlt, hlog⟩ := log2_round hx
    have hmask := and_mask_ne_zero hx
    rw [List.range_succ, List.reverse_append, List.map_append, List.foldl_append, hhalf]
    simp only [List.reverse_singleton, List.map_cons, List.map_nil, List.foldl_cons, List.foldl_nil]
    by_cases hle : 2 ^ 2 ^ e ≤ x
    · rw [decide_eq_true hle, bne_iff_ne] at hmask
      rw [if_pos hle] at hlt hlog
      rw [if_pos hle] at hlog
      rw [if_neg (by simpa using hmask), ih hlt]
      omega
    · rw [decide_eq_false hle, bne_eq_false_iff_eq] at hmask
      rw [if_neg hle] at hlt
      rw [if_pos (by simpa using hmask), Nat.shiftRight_zero, Nat.add_zero, ih hlt]

/-- A number shares no bit with its predecessor exactly when it is a power of two. -/
theorem and_sub_one_eq_zero_iff {n : Nat} (hn : n ≠ 0) : n &&& (n - 1) = 0 ↔ 2 ^ n.log2 = n := by
  have hlow := Nat.log2_self_le hn
  have hhigh := Nat.lt_log2_self (n := n)
  constructor
  · intro hand
    by_contra hne
    -- the highest bit of `n` stays in `n - 1`
    have hbit : ∀ m, 2 ^ n.log2 ≤ m → m < 2 ^ (n.log2 + 1) → m.testBit n.log2 = true := by
      intro m h1 h2
      rw [Nat.testBit_eq_decide_div_mod_eq, decide_eq_true_iff]
      have : m / 2 ^ n.log2 = 1 :=
        Nat.div_eq_of_lt_le (by omega) (by rw [Nat.pow_succ] at h2; omega)
      omega
    have h := Nat.testBit_and n (n - 1) n.log2
    rw [hand, hbit n hlow hhigh, hbit (n - 1) (by omega) (by omega), Nat.zero_testBit] at h
    cases h
  · intro hpow
    rw [← hpow, Nat.and_two_pow_sub_one_eq_mod, Nat.mod_self]

theorem clog_eq_log2 {n : Nat} (hn : n ≠ 0) :
    Nat.clog 2 n = n.log2 + if 2 ^ n.log2 = n then 0 else 1 := by
  have hlow := Nat.log2_self_le hn
  have hhigh := Nat.lt_log2_self (n := n)
  split
  · rename_i hpow
    conv_lhs => rw [← hpow, Nat.clog_pow _ _ (by decide)]
    rfl
  · apply Nat.le_antisymm
    · exact Nat.clog_le_of_le_pow (Nat.le_of_lt hhigh)
    · exact (Nat.lt_clog_iff_pow_lt (by decide)).2 (by omega)

/-- **`CeilLog2`** of a 64-bit word. -/
theorem ceilLog2_eq_clog {n : Nat} (h1 : 1 ≤ n) (h2 : n < 2 ^ 64) : ceilLog2 n = Nat.clog 2 n := by
  have hsub : (n + (2 ^ 64 - 1)) % 2 ^ 64 = n - 1 := by omega
  have hrounds : ceilLog2 n = (if n &&& (n - 1) == 0 then 0 else 1) + n.log2 := by
    rw [ceilLog2, hsub]
    exact ceilLog2_rounds 6 h2
  have hn : n ≠ 0 := by omega
  rw [hrounds, clog_eq_log2 hn, Nat.add_comm]
  simp only [beq_iff_eq, and_sub_one_eq_zero_iff hn]

/-! ## Products and rounded quotients -/

theorem getVecProduct_eq (v : List Nat) : getVecProduct v = v.prod := by
  rw [getVecProduct, List.prod_eq_foldl]

theorem prod_pos_of_ways {ws : List Nat} {b : Nat} (h : ∀ w ∈ ws, 2 ≤ w ∧ w ≤ b) : 0 < ws.prod :=
  List.prod_pos fun w hw => Nat.lt_of_lt_of_le Nat.two_pos (h w hw).1

theorem prod_pos_of_nested_ways {ways : List (List Nat)} {b : Nat}
    (h : ∀ ws ∈ ways, ∀ w ∈ ws, 2 ≤ w ∧ w ≤ b) : 0 < (ways.map List.prod).prod := by
  refine List.prod_pos fun n hn => ?_
  obtain ⟨ws, hws, rfl⟩ := List.mem_map.1 hn
  exact prod_pos_of_ways (h ws hws)

theorem divRoundUp_le_iff {x y z : Nat} (hy : 0 < y) : divRoundUp x y ≤ z ↔ x ≤ y * z := by
  unfold divRoundUp
  rw [Nat.div_le_iff_le_mul hy]
  rw [Nat.mul_comm]
  omega

theorem divRoundUp_pos {x y : Nat} (hx : 0 < x) (hy : 0 < y) : 0 < divRoundUp x y :=
  Nat.div_pos (by omega) hy

/-! ## Shuffling -/

theorem swapAt_perm {α : Type} (i j : Nat) (xs : List α) : List.Perm (swapAt i j xs) xs := by
  rw [swapAt]
  split
  · rename_i h
    exact List.set_set_perm h.1 h.2
  · exact .refl xs

theorem getElem?_swapAt {α : Type} {i j : Nat} {xs : List α} (hi : i < xs.length)
    (hj : j < xs.length)
    (k : Nat) : (swapAt i j xs)[k]? = if k = j then xs[i]? else if k = i then xs[j]?
      else xs[k]? := by
  rw [swapAt, dif_pos ⟨hi, hj⟩]
  by_cases hkj : k = j
  · subst hkj
    rw [List.getElem?_set_self (by rwa [List.length_set]), if_pos rfl, List.getElem?_eq_getElem hi]
    rfl
  · rw [List.getElem?_set_ne (Ne.symm hkj), if_neg hkj]
    by_cases hki : k = i
    · subst hki
      rw [List.getElem?_set_self hi, if_pos rfl, List.getElem?_eq_getElem hj]
      rfl
    · rw [List.getElem?_set_ne (Ne.symm hki), if_neg hki]

theorem fisherYatesLoop_perm {α : Type} (rand64 : Nat → BitVec 64) (n : Nat) (xs : List α) :
    List.Perm (fisherYatesLoop rand64 n xs) xs := by
  induction n generalizing rand64 xs with
  | zero => exact .refl xs
  | succ n ih => exact (ih _ _).trans (swapAt_perm _ _ xs)

theorem fisherYatesShuffle_perm {α : Type} (rand64 : Nat → BitVec 64) {xs : List α}
    (hxs : xs ≠ []) :
    ∃ ys, fisherYatesShuffle rand64 xs = some ys ∧ List.Perm ys xs := by
  refine ⟨_, ?_, fisherYatesLoop_perm rand64 (xs.length - 1) xs⟩
  rw [fisherYatesShuffle, List.isEmpty_eq_false_iff.2 hxs]
  rfl
