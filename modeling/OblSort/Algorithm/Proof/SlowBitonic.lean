import OblSort.Algorithm.Proof.Bitonic
import Mathlib.Data.Nat.Bitwise
import Mathlib.Data.List.Sort
import Mathlib.Order.Antisymmetrization
import Mathlib.Tactic.Ring

/-!
# The triple loop sorts

`SlowBitonicSort` goes through all positions in every round. The partner `i ^ j` for `j = 2 ^ q` is
at distance `2 ^ q` in the same block of `2 ^ (q + 1)`, and `(i & k) == 0` is the same in a whole
block of `k`. Seen on one block a round is therefore the loop of `BitonicMergePow2`
(`slowRound_block`), and the rounds for one `k` sort every block, upwards or downwards by the parity
of its number (`Blocks`).
-/

namespace EM.Algorithm

open Net

variable {σ τ α : Type}

/-! ## Bits of a position -/

theorem testBit_eq_mod (i q : Nat) : i.testBit q = decide (i / 2 ^ q % 2 = 1) :=
  Nat.testBit_eq_decide_div_mod_eq

theorem xor_two_pow_of_clear {i q : Nat} (h : i.testBit q = false) : i ^^^ 2 ^ q = i + 2 ^ q := by
  have heven : Even (i / 2 ^ q) := by
    rw [testBit_eq_mod, decide_eq_false_iff_not] at h
    rw [Nat.even_iff]
    omega
  have hdiv : (i ^^^ 2 ^ q) / 2 ^ q = i / 2 ^ q + 1 := by
    rw [Nat.xor_div_two_pow, Nat.div_self (Nat.two_pow_pos q), Nat.xor_one_of_even heven]
  have hmod : (i ^^^ 2 ^ q) % 2 ^ q = i % 2 ^ q := by
    rw [Nat.xor_mod_two_pow, Nat.mod_self, Nat.xor_zero]
  rw [← Nat.div_add_mod (i ^^^ 2 ^ q) (2 ^ q), hdiv, hmod, Nat.mul_succ]
  have := Nat.div_add_mod i (2 ^ q)
  omega

theorem two_pow_le_of_set {i q : Nat} (h : i.testBit q = true) : 2 ^ q ≤ i :=
  Nat.ge_two_pow_of_testBit h

theorem testBit_sub_of_set {i q : Nat} (h : i.testBit q = true) :
    (i - 2 ^ q).testBit q = false := by
  have hle := two_pow_le_of_set h
  have := Nat.testBit_two_pow_add_eq (i - 2 ^ q) q
  rw [Nat.add_sub_cancel' hle, h] at this
  simpa using this.symm

theorem xor_two_pow_of_set {i q : Nat} (h : i.testBit q = true) : i ^^^ 2 ^ q = i - 2 ^ q := by
  have hback := xor_two_pow_of_clear (testBit_sub_of_set h)
  rw [Nat.sub_add_cancel (two_pow_le_of_set h)] at hback
  calc i ^^^ 2 ^ q = (i - 2 ^ q ^^^ 2 ^ q) ^^^ 2 ^ q := by rw [hback]
    _ = i - 2 ^ q := by rw [Nat.xor_assoc, Nat.xor_self, Nat.xor_zero]

theorem and_two_pow_beq (i p : Nat) : (i &&& 2 ^ p == 0) = !i.testBit p := by
  rw [Nat.and_two_pow]
  cases i.testBit p <;> simp

/-! ## One round -/

/-- The lower position of the pair of `x`. -/
def lowerEnd (q x : Nat) : Nat := if x.testBit q then x - 2 ^ q else x

theorem testBit_lowerEnd (q x : Nat) : (lowerEnd q x).testBit q = false := by
  unfold lowerEnd
  split
  · rename_i h
    exact testBit_sub_of_set h
  · rename_i h
    simpa using h

theorem lowerEnd_eq_iff {q x t : Nat} (ht : t.testBit q = false) :
    lowerEnd q x = t ↔ x = t ∨ x = t + 2 ^ q := by
  have hup : (t + 2 ^ q).testBit q = true := by
    rw [Nat.add_comm, Nat.testBit_two_pow_add_eq, ht]
    rfl
  unfold lowerEnd
  constructor
  · intro h
    split at h
    · rename_i hx
      have := two_pow_le_of_set hx
      omega
    · exact .inl h
  · rintro (rfl | rfl)
    · rw [ht]
      rfl
    · rw [if_pos hup]
      omega

theorem slowExch_of_set {cs : Bool → Nat → Nat → σ → σ} {k q i : Nat} (h : i.testBit q = true)
    (s : σ) :
    slowExch cs k (2 ^ q) i s = s := by
  have := Nat.two_pow_pos q
  rw [slowExch, xor_two_pow_of_set h]
  exact if_neg (by omega)

theorem slowExch_of_clear {cs : Bool → Nat → Nat → σ → σ} {k q i : Nat} (h : i.testBit q = false)
    (s : σ) : slowExch cs k (2 ^ q) i s = cs (i &&& k == 0) i (i + 2 ^ q) s := by
  have := Nat.two_pow_pos q
  rw [slowExch, xor_two_pow_of_clear h]
  exact if_pos (by omega)

/-- A round exchanges each pair once: it is a function of the bits before. -/
theorem slowRound_apply (n k q : Nat) (m : Nat → Bool) (x : Nat) :
    slowRound bitExch n k (2 ^ q) m x =
      if lowerEnd q x < n then
        bitExch (lowerEnd q x &&& k == 0) (lowerEnd q x) (lowerEnd q x + 2 ^ q) m x
      else m x := by
  induction n generalizing x with
  | zero => rfl
  | succ t ih =>
    have hstep : slowRound bitExch (t + 1) k (2 ^ q) m =
        slowExch bitExch k (2 ^ q) t (slowRound bitExch t k (2 ^ q) m) := by
      rw [slowRound, List.range_succ, List.foldl_append]
      rfl
    rw [hstep]
    cases ht : t.testBit q with
    | true =>
      have hne : lowerEnd q x ≠ t := fun h => by
        have := testBit_lowerEnd q x
        rw [h, ht] at this
        cases this
      have hlt : lowerEnd q x < t + 1 ↔ lowerEnd q x < t := by omega
      rw [slowExch_of_set ht, ih]
      simp only [hlt]
    | false =>
      have hl : slowRound bitExch t k (2 ^ q) m t = m t := by
        rw [ih, (lowerEnd_eq_iff ht).2 (.inl rfl), if_neg (Nat.lt_irrefl t)]
      have hr : slowRound bitExch t k (2 ^ q) m (t + 2 ^ q) = m (t + 2 ^ q) := by
        rw [ih, (lowerEnd_eq_iff ht).2 (.inr rfl), if_neg (Nat.lt_irrefl t)]
      rw [slowExch_of_clear ht, bitExch_apply, hl, hr]
      by_cases hx : lowerEnd q x = t
      · rw [hx, if_pos (Nat.lt_succ_self t), bitExch_apply]
        obtain rfl | rfl := (lowerEnd_eq_iff ht).1 hx
        · rw [if_pos rfl, if_pos rfl]
        · rw [if_pos rfl, if_pos rfl]
      · have hne := mt (lowerEnd_eq_iff (x := x) ht).2 hx
        have hlt : lowerEnd q x < t + 1 ↔ lowerEnd q x < t := by omega
        rw [if_neg (fun h => hne (.inr h)), if_neg (fun h => hne (.inl h)), ih]
        simp only [hlt]

/-- The bit that tells the halves of a block of `2 ^ (q + 1)` apart. -/
theorem testBit_of_block {q b r : Nat} (hb : 2 ^ (q + 1) ∣ b) (hr : r < 2 ^ (q + 1)) :
    (b + r).testBit q = decide (2 ^ q ≤ r) := by
  obtain ⟨c, rfl⟩ := hb
  rw [Nat.testBit_two_pow_mul_add c hr, if_pos (Nat.lt_succ_self q), testBit_eq_mod,
    decide_eq_decide]
  have hpow : 2 ^ (q + 1) = 2 ^ q + 2 ^ q := by omega
  by_cases hlow : 2 ^ q ≤ r
  · have : r / 2 ^ q = 1 := Nat.div_eq_of_lt_le (by omega) (by omega)
    simp [this, hlow]
  · simp [Nat.div_eq_of_lt (Nat.lt_of_not_le hlow), hlow]

theorem view_inj {dire : Bool} {m m' : Nat → Bool} {x y : Nat}
    (h : view dire m x = view dire m' y) :
    m x = m' y := by
  unfold view at h
  cases dire <;> cases hm : m x <;> cases hm' : m' y <;> simp_all

/-- On a block where the direction is `dire`, a round is the loop of `BitonicMergePow2`. -/
theorem slowRound_block {n k q b : Nat} {dire : Bool} (hb : 2 ^ (q + 1) ∣ b)
    (hn : b + 2 ^ (q + 1) ≤ n)
    (hdire : ∀ i, b ≤ i → i < b + 2 ^ (q + 1) → (i &&& k == 0) = dire) (m : Nat → Bool) (x : Nat)
    (hx : b ≤ x) (hx' : x < b + 2 ^ (q + 1)) :
    slowRound bitExch n k (2 ^ q) m x = condSwapLoop bitExch dire b (2 ^ q) (2 ^ q) m x := by
  have hpow : 2 ^ (q + 1) = 2 ^ q + 2 ^ q := by omega
  have hpos := Nat.two_pow_pos q
  obtain ⟨r, rfl⟩ := Nat.exists_eq_add_of_le hx
  have hbit := testBit_of_block hb (show r < 2 ^ (q + 1) by omega)
  apply @view_inj dire
  rw [view_condSwapLoop _ _ _ _ (Nat.le_refl _)]
  by_cases hr : 2 ^ q ≤ r
  · rw [decide_eq_true hr] at hbit
    have hlow : lowerEnd q (b + r) = b + r - 2 ^ q := if_pos hbit
    have hexch : slowRound bitExch n k (2 ^ q) m (b + r) =
        bitExch dire (b + r - 2 ^ q) (b + r) m (b + r) := by
      rw [slowRound_apply, hlow, if_pos (by omega), hdire _ (by omega) (by omega),
        Nat.sub_add_cancel (by omega)]
    rw [if_neg (by omega), if_pos (by omega), view, hexch, ← view, view_bitExch _ (by omega),
      if_pos rfl]
  · rw [decide_eq_false hr] at hbit
    have hlow : lowerEnd q (b + r) = b + r := by rw [lowerEnd, hbit]; rfl
    have hexch : slowRound bitExch n k (2 ^ q) m (b + r) =
        bitExch dire (b + r) (b + r + 2 ^ q) m (b + r) := by
      rw [slowRound_apply, hlow, if_pos (by omega), hdire _ (by omega) (by omega)]
    rw [if_pos (by omega), view, hexch, ← view, view_bitExch _ (by omega),
      if_neg (by omega), if_pos rfl]

/-! ## The rounds for one `k` -/

theorem slowMerge_zero (cs : Bool → Nat → Nat → σ → σ) (n k : Nat) (s : σ) :
    slowMerge cs n k (2 ^ 0 / 2) s = s := by
  rw [slowMerge]
  rfl

theorem slowMerge_succ (cs : Bool → Nat → Nat → σ → σ) (n k q : Nat) (s : σ) :
    slowMerge cs n k (2 ^ (q + 1) / 2) s =
      slowMerge cs n k (2 ^ q / 2) (slowRound cs n k (2 ^ q) s) := by
  have hhalf : 2 ^ (q + 1) / 2 = 2 ^ q := by omega
  rw [hhalf, slowMerge, if_pos (Nat.two_pow_pos q)]

/-- A block of the store that the rounds for `k` treat with the direction `dire`. -/
structure SlowBlock (n k q b : Nat) (dire : Bool) : Prop where
  dvd : 2 ^ q ∣ b
  le : b + 2 ^ q ≤ n
  direction : ∀ i, b ≤ i → i < b + 2 ^ q → (i &&& k == 0) = dire

namespace SlowBlock

variable {n k q b : Nat} {dire : Bool} {m : Nat → Bool}

theorem left (h : SlowBlock n k (q + 1) b dire) : SlowBlock n k q b dire where
  dvd := (Nat.pow_dvd_pow 2 (Nat.le_succ q)).trans h.dvd
  le := by have := h.le; have := Nat.two_pow_pos q; omega
  direction i hi hi' := h.direction i hi (by have := Nat.two_pow_pos q; omega)

theorem right (h : SlowBlock n k (q + 1) b dire) : SlowBlock n k q (b + 2 ^ q) dire where
  dvd := Nat.dvd_add h.left.dvd (Nat.dvd_refl _)
  le := by have := h.le; omega
  direction i hi hi' := h.direction i (by omega) (by omega)

/-- A block that is constant stays constant. -/
theorem const (h : SlowBlock n k q b dire) {c : Bool}
    (hc : ∀ x, b ≤ x → x < b + 2 ^ q → view dire m x = c) :
    ∀ x, b ≤ x → x < b + 2 ^ q → view dire (slowMerge bitExch n k (2 ^ q / 2) m) x = c := by
  induction q generalizing b m with
  | zero =>
    rw [slowMerge_zero]
    exact hc
  | succ q ih =>
    have hround : ∀ x, b ≤ x → x < b + 2 ^ (q + 1) →
        view dire (slowRound bitExch n k (2 ^ q) m) x = c := fun x hx hx' => by
      rw [view, slowRound_block h.dvd h.le h.direction m x hx hx', ← view,
        view_condSwapLoop _ _ _ _ (Nat.le_refl _)]
      split_ifs
      · rw [hc x hx hx', hc (x + 2 ^ q) (by omega) (by omega), Bool.and_self]
      · rw [hc x hx hx', hc (x - 2 ^ q) (by omega) (by omega), Bool.or_self]
      · exact hc x hx hx'
    intro x hx hx'
    rw [slowMerge_succ]
    by_cases hlow : x < b + 2 ^ q
    · exact ih h.left (fun y hy hy' => hround y hy (by omega)) x hx hlow
    · exact ih h.right (fun y hy hy' => hround y (by omega) (by omega)) x (by omega) (by omega)

/-- A cyclically bitonic block gets sorted. -/
theorem ascending (h : SlowBlock n k q b dire) (hm : NoAlt (view dire m) b (2 ^ q)) :
    Ascending (view dire (slowMerge bitExch n k (2 ^ q / 2) m)) b (2 ^ q) := by
  induction q generalizing b m with
  | zero =>
    intro i j hi hij hj
    obtain rfl : i = j := by omega
    exact id
  | succ q ih =>
    have hpow : 2 ^ (q + 1) = 2 ^ q + 2 ^ q := by omega
    have hround : ∀ x, b ≤ x → x < b + 2 ^ (q + 1) →
        view dire (slowRound bitExch n k (2 ^ q) m) x =
          view dire (condSwapLoop bitExch dire b (2 ^ q) (2 ^ q) m) x := fun x hx hx' => by
      rw [view, slowRound_block h.dvd h.le h.direction m x hx hx', view]
    rw [hpow] at hm
    obtain ⟨hl, hr, hbelow⟩ := hm.halfClean rfl
    rw [slowMerge_succ]
    generalize slowRound bitExch n k (2 ^ q) m = m₁ at hround
    have hleft := ih h.left (hl.congr fun r hr => hround (b + r) (by omega) (by omega))
    have hright := ih h.right (hr.congr fun r hr => hround (b + 2 ^ q + r) (by omega) (by omega))
    refine hleft.append (b := b) (by simpa [hpow] using hright) fun i j hi hi' hj hj' hv => ?_
    -- a one on the left comes from a one there, and then the right half is constant
    obtain ⟨x, hx, hx', hvx⟩ : ∃ x, b ≤ x ∧ x < b + 2 ^ q ∧ view dire m₁ x = true := by
      by_contra! hno
      rw [h.left.const (fun x hx hx' => by simpa using hno x hx hx') i hi hi'] at hv
      cases hv
    refine h.right.const (fun y hy hy' => ?_) j hj (by omega)
    rw [hround y (by omega) (by omega)]
    exact hbelow x y hx hx' hy hy' (by rw [← hround x hx (by omega), hvx])

end SlowBlock

/-! ## All rounds -/

/-- The blocks of `2 ^ p` are sorted, those of even number upwards and the others downwards. -/
def Blocks (p n : Nat) (m : Nat → Bool) : Prop :=
  ∀ c, (c + 1) * 2 ^ p ≤ n → Ascending (view (c % 2 == 0) m) (c * 2 ^ p) (2 ^ p)

/-- A block of `2 ^ p` has one direction in the rounds for `k = 2 ^ p`. -/
theorem SlowBlock.of_number {p n c : Nat} (hn : (c + 1) * 2 ^ p ≤ n) :
    SlowBlock n (2 ^ p) p (c * 2 ^ p) (c % 2 == 0) where
  dvd := Nat.dvd_mul_left ..
  le := by rwa [← Nat.succ_mul]
  direction i hi hi' := by
    have hdiv : i / 2 ^ p = c := by
      rw [← Nat.succ_mul] at hi'
      exact Nat.div_eq_of_lt_le hi hi'
    rw [and_two_pow_beq, testBit_eq_mod, hdiv]
    obtain h | h := Nat.mod_two_eq_zero_or_one c <;> simp [h]

/-- A half that ascends before one that descends. -/
theorem NoAlt.of_halves {m : Nat → Bool} {b half : Nat} (dire : Bool)
    (hl : Ascending (view true m) b half) (hr : Ascending (view false m) (b + half) half) :
    NoAlt (view dire m) b (half + half) := by
  have hup : ∀ x y, b ≤ x → x ≤ y → y < b + half → m x = true → m y = true :=
    fun x y hx hxy hy => by
    simpa [view] using hl x y hx hxy hy
  have hdown : ∀ x y, b + half ≤ x → x ≤ y → y < b + half + half → m x = false → m y = false :=
    fun x y hx hxy hy => by simpa [view] using hr x y hx hxy hy
  intro i j k l hi hij hjk hkl hlb hik hjl
  have hik' : m i = m k := view_inj hik
  have hjl' : m j = m l := view_inj hjl
  suffices h : m i = m j by rw [view, view, h]
  by_contra hne
  cases hj : m j with
  | true =>
    have hk : m k = false := by simpa [hj, hik'] using hne
    by_cases hhalf : k < b + half
    · rw [hup j k (by omega) (by omega) hhalf hj] at hk
      cases hk
    · rw [hjl', hdown k l (by omega) (by omega) (by omega) hk] at hj
      cases hj
  | false =>
    have hi' : m i = true := by simpa [hj] using hne
    by_cases hhalf : j < b + half
    · rw [hup i j hi (by omega) hhalf hi'] at hj
      cases hj
    · rw [hik', hdown j k (by omega) (by omega) (by omega) hj] at hi'
      cases hi'

/-- The rounds for `k = 2 ^ (p + 1)` merge the blocks of `2 ^ p` in pairs. -/
theorem Blocks.succ {p n : Nat} {m : Nat → Bool} (h : Blocks p n m) :
    Blocks (p + 1) n (slowMerge bitExch n (2 ^ (p + 1)) (2 ^ (p + 1) / 2) m) := by
  intro c hc
  refine (SlowBlock.of_number hc).ascending ?_
  have hpow : 2 ^ (p + 1) = 2 ^ p + 2 ^ p := by omega
  have hstart : c * 2 ^ (p + 1) = 2 * c * 2 ^ p := by rw [Nat.pow_succ']; ring
  have hend : (c + 1) * 2 ^ (p + 1) = 2 * c * 2 ^ p + 2 ^ p + 2 ^ p := by rw [Nat.pow_succ']; ring
  have hpos := Nat.two_pow_pos p
  have hl := h (2 * c) (by rw [Nat.succ_mul]; omega)
  have hr := h (2 * c + 1) (by rw [Nat.succ_mul, Nat.succ_mul]; omega)
  rw [show 2 * c % 2 = 0 by omega] at hl
  rw [show (2 * c + 1) % 2 = 1 by omega, Nat.succ_mul] at hr
  rw [hstart, hpow]
  exact NoAlt.of_halves _ hl hr

/-- From `k = 2 ^ (p + 1)` on. -/
theorem slowLoop_ascending {p P : Nat} (hp : p ≤ P) {m : Nat → Bool} (h : Blocks p (2 ^ P) m) :
    Ascending (slowLoop bitExch (2 ^ P) (2 ^ (p + 1)) m) 0 (2 ^ P) := by
  induction hd : P - p generalizing p m with
  | zero =>
    obtain rfl : p = P := by omega
    have hlt : 2 ^ p < 2 ^ (p + 1) := Nat.pow_lt_pow_right (by decide) (Nat.lt_succ_self p)
    rw [slowLoop, if_neg (by omega)]
    have h0 : Ascending (view true m) (0 * 2 ^ p) (2 ^ p) := h 0 (by simp)
    have hview : view true m = m := funext fun x => by simp [view]
    rwa [Nat.zero_mul, hview] at h0
  | succ d ih =>
    have hle : 2 ^ (p + 1) ≤ 2 ^ P := Nat.pow_le_pow_right (by decide) (by omega)
    rw [slowLoop, if_pos ⟨Nat.two_pow_pos _, hle⟩, ← Nat.pow_succ]
    exact ih (by omega) h.succ (by omega)

theorem blocks_zero (n : Nat) (m : Nat → Bool) : Blocks 0 n m := by
  intro c _ i j hi hij hj
  obtain rfl : i = j := by omega
  exact id

/-! ## The network -/

section Relation

variable {cs : Bool → Nat → Nat → σ → σ} {cs' : Bool → Nat → Nat → τ → τ} {R : σ → τ → Prop}

/-- A relation that the comparators on two positions of a store of `2 ^ P` keep. -/
theorem slowRound_rel {P : Nat}
    (h : ∀ d i l s t, i < l → l < 2 ^ P → R s t → R (cs d i l s) (cs' d i l t)) (k : Nat) {j : Nat}
    (hj : j < 2 ^ P) {s : σ} {t : τ} (hst : R s t) :
    R (slowRound cs (2 ^ P) k j s) (slowRound cs' (2 ^ P) k j t) := by
  refine List.foldl_rel hst fun i hi s t hst => ?_
  unfold slowExch
  dsimp only
  split
  · rename_i hl
    exact h _ _ _ _ _ hl (Nat.xor_lt_two_pow (List.mem_range.1 hi) hj) hst
  · exact hst

theorem slowMerge_rel {P : Nat}
    (h : ∀ d i l s t, i < l → l < 2 ^ P → R s t → R (cs d i l s) (cs' d i l t)) (k : Nat) {j : Nat}
    (hj : j < 2 ^ P) {s : σ} {t : τ} (hst : R s t) :
    R (slowMerge cs (2 ^ P) k j s) (slowMerge cs' (2 ^ P) k j t) := by
  induction j using Nat.strong_induction_on generalizing s t with
  | _ j ih =>
    unfold slowMerge
    split
    · exact ih (j / 2) (by omega) (by omega) (slowRound_rel h k hj hst)
    · exact hst

/-- **Two runs of the triple loop are related** as soon as their comparators are. -/
theorem slowLoop_rel {P : Nat}
    (h : ∀ d i l s t, i < l → l < 2 ^ P → R s t → R (cs d i l s) (cs' d i l t)) (k : Nat)
    {s : σ} {t : τ} (hst : R s t) : R (slowLoop cs (2 ^ P) k s) (slowLoop cs' (2 ^ P) k t) := by
  induction hd : 2 ^ P + 1 - k using Nat.strong_induction_on generalizing k s t with
  | _ d ih =>
    unfold slowLoop
    split
    · exact ih _ (by omega) (k * 2) (slowMerge_rel h k (by omega) hst) rfl
    · exact hst

end Relation

/-- The comparators of `SlowBitonicSort` on `n` elements. -/
def slowNet (n : Nat) : List Comparator :=
  slowLoop (fun dire i l net => net ++ [⟨dire, i, l⟩]) n 2 []

theorem slowLoop_eq_run (cs : Bool → Nat → Nat → σ → σ) (P : Nat) (s : σ) :
    slowLoop cs (2 ^ P) 2 s = run cs (slowNet (2 ^ P)) s :=
  slowLoop_rel (R := fun s' net => s' = run cs net s) (fun d i l s' net _ _ h => by simp [h]) 2 rfl

theorem slowNet_inRange (P : Nat) : InRange (2 ^ P) (slowNet (2 ^ P)) := by
  refine @slowLoop_rel _ _ _ (fun _ _ _ (u : Unit) => u) (fun net _ => InRange (2 ^ P) net) P
    (fun d i l net _ hil hl hnet c hc => ?_) 2 [] () fun c hc => absurd hc List.not_mem_nil
  obtain hc | hc := List.mem_append.1 hc
  · exact hnet c hc
  · obtain rfl := List.mem_singleton.1 hc
    exact ⟨Nat.ne_of_lt hil, Nat.lt_trans hil hl, hl⟩

/-! ## Lists -/

/-- Two sorted permutations of a list are the same up to values that the order does not tell
apart. -/
theorem equivalent_of_perm {le : α → α → Prop} {cmp : α → α → Bool} (h : Decides le cmp)
    {xs ys : List α} (hperm : List.Perm xs ys) (hx : List.Pairwise le xs)
    (hy : List.Pairwise le ys) :
    List.Forall₂ (fun a b => le a b ∧ le b a) xs ys := by
  let _ : Preorder α := { le := le, le_refl := h.refl, le_trans := h.trans }
  let f : α → Antisymmetrization α (· ≤ ·) := toAntisymmetrization (· ≤ ·)
  have hx' : (xs.map f).Pairwise (· ≤ ·) := List.pairwise_map.2 (hx.imp fun h => h)
  have hy' : (ys.map f).Pairwise (· ≤ ·) := List.pairwise_map.2 (hy.imp fun h => h)
  have hmap : xs.map f = ys.map f := (hperm.map f).eq_of_pairwise' hx' hy'
  rw [← List.forall₂_eq_eq_eq, List.forall₂_map_left_iff, List.forall₂_map_right_iff] at hmap
  exact hmap.imp fun a b hab => Quotient.exact hab

variable {cmp : α → α → Bool}

theorem slowBitonicSort_eq_run {r : Range α} {P : Nat} (hn : r.elems.length = 2 ^ P) :
    slowBitonicSort cmp r = run (listExch fun a b => !cmp b a) (slowNet (2 ^ P)) r.elems := by
  have hexch :
    (fun dire i l => condSwap (fun a b => (dire && cmp b a) || (!dire && !cmp b a)) i l) =
      listExch fun a b => !cmp b a := by
    funext dire i l
    cases dire <;> simp [listExch]
  rw [slowBitonicSort, hn]
  dsimp only
  rw [hexch, slowLoop_eq_run]

/-- **`SlowBitonicSort`** returns a sorted permutation of a power of two of elements, the same as
`BitonicSort` up to elements that the order does not tell apart. -/
theorem slowBitonicSort_sorts (cmp : α → α → Bool) [IsStrictWeakOrder α fun a b => cmp a b = true]
    (r : Range α) (P : Nat) (hn : r.elems.length = 2 ^ P) :
    List.Perm (slowBitonicSort cmp r) r.elems ∧
      List.Pairwise (fun a b => cmp b a = false) (slowBitonicSort cmp r) ∧
      List.Forall₂ (fun a b => cmp b a = false ∧ cmp a b = false) (slowBitonicSort cmp r)
        (bitonicSortRange cmp true r) := by
  have hdec := Decides.of_strict cmp
  have hperm : List.Perm (slowBitonicSort cmp r) r.elems := by
    rw [slowBitonicSort_eq_run hn]
    exact run_listExch_perm _ _ _
  have hsorted : List.Pairwise (fun a b => cmp b a = false) (slowBitonicSort cmp r) := by
    rw [slowBitonicSort_eq_run hn]
    refine zero_one hdec.not.flip (hn ▸ slowNet_inRange P) fun m i j hij hj hi => ?_
    rw [← slowLoop_eq_run] at hi ⊢
    exact slowLoop_ascending (p := 0) (Nat.zero_le P) (blocks_zero _ m) i j (Nat.zero_le i) hij
      (by omega) hi
  obtain ⟨hperm', hsorted'⟩ := bitonicSortRange_sorts hdec true r
  exact ⟨hperm, hsorted, equivalent_of_perm hdec (hperm.trans hperm'.symm) hsorted hsorted'⟩

/-- Four numbers. -/
theorem slowBitonicSort_sorts_four :
    let r : Range Nat := ⟨[3, 1, 4, 1], by decide⟩
    List.Perm (slowBitonicSort (fun a b => decide (a < b)) r) r.elems ∧
      List.Pairwise (fun a b => decide (b < a) = false)
      (slowBitonicSort (fun a b => decide (a < b)) r) ∧
      List.Forall₂ (fun a b => decide (b < a) = false ∧ decide (a < b) = false)
        (slowBitonicSort (fun a b => decide (a < b)) r)
        (bitonicSortRange (fun a b => decide (a < b)) true r) :=
  slowBitonicSort_sorts (fun a b : Nat => decide (a < b)) ⟨[3, 1, 4, 1], by decide⟩ 2 rfl

end EM.Algorithm
