import OblSort.Algorithm.Bitonic
import OblSort.Common.Proof.Utils

/-!
# Bitonic sort sorts

`bitonicSort_eq_run`: on every store the sort runs the network `bitonicNet`. On a store of bits
(`Net.zero_one`), seen through the direction of the merge, the two sorted halves form a valley
(`Valley`), one round of `BitonicMerge` leaves a cyclically bitonic left part (`NoAlt`) below a
valley, and one round of `BitonicMergePow2` leaves two cyclically bitonic halves, the left one
below the right one.
-/

namespace EM.Algorithm

open Net

variable {σ τ α : Type}

/-! ## The network of a bitonic sort -/

section Relation

variable {cs : Bool → Nat → Nat → σ → σ} {cs' : Bool → Nat → Nat → τ → τ} {R : σ → τ → Prop}

/-- A comparator on two positions of `[begin, begin + size)` keeps the relation `R`. -/
def Keeps (cs : Bool → Nat → Nat → σ → σ) (cs' : Bool → Nat → Nat → τ → τ) (R : σ → τ → Prop)
    (begin size : Nat) : Prop :=
  ∀ d i j s t, begin ≤ i → i ≤ j → j < begin + size → (size ≤ 2 ^ 63 → i ≠ j) → R s t →
    R (cs d i j s) (cs' d i j t)

theorem Keeps.mono {b n b' n' : Nat} (h : Keeps cs cs' R b n) (hb : b ≤ b')
    (hn : b' + n' ≤ b + n) : Keeps cs cs' R b' n' :=
  fun d i j s t h1 h2 h3 h4 => h d i j s t (by omega) h2 (by omega) fun _ => h4 (by omega)

theorem condSwapLoop_rel (dire : Bool) {b n : Nat} (half count : Nat) (h : Keeps cs cs' R b n)
    (hc : half + count ≤ n) (hne : n ≤ 2 ^ 63 → 0 < half) {s : σ} {t : τ} (hst : R s t) :
    R (condSwapLoop cs dire b half count s) (condSwapLoop cs' dire b half count t) := by
  unfold condSwapLoop
  induction count with
  | zero => exact hst
  | succ count ih =>
    simp only [List.range_succ, List.foldl_append, List.foldl_cons, List.foldl_nil]
    exact h _ _ _ _ _ (by omega) (by omega) (by omega) (fun hn => by have := hne hn; omega)
      (ih (by omega))

theorem bitonicMergePow2_rel (dire : Bool) (b n : Nat) (h : Keeps cs cs' R b n) {s : σ} {t : τ}
    (hst : R s t) : R (bitonicMergePow2 cs dire b n s) (bitonicMergePow2 cs' dire b n t) := by
  induction n using Nat.strong_induction_on generalizing b s t with
  | _ n ih =>
    unfold bitonicMergePow2
    split
    · have h1 := condSwapLoop_rel dire (n / 2) (n / 2) h (by omega) (fun _ => by omega) hst
      have h2 := ih (n / 2) (by omega) b (h.mono (by omega) (by omega)) h1
      exact ih (n - n / 2) (by omega) _ (h.mono (by omega) (by omega)) h2
    · exact hst

theorem bitonicMerge_rel (dire : Bool) (b n : Nat) (h : Keeps cs cs' R b n) {s : σ} {t : τ}
    (hst : R s t) : R (bitonicMerge cs dire b n s) (bitonicMerge cs' dire b n t) := by
  induction n using Nat.strong_induction_on generalizing b s t with
  | _ n ih =>
    unfold bitonicMerge
    split
    · rename_i hn
      have hle := getNextPowerOfTwo_half_le n
      have hpos : n ≤ 2 ^ 63 → 0 < getNextPowerOfTwo n / 2 := fun hb => by
        obtain ⟨p, hp, -⟩ := getNextPowerOfTwo_half hn hb
        rw [hp]
        exact Nat.two_pow_pos p
      have h1 := condSwapLoop_rel dire (getNextPowerOfTwo n / 2) (n - getNextPowerOfTwo n / 2) h
        (by omega) hpos hst
      have h2 := bitonicMergePow2_rel dire b (getNextPowerOfTwo n / 2)
        (h.mono (by omega) (by omega)) h1
      dsimp only
      split
      · exact ih _ (by omega) _ (h.mono (by omega) (by omega)) h2
      · exact h2
    · exact hst

/-- **Two bitonic sorts are related** as soon as their comparators are. -/
theorem bitonicSort_rel (dire : Bool) (b n : Nat) (h : Keeps cs cs' R b n) {s : σ} {t : τ}
    (hst : R s t) : R (bitonicSort cs dire b n s) (bitonicSort cs' dire b n t) := by
  induction n using Nat.strong_induction_on generalizing b dire s t with
  | _ n ih =>
    unfold bitonicSort
    split
    · have h1 := ih (n / 2) (by omega) (!dire) b (h.mono (by omega) (by omega)) hst
      have h2 := ih (n - n / 2) (by omega) dire (b + n / 2) (h.mono (by omega) (by omega)) h1
      exact bitonicMerge_rel dire b n h h2
    · exact hst

end Relation

/-- On every store the sort runs the network `bitonicNet`. -/
theorem bitonicSort_eq_run (cs : Bool → Nat → Nat → σ → σ) (dire : Bool) (b n : Nat) (s : σ) :
    bitonicSort cs dire b n s = run cs (bitonicNet dire b n) s :=
  bitonicSort_rel (R := fun s' net => s' = run cs net s) dire b n
    (fun d i j s' net _ _ _ _ h => by simp [h]) rfl

theorem mem_bitonicNet {dire : Bool} {b n : Nat} {c : Comparator} (hc : c ∈ bitonicNet dire b n) :
    b ≤ c.fst ∧ c.fst ≤ c.snd ∧ c.snd < b + n ∧ (n ≤ 2 ^ 63 → c.fst ≠ c.snd) := by
  let P (c : Comparator) : Prop :=
    b ≤ c.fst ∧ c.fst ≤ c.snd ∧ c.snd < b + n ∧ (n ≤ 2 ^ 63 → c.fst ≠ c.snd)
  have hk : Keeps (fun d i j net => net ++ [⟨d, i, j⟩]) (fun _ _ _ (u : Unit) => u)
      (fun (net : List Comparator) _ => ∀ c ∈ net, P c) b n := by
    intro d i j net _ h1 h2 h3 h4 hnet c hc
    rcases List.mem_append.1 hc with hc | hc
    · exact hnet c hc
    · obtain rfl := List.mem_singleton.1 hc
      exact ⟨h1, h2, h3, h4⟩
  exact bitonicSort_rel dire b n hk (t := ()) (fun c hc => absurd hc List.not_mem_nil) c hc

/-! ## Shapes of bit stores -/

/-- A valley on `[b, b + n)`: ones, then zeros, then ones. -/
def Valley (v : Nat → Bool) (b n : Nat) : Prop :=
  ∀ i j k, b ≤ i → i < j → j < k → k < b + n → v i = false → v j = true → v k = false → False

/-- A cyclic rotation of a valley: no four values alternate. -/
def NoAlt (v : Nat → Bool) (b n : Nat) : Prop :=
  ∀ i j k l, b ≤ i → i < j → j < k → k < l → l < b + n → v i = v k → v j = v l → v i = v j

/-- Ascending on `[b, b + n)`. -/
def Ascending (v : Nat → Bool) (b n : Nat) : Prop :=
  ∀ i j, b ≤ i → i ≤ j → j < b + n → v i = true → v j = true

/-- Every value of `[b, b + n)` is at most every value of `[b', b' + n')`. -/
def Below (v : Nat → Bool) (b n b' n' : Nat) : Prop :=
  ∀ i j, b ≤ i → i < b + n → b' ≤ j → j < b' + n' → v i = true → v j = true

theorem Ascending.append {v : Nat → Bool} {b m n : Nat} (h1 : Ascending v b m)
    (h2 : Ascending v (b + m) (n - m)) (h : Below v b m (b + m) (n - m)) : Ascending v b n := by
  intro i j hi hij hj hv
  by_cases hjm : j < b + m
  · exact h1 i j hi hij hjm hv
  · by_cases him : i < b + m
    · exact h i j hi him (by omega) (by omega) hv
    · exact h2 i j (by omega) hij (by omega) hv

/-! ## Comparators of one direction -/

/-- What the merge loop does to the bits, seen in its direction. -/
theorem view_condSwapLoop (dire : Bool) (b half count : Nat) (hc : count ≤ half)
    (m : Nat → Bool) (k : Nat) : view dire (condSwapLoop bitExch dire b half count m) k =
      if b ≤ k ∧ k < b + count then view dire m k && view dire m (k + half)
      else if b + half ≤ k ∧ k < b + half + count then view dire m (k - half) || view dire m k
      else view dire m k := by
  induction count generalizing k with
  | zero =>
    rw [if_neg (by omega), if_neg (by omega)]
    rfl
  | succ count ih =>
    have hstep : condSwapLoop bitExch dire b half (count + 1) m =
        bitExch dire (b + count) (b + half + count) (condSwapLoop bitExch dire b half count m) := by
      simp [condSwapLoop, List.range_succ]
    rw [hstep, view_bitExch _ (by omega)]
    have hl : view dire (condSwapLoop bitExch dire b half count m) (b + count) =
        view dire m (b + count) := by
      rw [ih (by omega), if_neg (by omega), if_neg (by omega)]
    have hr : view dire (condSwapLoop bitExch dire b half count m) (b + half + count) =
        view dire m (b + half + count) := by
      rw [ih (by omega), if_neg (by omega), if_neg (by omega)]
    rw [hl, hr]
    by_cases h1 : k = b + half + count
    · subst h1
      rw [if_pos rfl, if_neg (by omega), if_pos (by omega),
        show b + half + count - half = b + count by omega]
    · by_cases h2 : k = b + count
      · subst h2
        rw [if_neg h1, if_pos rfl, if_pos (by omega),
          show b + count + half = b + half + count by omega]
      · rw [if_neg h1, if_neg h2, ih (by omega)]
        have e1 : (b ≤ k ∧ k < b + (count + 1)) ↔ (b ≤ k ∧ k < b + count) := by omega
        have e2 : (b + half ≤ k ∧ k < b + half + (count + 1)) ↔
            (b + half ≤ k ∧ k < b + half + count) := by omega
        simp only [e1, e2]

/-- The two halves of a cyclically bitonic range, folded by `and` or by `or`, do not alternate. -/
theorem NoAlt.fold {v : Nat → Bool} {b half : Nat} (h : NoAlt v b (half + half))
    {op : Bool → Bool → Bool} (hop : op = and ∨ op = or) :
    NoAlt (fun k => op (v k) (v (k + half))) b half := by
  intro i j k l hi hij hjk hkl hlb
  dsimp only
  -- the eight values stand in the order `i, j, k, l, i + half, j + half, k + half, l + half`
  have h1 := h i j k l (by omega) (by omega) (by omega) (by omega) (by omega)
  have h2 := h i j k (l + half) (by omega) (by omega) (by omega) (by omega) (by omega)
  have h3 := h l (i + half) (j + half) (k + half) (by omega) (by omega) (by omega) (by omega)
    (by omega)
  have h4 := h (i + half) (j + half) (k + half) (l + half) (by omega) (by omega) (by omega)
    (by omega) (by omega)
  have h5 := h j k l (i + half) (by omega) (by omega) (by omega) (by omega) (by omega)
  have h6 := h i (j + half) (k + half) (l + half) (by omega) (by omega) (by omega) (by omega)
    (by omega)
  revert h1 h2 h3 h4 h5 h6
  generalize v i = a, v j = b', v k = c, v l = d, v (i + half) = a', v (j + half) = b'',
    v (k + half) = c', v (l + half) = d'
  rcases hop with rfl | rfl <;> revert a b' c d a' b'' c' d' <;> decide

theorem NoAlt.congr {v w : Nat → Bool} {b b' n : Nat} (h : NoAlt v b n)
    (hw : ∀ k < n, w (b' + k) = v (b + k)) : NoAlt w b' n := by
  intro i j k l hi hij hjk hkl hlb
  obtain ⟨i, rfl⟩ := Nat.exists_eq_add_of_le hi
  obtain ⟨j, rfl⟩ := Nat.exists_eq_add_of_le (show b' ≤ j by omega)
  obtain ⟨k, rfl⟩ := Nat.exists_eq_add_of_le (show b' ≤ k by omega)
  obtain ⟨l, rfl⟩ := Nat.exists_eq_add_of_le (show b' ≤ l by omega)
  rw [hw i (by omega), hw j (by omega), hw k (by omega), hw l (by omega)]
  exact h _ _ _ _ (by omega) (by omega) (by omega) (by omega) (by omega)

/-- After a round the left part holds the bitwise conjunctions. -/
theorem view_condSwapLoop_left {dire : Bool} {b half count k : Nat} (hc : count ≤ half)
    (m : Nat → Bool)
    (hk : k < count) : view dire (condSwapLoop bitExch dire b half count m) (b + k) =
      (view dire m (b + k) && view dire m (b + k + half)) := by
  rw [view_condSwapLoop _ _ _ _ hc, if_pos (by omega)]

/-- And the right part the disjunctions. -/
theorem view_condSwapLoop_right {dire : Bool} {b half count k : Nat} (hc : count ≤ half)
    (m : Nat → Bool)
    (hk : k < count) : view dire (condSwapLoop bitExch dire b half count m) (b + half + k) =
      (view dire m (b + k) || view dire m (b + k + half)) := by
  rw [view_condSwapLoop _ _ _ _ hc, if_neg (by omega), if_pos (by omega),
    show b + half + k - half = b + k by omega, show b + half + k = b + k + half by omega]

/-- One round of `BitonicMergePow2` on a cyclically bitonic range. -/
theorem NoAlt.halfClean {dire : Bool} {b half : Nat} {m m' : Nat → Bool}
    (hm' : m' = condSwapLoop bitExch dire b half half m)
    (h : NoAlt (view dire m) b (half + half)) :
    NoAlt (view dire m') b half ∧ NoAlt (view dire m') (b + half) half ∧
      Below (view dire m') b half (b + half) half := by
  have hl : ∀ k < half, view dire m' (b + k) =
      (view dire m (b + k) && view dire m (b + k + half)) := fun k hk => by
    rw [hm', view_condSwapLoop_left (Nat.le_refl _) m hk]
  have hr : ∀ k < half, view dire m' (b + half + k) =
      (view dire m (b + k) || view dire m (b + k + half)) := fun k hk => by
    rw [hm', view_condSwapLoop_right (Nat.le_refl _) m hk]
  refine ⟨(h.fold (.inl rfl)).congr hl, (h.fold (.inr rfl)).congr hr, ?_⟩
  intro i j hi hib hj hjb
  obtain ⟨i, rfl⟩ := Nat.exists_eq_add_of_le hi
  obtain ⟨j, rfl⟩ := Nat.exists_eq_add_of_le hj
  rw [hl i (by omega), hr j (by omega)]
  -- a one on the left and a zero on the right come from `1010` or from `0101`
  have h1 := h (b + i) (b + j) (b + i + half) (b + j + half) (by omega)
  have h2 := h (b + j) (b + i) (b + j + half) (b + i + half) (by omega)
  rcases Nat.lt_trichotomy i j with hij | rfl | hij
  · have := h1 (by omega) (by omega) (by omega) (by omega)
    grind
  · grind
  · have := h2 (by omega) (by omega) (by omega) (by omega)
    grind

/-- One round of `BitonicMerge` on a valley of `n` bits, `half < n ≤ 2 * half`. -/
theorem Valley.halfClean {dire : Bool} {b half n : Nat} {m m' : Nat → Bool} (hlt : half < n)
    (hle : n ≤ half + half) (hm' : m' = condSwapLoop bitExch dire b half (n - half) m)
    (h : Valley (view dire m) b n) :
    NoAlt (view dire m') b half ∧ Valley (view dire m') (b + half) (n - half) ∧
      Below (view dire m') b half (b + half) (n - half) := by
  have hl : ∀ k < n - half, view dire m' (b + k) =
      (view dire m (b + k) && view dire m (b + k + half)) := fun k hk => by
    rw [hm', view_condSwapLoop_left (by omega) m hk]
  have hm : ∀ k, n - half ≤ k → k < half → view dire m' (b + k) = view dire m (b + k) :=
    fun k hk hk' => by
      rw [hm', view_condSwapLoop _ _ _ _ (by omega), if_neg (by omega), if_neg (by omega)]
  have hr : ∀ k < n - half, view dire m' (b + half + k) =
      (view dire m (b + k) || view dire m (b + k + half)) := fun k hk => by
    rw [hm', view_condSwapLoop_right (by omega) m hk]
  -- what a one and a zero of the left part say about the bits before the round
  have one : ∀ k < half, view dire m' (b + k) = true →
      view dire m (b + k) = true ∧ (k < n - half → view dire m (b + k + half) = true) :=
    fun k hk hw => by
      by_cases hkn : k < n - half
      · rw [hl k hkn, Bool.and_eq_true] at hw
        exact ⟨hw.1, fun _ => hw.2⟩
      · rw [hm k (by omega) hk] at hw
        exact ⟨hw, fun hc => absurd hc hkn⟩
  have zero : ∀ k < half, view dire m' (b + k) = false →
      view dire m (b + k) = false ∨ (k < n - half ∧ view dire m (b + k + half) = false) :=
    fun k hk hw => by
      by_cases hkn : k < n - half
      · rw [hl k hkn, Bool.and_eq_false_iff] at hw
        exact hw.imp_right fun h2 => ⟨hkn, h2⟩
      · rw [hm k (by omega) hk] at hw
        exact .inl hw
  refine ⟨?_, ?_, ?_⟩
  · intro i j k l hi hij hjk hkl hlb hik hjl
    obtain ⟨i, rfl⟩ := Nat.exists_eq_add_of_le hi
    obtain ⟨j, rfl⟩ := Nat.exists_eq_add_of_le (show b ≤ j by omega)
    obtain ⟨k, rfl⟩ := Nat.exists_eq_add_of_le (show b ≤ k by omega)
    obtain ⟨l, rfl⟩ := Nat.exists_eq_add_of_le (show b ≤ l by omega)
    by_contra hne
    cases hwi : view dire m' (b + i) with
    | false =>
      have hwj : view dire m' (b + j) = true := by grind
      have h1 := one j (by omega) hwj
      have h2 := one l (by omega) (hjl ▸ hwj)
      rcases zero i (by omega) hwi with h0 | ⟨hin, h0⟩ <;>
        rcases zero k (by omega) (hik ▸ hwi) with h3 | ⟨hkn, h3⟩
      · exact h _ _ _ (by omega) hij hjk (by omega) h0 h1.1 h3
      · exact h _ _ _ (by omega) hij (by omega) (by omega) h0 h1.1 h3
      · exact h _ _ _ (by omega) hkl (by omega) (by omega) h3 h2.1 h0
      · exact h _ _ _ (by omega) (by omega) (by omega) (by omega) h0 (h1.2 (by omega)) h3
    | true =>
      have hwj : view dire m' (b + j) = false := by grind
      have h1 := one i (by omega) hwi
      have h2 := one k (by omega) (hik ▸ hwi)
      rcases zero j (by omega) hwj with h0 | ⟨hjn, h0⟩ <;>
        rcases zero l (by omega) (hjl ▸ hwj) with h3 | ⟨hln, h3⟩
      · exact h _ _ _ (by omega) hjk hkl (by omega) h0 h2.1 h3
      · exact h _ _ _ (by omega) hjk (by omega) (by omega) h0 h2.1 h3
      · exact h _ _ _ (by omega) (by omega) (by omega) (by omega) h3 (h1.2 (by omega)) h0
      · exact h _ _ _ (by omega) (by omega) (by omega) (by omega) h0 (h2.2 (by omega)) h3
  · intro i j k hi hij hjk hkb hwi hwj hwk
    obtain ⟨i, rfl⟩ := Nat.exists_eq_add_of_le hi
    obtain ⟨j, rfl⟩ := Nat.exists_eq_add_of_le (show b + half ≤ j by omega)
    obtain ⟨k, rfl⟩ := Nat.exists_eq_add_of_le (show b + half ≤ k by omega)
    rw [hr i (by omega), Bool.or_eq_false_iff] at hwi
    rw [hr j (by omega), Bool.or_eq_true] at hwj
    rw [hr k (by omega), Bool.or_eq_false_iff] at hwk
    rcases hwj with hj | hj
    · exact h _ _ _ (by omega) (by omega) (by omega) (by omega) hwi.1 hj hwk.1
    · exact h _ _ _ (by omega) (by omega) (by omega) (by omega) hwi.2 hj hwk.2
  · intro i j hi hib hj hjb hwi
    obtain ⟨i, rfl⟩ := Nat.exists_eq_add_of_le hi
    obtain ⟨j, rfl⟩ := Nat.exists_eq_add_of_le hj
    obtain ⟨h1, h2⟩ := one i (by omega) hwi
    by_contra hwj
    rw [hr j (by omega), Bool.not_eq_true, Bool.or_eq_false_iff] at hwj
    rcases Nat.lt_trichotomy i j with hij | rfl | hij
    · exact h _ _ _ (by omega) (by omega) (by omega) (by omega) hwj.1 (h2 (by omega)) hwj.2
    · rw [h1] at hwj; cases hwj.1
    · exact h _ _ _ (by omega) (by omega) (by omega) (by omega) hwj.1 h1 hwj.2

/-! ## The merges and the sort -/

/-- `m'` differs from `m` on `[b, b + n)` only, and not if `m` is constant there. -/
def Rearranges (m m' : Nat → Bool) (b n : Nat) : Prop :=
  (∀ k, k < b ∨ b + n ≤ k → m' k = m k) ∧
    ∀ c, (∀ k, b ≤ k → k < b + n → m k = c) → ∀ k, b ≤ k → k < b + n → m' k = c

theorem Rearranges.refl (m : Nat → Bool) (b n : Nat) : Rearranges m m b n :=
  ⟨fun _ _ => rfl, fun _ h => h⟩

theorem keeps_rearranges (m : Nat → Bool) (b n : Nat) :
    Keeps bitExch (fun _ _ _ (u : Unit) => u) (fun m' _ => Rearranges m m' b n) b n := by
  intro dire i j m' _ hi hij hj _ h
  constructor
  · intro k hk
    rw [bitExch, Function.update_of_ne (by omega), Function.update_of_ne (by omega), h.1 k hk]
  · intro c hc k hk hk'
    have hm' := h.2 c hc
    simp only [bitExch, Function.update_apply, hm' i hi (by omega), hm' j (by omega) hj]
    cases dire <;> cases c <;> simp [hm' k hk hk']

theorem bitonicMergePow2_rearranges (dire : Bool) (b n : Nat) (m : Nat → Bool) :
    Rearranges m (bitonicMergePow2 bitExch dire b n m) b n :=
  bitonicMergePow2_rel dire b n (keeps_rearranges m b n) (t := ()) (.refl m b n)

theorem bitonicMerge_rearranges (dire : Bool) (b n : Nat) (m : Nat → Bool) :
    Rearranges m (bitonicMerge bitExch dire b n m) b n :=
  bitonicMerge_rel dire b n (keeps_rearranges m b n) (t := ()) (.refl m b n)

theorem bitonicSort_rearranges (dire : Bool) (b n : Nat) (m : Nat → Bool) :
    Rearranges m (bitonicSort bitExch dire b n m) b n :=
  bitonicSort_rel dire b n (keeps_rearranges m b n) (t := ()) (.refl m b n)

theorem view_eq_iff {dire c : Bool} {m : Nat → Bool} {k : Nat} :
    view dire m k = c ↔ m k = (dire == c) := by
  unfold view
  cases dire <;> cases c <;> cases m k <;> decide

/-- Rearranging both parts of a range, the left one first, keeps the left one below. -/
theorem Below.rearranges {dire : Bool} {m m' m'' : Nat → Bool} {b n n' : Nat}
    (h : Below (view dire m) b n (b + n) n') (h1 : Rearranges m m' b n)
    (h2 : Rearranges m' m'' (b + n) n') : Below (view dire m'') b n (b + n) n' := by
  intro i j hi hin hj hjn hv
  by_cases h0 : ∀ k, b ≤ k → k < b + n → m k = (dire == false)
  · -- the left part was and is zero
    rw [view_eq_iff, h2.1 i (by omega), h1.2 _ h0 i hi hin] at hv
    cases dire <;> cases hv
  · obtain ⟨k, hk, hkn, hmk⟩ : ∃ k, b ≤ k ∧ k < b + n ∧ m k ≠ (dire == false) := by
      simpa using h0
    have hvk : view dire m k = true := by
      rw [view_eq_iff]
      cases dire <;> cases hm : m k <;> simp_all
    rw [view_eq_iff]
    refine h2.2 _ (fun l hl hln => ?_) j hj hjn
    rw [h1.1 l (by omega), ← view_eq_iff]
    exact h k l hk hkn hl hln hvk

/-- Two rounds of recursion below a round that put the smaller bits to the left. -/
theorem ascending_of_parts {dire : Bool} {m m' m'' : Nat → Bool} {b n : Nat} (half : Nat)
    (h : Below (view dire m) b half (b + half) (n - half)) (h1 : Rearranges m m' b half)
    (h2 : Rearranges m' m'' (b + half) (n - half)) (hl : Ascending (view dire m') b half)
    (hr : Ascending (view dire m'') (b + half) (n - half)) : Ascending (view dire m'') b n := by
  have hl' : Ascending (view dire m'') b half := by
    intro i j hi hij hj
    rw [view_eq_iff, view_eq_iff, h2.1 i (by omega), h2.1 j (by omega), ← view_eq_iff,
      ← view_eq_iff]
    exact hl i j hi hij hj
  exact hl'.append hr (h.rearranges h1 h2)

/-- **`BitonicMergePow2`** sorts a cyclically bitonic range of `2 ^ p` bits. -/
theorem bitonicMergePow2_ascending (dire : Bool) (p b : Nat) (m : Nat → Bool)
    (h : NoAlt (view dire m) b (2 ^ p)) :
    Ascending (view dire (bitonicMergePow2 bitExch dire b (2 ^ p) m)) b (2 ^ p) := by
  induction p generalizing b m with
  | zero =>
    intro i j hi hij hj
    obtain rfl : i = j := by omega
    exact id
  | succ p ih =>
    have hp : 2 ^ (p + 1) = 2 ^ p + 2 ^ p := by omega
    have hpos := Nat.two_pow_pos p
    rw [hp] at h ⊢
    unfold bitonicMergePow2
    rw [if_pos (by omega), show (2 ^ p + 2 ^ p) / 2 = 2 ^ p by omega]
    dsimp only
    rw [show 2 ^ p + 2 ^ p - 2 ^ p = 2 ^ p by omega]
    obtain ⟨hl, hr, hb⟩ := h.halfClean rfl
    have h1 := bitonicMergePow2_rearranges dire b (2 ^ p)
      (condSwapLoop bitExch dire b (2 ^ p) (2 ^ p) m)
    have h2 := bitonicMergePow2_rearranges dire (b + 2 ^ p) (2 ^ p)
      (bitonicMergePow2 bitExch dire b (2 ^ p) (condSwapLoop bitExch dire b (2 ^ p) (2 ^ p) m))
    refine ascending_of_parts (2 ^ p) ?_ h1 ?_ (ih b _ hl) ?_ <;>
      rw [show 2 ^ p + 2 ^ p - 2 ^ p = 2 ^ p by omega]
    · exact hb
    · exact h2
    · refine ih _ _ (hr.congr fun k hk => ?_)
      unfold view
      rw [h1.1 _ (by omega)]

/-- Up to `2 ^ 63` elements the recursion of `BitonicMerge` goes on to fewer of them. -/
theorem bitonicMerge_step {σ : Type} (cs : Bool → Nat → Nat → σ → σ) (dire : Bool) (b : Nat)
    {n : Nat} (h1 : 1 < n) (hn : n ≤ 2 ^ 63) (s : σ) :
    ∃ p, 2 ^ p < n ∧ n ≤ 2 ^ (p + 1) ∧
      bitonicMerge cs dire b n s = bitonicMerge cs dire (b + 2 ^ p) (n - 2 ^ p)
        (bitonicMergePow2 cs dire b (2 ^ p) (condSwapLoop cs dire b (2 ^ p) (n - 2 ^ p) s)) := by
  obtain ⟨p, hp, hlt, hle⟩ := getNextPowerOfTwo_half h1 hn
  refine ⟨p, hlt, hle, ?_⟩
  rw [bitonicMerge, if_pos h1, hp, if_pos (Nat.two_pow_pos p)]

/-- **`BitonicMerge`** sorts a valley of any number of bits. -/
theorem bitonicMerge_ascending (dire : Bool) (n b : Nat) (hn : n ≤ 2 ^ 63) (m : Nat → Bool)
    (h : Valley (view dire m) b n) :
    Ascending (view dire (bitonicMerge bitExch dire b n m)) b n := by
  induction n using Nat.strong_induction_on generalizing b m with
  | _ n ih =>
    by_cases h1 : 1 < n
    · obtain ⟨p, hlt, hle, hstep⟩ := bitonicMerge_step bitExch dire b h1 hn m
      have hpos := Nat.two_pow_pos p
      rw [Nat.pow_succ] at hle
      rw [hstep]
      obtain ⟨hl, hr, hb⟩ := h.halfClean hlt (by omega) rfl
      have r1 := bitonicMergePow2_rearranges dire b (2 ^ p)
        (condSwapLoop bitExch dire b (2 ^ p) (n - 2 ^ p) m)
      have r2 := bitonicMerge_rearranges dire (b + 2 ^ p) (n - 2 ^ p)
        (bitonicMergePow2 bitExch dire b (2 ^ p)
          (condSwapLoop bitExch dire b (2 ^ p) (n - 2 ^ p) m))
      refine ascending_of_parts (2 ^ p) hb r1 r2 (bitonicMergePow2_ascending dire p b _ hl) ?_
      refine ih _ (by omega) _ (by omega) _ fun i j k hi hij hjk hk => ?_
      unfold view
      rw [r1.1 i (by omega), r1.1 j (by omega), r1.1 k (by omega)]
      exact hr i j k hi hij hjk hk
    · intro i j hi hij hj
      obtain rfl : i = j := by omega
      exact id

/-- **`BitonicSort`** sorts any number of bits, in its direction. -/
theorem bitonicSort_ascending (dire : Bool) (n b : Nat) (hn : n ≤ 2 ^ 63) (m : Nat → Bool) :
    Ascending (view dire (bitonicSort bitExch dire b n m)) b n := by
  induction n using Nat.strong_induction_on generalizing dire b m with
  | _ n ih =>
    unfold bitonicSort
    split
    · refine bitonicMerge_ascending dire n b hn _ ?_
      have hl := ih (n / 2) (by omega) (!dire) b (by omega) m
      have hr := ih (n - n / 2) (by omega) dire (b + n / 2) (by omega)
        (bitonicSort bitExch (!dire) b (n / 2) m)
      have r := bitonicSort_rearranges dire (b + n / 2) (n - n / 2)
        (bitonicSort bitExch (!dire) b (n / 2) m)
      -- the left half descends, the right half ascends
      intro i j k hi hij hjk hk hvi hvj hvk
      by_cases hjm : j < b + n / 2
      · have := hl i j hi (by omega) hjm
        rw [view_not, view_not] at this
        unfold view at this hvi hvj
        rw [r.1 i (by omega)] at hvi
        rw [r.1 j (by omega)] at hvj
        simp [hvi, hvj] at this
      · have := hr j k (by omega) (by omega) (by omega) hvj
        rw [this] at hvk
        cases hvk
    · intro i j hi hij hj
      obtain rfl : i = j := by omega
      exact id

/-! ## Lists -/

theorem bitonicNet_inRange (dire : Bool) {n : Nat} (hn : n ≤ 2 ^ 63) :
    InRange n (bitonicNet dire 0 n) := by
  intro c hc
  obtain ⟨-, h2, h3, h4⟩ := mem_bitonicNet hc
  exact ⟨h4 hn, by omega, by omega⟩

theorem bitonicSortList_perm (cmp : α → α → Bool) (xs : List α) :
    List.Perm (bitonicSortList cmp xs) xs := by
  rw [bitonicSortList, bitonicSort_eq_run]
  exact run_listExch_perm cmp _ xs

/-- **Bitonic sort sorts** a list of any length. -/
theorem bitonicSortList_sorted {le : α → α → Prop} {cmp : α → α → Bool} (h : Decides le cmp)
    {xs : List α} (hn : xs.length ≤ 2 ^ 63) : List.Pairwise le (bitonicSortList cmp xs) := by
  rw [bitonicSortList, bitonicSort_eq_run]
  refine zero_one h (bitonicNet_inRange true hn) fun m i j hij hj hi => ?_
  rw [← bitonicSort_eq_run] at hi ⊢
  have := bitonicSort_ascending true xs.length 0 hn m i j (by omega) hij (by omega)
  simpa [view, hi] using this

/-- Downwards, if the direction says so. -/
theorem bitonicSort_descending {le : α → α → Prop} {cmp : α → α → Bool} (h : Decides le cmp)
    {xs : List α} (hn : xs.length ≤ 2 ^ 63) :
    List.Pairwise (fun a b => le b a) (bitonicSort (listExch cmp) false 0 xs.length xs) := by
  rw [bitonicSort_eq_run]
  refine zero_one_down h (bitonicNet_inRange false hn) fun m i j hij hj hi => ?_
  rw [← bitonicSort_eq_run] at hi ⊢
  have := bitonicSort_ascending false xs.length 0 hn m i j (by omega) hij (by omega)
  by_contra hnot
  rw [Bool.not_eq_true] at hnot
  simp [view, hi, hnot] at this

/-- **`BitonicSort`** returns a permutation of its range, sorted in its direction. -/
theorem bitonicSortRange_sorts {le : α → α → Prop} {cmp : α → α → Bool} (h : Decides le cmp)
    (dire : Bool) (r : Range α) :
    List.Perm (bitonicSortRange cmp dire r) r.elems ∧
      List.Pairwise (fun a b => if dire then le a b else le b a) (bitonicSortRange cmp dire r) := by
  have hn := Nat.le_of_lt r.length_lt
  constructor
  · rw [bitonicSortRange, bitonicSort_eq_run]
    exact run_listExch_perm cmp _ _
  · cases dire with
    | true => exact bitonicSortList_sorted h hn
    | false => exact bitonicSort_descending h hn

/-- Five numbers, downwards, with a comparison that is not strict. -/
theorem bitonicSortRange_sorts_five :
    List.Perm (bitonicSortRange (fun a b : Nat => decide (a ≤ b)) false
      ⟨[3, 1, 4, 1, 5], by decide⟩)
        [3, 1, 4, 1, 5] ∧
      List.Pairwise (fun a b : Nat => if false = true then a ≤ b else b ≤ a)
        (bitonicSortRange (fun a b : Nat => decide (a ≤ b)) false ⟨[3, 1, 4, 1, 5], by decide⟩) :=
  @bitonicSortRange_sorts Nat (fun a b => a ≤ b) _
    ⟨fun _ _ _ => Nat.le_trans, fun _ _ => of_decide_eq_true,
      fun _ _ hab => Nat.le_of_not_le (of_decide_eq_false hab)⟩ false ⟨[3, 1, 4, 1, 5], by decide⟩

/-! ## Where the ties go -/

/-- The list `ys` is `xs` with the elements of a range rearranged. -/
structure Within (xs ys : List α) (b n : Nat) : Prop where
  perm : List.Perm ys xs
  outside : ∀ k, k < b ∨ b + n ≤ k → ys[k]? = xs[k]?

theorem Within.refl (xs : List α) (b n : Nat) : Within xs xs b n := ⟨.refl _, fun _ _ => rfl⟩

theorem keeps_within (cmp : α → α → Bool) (xs : List α) (b n : Nat) :
    Keeps (listExch cmp) (fun _ _ _ (u : Unit) => u) (fun ys _ => Within xs ys b n) b n := by
  intro dire i j ys _ hi hij hj _ h
  refine ⟨(condSwap_perm _ i j ys).trans h.perm, fun k hk => ?_⟩
  rw [← h.outside k hk]
  exact getElem?_condSwap_of_ne _ (by omega) (by omega) ys

theorem bitonicMergePow2_within (cmp : α → α → Bool) (dire : Bool) (b n : Nat) (xs : List α) :
    Within xs (bitonicMergePow2 (listExch cmp) dire b n xs) b n :=
  bitonicMergePow2_rel dire b n (keeps_within cmp xs b n) (t := ()) (.refl xs b n)

theorem bitonicMerge_within (cmp : α → α → Bool) (dire : Bool) (b n : Nat) (xs : List α) :
    Within xs (bitonicMerge (listExch cmp) dire b n xs) b n :=
  bitonicMerge_rel dire b n (keeps_within cmp xs b n) (t := ()) (.refl xs b n)

theorem bitonicSort_within (cmp : α → α → Bool) (dire : Bool) (b n : Nat) (xs : List α) :
    Within xs (bitonicSort (listExch cmp) dire b n xs) b n :=
  bitonicSort_rel dire b n (keeps_within cmp xs b n) (t := ()) (.refl xs b n)

section

variable {cmp : α → α → Bool} {x : α}

theorem condSwapLoop_within (cmp : α → α → Bool) (dire : Bool) (b count : Nat) {half : Nat}
    (hpos : 0 < half) (xs : List α) :
    Within xs (condSwapLoop (listExch cmp) dire b half count xs) b (half + count) :=
  condSwapLoop_rel dire half count (keeps_within cmp xs b (half + count)) (Nat.le_refl _)
    (fun _ => hpos) (t := ()) (.refl xs b _)

/-- An element that is not below any other is exchanged with the first of the right part. -/
theorem condSwapLoop_front {xs : List α} {b half count : Nat} (hx : xs[b]? = some x)
    (hmax : ∀ y ∈ xs, cmp x y = false) (hpos : 0 < count) (hle : count ≤ half)
    (hlen : b + half < xs.length) :
    (condSwapLoop (listExch cmp) true b half count xs)[b + half]? = some x := by
  unfold condSwapLoop
  obtain ⟨count, rfl⟩ := Nat.exists_eq_succ_of_ne_zero hpos.ne'
  induction count with
  | zero =>
    obtain ⟨hb, rfl⟩ := List.getElem?_eq_some_iff.1 hx
    have hget := getElem?_condSwap (fun a c => true != cmp a c) hb hlen (b + half)
    rw [hmax _ (List.getElem_mem hlen)] at hget
    simpa [listExch] using hget
  | succ count ih =>
    rw [List.range_succ, List.foldl_append, List.foldl_cons, List.foldl_nil, listExch,
      getElem?_condSwap_of_ne _ (by omega) (by omega)]
    exact ih (Nat.succ_pos _) (by omega)

/-- **An upward merge** takes the first element to the end, if it is not below any other: a tie is
exchanged. -/
theorem bitonicMerge_front {xs : List α} {b n : Nat} (hn : n ≤ 2 ^ 63) (hpos : 0 < n)
    (hlen : b + n ≤ xs.length) (hx : xs[b]? = some x) (hmax : ∀ y ∈ xs, cmp x y = false) :
    (bitonicMerge (listExch cmp) true b n xs)[b + n - 1]? = some x := by
  induction n using Nat.strong_induction_on generalizing b xs with
  | _ n ih =>
    by_cases h1 : 1 < n
    · obtain ⟨p, hlt, hle, hstep⟩ := bitonicMerge_step (listExch cmp) true b h1 hn xs
      have hp := Nat.two_pow_pos p
      rw [Nat.pow_succ] at hle
      rw [hstep]
      have hfront := condSwapLoop_front hx hmax (show 0 < n - 2 ^ p by omega)
        (show n - 2 ^ p ≤ 2 ^ p by omega) (show b + 2 ^ p < xs.length by omega)
      have h₁ := condSwapLoop_within cmp true b (n - 2 ^ p) hp xs
      generalize condSwapLoop (listExch cmp) true b (2 ^ p) (n - 2 ^ p) xs = ys at hfront h₁ ⊢
      have h₂ := bitonicMergePow2_within cmp true b (2 ^ p) ys
      generalize bitonicMergePow2 (listExch cmp) true b (2 ^ p) ys = zs at h₂ ⊢
      have hperm := h₂.perm.trans h₁.perm
      have hfirst := (h₂.outside (b + 2 ^ p) (.inr (Nat.le_refl _))).trans hfront
      have hend := ih (n - 2 ^ p) (by omega) (by omega) (by omega)
        (show b + 2 ^ p + (n - 2 ^ p) ≤ zs.length by rw [hperm.length_eq]; omega) hfirst
        fun y hy => hmax y (hperm.mem_iff.1 hy)
      rwa [show b + 2 ^ p + (n - 2 ^ p) - 1 = b + n - 1 by omega] at hend
    · obtain rfl : n = 1 := by omega
      rw [bitonicMerge, if_neg h1]
      exact hx

end

/-- **What stands last**: if no element is above some element of the left half, the sort ends with
an element of the left half, whatever the right half has. -/
theorem bitonicSortList_last {le : α → α → Prop} {cmp : α → α → Bool} (h : Decides le cmp)
    (hlt : ∀ a b, cmp a b = true → ¬ le b a) {left right : List α}
    (hhalf : (left.length + right.length) / 2 = left.length)
    (hn : left.length + right.length ≤ 2 ^ 63) {x : α} (hx : x ∈ left)
    (hmax : ∀ y ∈ left ++ right, le y x) :
    ∃ y ∈ left, le x y ∧ (bitonicSortList cmp (left ++ right)).getLast? = some y := by
  have hpos := List.length_pos_of_mem hx
  -- the left half is sorted downwards
  have hleft : bitonicSort (listExch cmp) (!true) 0 left.length (left ++ right) =
      bitonicSort (listExch cmp) false 0 left.length left ++ right := by
    rw [bitonicSort_eq_run, bitonicSort_eq_run]
    exact run_listExch_append cmp (bitonicNet_inRange false (by omega)) right
  have hdown := bitonicSort_descending h (show left.length ≤ 2 ^ 63 by omega)
  have hperm := (bitonicSort_within cmp false 0 left.length left).perm
  rw [bitonicSortList, bitonicSort, List.length_append, if_pos (by omega)]
  dsimp only
  rw [hhalf, hleft]
  generalize bitonicSort (listExch cmp) false 0 left.length left = down at hdown hperm
  obtain ⟨y, rest, rfl⟩ := List.exists_cons_of_length_pos (by rwa [hperm.length_eq])
  have hy : y ∈ left := hperm.mem_iff.1 List.mem_cons_self
  have hxy : le x y := by
    rcases List.mem_cons.1 (hperm.mem_iff.2 hx) with rfl | hrest
    · exact h.refl x
    · exact (List.pairwise_cons.1 hdown).1 x hrest
  have hright := bitonicSort_within cmp true (0 + left.length)
    (left.length + right.length - left.length) (y :: rest ++ right)
  generalize bitonicSort (listExch cmp) true (0 + left.length)
    (left.length + right.length - left.length) (y :: rest ++ right) = zs at hright
  have hfirst : zs[0]? = some y := hright.outside 0 (.inl (by omega))
  have hall := hright.perm.trans (hperm.append_right right)
  have hlen := hall.length_eq
  rw [List.length_append] at hlen
  have hnot : ∀ z ∈ zs, cmp y z = false := by
    intro z hz
    -- `z` is not above `x`, which is not above `y`
    cases hc : cmp y z with
    | false => rfl
    | true => exact absurd (h.trans _ _ _ (hmax z (hall.mem_iff.1 hz)) hxy) (hlt y z hc)
  have hend := bitonicMerge_front hn (by omega) (by omega) hfirst hnot
  refine ⟨y, hy, hxy, ?_⟩
  have hmerge := (bitonicMerge_within cmp true 0 (left.length + right.length) zs).perm.length_eq
  rw [List.getLast?_eq_getElem?, hmerge, hlen]
  rwa [Nat.zero_add] at hend

end EM.Algorithm
