import OblSort.Algorithm.StaticSort
import Mathlib.Tactic.IntervalCases

/-!
# The Bose-Nelson network sorts

On bits a sorted run is given by its number of zeros (`Run`). `PB` moves as many zeros to the first
run as fit (`pb_run`), for runs whose lengths differ by at most one; the recursion keeps that
condition. With a comparator the exchanges are the other way round, and the network sorts downwards.
-/

namespace EM.Algorithm.StaticSort

open Net

/-- The `n` bits from position `b` on are `z` zeros followed by ones. -/
def Run (v : Nat → Bool) (b n z : Nat) : Prop :=
  z ≤ n ∧ ∀ k < n, v (b + k) = decide (z ≤ k)

theorem Run.append {v : Nat → Bool} {b n n' z z' : Nat} (h : Run v b n z) (h' : Run v (b + n) n' z')
    (hz : z < n → z' = 0) : Run v b (n + n') (z + z') := by
  refine ⟨by have := h.1; have := h'.1; omega, fun k hk => ?_⟩
  by_cases hkn : k < n
  · rw [h.2 k hkn, decide_eq_decide]
    omega
  · have := h'.2 (k - n) (by omega)
    rw [show b + n + (k - n) = b + k by omega] at this
    rw [this, decide_eq_decide]
    have := h.1
    omega

theorem Run.split {v : Nat → Bool} {b n z : Nat} (h : Run v b n z) {l : Nat} (hl : l ≤ n) :
    Run v b l (min l z) ∧ Run v (b + l) (n - l) (z - min l z) := by
  refine ⟨⟨by omega, fun k hk => ?_⟩, ⟨by have := h.1; omega, fun k hk => ?_⟩⟩
  · rw [h.2 k (by omega), decide_eq_decide]
    omega
  · rw [Nat.add_assoc, h.2 (l + k) (by omega), decide_eq_decide]
    omega

theorem Run.congr {v w : Nat → Bool} {b n z : Nat} (h : Run v b n z)
    (hw : ∀ k < n, w (b + k) = v (b + k)) : Run w b n z :=
  ⟨h.1, fun k hk => by rw [hw k hk, h.2 k hk]⟩

/-! ## The merge -/

/-- The comparators of a merge go from the first run to the second. -/
theorem mem_pb {i j x y : Nat} {c : Comparator} (hc : c ∈ pb (i + 1) (j + 1) x y) :
    c.dire = true ∧ i ≤ c.fst ∧ c.fst < i + x ∧ j ≤ c.snd ∧ c.snd < j + y := by
  induction hs : x + y using Nat.strong_induction_on generalizing i j x y with
  | _ s ih =>
    unfold pb at hc
    split at hc
    · cases hc
    split at hc
    · rw [List.mem_singleton.1 hc]
      simp only [swap, true_and]
      omega
    split at hc
    · simp only [List.mem_cons, List.not_mem_nil, or_false] at hc
      rcases hc with rfl | rfl <;> simp only [swap, true_and] <;> omega
    split at hc
    · simp only [List.mem_cons, List.not_mem_nil, or_false] at hc
      rcases hc with rfl | rfl <;> simp only [swap, true_and] <;> omega
    · have hm : (if x % 2 = 1 then y else y + 1) / 2 ≤ y := by split <;> omega
      have hpos : 0 < x / 2 + (if x % 2 = 1 then y else y + 1) / 2 := by split <;> omega
      have hlt : x - x / 2 + (if x % 2 = 1 then y else y + 1) / 2 < x + y := by split <;> omega
      simp only [List.mem_append] at hc
      rcases hc with (hc | hc) | hc
      · obtain ⟨hd, h1, h2, h3, h4⟩ := ih _ (by omega) hc rfl
        exact ⟨hd, by omega, by omega, by omega, by omega⟩
      · rw [show i + 1 + x / 2 = i + x / 2 + 1 by omega, show ∀ m, j + 1 + m = j + m + 1 by omega]
          at hc
        obtain ⟨hd, h1, h2, h3, h4⟩ := ih _ (by omega) hc rfl
        exact ⟨hd, by omega, by omega, by omega, by omega⟩
      · rw [show i + 1 + x / 2 = i + x / 2 + 1 by omega] at hc
        obtain ⟨hd, h1, h2, h3, h4⟩ := ih _ (by omega) hc rfl
        exact ⟨hd, by omega, by omega, by omega, by omega⟩

theorem run_pb_frame {i j x y k : Nat} (h1 : k < i ∨ i + x ≤ k) (h2 : k < j ∨ j + y ≤ k)
    (m : Nat → Bool) : run bitExch (pb (i + 1) (j + 1) x y) m k = m k :=
  run_bitExch_of_notMem (fun c hc => by have := mem_pb hc; omega) m

/-- The bits after a merge: the zeros of both runs, the first run filled first. -/
def Merged (m : Nat → Bool) (i j x y a b : Nat) : Prop :=
  Run m i x (min x (a + b)) ∧ Run m j y (a + b - min x (a + b))

theorem pb_one_one {i j a b : Nat} {m : Nat → Bool} (hij : i < j) (h1 : Run m i 1 a)
    (h2 : Run m j 1 b) : Merged (run bitExch [swap i j] m) i j 1 1 a b := by
  have ha := h1.1
  have hb := h2.1
  have e1 := h1.2 0 (by omega)
  have e2 := h2.2 0 (by omega)
  have hrun : ∀ k, run bitExch [swap i j] m k =
      if k = j then m i || m j else if k = i then m i && m j else m k := fun k => by
    simp only [swap, run_cons, run_nil, bitExch_apply, if_true]
  simp only [Nat.add_zero] at e1 e2
  refine ⟨⟨by omega, fun k hk => ?_⟩, ⟨by omega, fun k hk => ?_⟩⟩ <;> obtain rfl : k = 0 := by omega
  · rw [hrun, if_neg (by omega), if_pos (by omega), e1, e2]
    interval_cases a <;> interval_cases b <;> decide
  · rw [hrun, if_pos (by omega), e1, e2]
    interval_cases a <;> interval_cases b <;> decide

theorem pb_one_two {i j a b : Nat} {m : Nat → Bool} (hij : i < j) (h1 : Run m i 1 a)
    (h2 : Run m j 2 b) : Merged (run bitExch [swap i (j + 1), swap i j] m) i j 1 2 a b := by
  have ha := h1.1
  have hb := h2.1
  have e1 := h1.2 0 (by omega)
  have e2 := h2.2 0 (by omega)
  have e3 := h2.2 1 (by omega)
  have hrun : ∀ k, run bitExch [swap i (j + 1), swap i j] m k =
      if k = j then (m i && m (j + 1)) || m j else if k = i then (m i && m (j + 1)) && m j
      else if k = j + 1 then m i || m (j + 1) else m k := fun k => by
    simp only [swap, run_cons, run_nil, bitExch_apply, if_true]
    simp only [show i ≠ j + 1 by omega, show j ≠ i by omega, show j ≠ j + 1 by omega, if_false]
    split_ifs <;> rfl
  simp only [Nat.add_zero] at e1 e2
  refine ⟨⟨by omega, fun k hk => ?_⟩, ⟨by omega, fun k hk => ?_⟩⟩
  · obtain rfl : k = 0 := by omega
    rw [hrun, if_neg (by omega), if_pos (by omega), e1, e2, e3]
    interval_cases a <;> interval_cases b <;> decide
  · interval_cases k
    · rw [hrun, if_pos (by omega), e1, e2, e3]
      interval_cases a <;> interval_cases b <;> decide
    · rw [hrun, if_neg (by omega), if_neg (by omega), if_pos (by omega), e1, e3]
      interval_cases a <;> interval_cases b <;> decide

theorem pb_two_one {i j a b : Nat} {m : Nat → Bool} (hij : i + 1 < j) (h1 : Run m i 2 a)
    (h2 : Run m j 1 b) : Merged (run bitExch [swap i j, swap (i + 1) j] m) i j 2 1 a b := by
  have ha := h1.1
  have hb := h2.1
  have e1 := h1.2 0 (by omega)
  have e2 := h1.2 1 (by omega)
  have e3 := h2.2 0 (by omega)
  have hrun : ∀ k, run bitExch [swap i j, swap (i + 1) j] m k =
      if k = j then m (i + 1) || (m i || m j) else if k = i + 1 then m (i + 1) && (m i || m j)
      else if k = i then m i && m j else m k := fun k => by
    simp only [swap, run_cons, run_nil, bitExch_apply, if_true]
    simp only [show i + 1 ≠ j by omega, show i + 1 ≠ i by omega, if_false]
    split_ifs <;> rfl
  simp only [Nat.add_zero] at e1 e3
  refine ⟨⟨by omega, fun k hk => ?_⟩, ⟨by omega, fun k hk => ?_⟩⟩
  · interval_cases k
    · rw [hrun, if_neg (by omega), if_neg (by omega), if_pos (by omega), e1, e3]
      interval_cases a <;> interval_cases b <;> decide
    · rw [hrun, if_neg (by omega), if_pos (by omega), e1, e2, e3]
      interval_cases a <;> interval_cases b <;> decide
  · obtain rfl : k = 0 := by omega
    rw [hrun, if_pos (by omega), e1, e2, e3]
    interval_cases a <;> interval_cases b <;> decide

/-- The zeros of the two runs when `u` of them are in the first halves and `v` in the second ones:
the halves are merged, and then the ends of the first run and the beginning of the second one. -/
theorem merged_zeros {x l u v : Nat} (hlx : l ≤ x) (hu : u < l → v ≤ x - l) :
    min l u + min (x - l) (min (x - l) v + (u - min l u)) = min x (u + v) ∧
      min (x - l) v + (u - min l u) - min (x - l) (min (x - l) v + (u - min l u)) +
        (v - min (x - l) v) = u + v - min x (u + v) := by
  constructor
  · omega
  · omega

/-- **A merge moves the zeros to the front**: of two runs whose lengths differ by at most one. -/
theorem pb_merged {i j x y a b : Nat} {m : Nat → Bool} (hij : i + x ≤ j) (hx : 1 ≤ x) (hy : 1 ≤ y)
    (hxy : x ≤ y + 1) (hyx : y ≤ x + 1) (h1 : Run m i x a) (h2 : Run m j y b) :
    Merged (run bitExch (pb (i + 1) (j + 1) x y) m) i j x y a b := by
  induction hs : x + y using Nat.strong_induction_on generalizing i j x y a b m with
  | _ s ih =>
    unfold pb
    rw [if_neg (by omega)]
    by_cases h11 : x = 1 ∧ y = 1
    · obtain ⟨rfl, rfl⟩ := h11
      exact pb_one_one (by omega) h1 h2
    by_cases h12 : x = 1 ∧ y = 2
    · obtain ⟨rfl, rfl⟩ := h12
      exact pb_one_two (by omega) h1 h2
    by_cases h21 : x = 2 ∧ y = 1
    · obtain ⟨rfl, rfl⟩ := h21
      exact pb_two_one (by omega) h1 h2
    rw [if_neg h11, if_neg h12, if_neg h21]
    dsimp only
    -- the halves of the two runs: their lengths again differ by at most one
    generalize hl : x / 2 = l
    generalize hmm : (if x % 2 = 1 then y else y + 1) / 2 = n
    have hn : (x % 2 = 1 ∧ n = y / 2) ∨ (x % 2 = 0 ∧ n = (y + 1) / 2) := by
      split at hmm <;> omega
    have ha := h1.1
    have hb := h2.1
    obtain ⟨hA0, hA1⟩ := h1.split (show l ≤ x by omega)
    obtain ⟨hB0, hB1⟩ := h2.split (show n ≤ y by omega)
    rw [run_append, run_append, show i + 1 + l = i + l + 1 by omega,
      show j + 1 + n = j + n + 1 by omega]
    obtain ⟨hA0', hB0'⟩ := ih _ (by omega) (by omega) (by omega) (by omega) (by omega) (by omega)
      hA0 hB0 rfl
    generalize hm1 : run bitExch (pb (i + 1) (j + 1) l n) m = m1 at hA0' hB0'
    have hA1m : Run m1 (i + l) (x - l) (a - min l a) := hm1 ▸ hA1.congr fun k hk =>
      run_pb_frame (by omega) (by omega) m
    have hB1m : Run m1 (j + n) (y - n) (b - min n b) := hm1 ▸ hB1.congr fun k hk =>
      run_pb_frame (by omega) (by omega) m
    obtain ⟨hA1', hB1'⟩ := ih _ (by omega) (by omega) (by omega) (by omega) (by omega) (by omega)
      hA1m hB1m rfl
    generalize hm2 : run bitExch (pb (i + l + 1) (j + n + 1) (x - l) (y - n)) m1 = m2
      at hA1' hB1'
    have hA0m := hm2 ▸ hA0'.congr fun k hk => run_pb_frame (by omega) (by omega) m1
    have hB0m := hm2 ▸ hB0'.congr fun k hk => run_pb_frame (by omega) (by omega) m1
    obtain ⟨hA1'', hB0''⟩ := ih _ (by omega) (by omega) (by omega) (by omega) (by omega) (by omega)
      hA1' hB0m rfl
    have hA0'' := hA0m.congr fun k hk => run_pb_frame (i := i + l) (j := j) (x := x - l) (y := n)
      (by omega) (by omega) m2
    have hB1'' := hB1'.congr fun k hk => run_pb_frame (i := i + l) (j := j) (x := x - l) (y := n)
      (by omega) (by omega) m2
    have hA := hA0''.append hA1'' (by omega)
    have hB := hB0''.append hB1'' (by omega)
    rw [show l + (x - l) = x by omega] at hA
    rw [show n + (y - n) = y by omega] at hB
    -- the second halves have more zeros than fit in the first run only if its first half is full
    obtain ⟨hfst, hsnd⟩ := merged_zeros (x := x) (l := l) (u := min l a + min n b)
      (v := a - min l a + (b - min n b)) (by omega) (by omega)
    rw [hfst] at hA
    rw [hsnd] at hB
    rw [show min l a + min n b + (a - min l a + (b - min n b)) = a + b by omega] at hA hB
    exact ⟨hA, hB⟩

/-! ## The sort -/

theorem mem_ps {i m : Nat} {c : Comparator} (hc : c ∈ ps (i + 1) m) :
    c.dire = true ∧ i ≤ c.fst ∧ c.fst < c.snd ∧ c.snd < i + m := by
  induction m using Nat.strong_induction_on generalizing i with
  | _ m ih =>
    unfold ps at hc
    split at hc
    · cases hc
    · simp only [List.mem_append, show i + 1 + m / 2 = i + m / 2 + 1 by omega] at hc
      rcases hc with (hc | hc) | hc
      · obtain ⟨hd, h1, h2, h3⟩ := ih _ (by omega) hc
        exact ⟨hd, by omega, h2, by omega⟩
      · obtain ⟨hd, h1, h2, h3⟩ := ih _ (by omega) hc
        exact ⟨hd, by omega, h2, by omega⟩
      · obtain ⟨hd, h1, h2, h3, h4⟩ := mem_pb hc
        exact ⟨hd, by omega, by omega, by omega⟩

theorem run_ps_frame {i m k : Nat} (h : k < i ∨ i + m ≤ k) (v : Nat → Bool) :
    run bitExch (ps (i + 1) m) v k = v k :=
  run_bitExch_of_notMem (fun c hc => by have := mem_ps hc; omega) v

/-- **The network sorts bits.** -/
theorem ps_run (i m : Nat) (v : Nat → Bool) : ∃ z, Run (run bitExch (ps (i + 1) m) v) i m z := by
  induction m using Nat.strong_induction_on generalizing i v with
  | _ m ih =>
    unfold ps
    split
    · rename_i hm
      cases hv : v i with
      | false => exact ⟨m, le_refl _, fun k hk => by
          obtain rfl : k = 0 := by omega
          simp [hv, show ¬ m = 0 by omega]⟩
      | true => exact ⟨0, Nat.zero_le _, fun k hk => by
          obtain rfl : k = 0 := by omega
          simp [hv]⟩
    · rw [run_append, run_append, show i + 1 + m / 2 = i + m / 2 + 1 by omega]
      obtain ⟨z, hz⟩ := ih (m / 2) (by omega) i v
      obtain ⟨z', hz'⟩ := ih (m - m / 2) (by omega) (i + m / 2) (run bitExch (ps (i + 1) (m / 2)) v)
      have hz'' := hz.congr fun k hk => run_ps_frame (i := i + m / 2) (m := m - m / 2)
        (by omega) (run bitExch (ps (i + 1) (m / 2)) v)
      obtain ⟨hA, hB⟩ := pb_merged (by omega) (by omega) (by omega) (by omega) (by omega) hz'' hz'
      have := hA.append hB (by omega)
      rw [show m / 2 + (m - m / 2) = m by omega] at this
      exact ⟨_, this⟩

variable {α : Type}

/-- The network sorts every list of its length. -/
theorem run_ps_sorted {le : α → α → Prop} {cmp : α → α → Bool} (h : Decides le cmp) {n : Nat}
    {xs : List α} (hn : xs.length = n) : List.Pairwise le (run (listExch cmp) (ps 1 n) xs) := by
  refine zero_one h (fun c hc => ?_) fun m i j hij hj hi => ?_
  · have := mem_ps (i := 0) hc
    omega
  · obtain ⟨z, hz⟩ := ps_run 0 n m
    have h1 := hz.2 i (by omega)
    have h2 := hz.2 j (by omega)
    simp only [Nat.zero_add] at h1 h2
    rw [h1, decide_eq_true_iff] at hi
    rw [h2, decide_eq_true_iff]
    omega

theorem sortMarks_perm (n : Nat) (xs : List (Nat × α)) : List.Perm (sortMarks n xs) xs :=
  run_listExch_perm _ _ xs

/-- **`StaticSort<n>`** sorts `n` elements by their marks. -/
theorem sortMarks_sorted {n : Nat} {xs : List (Nat × α)} (hn : xs.length = n) :
    List.Pairwise (fun a b => a.1 ≤ b.1) (sortMarks n xs) := by
  have hd : Decides (fun a b : Nat × α => a.1 ≤ b.1) (fun a b => decide (a.1 ≤ b.1)) :=
    ⟨fun _ _ _ => Nat.le_trans, fun _ _ h => of_decide_eq_true h,
      fun _ _ h => Nat.le_of_lt (Nat.lt_of_not_le (of_decide_eq_false h))⟩
  exact run_ps_sorted hd hn

/-! ## With a comparator -/

section Compare

variable {lt : α → α → Bool}

theorem sortCompare_eq_run (n : Nat) (xs : List α) :
    sortCompare lt n xs = run (listExch fun a b => !lt a b) (ps 1 n) xs := by
  refine run_rel (R := Eq) (fun c hc xs ys h => ?_) rfl
  rw [h, listExch, (mem_ps (i := 0) hc).1]
  simp only [Bool.true_bne, Bool.not_not]

theorem sortCompare_perm (n : Nat) (xs : List α) : List.Perm (sortCompare lt n xs) xs := by
  rw [sortCompare_eq_run]
  exact run_listExch_perm _ _ xs

/-- An element in front is not less than one behind it. -/
theorem sortCompare_descending [IsStrictWeakOrder α fun a b => lt a b = true] {n : Nat}
    {xs : List α}
    (hn : xs.length = n) : List.Pairwise (fun a b => lt a b = false) (sortCompare lt n xs) := by
  rw [sortCompare_eq_run]
  exact run_ps_sorted (Decides.of_strict lt).not hn

/-- **`StaticSort<n, Compare>`** leaves the array in ascending order exactly where `Compare` does
not tell its elements apart. -/
theorem sortCompare_ascending_iff (lt : α → α → Bool)
    [hlt : IsStrictWeakOrder α fun a b => lt a b = true]
    (n : Nat) (xs : List α) (hn : xs.length = n) :
    (List.Perm (sortCompare lt n xs) xs ∧ List.Pairwise (fun a b => lt b a = false)
      (sortCompare lt n xs)) ↔
      ∀ a ∈ xs, ∀ b ∈ xs, lt a b = false := by
  constructor
  · rintro ⟨hperm, hup⟩ a ha b hb
    have hself : ∀ x ∈ sortCompare lt n xs, lt x x = false := fun x _ => by
      rw [← Bool.not_eq_true]
      exact hlt.irrefl x
    exact (sortCompare_descending hn).forall_of_forall_of_flip hself hup (hperm.mem_iff.2 ha)
      (hperm.mem_iff.2 hb)
  · intro h
    have hperm : List.Perm (sortCompare lt n xs) xs := sortCompare_perm n xs
    refine ⟨hperm, List.Pairwise.imp_of_mem (fun ha hb _ => ?_) (sortCompare_descending hn)⟩
    exact h _ (hperm.mem_iff.1 hb) _ (hperm.mem_iff.1 ha)

/-- Two numbers. -/
theorem sortCompare_ascending_iff_two :
    (List.Perm (sortCompare (fun a b : Nat => decide (a < b)) 2 [7, 7]) [7, 7] ∧
      List.Pairwise (fun a b => decide (b < a) = false)
        (sortCompare (fun a b : Nat => decide (a < b)) 2 [7, 7])) ↔
      ∀ a ∈ [7, 7], ∀ b ∈ [7, 7], decide (a < b) = false :=
  sortCompare_ascending_iff (fun a b : Nat => decide (a < b)) 2 [7, 7] rfl

/-- In order, two numbers are exchanged. -/
theorem sortCompare_swaps : sortCompare (fun a b : Nat => decide (a < b)) 2 [1, 2] = [2, 1] ∧
    ¬ List.Pairwise (fun a b => decide (b < a) = false)
      (sortCompare (fun a b : Nat => decide (a < b)) 2 [1, 2]) := by
  have hrun : sortCompare (fun a b : Nat => decide (a < b)) 2 [1, 2] = [2, 1] := by
    simp [sortCompare, ps, pb, swap, condSwap]
  rw [hrun]
  decide

end Compare

end EM.Algorithm.StaticSort
