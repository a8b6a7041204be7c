import Mathlib.Data.List.Basic
import Mathlib.Data.List.Perm.Basic
import Mathlib.Data.List.Flatten
import Mathlib.Logic.Function.Basic

/-!
# Stores of buckets

A store gives every position a value. `putAll` writes a family of values at once, and `gather`
collects the lists at the first `n` positions.
-/

namespace Store

variable {α β : Type}

/-- The values `vals i` written at the positions `idx i`, for `i < n`. -/
def putAll (idx : Nat → Nat) (vals : Nat → β) : (n : Nat) → (Nat → β) → Nat → β
  | 0, m => m
  | n + 1, m => Function.update (putAll idx vals n m) (idx n) (vals n)

theorem putAll_of_ne {idx : Nat → Nat} {vals : Nat → β} {n : Nat} {m : Nat → β} {p : Nat}
    (hp : ∀ i < n, idx i ≠ p) : putAll idx vals n m p = m p := by
  induction n with
  | zero => rfl
  | succ n ih =>
    rw [putAll, Function.update_of_ne (Ne.symm (hp n (by omega)))]
    exact ih fun i hi => hp i (by omega)

theorem putAll_idx {idx : Nat → Nat} {vals : Nat → β} {n : Nat} {m : Nat → β}
    (hinj : ∀ i < n, ∀ j < n, idx i = idx j → i = j) {i : Nat} (hi : i < n) :
    putAll idx vals n m (idx i) = vals i := by
  induction n with
  | zero => omega
  | succ n ih =>
    by_cases hin : i = n
    · subst hin
      rw [putAll, Function.update_self]
    · have hne : idx i ≠ idx n := fun h => hin (hinj i hi n (by omega) h)
      rw [putAll, Function.update_of_ne hne]
      exact ih (fun i hi j hj => hinj i (by omega) j (by omega)) (by omega)

theorem putAll_congr {idx idx' : Nat → Nat} {n : Nat} (h : ∀ i < n, idx i = idx' i) (vals : Nat → β)
    (m : Nat → β) : putAll idx vals n m = putAll idx' vals n m := by
  induction n with
  | zero => rfl
  | succ n ih => rw [putAll, putAll, ih fun i hi => h i (by omega), h n (by omega)]

/-- What holds of the old values and of the new ones holds of all. -/
theorem putAll_forall {P : β → Prop} {idx : Nat → Nat} {vals : Nat → β} {n : Nat} {m : Nat → β}
    (hm : ∀ p, P (m p)) (hv : ∀ i < n, P (vals i)) (p : Nat) : P (putAll idx vals n m p) := by
  induction n with
  | zero => exact hm p
  | succ n ih =>
    rw [putAll]
    by_cases hp : p = idx n
    · subst hp
      rw [Function.update_self]
      exact hv n (by omega)
    · rw [Function.update_of_ne hp]
      exact ih fun i hi => hv i (by omega)

/-! ## Grids -/

theorem grid_inj {begin wb i j i' j' : Nat} (hj : j < wb) (hj' : j' < wb)
    (h : begin + i * wb + j = begin + i' * wb + j') : i = i' ∧ j = j' := by
  have h' : j + wb * i = j' + wb * i' := by
    rw [Nat.mul_comm wb, Nat.mul_comm wb]
    omega
  have hmod := congrArg (· % wb) h'
  have hdiv := congrArg (· / wb) h'
  simp only [Nat.add_mul_mod_self_left, Nat.mod_eq_of_lt hj, Nat.mod_eq_of_lt hj'] at hmod
  simp only [Nat.add_mul_div_left _ _ (show 0 < wb by omega), Nat.div_eq_of_lt hj,
    Nat.div_eq_of_lt hj', Nat.zero_add] at hdiv
  exact ⟨hdiv, hmod⟩

theorem grid_lt {wb way i j : Nat} (hi : i < way) (hj : j < wb) : i * wb + j < way * wb := by
  calc i * wb + j < i * wb + wb := by omega
    _ = (i + 1) * wb := (Nat.succ_mul i wb).symm
    _ ≤ way * wb := Nat.mul_le_mul_right wb hi

/-! ## Gathering -/

/-- The lists at the positions below `n`, one after the other. -/
def gather (n : Nat) (f : Nat → List α) : List α := (List.range n).flatMap f

@[simp] theorem gather_zero (f : Nat → List α) : gather 0 f = [] := rfl

theorem gather_succ (n : Nat) (f : Nat → List α) : gather (n + 1) f = gather n f ++ f n := by
  simp [gather, List.range_succ]

@[simp] theorem gather_one (f : Nat → List α) : gather 1 f = f 0 := by
  simp [gather_succ]

theorem gather_congr {n : Nat} {f g : Nat → List α} (h : ∀ i < n, f i = g i) :
    gather n f = gather n g := by
  induction n with
  | zero => rfl
  | succ n ih => rw [gather_succ, gather_succ, ih fun i hi => h i (by omega), h n (by omega)]

theorem gather_perm {n : Nat} {f g : Nat → List α} (h : ∀ i < n, List.Perm (f i) (g i)) :
    List.Perm (gather n f) (gather n g) :=
  List.Perm.flatMap_left _ fun i hi => h i (List.mem_range.1 hi)

theorem gather_add (m n : Nat) (f : Nat → List α) :
    gather (m + n) f = gather m f ++ gather n fun i => f (m + i) := by
  induction n with
  | zero => simp
  | succ n ih => rw [← Nat.add_assoc, gather_succ, gather_succ, ih, List.append_assoc]

/-- The positions below `m * n` in `m` runs of `n`. -/
theorem gather_mul (m n : Nat) (f : Nat → List α) :
    gather (m * n) f = gather m fun i => gather n fun j => f (i * n + j) := by
  induction m with
  | zero => simp
  | succ m ih => rw [Nat.succ_mul, gather_add, ih, gather_succ]

theorem gather_append_perm (n : Nat) (f g : Nat → List α) :
    List.Perm (gather n fun i => f i ++ g i) (gather n f ++ gather n g) := by
  induction n with
  | zero => simp
  | succ n ih =>
    simp only [gather_succ]
    refine (ih.append_right _).trans ?_
    rw [List.append_assoc, List.append_assoc]
    refine List.Perm.append_left _ ?_
    rw [← List.append_assoc, ← List.append_assoc]
    exact List.perm_append_comm.append_right _

/-- Rows and columns hold the same. -/
theorem gather_comm (m n : Nat) (f : Nat → Nat → List α) :
    List.Perm (gather m fun i => gather n fun j => f i j)
      (gather n fun j => gather m fun i => f i j) := by
  induction m with
  | zero =>
    simp only [gather_zero]
    induction n with
    | zero => rfl
    | succ n ih => simpa [gather_succ] using ih
  | succ m ih =>
    simp only [gather_succ]
    exact (ih.append_right _).trans (gather_append_perm n _ _).symm

theorem length_gather {c n : Nat} {f : Nat → List α} (h : ∀ i < n, (f i).length = c) :
    (gather n f).length = n * c := by
  induction n with
  | zero => simp
  | succ n ih =>
    rw [gather_succ, List.length_append, ih fun i hi => h i (by omega),
      h n (by omega), Nat.succ_mul]

theorem gather_map {n : Nat} (g : α → β) (f : Nat → List α) :
    (gather n f).map g = gather n fun i => (f i).map g :=
  List.map_flatMap

theorem gather_filter {n : Nat} (p : α → Bool) (f : Nat → List α) :
    (gather n f).filter p = gather n fun i => (f i).filter p :=
  List.filter_flatMap

theorem modify_append_left {xs : List α} {i : Nat} (h : i < xs.length) (ys : List α) (f : α → α) :
    (xs ++ ys).modify i f = xs.modify i f ++ ys := by
  rw [List.modify_eq_take_drop, List.modify_eq_take_drop, List.take_append_of_le_length (by omega),
    List.drop_append_of_le_length (by omega), List.append_assoc, List.drop_eq_getElem_cons h]
  rfl

theorem modify_append_right {xs : List α} {i : Nat} (h : xs.length ≤ i) (ys : List α) (f : α → α) :
    (xs ++ ys).modify i f = xs ++ ys.modify (i - xs.length) f := by
  obtain ⟨k, rfl⟩ := Nat.exists_eq_add_of_le h
  rw [List.modify_eq_take_drop, List.modify_eq_take_drop, List.take_length_add_append,
    List.drop_length_add_append, Nat.add_sub_cancel_left, List.append_assoc]

/-- A change of one value in a store of lists of one length. -/
theorem gather_modify {c n i : Nat} {m : Nat → List α} (hm : ∀ p, (m p).length = c)
    (hi : i < n * c) (f : α → α) :
    gather n (Function.update m (i / c) ((m (i / c)).modify (i % c) f)) =
      (gather n m).modify i f := by
  induction n with
  | zero => omega
  | succ n ih =>
    have hlen : (gather n m).length = n * c := length_gather fun p _ => hm p
    rw [gather_succ, gather_succ]
    by_cases hlt : i < n * c
    · have hne : i / c < n := Nat.div_lt_of_lt_mul (by rwa [Nat.mul_comm])
      rw [ih hlt, Function.update_of_ne (by omega), modify_append_left (by omega)]
    · rw [Nat.succ_mul] at hi
      have hdiv : i / c = n := Nat.div_eq_of_lt_le (by omega) (by rw [Nat.succ_mul]; omega)
      have hmod : i % c = i - n * c := by
        have := Nat.div_add_mod' i c
        rw [hdiv] at this
        omega
      have hfront : gather n (Function.update m n ((m n).modify (i - n * c) f)) = gather n m :=
        gather_congr fun p hp => Function.update_of_ne (by omega) _ _
      rw [hdiv, hmod, hfront, Function.update_self, modify_append_right (by omega), hlen]

theorem pairwise_gather {n : Nat} {R : α → α → Prop} {f : Nat → List α}
    (hf : ∀ i < n, List.Pairwise R (f i))
    (hlt : ∀ i j, i < j → j < n → ∀ x ∈ f i, ∀ y ∈ f j, R x y) : List.Pairwise R (gather n f) := by
  induction n with
  | zero => exact List.Pairwise.nil
  | succ n ih =>
    rw [gather_succ, List.pairwise_append]
    refine ⟨ih (fun i hi => hf i (by omega)) fun i j hij hj => hlt i j hij (by omega),
      hf n (by omega), fun x hx y hy => ?_⟩
    obtain ⟨i, hi, hx⟩ := List.mem_flatMap.1 hx
    exact hlt i n (List.mem_range.1 hi) (by omega) x hx y hy

theorem mem_gather {n : Nat} {f : Nat → List α} {x : α} :
    x ∈ gather n f ↔ ∃ i < n, x ∈ f i := by
  simp [gather]

theorem sublist_gather {n i : Nat} (hi : i < n) (f : Nat → List α) :
    (f i).Sublist (gather n f) := by
  obtain ⟨d, rfl⟩ := Nat.exists_eq_add_of_le (show i + 1 ≤ n by omega)
  rw [gather_add, gather_succ]
  exact (List.sublist_append_right _ _).trans (List.sublist_append_left _ _)

/-- The positions below `n` in blocks of `c`, the last one cut off at `n`. -/
theorem gather_blocks {c k n : Nat} (h : n ≤ k * c) (f : Nat → List α) :
    gather k (fun g => gather (min c (n - g * c)) fun i => f (g * c + i)) = gather n f := by
  have hmin : ∀ k, gather k (fun g => gather (min c (n - g * c)) fun i => f (g * c + i)) =
      gather (min (k * c) n) f := fun k => by
    induction k with
    | zero => simp
    | succ k ih =>
      rw [gather_succ, ih, Nat.succ_mul]
      by_cases hk : k * c ≤ n
      · rw [Nat.min_eq_left hk, ← gather_add]
        congr 1
        omega
      · rw [show n - k * c = 0 by omega, Nat.min_zero, gather_zero, List.append_nil]
        congr 1
        omega
  rw [hmin, Nat.min_eq_right h]

/-- A list cut into pieces of length `c`. -/
theorem gather_take_drop (c n : Nat) (xs : List α) :
    gather n (fun i => (xs.drop (i * c)).take c) = xs.take (n * c) := by
  induction n with
  | zero => simp
  | succ n ih => rw [gather_succ, ih, Nat.succ_mul, List.take_add]

/-! ## Sorted lists -/

/-- Where nothing with `p` follows something without, the elements with `p` stand in front. -/
theorem pairwise_eq_append {R : α → α → Prop} {p : α → Bool} {xs : List α} (h : xs.Pairwise R)
    (hp : ∀ a ∈ xs, ∀ b ∈ xs, p a = true → p b = false → ¬ R b a) :
    xs = xs.filter p ++ xs.filter fun a => !p a := by
  induction xs with
  | nil => rfl
  | cons a xs ih =>
    obtain ⟨ha, hxs⟩ := List.pairwise_cons.1 h
    cases hpa : p a with
    | true =>
      rw [List.filter_cons_of_pos hpa, List.filter_cons_of_neg (by simp [hpa]), List.cons_append]
      exact congrArg (a :: ·) (ih hxs fun b hb c hc => hp b (.tail _ hb) c (.tail _ hc))
    | false =>
      have hnone : ∀ b ∈ xs, ¬ p b = true := fun b hb hpb =>
        hp b (.tail _ hb) a (.head _) hpb hpa (ha b hb)
      have hrest : ∀ b ∈ a :: xs, (!p b) = true := by
        intro b hb
        cases hb with
        | head => simp [hpa]
        | tail _ hb => simp [hnone b hb]
      rw [List.filter_cons_of_neg (by simp [hpa]), List.filter_eq_nil_iff.2 hnone,
        List.filter_eq_self.2 hrest, List.nil_append]

/-- A list in the order of `f`: the elements below `n` come first. -/
theorem sorted_eq_append {f : α → Nat} {xs : List α} (h : xs.Pairwise fun a b => f a ≤ f b)
    (n : Nat) :
    xs = xs.filter (fun x => decide (f x < n)) ++ xs.filter (fun x => decide (n ≤ f x)) := by
  have hsplit := pairwise_eq_append (p := fun x => decide (f x < n)) h fun a _ b _ ha hb hab => by
    simp only [decide_eq_true_eq, decide_eq_false_iff_not] at ha hb
    omega
  simpa only [Bool.decide_eq_false, ← decide_not, Nat.not_lt] using hsplit

/-- **A sorted list** is its classes one after the other. -/
theorem sorted_eq_gather {f : α → Nat} {n : Nat} {xs : List α}
    (h : xs.Pairwise fun a b => f a ≤ f b) (hlt : ∀ x ∈ xs, f x < n) :
    xs = gather n fun j => xs.filter fun x => decide (f x = j) := by
  induction n generalizing xs with
  | zero =>
    cases xs with
    | nil => rfl
    | cons x xs => exact absurd (hlt x List.mem_cons_self) (Nat.not_lt_zero _)
  | succ n ih =>
    have hlast : xs.filter (fun x => decide (n ≤ f x)) = xs.filter fun x => decide (f x = n) :=
      List.filter_congr fun x hx => by
        have := hlt x hx
        exact decide_eq_decide.2 ⟨fun h => by omega, fun h => by omega⟩
    have hfirst : gather n (fun j => (xs.filter fun x => decide (f x < n)).filter
        fun x => decide (f x = j)) = gather n fun j => xs.filter fun x => decide (f x = j) :=
      gather_congr fun j hj => by
        rw [List.filter_filter]
        refine List.filter_congr fun x _ => ?_
        rw [← Bool.decide_and]
        exact decide_eq_decide.2 ⟨fun h => h.1, fun h => ⟨h, by omega⟩⟩
    rw [gather_succ, ← hfirst, ← hlast, ← ih (h.filter _) fun x hx =>
      by simpa using (List.mem_filter.1 hx).2]
    exact sorted_eq_append h n

/-- The pieces of length `c` of classes of that length, of which the last may be longer. -/
theorem take_drop_gather {c n j : Nat} {f : Nat → List α}
    (hlen : ∀ i < n, i + 1 < n → (f i).length = c)
    (hlast : ∀ i < n, c ≤ (f i).length) (hj : j < n) :
    (((gather n f).take (n * c)).drop (j * c)).take c = (f j).take c := by
  have hfront : (gather j f).length = j * c :=
    length_gather fun i hi => hlen i (by omega) (by omega)
  obtain ⟨k, rfl⟩ := Nat.exists_eq_add_of_le (show j + 1 ≤ n by omega)
  have hmul : (j + 1 + k) * c - j * c = c + k * c := by
    rw [Nat.add_mul, Nat.succ_mul]
    omega
  rw [List.drop_take, hmul, List.take_take, Nat.min_eq_left (Nat.le_add_right c (k * c)),
    gather_add, gather_succ, List.append_assoc, ← hfront, List.drop_left,
    List.take_append_of_le_length (hlast j hj)]

end Store
