import OblSort.Lib.Compaction
import OblSort.Lib.Store

/-!
# The first elements of each class

`firsts key n xs` has the first `n` elements of `xs` with each key, and `rests key n xs` the others.
Of a sorted list, the first are one class after the other (`firsts_sorted`).
-/

namespace Runs

open Compact Store

variable {α β κ : Type} [DecidableEq κ]

/-- Which elements are among the first `n` with their key, after `seen k` others with key `k`. -/
def marks (key : α → κ) (n : Nat) : (seen : κ → Nat) → List α → List Bool
  | _, [] => []
  | seen, x :: xs =>
    decide (seen (key x) < n) :: marks key n (Function.update seen (key x) (seen (key x) + 1)) xs

def firsts (key : α → κ) (n : Nat) (xs : List α) : List α :=
  selected (marks key n (fun _ => 0) xs) xs

def rests (key : α → κ) (n : Nat) (xs : List α) : List α :=
  selected ((marks key n (fun _ => 0) xs).map (! ·)) xs

theorem length_marks (key : α → κ) (n : Nat) (seen : κ → Nat) (xs : List α) :
    (marks key n seen xs).length = xs.length := by
  induction xs generalizing seen with
  | nil => rfl
  | cons x xs ih => rw [marks, List.length_cons, ih, List.length_cons]

theorem firsts_append_rests (key : α → κ) (n : Nat) (xs : List α) :
    List.Perm (firsts key n xs ++ rests key n xs) xs :=
  selected_append_perm (length_marks key n _ xs)

theorem filter_selected_marks (key : α → κ) (n : Nat) (seen : κ → Nat) (xs : List α) (k : κ) :
    (selected (marks key n seen xs) xs).filter (fun x => decide (key x = k)) =
      (xs.filter fun x => decide (key x = k)).take (n - seen k) := by
  induction xs generalizing seen with
  | nil => simp [selected, marks]
  | cons x xs ih =>
    rw [marks]
    by_cases hk : key x = k
    · subst hk
      by_cases hlt : seen (key x) < n
      · obtain ⟨m, hm⟩ := Nat.exists_eq_succ_of_ne_zero (Nat.sub_ne_zero_of_lt hlt)
        have hm' : n - (seen (key x) + 1) = m := by omega
        simp [selected, hlt, ih, hm, hm']
      · have hzero : n - seen (key x) = 0 := by omega
        have hzero' : n - (seen (key x) + 1) = 0 := by omega
        simp [selected, hlt, ih, hzero, hzero']
    · have hother : Function.update seen (key x) (seen (key x) + 1) k = seen k :=
        Function.update_of_ne (fun h => hk h.symm) _ _
      by_cases hlt : seen (key x) < n <;> simp [selected, hlt, ih, hk, hother]

theorem filter_firsts (key : α → κ) (n : Nat) (xs : List α) (k : κ) :
    (firsts key n xs).filter (fun x => decide (key x = k)) =
      (xs.filter fun x => decide (key x = k)).take n :=
  filter_selected_marks key n _ xs k

/-- Nothing but the count decides how many of a class are left. -/
theorem count_rests (key : α → κ) (n : Nat) (xs : List α) (k : κ) :
    (rests key n xs).countP (fun x => decide (key x = k)) =
      xs.countP (fun x => decide (key x = k)) - n := by
  have hperm := (firsts_append_rests key n xs).countP_eq fun x => decide (key x = k)
  have hfirst := congrArg List.length (filter_firsts key n xs k)
  rw [List.countP_append] at hperm
  rw [List.length_take, ← List.countP_eq_length_filter, ← List.countP_eq_length_filter] at hfirst
  omega

theorem marks_concat (key : α → κ) (n : Nat) (seen : κ → Nat) (xs : List α) (x : α) :
    marks key n seen (xs ++ [x]) = marks key n seen xs ++
      [decide (seen (key x) + xs.countP (fun y => decide (key y = key x)) < n)] := by
  induction xs generalizing seen with
  | nil => rfl
  | cons y xs ih =>
    rw [List.cons_append, marks, ih, marks, List.cons_append, List.countP_cons]
    by_cases hy : key y = key x
    · rw [hy, Function.update_self, decide_eq_true rfl, if_pos rfl, Nat.add_assoc, Nat.add_comm 1]
    · rw [Function.update_of_ne (Ne.symm hy), decide_eq_false hy, if_neg Bool.false_ne_true]
      rfl

/-- The last element is among the others when its class is full before it. -/
theorem mem_rests_concat {key : α → κ} {n : Nat} {xs : List α} {x : α}
    (h : n ≤ xs.countP fun y => decide (key y = key x)) : x ∈ rests key n (xs ++ [x]) := by
  have hmark : ¬ 0 + xs.countP (fun y => decide (key y = key x)) < n := by omega
  have hlen : xs.length = ((marks key n (fun _ => 0) xs).map (! ·)).length := by
    rw [List.length_map, length_marks]
  rw [rests, marks_concat, List.map_append, decide_eq_false hmark, selected_split xs.length,
    List.drop_left, List.drop_left' hlen.symm]
  exact List.mem_append_right _ List.mem_cons_self

/-- Few elements of each class are few elements. -/
theorem length_le_of_countP {key : α → Nat} {N b : Nat} {xs : List α} (hlt : ∀ x ∈ xs, key x < N)
    (h : ∀ k, xs.countP (fun x => decide (key x = k)) ≤ b) : xs.length ≤ N * b := by
  induction N generalizing xs with
  | zero =>
    obtain rfl : xs = [] := List.eq_nil_iff_forall_not_mem.2 fun x hx =>
      Nat.not_lt_zero _ (hlt x hx)
    exact Nat.zero_le _
  | succ N ih =>
    have hsub : (xs.filter fun x => decide ¬ decide (key x = N) = true).Sublist xs :=
      List.filter_sublist
    have hbelow : ∀ x ∈ xs.filter fun x => decide ¬ decide (key x = N) = true, key x < N := by
      intro x hx
      have hlt := hlt x (hsub.subset hx)
      have hne := (List.mem_filter.1 hx).2
      simp only [decide_eq_true_eq] at hne
      omega
    have hrest := ih hbelow fun k => Nat.le_trans hsub.countP_le (h k)
    rw [← List.countP_eq_length_filter] at hrest
    have hall := List.length_eq_countP_add_countP (fun x => decide (key x = N)) (l := xs)
    have hlast := h N
    rw [Nat.succ_mul]
    omega

/-- **A sorted list**: the first of each class, one class after the other. -/
theorem firsts_sorted {key : α → Nat} {N : Nat} {xs : List α}
    (h : xs.Pairwise fun a b => key a ≤ key b) (hlt : ∀ x ∈ xs, key x < N) (n : Nat) :
    firsts key n xs = gather N fun k => (xs.filter fun x => decide (key x = k)).take n := by
  have hsub : (firsts key n xs).Sublist xs := selected_sublist _ _
  rw [sorted_eq_gather (h.sublist hsub) fun x hx => hlt x (hsub.subset hx)]
  exact gather_congr fun k _ => filter_firsts key n xs k

/-- Their keys, if every class has as many. -/
theorem map_key_firsts {key : α → Nat} {N n : Nat} {xs : List α}
    (h : xs.Pairwise fun a b => key a ≤ key b) (hlt : ∀ x ∈ xs, key x < N)
    (hmany : ∀ k < N, n ≤ xs.countP fun x => decide (key x = k)) :
    (firsts key n xs).map key = gather N fun k => List.replicate n k := by
  rw [firsts_sorted h hlt, gather_map]
  refine gather_congr fun k hk => List.eq_replicate_iff.2 ⟨?_, fun i hi => ?_⟩
  · have := hmany k hk
    rw [List.length_map, List.length_take, ← List.countP_eq_length_filter]
    omega
  · obtain ⟨x, hx, rfl⟩ := List.mem_map.1 hi
    exact of_decide_eq_true (List.mem_filter.1 (List.mem_of_mem_take hx)).2

end Runs
