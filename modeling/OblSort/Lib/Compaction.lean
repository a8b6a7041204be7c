import Mathlib.Data.List.Basic
import Mathlib.Data.List.Perm.Basic

/-!
# Tight compaction

A tight compaction of a list moves the elements with a property to the front. `Tight` keeps their
order and says nothing about the order of the others. Two of them agree on the front
(`Tight.front_eq`), and what follows the front has no element with the property (`Tight.rest`).

The elements may also be selected by a list of marks that runs along with them (`selected`).
-/

namespace Compact

variable {α β : Type}

/-! ## Elements with a property -/

/-- `ys` is `xs` with its elements that have the property at the front, in their order. -/
structure Tight (p : α → Bool) (xs ys : List α) : Prop where
  perm : List.Perm ys xs
  front : ys.take (xs.countP p) = xs.filter p

variable {p : α → Bool} {xs ys ys' : List α}

theorem Tight.front_eq (h : Tight p xs ys) (h' : Tight p xs ys') :
    ys.take (xs.countP p) = ys'.take (xs.countP p) := h.front.trans h'.front.symm

theorem Tight.marked (h : Tight p xs ys) : ∀ x ∈ ys.take (xs.countP p), p x = true := by
  rw [h.front]
  exact fun x hx => (List.mem_filter.1 hx).2

theorem Tight.rest (h : Tight p xs ys) : ∀ x ∈ ys.drop (xs.countP p), p x = false := by
  have hcount := h.perm.countP_eq p
  have hfront : (xs.filter p).countP p = xs.countP p := by simp [List.countP_filter]
  rw [← List.take_append_drop (xs.countP p) ys, List.countP_append, h.front, hfront] at hcount
  have hzero : (ys.drop (xs.countP p)).countP p = 0 := by omega
  intro x hx
  simpa using List.countP_eq_zero.1 hzero x hx

/-- The elements with the property are the longest front that has it. -/
theorem Tight.takeWhile_eq (h : Tight p xs ys) : ys.takeWhile p = xs.filter p := by
  rw [← List.take_append_drop (xs.countP p) ys, List.takeWhile_append_of_pos h.marked, h.front]
  cases hrest : ys.drop (xs.countP p) with
  | nil => simp
  | cons y rest =>
    have hy : p y = false := h.rest y (by rw [hrest]; exact List.mem_cons_self)
    rw [List.takeWhile_cons_of_neg (by simp [hy]), List.append_nil]

/-- It is enough to know where each of the elements with the property goes. -/
theorem tight_of_getElem? (hperm : List.Perm ys xs)
    (hget : ∀ j < xs.countP p, ys[j]? = (xs.filter p)[j]?) : Tight p xs ys := by
  refine ⟨hperm, List.ext_getElem? fun j => ?_⟩
  rw [List.getElem?_take]
  split
  · exact hget j ‹_›
  · rw [List.getElem?_eq_none]
    rw [← List.countP_eq_length_filter]
    omega

/-! ## Elements selected by marks -/

/-- The elements whose mark is set. -/
def selected : List Bool → List α → List α
  | mark :: marks, x :: xs => if mark then x :: selected marks xs else selected marks xs
  | _, _ => []

theorem selected_map (p : α → Bool) (xs : List α) : selected (xs.map p) xs = xs.filter p := by
  induction xs with
  | nil => rfl
  | cons x xs ih => simp [selected, List.filter_cons, ih]

theorem length_selected {marks : List Bool} {xs : List α} (h : marks.length = xs.length) :
    (selected marks xs).length = marks.count true := by
  induction marks generalizing xs with
  | nil => cases xs <;> rfl
  | cons mark marks ih =>
    cases xs with
    | nil => cases h
    | cons x xs => cases mark <;> simp [selected, ih (Nat.succ.inj h)]

theorem selected_split (n : Nat) (marks : List Bool) (xs : List α) :
    selected marks xs =
      selected (marks.take n) (xs.take n) ++ selected (marks.drop n) (xs.drop n) := by
  induction n generalizing marks xs with
  | zero => simp [selected]
  | succ n ih =>
    cases marks with
    | nil => cases xs <;> simp [selected]
    | cons mark marks =>
      cases xs with
      | nil => simp [selected]
      | cons x xs => cases mark <;> simp [selected, ih marks xs]

theorem selected_sublist (marks : List Bool) (xs : List α) : (selected marks xs).Sublist xs := by
  induction marks generalizing xs with
  | nil => exact List.nil_sublist xs
  | cons mark marks ih =>
    cases xs with
    | nil => exact .refl _
    | cons x xs =>
      cases mark with
      | true => exact (ih xs).cons_cons x
      | false => exact (ih xs).cons x

/-- What is selected, and what is not. -/
theorem selected_append_perm {marks : List Bool} {xs : List α} (h : marks.length = xs.length) :
    List.Perm (selected marks xs ++ selected (marks.map (! ·)) xs) xs := by
  induction marks generalizing xs with
  | nil =>
    obtain rfl := List.length_eq_zero_iff.1 h.symm
    exact .refl _
  | cons mark marks ih =>
    cases xs with
    | nil => cases h
    | cons x xs =>
      cases mark with
      | true => exact (ih (Nat.succ.inj h)).cons x
      | false => exact List.perm_middle.trans ((ih (Nat.succ.inj h)).cons x)

/-- Without duplicates, the elements selected determine the marks. -/
theorem marks_eq_map [DecidableEq α] {marks : List Bool} {xs : List α} (hnodup : xs.Nodup)
    (hlen : marks.length = xs.length) :
    marks = xs.map fun x => decide (x ∈ selected marks xs) := by
  induction marks generalizing xs with
  | nil =>
    obtain rfl := List.length_eq_zero_iff.1 hlen.symm
    rfl
  | cons mark marks ih =>
    cases xs with
    | nil => cases hlen
    | cons x xs =>
      obtain ⟨hx, hnodup⟩ := List.nodup_cons.1 hnodup
      have hne : ∀ y ∈ xs, y ≠ x := fun y hy h => hx (h ▸ hy)
      rw [List.map_cons, List.cons.injEq]
      refine ⟨?_, (ih hnodup (Nat.succ.inj hlen)).trans (List.map_congr_left fun y hy => ?_)⟩
      · cases mark with
        | true => simp [selected]
        | false => simpa [selected] using fun h => hx ((selected_sublist marks xs).subset h)
      · cases mark <;> simp [selected, hne y hy]

end Compact
