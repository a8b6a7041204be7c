import OblSort.Algorithm.Proof.ParamSelect

/-!
# `lowerBound`

The loop halves `[left, right)` and keeps one end that has been tested. The caller's own ends never
are. For the right end that is as documented, the search goes up to it and excludes it. The left end
is taken for a value that does not satisfy the condition: where it does, the search ends at
`left + 1`.

`left + right` does not wrap around once `right` has moved, since it is at most `2 ^ 63` then.
Before, and for a greater `right`, it does as soon as `left` has come close enough, and `left` falls
back. The search then ends only if one of the points on its way there, `approach`, satisfies the
condition.
-/

namespace EM.Algorithm

variable {satisfy : Nat → Bool} {left right v : Nat}

/-- `v` is the smallest value in `[left, right)` that satisfies the condition. -/
structure Smallest (satisfy : Nat → Bool) (left right v : Nat) : Prop where
  left_le : left ≤ v
  lt_right : v < right
  holds : satisfy v = true
  least : ∀ x, left ≤ x → x < v → satisfy x = false

/-- Once true, true for all larger values. -/
def MonotonePred (satisfy : Nat → Bool) : Prop :=
  ∀ x y, x ≤ y → satisfy x = true → satisfy y = true

/-- The search ends with `v`. -/
def LowerBoundReturns (satisfy : Nat → Bool) (left right v : Nat) : Prop :=
  ∃ fuel, lowerBound satisfy 1 fuel left right = some v

/-- `k` steps from `left` halfway towards `right`, in `uint64_t`. -/
def approach (right : Nat) : (k left : Nat) → Nat
  | 0, left => left
  | k + 1, left => approach right k ((left + right) % 2 ^ 64 / 2)

/-! ## One round -/

/-- One round without wrap around: the search goes on in one of the halves unless that is a single
value. -/
theorem lowerBound_step (hlt : left < right) (hsum : left + right < 2 ^ 64) (fuel : Nat) :
    lowerBound satisfy 1 (fuel + 1) left right =
      if satisfy ((left + right) / 2) then
        if right ≤ left + 3 then some ((left + right) / 2)
        else lowerBound satisfy 1 fuel left ((left + right) / 2)
      else
        if right ≤ left + 2 then some right
        else lowerBound satisfy 1 fuel ((left + right) / 2) right := by
  have hmid : (left + right) % 2 ^ 64 / 2 = (left + right) / 2 := by
    rw [Nat.mod_eq_of_lt hsum]
  have hl : sub64 ((left + right) / 2) left = (left + right) / 2 - left :=
    sub64_of_le (by omega) (by omega)
  have hr : sub64 right ((left + right) / 2) = right - (left + right) / 2 :=
    sub64_of_le (by omega) (by omega)
  have hl' : (left + right) / 2 - left ≤ 1 ↔ right ≤ left + 3 := by omega
  have hr' : right - (left + right) / 2 ≤ 1 ↔ right ≤ left + 2 := by omega
  simp only [lowerBound, hmid, hl, hr, hl', hr']

/-- One round for a right end above `2 ^ 63`: it is too far away to end the search at. -/
theorem lowerBound_step_far (hr : 2 ^ 63 < right) (hr' : right < 2 ^ 64) (fuel : Nat)
    (hs : satisfy ((left + right) % 2 ^ 64 / 2) = false) :
    lowerBound satisfy 1 (fuel + 1) left right =
      lowerBound satisfy 1 fuel ((left + right) % 2 ^ 64 / 2) right := by
  have hmid : (left + right) % 2 ^ 64 / 2 < 2 ^ 63 := by omega
  have hsub : sub64 right ((left + right) % 2 ^ 64 / 2) = right - (left + right) % 2 ^ 64 / 2 :=
    sub64_of_le (by omega) hr'
  rw [lowerBound]
  simp only [hs, hsub, Bool.false_eq_true, if_false]
  exact if_neg (by omega)

/-! ## The search -/

/-- From a left end that fails and a right end that satisfies the condition, the search ends at a
value that satisfies it right above one that fails. -/
theorem lowerBound_between (hlt : left < right) (hr : right ≤ 2 ^ 63) (hl : satisfy left = false)
    (hsr : satisfy right = true) :
    ∃ v, LowerBoundReturns satisfy left right v ∧ satisfy (v - 1) = false ∧ satisfy v = true := by
  induction hn : right - left using Nat.strong_induction_on generalizing left right with
  | h n ih =>
    subst hn
    have hstep := @lowerBound_step satisfy left right hlt (by omega)
    by_cases hs : satisfy ((left + right) / 2) = true
    · simp only [if_pos hs] at hstep
      by_cases hw : right ≤ left + 3
      · have hne : (left + right) / 2 ≠ left := fun h => by simp [h, hl] at hs
        have hmid : (left + right) / 2 - 1 = left := by omega
        exact ⟨_, ⟨1, (hstep 0).trans (if_pos hw)⟩, by rw [hmid, hl], hs⟩
      · obtain ⟨v, ⟨fuel, hrun⟩, hv⟩ := ih ((left + right) / 2 - left) (by omega)
          (show left < (left + right) / 2 by omega) (by omega) hl hs rfl
        exact ⟨v, ⟨fuel + 1, (hstep fuel).trans ((if_neg hw).trans hrun)⟩, hv⟩
    · simp only [if_neg hs] at hstep
      by_cases hw : right ≤ left + 2
      · have hmid : (left + right) / 2 = right - 1 := by omega
        exact ⟨right, ⟨1, (hstep 0).trans (if_pos hw)⟩, hmid ▸ by simpa using hs, hsr⟩
      · obtain ⟨v, ⟨fuel, hrun⟩, hv⟩ := ih (right - (left + right) / 2) (by omega)
          (show (left + right) / 2 < right by omega) hr (by simpa using hs) hsr rfl
        exact ⟨v, ⟨fuel + 1, (hstep fuel).trans ((if_neg hw).trans hrun)⟩, hv⟩

/-- Where every value from the left end on satisfies the condition, the left end never moves: the
search ends at `left + 1`, unless `left` is the only value. -/
theorem lowerBound_of_all (hlt : left + 1 < right) (hsum : left + right < 2 ^ 64)
    (hall : ∀ x, left ≤ x → satisfy x = true) (hv : LowerBoundReturns satisfy left right v) :
    v = left + 1 := by
  obtain ⟨fuel, hrun⟩ := hv
  induction fuel generalizing right with
  | zero => cases hrun
  | succ fuel ih =>
    rw [lowerBound_step (by omega) hsum, if_pos (hall _ (by omega))] at hrun
    by_cases hw : right ≤ left + 3
    · rw [if_pos hw] at hrun
      have : v = (left + right) / 2 := by simpa using hrun.symm
      omega
    · rw [if_neg hw] at hrun
      exact ih (by omega) (by omega) hrun

/-- A single value is found at once. -/
theorem lowerBound_single (hsum : left + (left + 1) < 2 ^ 64) (hl : satisfy left = true) :
    LowerBoundReturns satisfy left (left + 1) left := by
  have hmid : (left + (left + 1)) / 2 = left := by omega
  refine ⟨1, ?_⟩
  rw [lowerBound_step (by omega) hsum, hmid, if_pos hl, if_pos (by omega)]

/-! ## A right end above `2 ^ 63` -/

/-- Where none of the points on the way to the right end satisfies the condition, the search goes on
for ever. -/
theorem lowerBound_far_none (hr : 2 ^ 63 < right) (hr' : right < 2 ^ 64)
    (hno : ∀ k, satisfy (approach right k left) = false) (fuel : Nat) :
    lowerBound satisfy 1 fuel left right = none := by
  induction fuel generalizing left with
  | zero => rfl
  | succ fuel ih =>
    rw [lowerBound_step_far hr hr' fuel (hno 1)]
    exact ih fun k => hno (k + 1)

/-- The first of these points that satisfies the condition is a right end that is close enough. -/
theorem lowerBound_far_some (hr : 2 ^ 63 < right) (hr' : right < 2 ^ 64)
    (hmono : MonotonePred satisfy)
    (hl : satisfy left = false) {k : Nat} (hk : satisfy (approach right k left) = true) :
    ∃ v, LowerBoundReturns satisfy left right v ∧ satisfy (v - 1) = false ∧ satisfy v = true := by
  induction k generalizing left with
  | zero => simp [approach, hl] at hk
  | succ k ih =>
    by_cases hs : satisfy ((left + right) % 2 ^ 64 / 2) = true
    · have hlt : left < (left + right) % 2 ^ 64 / 2 := by
        by_contra hge
        simp [hmono _ left (by omega) hs] at hl
      by_cases hw : sub64 ((left + right) % 2 ^ 64 / 2) left ≤ 1
      · rw [sub64_of_le hlt.le (by omega)] at hw
        have hpred : (left + right) % 2 ^ 64 / 2 - 1 = left := by omega
        refine ⟨_, ⟨1, ?_⟩, by rw [hpred, hl], hs⟩
        rw [lowerBound]
        simp only [hs, if_true]
        exact if_pos (by rwa [sub64_of_le hlt.le (by omega)])
      · obtain ⟨v, ⟨fuel, hrun⟩, hv⟩ := lowerBound_between hlt (by omega) hl hs
        refine ⟨v, ⟨fuel + 1, ?_⟩, hv⟩
        rw [lowerBound]
        simp only [hs, if_true, if_neg hw, hrun]
    · obtain ⟨v, ⟨fuel, hrun⟩, hv⟩ := ih (by simpa using hs) hk
      exact ⟨v, ⟨fuel + 1, (lowerBound_step_far hr hr' fuel (by simpa using hs)).trans hrun⟩, hv⟩

/-! ## The result -/

/-- A value that satisfies the condition right above one that fails is the smallest. -/
theorem Smallest.of_pred (hmono : MonotonePred satisfy) (hl : satisfy left = false)
    (hex : ∃ x, left ≤ x ∧ x < right ∧ satisfy x = true)
    (hfail : satisfy (v - 1) = false) (hv : satisfy v = true) : Smallest satisfy left right v where
  left_le := Nat.le_of_not_lt fun h => by simp [hmono v left h.le hv] at hl
  lt_right := by
    obtain ⟨x, -, hxr, hx⟩ := hex
    refine Nat.lt_of_le_of_lt (Nat.le_of_not_lt fun h => ?_) hxr
    simp [hmono x (v - 1) (by omega) hx] at hfail
  holds := hv
  least x _ hx := Bool.eq_false_iff.2 fun h => by
    simp [hmono x (v - 1) (by omega) h] at hfail

/-- **`lowerBound` ends with the smallest value that satisfies the condition exactly where the left
end does not satisfy it or is the only value, and the right end is at most `2 ^ 63` or the condition
holds on the way there.** -/
theorem lowerBound_smallest_iff (satisfy : Nat → Bool) (left right : Nat) (hlt : left < right)
    (hsum : left + right < 2 ^ 64) (hmono : MonotonePred satisfy)
    (hex : ∃ x, left ≤ x ∧ x < right ∧ satisfy x = true) :
    (∃ v, LowerBoundReturns satisfy left right v ∧ Smallest satisfy left right v) ↔
      (satisfy left = false ∨ right = left + 1) ∧
        (right ≤ 2 ^ 63 ∨ ∃ k, satisfy (approach right k left) = true) := by
  have hsr : satisfy right = true := by
    obtain ⟨x, -, hxr, hx⟩ := hex
    exact hmono x right hxr.le hx
  constructor
  · rintro ⟨v, hrun, hv⟩
    constructor
    · by_cases hl : satisfy left = true
      · right
        by_contra hne
        have hv1 := lowerBound_of_all (by omega) hsum (fun x hx => hmono left x hx hl) hrun
        simp [hv.least left le_rfl (by omega)] at hl
      · exact .inl (by simpa using hl)
    · by_contra! hno
      obtain ⟨fuel, hrun⟩ := hrun
      rw [lowerBound_far_none hno.1 (by omega) (fun k => by simpa using hno.2 k)] at hrun
      cases hrun
  · rintro ⟨hleft, hright⟩
    by_cases hl : satisfy left = true
    · obtain rfl : right = left + 1 := hleft.resolve_left (by simp [hl])
      exact ⟨left, lowerBound_single hsum hl, le_rfl, hlt, hl, fun x h1 h2 => by omega⟩
    · have hl' : satisfy left = false := by simpa using hl
      suffices h : ∃ v, LowerBoundReturns satisfy left right v ∧
          satisfy (v - 1) = false ∧ satisfy v = true by
        obtain ⟨v, hrun, hfail, hv⟩ := h
        exact ⟨v, hrun, .of_pred hmono hl' hex hfail hv⟩
      by_cases hfar : right ≤ 2 ^ 63
      · exact lowerBound_between hlt hfar hl' hsr
      · obtain ⟨k, hk⟩ := hright.resolve_left hfar
        exact lowerBound_far_some (by omega) (by omega) hmono hl' hk

/-- The first value that is at least 5 in `[2, 9)`. -/
theorem lowerBound_smallest_iff_five :
    (∃ v, LowerBoundReturns (5 ≤ ·) 2 9 v ∧ Smallest (5 ≤ ·) 2 9 v) ↔
      (decide (5 ≤ 2) = false ∨ 9 = 2 + 1) ∧
        (9 ≤ 2 ^ 63 ∨ ∃ k, decide (5 ≤ approach 9 k 2) = true) :=
  lowerBound_smallest_iff (fun x => decide (5 ≤ x)) 2 9 (by decide) (by decide)
    (fun x y hxy h => by simp only [decide_eq_true_eq] at h ⊢; omega) ⟨5, by decide⟩

/-- In `[0, 2)` the search never tests 0. -/
theorem lowerBound_skips_left :
    MonotonePred (fun _ => true) ∧ (∃ x, 0 ≤ x ∧ x < 2 ∧ (fun _ : Nat => true) x = true) ∧
      ¬ ∃ v, LowerBoundReturns (fun _ => true) 0 2 v ∧ Smallest (fun _ => true) 0 2 v := by
  refine ⟨fun _ _ _ _ => rfl, ⟨0, by decide⟩, ?_⟩
  rintro ⟨v, hrun, hv⟩
  obtain rfl := lowerBound_of_all (by decide) (by decide) (fun _ _ => rfl) hrun
  simpa using hv.least 0 le_rfl (by decide)

end EM.Algorithm
