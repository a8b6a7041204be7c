import OblSort.Algorithm.PartitionDummy

/-!
# Partitioning off the dummies

`partitionDummy` ends on every non-empty range and only permutes it; when the range has a dummy, it
returns where the dummies begin (`partitionDummy_spec`). On two or more elements without a dummy it
stops short of the last one: the right pointer is never moved and the element below it never looked
at (`partitionDummy_splits_iff`).
-/

namespace EM.Algorithm

open Net

variable {E : Type} {isDummy : E → Bool}

/-- The steps left in `partitionDummyLoop`, at most. -/
def partitionSteps (isDummy : E → Bool) (scanRight : Bool) (left right : Nat) (xs : List E) : Nat :=
  3 * (right - left) + (if scanRight then 1 else if (xs[left]?).any isDummy then 2 else 0)

/-- What is before `left` is real and what is after `right` is dummy. -/
structure Outside (isDummy : E → Bool) (left right : Nat) (xs : List E) : Prop where
  real : ∀ i, i < left → ∀ x, xs[i]? = some x → isDummy x = false
  dummy : ∀ i, right < i → ∀ x, xs[i]? = some x → isDummy x = true

theorem Outside.advance {left right : Nat} {xs : List E} (h : Outside isDummy left right xs) {x : E}
    (hx : xs[left]? = some x) (hd : isDummy x = false) : Outside isDummy (left + 1) right xs where
  real i hi y hy := by
    by_cases hil : i = left
    · subst hil
      rwa [← Option.some.inj (hx.symm.trans hy)]
    · exact h.real i (by omega) y hy
  dummy := h.dummy

theorem Outside.retreat {left right : Nat} {xs : List E} (h : Outside isDummy left right xs) {x : E}
    (hx : xs[right]? = some x) (hd : isDummy x = true) : Outside isDummy left (right - 1) xs where
  real := h.real
  dummy i hi y hy := by
    by_cases hir : i = right
    · subst hir
      rwa [← Option.some.inj (hx.symm.trans hy)]
    · exact h.dummy i (by omega) y hy

/-- The range is split at `e`. -/
structure SplitAt (isDummy : E → Bool) (e : Nat) (xs : List E) : Prop where
  real : ∀ i, i < e → ∀ x, xs[i]? = some x → isDummy x = false
  dummy : ∀ i, e ≤ i → ∀ x, xs[i]? = some x → isDummy x = true

/-- The real elements of a range that is split. -/
theorem SplitAt.filter {e : Nat} {xs : List E} (h : SplitAt isDummy e xs) :
    (xs.filter fun x => !isDummy x) = xs.take e := by
  have hreal : ∀ x ∈ xs.take e, (!isDummy x) = true := fun x hx => by
    obtain ⟨i, hi, rfl⟩ := List.mem_iff_getElem.1 hx
    rw [List.length_take] at hi
    rw [List.getElem_take, h.real i (by omega) _ (List.getElem?_eq_getElem (by omega))]
    rfl
  have hdummy : ∀ x ∈ xs.drop e, ¬ (!isDummy x) = true := fun x hx => by
    obtain ⟨i, hi, rfl⟩ := List.mem_iff_getElem.1 hx
    rw [List.length_drop] at hi
    rw [List.getElem_drop, h.dummy (e + i) (by omega) _ (List.getElem?_eq_getElem (by omega))]
    decide
  conv_lhs => rw [← List.take_append_drop e xs]
  rw [List.filter_append, List.filter_eq_self.2 hreal, List.filter_eq_nil_iff.2 hdummy,
    List.append_nil]

/-- The pointers have met at a dummy. -/
theorem Outside.splitAt {left right : Nat} {xs : List E} (h : Outside isDummy left right xs)
    (hle : right ≤ left) {x : E} (hx : xs[left]? = some x) (hd : isDummy x = true) :
    SplitAt isDummy left xs where
  real := h.real
  dummy i hi y hy := by
    by_cases hil : i = left
    · subst hil
      rwa [← Option.some.inj (hx.symm.trans hy)]
    · exact h.dummy i (by omega) y hy

/-- There is a dummy between the pointers. -/
def Between (isDummy : E → Bool) (left right : Nat) (xs : List E) : Prop :=
  ∃ i x, left ≤ i ∧ i ≤ right ∧ xs[i]? = some x ∧ isDummy x = true

theorem Between.advance {left right : Nat} {xs : List E} (h : Between isDummy left right xs) {x : E}
    (hx : xs[left]? = some x) (hd : isDummy x = false) : Between isDummy (left + 1) right xs := by
  obtain ⟨i, y, h1, h2, hy, hyd⟩ := h
  refine ⟨i, y, ?_, h2, hy, hyd⟩
  by_contra hlt
  obtain rfl : i = left := by omega
  rw [Option.some.inj (hy.symm.trans hx), hd] at hyd
  cases hyd

/-- The loop ends with a permutation of its range, split where it says if there is a dummy between
the pointers. -/
def PartitionEnds (isDummy : E → Bool) (left right : Nat) (xs : List E)
    (r : Option (List E × Nat)) : Prop :=
  ∃ ys e, r = some (ys, e) ∧ List.Perm ys xs ∧
    (Outside isDummy left right xs → Between isDummy left right xs → SplitAt isDummy e ys)

theorem partitionDummyLoop_ends (fuel : Nat) (scanRight : Bool) {left right : Nat} {xs : List E}
    (hle : left ≤ right) (hlt : right < xs.length)
    (hleft : scanRight = true → ∃ x, xs[left]? = some x ∧ isDummy x = true)
    (hfuel : partitionSteps isDummy scanRight left right xs < fuel) :
    PartitionEnds isDummy left right xs
      (partitionDummyLoop isDummy fuel scanRight left right xs) := by
  induction fuel generalizing scanRight left right xs with
  | zero => omega
  | succ fuel ih =>
    have hl : xs[left]? = some xs[left] := List.getElem?_eq_getElem (by omega)
    have hr : xs[right]? = some xs[right] := List.getElem?_eq_getElem hlt
    cases scanRight with
    | false =>
      rw [partitionDummyLoop, hl]
      dsimp only
      cases hd : isDummy xs[left] with
      | true =>
        rw [if_pos rfl]
        refine ih true hle hlt (fun _ => ⟨_, hl, hd⟩) ?_
        simp only [partitionSteps, hl, hd, Option.any_some, Bool.false_eq_true, if_false,
          if_true] at hfuel ⊢
        omega
      | false =>
        rw [if_neg (by simp)]
        split
        · refine ⟨xs, left + 1, rfl, .refl xs, fun ho hb => ?_⟩
          obtain ⟨i, x, h1, h2, hx, hxd⟩ := hb.advance hl hd
          obtain rfl : i = left + 1 := by omega
          exact (ho.advance hl hd).splitAt (by omega) hx hxd
        · obtain ⟨ys, e, hrun, hperm, hsplit⟩ := ih false (show left + 1 ≤ right by omega) hlt
            (by simp) (by
              simp only [partitionSteps, hl, hd, Option.any_some, Bool.false_eq_true,
                if_false] at hfuel ⊢
              split <;> omega)
          exact ⟨ys, e, hrun, hperm, fun ho hb => hsplit (ho.advance hl hd) (hb.advance hl hd)⟩
    | true =>
      obtain ⟨x₀, hx₀, hd₀⟩ := hleft rfl
      rw [partitionDummyLoop, hr]
      dsimp only
      cases hd : isDummy xs[right] with
      | true =>
        rw [if_pos rfl]
        split
        · exact ⟨xs, left, rfl, .refl xs, fun ho _ => (ho.retreat hr hd).splitAt (by omega) hx₀ hd₀⟩
        · obtain ⟨ys, e, hrun, hperm, hsplit⟩ := ih true (show left ≤ right - 1 by omega)
            (show right - 1 < xs.length by omega) (fun _ => ⟨x₀, hx₀, hd₀⟩) (by
              simp only [partitionSteps, if_true] at hfuel ⊢
              omega)
          exact ⟨ys, e, hrun, hperm, fun ho _ => hsplit (ho.retreat hr hd)
            ⟨left, x₀, by omega, by omega, hx₀, hd₀⟩⟩
      | false =>
        -- a dummy and a real element are exchanged
        rw [if_neg (by simp)]
        have hdl : isDummy xs[left] = true := by rwa [Option.some.inj (hl.symm.trans hx₀)]
        have hne : left ≠ right := by
          rintro rfl
          rw [hdl] at hd
          cases hd
        have hswap : ∀ k, (condSwap (fun _ _ => true) left right xs)[k]? =
            if k = right then some xs[left] else if k = left then some xs[right] else xs[k]? :=
          fun k => by
            rw [getElem?_condSwap _ (by omega) hlt]
            simp
        obtain ⟨ys, e, hrun, hperm, hsplit⟩ := ih false hle
          (show right < (condSwap (fun _ _ => true) left right xs).length by
            rwa [length_condSwap]) (by simp) (by
              simp only [partitionSteps, hswap, if_neg hne, Option.any_some, hd, if_true,
                Bool.false_eq_true, if_false] at hfuel ⊢
              omega)
        refine ⟨ys, e, hrun, hperm.trans (condSwap_perm _ _ _ _), fun ho _ => hsplit
          ⟨fun i hi x hx => ?_, fun i hi x hx => ?_⟩
          ⟨right, xs[left], hle, Nat.le_refl _, by rw [hswap, if_pos rfl], hdl⟩⟩
        · rw [hswap, if_neg (by omega), if_neg (by omega)] at hx
          exact ho.real i hi x hx
        · rw [hswap, if_neg (by omega), if_neg (by omega)] at hx
          exact ho.dummy i hi x hx

/-- **`partitionDummy`** ends with a permutation of its range; if there is a dummy, the real
elements come first and it returns their end. -/
theorem partitionDummy_spec {xs : List E} (hne : xs ≠ []) :
    ∃ ys e, partitionDummy isDummy xs = some (ys, e) ∧ List.Perm ys xs ∧
      ((∃ x ∈ xs, isDummy x = true) → SplitAt isDummy e ys) := by
  have hpos : 0 < xs.length := List.length_pos_iff.2 hne
  have hfuel : partitionSteps isDummy false 0 (xs.length - 1) xs < 3 * xs.length + 1 := by
    simp only [partitionSteps, Bool.false_eq_true, if_false]
    split <;> omega
  obtain ⟨ys, e, hrun, hperm, hsplit⟩ := partitionDummyLoop_ends _ false (Nat.zero_le _)
    (show xs.length - 1 < xs.length by omega) (by simp) hfuel
  refine ⟨ys, e, hrun, hperm, fun hdum => hsplit ⟨fun i hi => absurd hi (by omega), ?_⟩ ?_⟩
  · intro i hi x hx
    rw [List.getElem?_eq_none (by omega)] at hx
    cases hx
  · obtain ⟨x, hx, hd⟩ := hdum
    obtain ⟨i, hi, rfl⟩ := List.mem_iff_getElem.1 hx
    exact ⟨i, _, by omega, by omega, List.getElem?_eq_getElem hi, hd⟩

/-- The returned position is in the range or its end. -/
theorem partitionDummyLoop_le {fuel : Nat} {scanRight : Bool} {left right e : Nat} {xs ys : List E}
    (hlt : left < xs.length) (h : partitionDummyLoop isDummy fuel scanRight left right xs =
      some (ys, e)) :
    e ≤ ys.length := by
  induction fuel generalizing scanRight left right xs with
  | zero => cases h
  | succ fuel ih =>
    cases scanRight with
    | false =>
      rw [partitionDummyLoop, List.getElem?_eq_getElem hlt] at h
      dsimp only at h
      split at h
      · exact ih hlt h
      · split at h
        · cases h
          omega
        · by_cases hnext : left + 1 < xs.length
          · exact ih hnext h
          · cases fuel with
            | zero => cases h
            | succ fuel =>
              rw [partitionDummyLoop, List.getElem?_eq_none (by omega)] at h
              cases h
    | true =>
      rw [partitionDummyLoop] at h
      split at h
      · cases h
      · split at h
        · split at h
          · cases h
            omega
          · exact ih hlt h
        · exact ih (by rwa [length_condSwap]) h

/-- Over real elements only, the left pointer runs up to the right one. -/
theorem partitionDummyLoop_real {fuel left right : Nat} {xs : List E}
    (hreal : ∀ x ∈ xs, isDummy x = false) (hlt : left < right) (hright : right < xs.length)
    (hfuel : right - left ≤ fuel) :
    partitionDummyLoop isDummy fuel false left right xs = some (xs, right) := by
  induction fuel generalizing left with
  | zero => omega
  | succ fuel ih =>
    have hl : left < xs.length := by omega
    rw [partitionDummyLoop, List.getElem?_eq_getElem hl]
    dsimp only
    rw [if_neg (by rw [hreal _ (List.getElem_mem hl)]; exact Bool.false_ne_true)]
    by_cases hmeet : right ≤ left + 1
    · obtain rfl : right = left + 1 := by omega
      rw [if_pos hmeet]
    · rw [if_neg hmeet]
      exact ih (by omega) (by omega)

/-- **When `partitionDummy` partitions**: a non-empty range is split at the returned position
exactly when it has a dummy or a single element. -/
theorem partitionDummy_splits_iff (isDummy : E → Bool) (xs : List E) (hne : xs ≠ []) :
    (∃ ys e, partitionDummy isDummy xs = some (ys, e) ∧ List.Perm ys xs ∧ e ≤ ys.length ∧
        SplitAt isDummy e ys) ↔
      (∃ x ∈ xs, isDummy x = true) ∨ xs.length = 1 := by
  have hpos : 0 < xs.length := List.length_pos_iff.2 hne
  constructor
  · rintro ⟨ys, e, hrun, -, -, hsplit⟩
    by_contra hnot
    push Not at hnot
    obtain ⟨hreal, hlen⟩ := hnot
    have hreal : ∀ x ∈ xs, isDummy x = false := fun x hx => Bool.eq_false_iff.2 (hreal x hx)
    have hstop : partitionDummy isDummy xs = some (xs, xs.length - 1) :=
      partitionDummyLoop_real hreal (by omega) (by omega) (by omega)
    rw [hstop] at hrun
    cases hrun
    -- the last element is real and lies behind the returned position
    have hlast : xs.length - 1 < xs.length := by omega
    have := hsplit.dummy _ (Nat.le_refl _) _ (List.getElem?_eq_getElem hlast)
    rw [hreal _ (List.getElem_mem hlast)] at this
    cases this
  · intro h
    obtain ⟨ys, e, hrun, hperm, hsplit⟩ := @partitionDummy_spec _ isDummy xs hne
    have he : e ≤ ys.length := partitionDummyLoop_le hpos hrun
    rcases h with hdum | hone
    · exact ⟨ys, e, hrun, hperm, he, hsplit hdum⟩
    · by_cases hdum : ∃ x ∈ xs, isDummy x = true
      · exact ⟨ys, e, hrun, hperm, he, hsplit hdum⟩
      · obtain ⟨x, rfl⟩ := List.length_eq_one_iff.1 hone
        have hx : isDummy x = false := by simpa using hdum
        refine ⟨[x], 1, by simp [partitionDummy, partitionDummyLoop,
          hx], .refl _, Nat.le_refl _, ?_, ?_⟩
        · intro i hi y hy
          obtain rfl : i = 0 := by omega
          rwa [← Option.some.inj hy]
        · intro i hi y hy
          rw [List.getElem?_eq_none hi] at hy
          cases hy

/-- A dummy in front of a real element. -/
theorem partitionDummy_splits_iff_pair :
    ([true, false] ≠ []) ∧ ∃ ys e, partitionDummy id [true, false] = some (ys, e) ∧
      List.Perm ys [true, false] ∧ e ≤ ys.length ∧ SplitAt id e ys :=
  ⟨by decide, (partitionDummy_splits_iff id [true, false] (by decide)).2
    (.inl ⟨true, List.mem_cons_self, rfl⟩)⟩

/-- Two real elements: the second one is counted among the dummies. -/
theorem partitionDummy_drops_real :
    ¬ ∃ ys e, partitionDummy id [false, false] = some (ys, e) ∧ List.Perm ys [false, false] ∧
      e ≤ ys.length ∧ SplitAt id e ys := by
  rintro ⟨ys, e, hrun, -, -, hsplit⟩
  have hstop : partitionDummy id [false, false] = some ([false, false], 1) := by decide
  rw [hstop] at hrun
  cases hrun
  cases hsplit.dummy 1 (Nat.le_refl _) false rfl

end EM.Algorithm
