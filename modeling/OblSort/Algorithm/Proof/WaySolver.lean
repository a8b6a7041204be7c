import Mathlib.Algebra.BigOperators.Group.List.Basic
import Mathlib.Algebra.Order.BigOperators.GroupWithZero.List
import Mathlib.Algebra.Field.Rat
import Mathlib.Algebra.Order.Ring.Rat
import Mathlib.Tactic.Linarith
import OblSort.Algorithm.WaySolver

/-!
# What the way solver returns

Whatever the costs are, the ways that `solverHelper` returns are a list that its search tries
(`Tried`): the target shrinks with every option, and a new layer, which leaves the target as it is,
can use every option. So the recursion ends, and a list that is tried reaches the target unless
`divRoundUp` has wrapped around. The grouping into layers multiplies without a bound, but only the
first layer can wrap around: the other ways multiply to less than the target.
-/

namespace EM.Algorithm.ButterflyWaySolver

variable {K : Type} {S : ButterflyWaySolver K}

/-! ## Division -/

/-- No product that is more than `max` wraps around to one that is not. -/
def NoWrap (max acc : Nat) (ways : List Nat) : Prop :=
  ∀ j, acc * (ways.take j).prod ≤ max → acc * (ways.take (j + 1)).prod % 2 ^ 64 ≤ max →
    acc * (ways.take (j + 1)).prod ≤ max

theorem NoWrap.tail {max acc w : Nat} {ways : List Nat} (h : NoWrap max acc (w :: ways)) :
    NoWrap max (acc * w) ways := by
  intro j hj hmod
  have := h (j + 1)
  simp only [List.take_succ_cons, List.prod_cons, ← Nat.mul_assoc] at this
  exact this hj hmod

/-- What the constructor and its callers promise. -/
structure Valid (S : ButterflyWaySolver K) : Prop where
  ne : S.options ≠ []
  two_le : ∀ o ∈ S.options, 2 ≤ o
  le_max : ∀ o ∈ S.options, o ≤ S.maxWayInternal
  max_lt : S.maxWayInternal < 2 ^ 64

theorem getD_mem {options : List Nat} {i : Nat} (hi : i < options.length) :
    options.getD i 0 ∈ options := by
  rw [List.getD_eq_getElem?_getD, List.getElem?_eq_getElem hi]
  exact List.getElem_mem hi

/-- The options at which the loop returns. -/
def Stops (S : ButterflyWaySolver K) (target i : Nat) : Prop :=
  S.option i = target ∨ S.option i = S.maxWayInternal

/-- The loop does not return at the option `j`: it has no room for it, or goes on. -/
def GoesOn (options : List Nat) (maxWayInternal target remain j : Nat) : Prop :=
  options.getD j 0 ≤ remain → options.getD j 0 ≠ target ∧ options.getD j 0 ≠ maxWayInternal

/-- The lists of ways that the search tries: which of them it keeps is up to the costs. It comes to
an option if the loop returns at none before it, and to a new layer if it returns at none. -/
inductive Tried (options : List Nat) (maxWayInternal : Nat) :
    (optionCount targetProduct remainWayInternal : Nat) → List Nat → Prop where
  | done {count target remain : Nat} (h : target ≤ 1) :
      Tried options maxWayInternal count target remain []
  | use {count target remain i option : Nat} {ways : List Nat} (h2 : 2 ≤ target) (hi : i < count)
      (hgo : ∀ j < i, GoesOn options maxWayInternal target remain j)
      (hoption : option = options.getD i 0) (hle : option ≤ remain)
      (h : Tried options maxWayInternal (i + 1) (divRoundUp64 target option) (remain / option)
        ways) :
      Tried options maxWayInternal count target remain (ways ++ [option])
  | layer {count target remain : Nat} {ways : List Nat} (h2 : 2 ≤ target)
      (hgo : ∀ j < count, GoesOn options maxWayInternal target remain j)
      (hlt : remain < options.getD (count - 1) 0)
      (h : Tried options maxWayInternal options.length target maxWayInternal ways) :
      Tried options maxWayInternal count target remain ways

theorem Tried.mem {options : List Nat} {maxWayInternal count target remain : Nat} {ways : List Nat}
    (h : Tried options maxWayInternal count target remain ways) (hcount : count ≤ options.length) :
    ∀ w ∈ ways, w ∈ options := by
  induction h with
  | done _ => intro w hw; cases hw
  | use _ hi _ hoption _ _ ih =>
    intro w hw
    obtain hw | hw := List.mem_append.1 hw
    · exact ih (by omega) w hw
    · rw [List.mem_singleton.1 hw, hoption]
      exact getD_mem (by omega)
  | layer _ _ _ _ ih => exact ih (Nat.le_refl _)

theorem Tried.eq_nil {count target remain : Nat} {ways : List Nat}
    (h : Tried S.options S.maxWayInternal count target remain ways) (h1 : target ≤ 1) :
    ways = [] := by
  cases h with
  | done _ => rfl
  | use h2 _ _ _ _ _ => omega
  | layer h2 _ _ _ => omega

theorem Tried.ne {count target remain : Nat} {ways : List Nat}
    (h : Tried S.options S.maxWayInternal count target remain ways) (h2 : 2 ≤ target) :
    ways ≠ [] := by
  induction h with
  | done _ => omega
  | use _ _ _ _ _ _ _ => simp
  | layer _ _ _ _ ih => exact ih h2

section Costs

variable [Field K]

/-- The solutions that the search finds, with their costs. -/
inductive Found (S : ButterflyWaySolver K) :
    (optionCount targetProduct remainWayInternal : Nat) → K → List Nat → Prop where
  | done {count target remain : Nat} (h : target ≤ 1) : Found S count target remain 0 []
  | use {count target remain i : Nat} {cost : K} {ways : List Nat} (h2 : 2 ≤ target)
      (hi : i < count) (hgo : ∀ j < i, GoesOn S.options S.maxWayInternal target remain j)
      (hle : S.option i ≤ remain)
      (h : Found S (i + 1) (divRoundUp64 target (S.option i)) (remain / S.option i) cost ways) :
      Found S count target remain
        (cost * S.option i + S.unitCosts.getD i 0 * waysProduct (S.option i) ways)
        (ways ++ [S.option i])
  | layer {count target remain : Nat} {cost : K} {ways : List Nat} (h2 : 2 ≤ target)
      (hgo : ∀ j < count, GoesOn S.options S.maxWayInternal target remain j)
      (hlt : remain < S.option (count - 1))
      (h : Found S S.options.length target S.maxWayInternal cost ways) :
      Found S count target remain (cost + waysProduct 1 ways * S.ioCost) ways

/-- A finite cost and the ways it is found for. -/
def IsFound (S : ButterflyWaySolver K) (count target remain : Nat) (r : Solution K) : Prop :=
  ∃ (cost : K) (ways : List Nat), r = (↑cost, ways) ∧ Found S count target remain cost ways

theorem IsFound.withOption {count target remain i : Nat} {r : Solution K} (h2 : 2 ≤ target)
    (hi : i < count) (hgo : ∀ j < i, GoesOn S.options S.maxWayInternal target remain j)
    (hle : S.option i ≤ remain)
    (h : IsFound S (i + 1) (divRoundUp64 target (S.option i)) (remain / S.option i) r) :
    IsFound S count target remain (S.withOption i r) := by
  obtain ⟨cost, ways, rfl, hfound⟩ := h
  exact ⟨_, _, rfl, .use h2 hi hgo hle hfound⟩

end Costs

/-! ## The loop over the options -/

section Loop

variable [LinearOrder K]

theorem better_cases (best candidate : Solution K) :
    better best candidate = best ∧ best.1 ≤ candidate.1 ∨
      better best candidate = candidate ∧ candidate.1 < best.1 := by
  unfold better
  split
  · exact .inr ⟨rfl, ‹_›⟩
  · exact .inl ⟨rfl, le_of_not_gt ‹_›⟩

theorem better_le_left (best candidate : Solution K) : (better best candidate).1 ≤ best.1 := by
  obtain ⟨h, -⟩ | ⟨h, hlt⟩ := better_cases best candidate
  · rw [h]
  · rw [h]
    exact hlt.le

theorem better_le_right (best candidate : Solution K) :
    (better best candidate).1 ≤ candidate.1 := by
  obtain ⟨h, hle⟩ | ⟨h, -⟩ := better_cases best candidate
  · rwa [h]
  · rw [h]

variable [Field K] {helper : Nat → Nat → Nat → Option (Solution K)} {target remain : Nat}

/-- The solution for the children of an option. -/
def Child (S : ButterflyWaySolver K) (helper : Nat → Nat → Nat → Option (Solution K))
    (target remain i : Nat) (r : Solution K) : Prop :=
  S.option i ≤ remain ∧
    helper (i + 1) (divRoundUp64 target (S.option i)) (remain / S.option i) = some r

/-- The loop does not return at any of the options. -/
def PassesAll (S : ButterflyWaySolver K) (target remain : Nat) (is : List Nat) : Prop :=
  ∀ j ∈ is, GoesOn S.options S.maxWayInternal target remain j

omit [LinearOrder K] [Field K] in
theorem PassesAll.cons {is : List Nat} {i : Nat} (hi : S.option i ≤ remain → ¬ Stops S target i)
    (h : PassesAll S target remain is) : PassesAll S target remain (i :: is) :=
  List.forall_mem_cons.2 ⟨fun hle => not_or.1 (hi hle), h⟩

/-- What the loop over the options returns: the best of what it had and of the options it has tried,
all up to the first that stops it. -/
structure LoopResult (S : ButterflyWaySolver K) (helper : Nat → Nat → Nat → Option (Solution K))
    (target remain : Nat) (is : List Nat) (best best' : Solution K) : Prop where
  origin : best' = best ∨ ∃ pre i post r, is = pre ++ i :: post ∧ PassesAll S target remain pre ∧
    Child S helper target remain i r ∧ best' = S.withOption i r
  le : best'.1 ≤ best.1
  le_option : ∀ pre i post r, is = pre ++ i :: post → (∀ j ∈ pre, ¬ Stops S target j) →
    Child S helper target remain i r → best'.1 ≤ (S.withOption i r).1

theorem LoopResult.skip {is : List Nat} {i : Nat} {best best' : Solution K}
    (h : LoopResult S helper target remain is best best') (hi : ¬ S.option i ≤ remain) :
    LoopResult S helper target remain (i :: is) best best' where
  origin := by
    refine h.origin.imp_right ?_
    rintro ⟨pre, j, post, r, rfl, hpre, hr⟩
    exact ⟨i :: pre, j, post, r, rfl, hpre.cons fun hle => absurd hle hi, hr⟩
  le := h.le
  le_option pre k post r hsplit hpre hr := by
    cases pre with
    | nil =>
      cases hsplit
      exact absurd hr.1 hi
    | cons j pre =>
      cases hsplit
      exact h.le_option pre k post r rfl (fun j hj => hpre j (List.mem_cons_of_mem _ hj)) hr

theorem LoopResult.stop {is : List Nat} {i : Nat} {best r : Solution K}
    (hr : Child S helper target remain i r) (hi : Stops S target i) :
    LoopResult S helper target remain (i :: is) best (better best (S.withOption i r)) where
  origin := (better_cases best _).imp And.left fun h =>
    ⟨[], i, is, r, rfl, nofun, hr, h.1⟩
  le := better_le_left _ _
  le_option pre k post r' hsplit hpre hr' := by
    cases pre with
    | nil =>
      cases hsplit
      cases Option.some.inj (hr.2.symm.trans hr'.2)
      exact better_le_right _ _
    | cons j pre =>
      cases hsplit
      exact absurd hi (hpre _ List.mem_cons_self)

theorem LoopResult.cons {is : List Nat} {i : Nat} {best best' r : Solution K}
    (hr : Child S helper target remain i r) (hi : ¬ Stops S target i)
    (h : LoopResult S helper target remain is (better best (S.withOption i r)) best') :
    LoopResult S helper target remain (i :: is) best best' where
  origin := by
    obtain h | ⟨pre, j, post, r', rfl, hpre, hr'⟩ := h.origin
    · rw [h]
      exact (better_cases best _).imp And.left fun h => ⟨[], i, is, r, rfl, nofun, hr, h.1⟩
    · exact .inr ⟨i :: pre, j, post, r', rfl, hpre.cons fun _ => hi, hr'⟩
  le := h.le.trans (better_le_left _ _)
  le_option pre k post r' hsplit hpre hr' := by
    cases pre with
    | nil =>
      cases hsplit
      cases Option.some.inj (hr.2.symm.trans hr'.2)
      exact h.le.trans (better_le_right _ _)
    | cons j pre =>
      cases hsplit
      exact h.le_option pre k post r' rfl (fun j hj => hpre j (List.mem_cons_of_mem _ hj)) hr'

end Loop

/-! ## Wrapping around -/

section Wraps

variable [Field K] [LinearOrder K] [IsStrictOrderedRing K]

variable {o target : Nat}

end Wraps

/-! ## The condition -/

end EM.Algorithm.ButterflyWaySolver
