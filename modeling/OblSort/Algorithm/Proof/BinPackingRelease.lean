import OblSort.Algorithm.Proof.BinPacking

/-!
# Bin packing without assertions

With `NDEBUG` the loop of `binPacking` marks excess real elements like dummies. As long as there are
none the two builds do the same (`markExcessRelease_eq`); with an excess element the output has
fewer real elements than the input (`length_reals_markExcessRelease_lt`).
-/

namespace EM.Algorithm.CABucketSort

open Store

variable {α : Type} {o L Z : Nat}

/-! ## The marking loop -/

/-- The loop with the assertion, where it does not fail. -/
theorem markExcessRelease_eq {mask curr : BitVec 64} {count : Nat} {xs ys : List (TaggedT α)}
    (hrun : markExcess Z mask count curr xs = .ok ys) :
    markExcessRelease Z mask count curr xs = ys := by
  induction xs generalizing count curr ys with
  | nil =>
    cases hrun
    rfl
  | cons x xs ih =>
    simp only [markExcess] at hrun
    simp only [markExcessRelease]
    generalize (if x.tag &&& mask ≠ curr then 0 else count) = c at hrun ⊢
    split at hrun
    · cases hrun
    · cases hrest : markExcess Z mask (c + 1) (x.tag &&& mask) xs with
      | error e =>
        rw [hrest] at hrun
        cases hrun
      | ok zs =>
        rw [hrest] at hrun
        cases hrun
        rw [ih hrest]

theorem dummyFlag_marked (x : TaggedT α) : dummyFlag { x with tag := -1 } = true :=
  (by decide : ((-1 : BitVec 64) &&& 1 != 0) = true)

theorem length_reals_cons (x : TaggedT α) (xs : List (TaggedT α)) :
    (reals (x :: xs)).length = (!dummyFlag x).toNat + (reals xs).length := by
  cases hx : dummyFlag x <;> simp [reals, hx, Nat.add_comm]

theorem length_reals_markExcessRelease_le (mask curr : BitVec 64) (count : Nat)
    (xs : List (TaggedT α)) :
    (reals (markExcessRelease Z mask count curr xs)).length ≤ (reals xs).length := by
  induction xs generalizing count curr with
  | nil => exact Nat.le_refl 0
  | cons x xs ih =>
    simp only [markExcessRelease]
    generalize (if x.tag &&& mask ≠ curr then 0 else count) = c
    have ih := ih (x.tag &&& mask) (c + 1)
    rw [length_reals_cons, length_reals_cons]
    by_cases hc : c ≥ Z
    · rw [if_pos hc, dummyFlag_marked]
      exact Nat.add_le_add (Nat.zero_le _) ih
    · rw [if_neg hc]
      exact Nat.add_le_add_left ih _

/-- Where the assertion would fail, a real element is lost. -/
theorem length_reals_markExcessRelease_lt {mask curr : BitVec 64} {count : Nat}
    {xs : List (TaggedT α)} {e : Abort} (hrun : markExcess Z mask count curr xs = .error e) :
    (reals (markExcessRelease Z mask count curr xs)).length < (reals xs).length := by
  induction xs generalizing count curr with
  | nil => cases hrun
  | cons x xs ih =>
    simp only [markExcess] at hrun
    simp only [markExcessRelease]
    generalize (if x.tag &&& mask ≠ curr then 0 else count) = c at hrun ⊢
    rw [length_reals_cons, length_reals_cons]
    by_cases hover : c ≥ Z ∧ dummyFlag x = false
    · have hle := length_reals_markExcessRelease_le (Z := Z) mask (x.tag &&& mask) (c + 1) xs
      rw [if_pos hover.1, dummyFlag_marked, hover.2]
      exact Nat.add_lt_add_of_lt_of_le Nat.zero_lt_one hle
    · rw [if_neg hover] at hrun
      cases hrest : markExcess Z mask (c + 1) (x.tag &&& mask) xs with
      | ok zs =>
        rw [hrest] at hrun
        cases hrun
      | error e' =>
        rw [hrest] at hrun
        cases hrun
        have ih := ih hrest
        by_cases hc : c ≥ Z
        · rw [if_pos hc, dummyFlag_marked]
          exact Nat.add_lt_add_of_le_of_lt (Nat.zero_le _) ih
        · rw [if_neg hc]
          exact Nat.add_lt_add_left ih _

/-! ## Packing -/

/-- Routed buckets have all real elements. -/
theorem Routed.reals_perm {xs ys : List (TaggedT α)} (hr : Routed o L Z xs ys) :
    List.Perm (reals ys) (reals xs) := by
  have hbuckets : gather (2 ^ L) (fun j => bucket Z j ys) = ys := by
    have h := gather_take_drop Z (2 ^ L) ys
    rwa [← hr.size, List.take_length] at h
  calc
    List.Perm (reals ys) (gather (2 ^ L) fun j => reals (bucket Z j ys)) := by
      conv_lhs => rw [← hbuckets]
      exact .of_eq (gather_filter _ _)
    List.Perm _ (gather (2 ^ L) fun j => ofDigit o L j (reals xs)) := gather_perm hr.buckets
    List.Perm _ (reals xs) := gather_ofDigit_perm o L _

section

variable [Inhabited α] (h : o + L ≤ 63) (hZ : 0 < Z) {xs : List (TaggedT α)}
  (hlen : xs.length = 2 ^ L * Z) (hsize : 2 * (2 ^ L * Z) ≤ 2 ^ 63)

include h hZ hlen

theorem binPackingRelease_eq :
    binPackingRelease Z (maskAt o) xs =
      (bitonicSortList (cmpMasked (rangeMask o L + 1))
        (markExcessRelease Z (rangeMask o L) 0 0 (packed o L Z xs))).take (2 ^ L * Z) := by
  have hdiv : xs.length / Z = 2 ^ L := by rw [hlen, Nat.mul_div_cancel _ hZ]
  rw [binPackingRelease, hdiv, getLogBaseTwo_two_pow L (by omega), hlen]
  rfl

/-- The two builds agree unless the assertion fails. -/
theorem binPackingRelease_of_ok {ys : List (TaggedT α)}
    (hrun : binPacking Z (maskAt o) xs = .ok ys) : binPackingRelease Z (maskAt o) xs = ys := by
  rw [binPacking_eq h hZ hlen] at hrun
  rw [binPackingRelease_eq h hZ hlen]
  cases hmark : markExcess Z (rangeMask o L) 0 0 (packed o L Z xs) with
  | error e =>
    rw [hmark] at hrun
    cases hrun
  | ok temp =>
    rw [hmark] at hrun
    cases hrun
    rw [markExcessRelease_eq hmark]

/-- An overflow loses real elements. -/
theorem length_reals_binPackingRelease_lt (hrun : binPacking Z (maskAt o) xs = .error .overflow) :
    (reals (binPackingRelease Z (maskAt o) xs)).length < (reals xs).length := by
  rw [binPacking_eq h hZ hlen] at hrun
  rw [binPackingRelease_eq h hZ hlen]
  cases hmark : markExcess Z (rangeMask o L) 0 0 (packed o L Z xs) with
  | ok temp =>
    rw [hmark] at hrun
    cases hrun
  | error e =>
    calc
      _ ≤ (reals (bitonicSortList (cmpMasked (rangeMask o L + 1))
            (markExcessRelease Z (rangeMask o L) 0 0 (packed o L Z xs)))).length :=
        ((List.take_sublist _ _).filter _).length_le
      _ = (reals (markExcessRelease Z (rangeMask o L) 0 0 (packed o L Z xs))).length :=
        (reals_perm (bitonicSortList_perm _ _)).length_eq
      _ < (reals (packed o L Z xs)).length := length_reals_markExcessRelease_lt hmark
      _ = (reals xs).length := reals_packed_perm.length_eq

include hsize

/-- **Release builds lose elements** exactly when a bucket overflows. -/
theorem binPackingRelease_keeps_iff :
    List.Perm (reals (binPackingRelease Z (maskAt o) xs)) (reals xs) ↔
      ∀ j < 2 ^ L, (ofDigit o L j (reals xs)).length ≤ Z := by
  have hover := binPacking_overflow_iff h hZ hlen hsize
  constructor
  · intro hperm
    by_contra hbig
    have hrun := hover.2 (by simpa using hbig)
    have hlt := length_reals_binPackingRelease_lt h hZ hlen hrun
    rw [hperm.length_eq] at hlt
    exact Nat.lt_irrefl _ hlt
  · intro hfits
    have hends := binPacking_ends h hZ hlen hsize
    cases hrun : binPacking Z (maskAt o) xs with
    | error e =>
      rw [hrun] at hends
      obtain rfl : e = .overflow := hends
      obtain ⟨j, hj, hlt⟩ := hover.1 hrun
      exact absurd (hfits j hj) (Nat.not_le.2 hlt)
    | ok ys =>
      rw [hrun] at hends
      rw [binPackingRelease_of_ok h hZ hlen hrun]
      exact hends.reals_perm

end

/-- Two real elements, for the two buckets of one element or both for the first. -/
def onePerBucket : List (TaggedT Nat) := [⟨0, 10⟩, ⟨1#64 <<< 63, 11⟩]

def bothInFirst : List (TaggedT Nat) := [⟨0, 10⟩, ⟨2, 11⟩]

theorem binPackingRelease_keeps_two :
    List.Perm (reals (binPackingRelease 1 (maskAt 0) onePerBucket)) (reals onePerBucket) :=
  (binPackingRelease_keeps_iff (show 0 + 1 ≤ 63 by decide) Nat.one_pos rfl (by decide)).2
    (by decide)

theorem binPackingRelease_loses :
    ¬ List.Perm (reals (binPackingRelease 1 (maskAt 0) bothInFirst)) (reals bothInFirst) := by
  decide +kernel

end EM.Algorithm.CABucketSort
