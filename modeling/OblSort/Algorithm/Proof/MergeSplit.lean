import OblSort.Algorithm.MergeSplit
import OblSort.Algorithm.Proof.Interleave
import Mathlib.Algebra.BigOperators.Intervals

/-!
# The two paths of a merge-split

`mergeSplitTwoWay_spec` and `mergeSplitMulti_spec` say what the two paths do for any kind of
element. The counts of the `k`-way path live in 32-bit lanes, which hold them as long as
`(k - 1) * Z ≤ 2 ^ 31`; that it keeps the elements (`mergeSplitMulti_perm`) needs no such bound.
-/

namespace EM.Algorithm

/-! ## Two ways -/

section TwoWay

variable {E Indicator : Type} [Markable E Indicator]

/-- The real elements of a range. -/
def reals (xs : List E) : List E := xs.filter fun x => !Markable.isDummy x

/-- Marking and changing a mark do what they say and leave the dummy flag alone. -/
structure LawfulMark (E : Type) {Indicator : Type} [Markable E Indicator] (ind : Indicator) :
    Prop where
  set_marked : ∀ x : E, (Markable.setAndGetMarked ind x).1 =
    Markable.isMarked ind (Markable.setAndGetMarked ind x).2
  set_dummy : ∀ x : E, Markable.isDummy (Markable.setAndGetMarked ind x).2 = Markable.isDummy x
  change_marked : ∀ x : E, Markable.isMarked ind (Markable.condChangeMark true ind x) =
    !Markable.isMarked ind x
  change_dummy : ∀ x : E, Markable.isDummy (Markable.condChangeMark true ind x) =
    Markable.isDummy x
  change_false : ∀ x : E, Markable.condChangeMark false ind x = x

variable {ind : Indicator}

/-- What changing marks does: real elements and the dummy flags stay, and `diff` marks change as far
as there are dummies with mark `dir`. -/
theorem changeMarks_spec (h : LawfulMark E ind) (dir : Bool) (diff : Nat) (xs : List E) :
    (changeMarks ind dir diff xs).1 = diff - xs.countP (fun x => Markable.isDummy x &&
        Markable.isMarked ind x == dir) ∧
      (changeMarks ind dir diff xs).2.length = xs.length ∧
      reals (changeMarks ind dir diff xs).2 = reals xs ∧
      (if dir then (changeMarks ind dir diff xs).2.countP (Markable.isMarked ind) + diff =
          xs.countP (Markable.isMarked ind) + (changeMarks ind dir diff xs).1
        else (changeMarks ind dir diff xs).2.countP (Markable.isMarked ind) +
          (changeMarks ind dir diff xs).1 = xs.countP (Markable.isMarked ind) + diff) := by
  induction xs generalizing diff with
  | nil => simp [changeMarks]
  | cons x xs ih =>
    simp only [changeMarks]
    by_cases hc : (Markable.isDummy x && decide (diff ≠ 0) && Markable.isMarked ind x == dir) = true
    · obtain ⟨h1, h2, h3, h4⟩ := ih (diff - 1)
      simp only [Bool.and_eq_true, decide_eq_true_eq, beq_iff_eq] at hc
      obtain ⟨⟨hd, h0⟩, hmark⟩ := hc
      have hflip := h.change_marked x
      have hdum := h.change_dummy x
      rw [hmark] at hflip
      rw [hd] at hdum
      simp only [hd, h0, hmark, ne_eq, not_false_eq_true, decide_true, Bool.and_self,
        beq_self_eq_true, Bool.toNat_true, List.length_cons, List.countP_cons, hflip]
      refine ⟨by simp only [if_true]; omega, by omega, ?_, ?_⟩
      · simp only [reals, List.filter_cons, hd, hdum, Bool.not_true, Bool.false_eq_true, if_false]
        exact h3
      · cases dir <;> simp only [Bool.false_eq_true, if_false, if_true, Bool.not_true,
          Bool.not_false] at h4 ⊢ <;> omega
    · rw [Bool.not_eq_true] at hc
      obtain ⟨h1, h2, h3, h4⟩ := ih diff
      simp only [hc, Bool.toNat_false, Nat.sub_zero, h.change_false, List.length_cons,
        List.countP_cons]
      refine ⟨?_, by omega, ?_, ?_⟩
      · by_cases h0 : diff = 0
        · subst h0; omega
        · simp only [ne_eq, h0, not_false_eq_true, decide_true, Bool.and_true] at hc
          simp only [hc, Bool.false_eq_true, if_false]
          omega
      · simp only [reals, List.filter_cons]
        split
        · exact congrArg _ h3
        · exact h3
      · cases dir <;> simp only [Bool.false_eq_true, if_false, if_true] at h4 ⊢ <;> omega

theorem reals_append (xs ys : List E) : reals (xs ++ ys) = reals xs ++ reals ys :=
  List.filter_append ..

theorem perm_reals {xs ys : List E} (h : List.Perm xs ys) : List.Perm (reals xs) (reals ys) :=
  h.filter _

/-- The elements of both buckets with their marks set. -/
def setMarks (ind : Indicator) (xs : List E) : List E :=
  xs.map fun x => (Markable.setAndGetMarked ind x).2

/-- Real and dummy elements, marked or not. -/
theorem countP_split (p : E → Bool) (xs : List E) :
    xs.countP p = (reals xs).countP p + xs.countP fun x => Markable.isDummy x && p x := by
  induction xs with
  | nil => rfl
  | cons x xs ih =>
    simp only [reals, List.filter_cons, List.countP_cons] at ih ⊢
    cases Markable.isDummy x <;> cases hp : p x <;> simp [hp] at ih ⊢ <;> omega

/-- The marked elements of a range with their marks set. -/
theorem countP_setMarks (h : LawfulMark E ind) (xs : List E) :
    (xs.map (Markable.setAndGetMarked ind)).countP (·.1) =
      (setMarks ind xs).countP (Markable.isMarked ind) := by
  rw [setMarks, List.countP_map, List.countP_map]
  exact List.countP_congr fun x _ => by simp [h.set_marked x]

/-- **Balancing** `2 * Z` elements fails exactly when more than `Z` real ones are marked or more
than `Z` are not; otherwise as many are marked as not. -/
theorem changeMarks_balance (h : LawfulMark E ind) {Z : Nat} {ys : List E}
    (hlen : ys.length = 2 * Z)
    {dir : Bool} (hdir : decide (ys.countP (Markable.isMarked ind) > Z) = dir) {diff : Nat}
    (hdiff : (if dir = true then ys.countP (Markable.isMarked ind) - Z else
      Z - ys.countP (Markable.isMarked ind)) = diff) :
    ((changeMarks ind dir diff ys).1 = 0 ↔
      ¬ (Z < (reals ys).countP (Markable.isMarked ind) ∨
        Z < (reals ys).countP fun x => !Markable.isMarked ind x)) ∧
    ((changeMarks ind dir diff ys).1 = 0 →
      (changeMarks ind dir diff ys).2.countP (Markable.isMarked ind) = Z) := by
  have hsplit1 := countP_split (Markable.isMarked ind) ys
  have hsplit0 := countP_split (fun x => !Markable.isMarked ind x) ys
  have hall : ys.length = _ := List.length_eq_countP_add_countP (Markable.isMarked ind)
  simp only [Bool.not_eq_true, Bool.decide_eq_false] at hall
  obtain ⟨c1, -, -, c4⟩ := changeMarks_spec h dir diff ys
  have hdummies : ys.countP (fun x => Markable.isDummy x && Markable.isMarked ind x == dir) =
      if dir then ys.countP (fun x => Markable.isDummy x && Markable.isMarked ind x)
      else ys.countP (fun x => Markable.isDummy x && !Markable.isMarked ind x) := by
    cases dir <;> simp
  rw [hdummies] at c1
  constructor
  · cases dir <;> simp only [Bool.false_eq_true, if_false, if_true, decide_eq_false_iff_not,
      decide_eq_true_eq] at hdir hdiff c1 <;> omega
  · intro h0
    cases dir <;> simp only [Bool.false_eq_true, if_false, if_true, decide_eq_false_iff_not,
      decide_eq_true_eq] at hdir hdiff c4 <;> omega

/-- **`MergeSplitTwoWay`** aborts exactly when more than `Z` real elements are marked or more than
`Z` are not; otherwise the marked ones are on the left and the others on the right. -/
theorem mergeSplitTwoWay_spec (h : LawfulMark E ind) {Z : Nat} (h2 : 2 ≤ Z) (heven : Z % 2 = 0)
    {left right : List E} (hl : left.length = Z) (hr : right.length = Z) :
    (mergeSplitTwoWay Z ind left right = none ↔
      Z < (reals (setMarks ind (left ++ right))).countP (Markable.isMarked ind) ∨
        Z < (reals (setMarks ind (left ++ right))).countP fun x => !Markable.isMarked ind x) ∧
    ∀ out, mergeSplitTwoWay Z ind left right = some out →
      out.1.length = Z ∧ out.2.length = Z ∧
      List.Perm (reals out.1) ((reals (setMarks ind (left ++ right))).filter
        (Markable.isMarked ind)) ∧
      List.Perm (reals out.2) ((reals (setMarks ind (left ++ right))).filter
        fun x => !Markable.isMarked ind x) := by
  have hys : ((left ++ right).map (Markable.setAndGetMarked ind)).map (·.2) =
      setMarks ind (left ++ right) := by
    rw [List.map_map]
    rfl
  have hlen : (setMarks ind (left ++ right)).length = 2 * Z := by
    rw [setMarks, List.length_map, List.length_append]
    omega
  unfold mergeSplitTwoWay
  simp only [hys, countP_setMarks h]
  generalize setMarks ind (left ++ right) = ys at hlen ⊢
  generalize hdir : decide (ys.countP (Markable.isMarked ind) > Z) = dir
  generalize hdiff : (if dir = true then ys.countP (Markable.isMarked ind) - Z else
    Z - ys.countP (Markable.isMarked ind)) = diff
  obtain ⟨-, c2, c3, -⟩ := changeMarks_spec h dir diff ys
  obtain ⟨habort, hbalance⟩ := changeMarks_balance h hlen hdir hdiff
  by_cases h0 : (changeMarks ind dir diff ys).1 = 0
  · refine ⟨iff_of_false (by simp [h0]) (habort.1 h0), fun out hout => ?_⟩
    simp only [h0, ne_eq, not_true_eq_false, if_false, Option.some.injEq] at hout
    have hmarked := hbalance h0
    generalize (changeMarks ind dir diff ys).2 = zs at *
    obtain ⟨p1, p2, p3, p4⟩ := interleaveTwoWayPartition_spec (Markable.isMarked ind)
      (show (zs.take Z).length = Z by rw [List.length_take]; omega)
      (show (zs.drop Z).length = Z by rw [List.length_drop]; omega) h2 heven
      (by rw [← List.countP_append, List.take_append_drop, hmarked])
    rw [hout, List.take_append_drop] at p1
    rw [hout] at p2 p3 p4
    have hlen2 := p1.length_eq
    rw [List.length_append] at hlen2
    have hreals := perm_reals p1
    rw [reals_append, c3] at hreals
    have m1 : ∀ x ∈ reals out.1, Markable.isMarked ind x = true :=
      fun x hx => p3 x (List.mem_of_mem_filter hx)
    have m2 : ∀ x ∈ reals out.2, Markable.isMarked ind x = false :=
      fun x hx => p4 x (List.mem_of_mem_filter hx)
    refine ⟨p2, by omega, ?_, ?_⟩
    · have hf := hreals.filter (Markable.isMarked ind)
      rwa [List.filter_append, List.filter_eq_self.2 m1,
        List.filter_eq_nil_iff.2 fun x hx => by simp [m2 x hx], List.append_nil] at hf
    · have hf := hreals.filter fun x => !Markable.isMarked ind x
      rwa [List.filter_append, List.filter_eq_nil_iff.2 fun x hx => by simp [m1 x hx],
        List.filter_eq_self.2 fun x hx => by simp [m2 x hx], List.nil_append] at hf
  · refine ⟨iff_of_true (by simp [h0]) ?_, fun out hout => ?_⟩
    · by_contra hno
      exact h0 (habort.2 hno)
    · simp [h0] at hout

end TwoWay

/-! ## Lanes -/

section Lanes

variable {E : Type}

/-- The number of real elements with mark `j`. -/
def realMarkCount (isDummy : E → Bool) (mark : E → Nat) (j : Nat) (xs : List E) : Nat :=
  xs.countP fun x => !isDummy x && decide (mark x = j)

/-- An element with its mark, 255 for a dummy. -/
def withMark (isDummy : E → Bool) (getMark : E → Nat × E) (x : E) : Nat × E :=
  (if isDummy x then 255 else (getMark x).1, (getMark x).2)

theorem markElements_eq (isDummy : E → Bool) (getMark : E → Nat × E) (xs : List E)
    (lanes : Lanes) :
    (markElements isDummy getMark xs lanes).1 = xs.map (withMark isDummy getMark) ∧
      ∀ j : Fin 8, (markElements isDummy getMark xs lanes).2 j = lanes j -
        BitVec.ofNat 32 (realMarkCount isDummy (fun x => (getMark x).1) j xs) := by
  induction xs generalizing lanes with
  | nil => simp [markElements, realMarkCount]
  | cons x xs ih =>
    simp only [markElements]
    obtain ⟨h1, h2⟩ := ih (lanes.decrement (if isDummy x then 255 else (getMark x).1))
    refine ⟨?_, fun j => ?_⟩
    · rw [h1]
      rfl
    · rw [h2 j]
      simp only [realMarkCount, List.countP_cons, Lanes.decrement]
      cases hd : isDummy x with
      | true =>
        have : j.val ≠ 255 := by omega
        simp [this]
      | false =>
        by_cases hj : (getMark x).1 = j.val
        · simp only [Bool.false_eq_true, if_false, hj, if_true, Bool.not_false, decide_true,
            Bool.and_self]
          bv_omega
        · simp [hj, Ne.symm hj]

theorem toInt_lane {Z c : Nat} (hZ : Z < 2 ^ 31) (hc : c ≤ Z + 2 ^ 31) :
    (BitVec.ofNat 32 Z - BitVec.ofNat 32 c).toInt = Z - c := by
  rw [BitVec.toInt_eq_toNat_bmod, BitVec.toNat_sub, BitVec.toNat_ofNat, BitVec.toNat_ofNat,
    Int.bmod_def]
  omega

end Lanes

/-! ## Filling up with dummies -/

section Assign

variable {E : Type} {lanes : Lanes}

/-- Without dummies left the marks stay. -/
theorem assignMarks_real (q : Nat) (rem : BitVec 32) (ms : List (Nat × E))
    (h : ms.countP (fun p => decide (p.1 = 255)) = 0) : assignMarks lanes q rem ms = ms := by
  induction ms generalizing q rem with
  | nil => rfl
  | cons p ms ih =>
    rw [List.countP_eq_zero] at h
    have hp : p.1 ≠ 255 := by simpa using h p (.head _)
    have hne : (p.1 == 255) = false := by simpa using hp
    simp only [assignMarks, hne, Bool.false_eq_true, if_false]
    rw [ih _ _ (List.countP_eq_zero.2 fun x hx => h x (.tail _ hx))]

theorem assignMarks_cons_dummy (q : Nat) (rem : BitVec 32) (x : E) (ms : List (Nat × E)) :
    assignMarks lanes q rem ((255, x) :: ms) = (q % 256, x) ::
      if rem - 1 = 0 then assignMarks lanes (q + 1) (lanes.extract (q + 1)) ms
      else assignMarks lanes q (rem - 1) ms := by
  simp only [assignMarks, beq_self_eq_true, if_true]
  by_cases h : rem - 1 = 0
  · simp only [h, if_true]
  · simp only [h, if_false]

theorem assignMarks_cons_real {q mark : Nat} {rem : BitVec 32} (hm : mark ≠ 255) (hr : rem ≠ 0)
    (x : E) (ms : List (Nat × E)) :
    assignMarks lanes q rem ((mark, x) :: ms) = (mark, x) :: assignMarks lanes q rem ms := by
  have hne : (mark == 255) = false := by simpa using hm
  simp only [assignMarks, hne, Bool.false_eq_true, if_false, hr]

theorem markCount_cons' (j mark : Nat) (x : E) (ms : List (Nat × E)) :
    markCount j ((mark, x) :: ms) = markCount j ms + if mark = j then 1 else 0 := by
  simp only [markCount, List.countP_cons, decide_eq_true_eq]

theorem ofNat_ne_zero {r : Nat} (hr : 1 ≤ r) (hr' : r < 2 ^ 32) : BitVec.ofNat 32 r ≠ 0 := by
  intro e
  have := congrArg BitVec.toNat e
  simp only [BitVec.ofNat_eq_ofNat, BitVec.toNat_ofNat] at this
  omega

theorem ofNat_sub_one {r : Nat} (hr : 1 ≤ r) (hr' : r < 2 ^ 32) :
    BitVec.ofNat 32 r - 1 = BitVec.ofNat 32 (r - 1) := by
  apply BitVec.eq_of_toNat_eq
  simp only [BitVec.toNat_sub, BitVec.toNat_ofNat, BitVec.ofNat_eq_ofNat]
  omega

/-- **The dummies get exactly the marks that remain**: from mark `q` on, of which `r` are still to
be given out. -/
theorem markCount_assignMarks {k : Nat} (hk : k ≤ 8) {rem : Nat → Nat}
    (hrem : ∀ j < k, lanes.extract j = BitVec.ofNat 32 (rem j) ∧ 1 ≤ rem j ∧ rem j < 2 ^ 32)
    (ms : List (Nat × E)) {q r : Nat} (hq : q < k) (hr : 1 ≤ r) (hr' : r < 2 ^ 32)
    (hd : markCount 255 ms = r + ∑ j ∈ Finset.Ico (q + 1) k, rem j) {j : Nat} (hj : j < k) :
    markCount j (assignMarks lanes q (BitVec.ofNat 32 r) ms) =
      markCount j ms + if j < q then 0 else if j = q then r else rem j := by
  induction ms generalizing q r with
  | nil => simp [markCount] at hd; omega
  | cons p ms ih =>
    obtain ⟨mark, x⟩ := p
    rw [markCount_cons'] at hd
    by_cases hp : mark = 255
    · subst hp
      rw [if_pos rfl] at hd
      rw [assignMarks_cons_dummy, markCount_cons', markCount_cons', ofNat_sub_one hr hr',
        if_neg (show ¬ 255 = j by omega), Nat.mod_eq_of_lt (show q < 256 by omega)]
      by_cases hr1 : r = 1
      · subst hr1
        rw [if_pos (by rfl)]
        by_cases hlast : q + 1 < k
        · -- the next mark
          rw [Finset.sum_eq_sum_Ico_succ_bot hlast] at hd
          obtain ⟨e1, e2, e3⟩ := hrem (q + 1) hlast
          rw [e1, ih hlast e2 e3 (by omega)]
          by_cases hjq : j = q + 1
          · subst hjq
            split_ifs <;> omega
          · split_ifs <;> omega
        · -- the last dummy
          rw [Finset.Ico_eq_empty (by omega), Finset.sum_empty] at hd
          rw [assignMarks_real _ _ _ (by unfold markCount at hd; omega)]
          split_ifs <;> omega
      · rw [if_neg (ofNat_ne_zero (by omega) (by omega)), ih hq (by omega) (by omega) (by omega)]
        split_ifs <;> omega
    · rw [if_neg hp] at hd
      rw [assignMarks_cons_real hp (ofNat_ne_zero hr hr'), markCount_cons', markCount_cons',
        ih hq hr hr' (by omega)]
      omega

/-- Real elements keep their marks. -/
theorem filter_assignMarks (isDummy : E → Bool) (q : Nat) (rem : BitVec 32) (ms : List (Nat × E))
    (hms : ∀ p ∈ ms, p.1 = 255 → isDummy p.2 = true) (j : Nat) :
    (assignMarks lanes q rem ms).filter (fun p => decide (p.1 = j) && !isDummy p.2) =
      ms.filter (fun p => decide (p.1 = j) && !isDummy p.2) := by
  induction ms generalizing q rem with
  | nil => rfl
  | cons p ms ih =>
    simp only [assignMarks, List.filter_cons]
    rw [ih _ _ fun x hx => hms x (.tail _ hx)]
    by_cases hp : p.1 = 255
    · simp [hms p (.head _) hp]
    · have hne : (p.1 == 255) = false := by simpa using hp
      simp only [hne, Bool.false_eq_true, if_false]

theorem map_snd_assignMarks (q : Nat) (rem : BitVec 32) (ms : List (Nat × E)) :
    (assignMarks lanes q rem ms).map Prod.snd = ms.map Prod.snd := by
  induction ms generalizing q rem with
  | nil => rfl
  | cons p ms ih => simp [assignMarks, ih]

end Assign

/-! ## Columns -/

section Columns

variable {E : Type}

/-- A column of a list in cyclic order of its marks. -/
theorem column_map_snd {k j : Nat} {ys : List (Nat × E)} (hy : Cyclic k ys) :
    column k j (ys.map Prod.snd) = (ys.filter fun p => decide (p.1 = j)).map Prod.snd := by
  have hmarks : ∀ p ∈ ys.zipIdx, (p.2 % k == j) = decide (p.1.1 = j) := fun p hp => by
    have hget := List.mem_zipIdx_iff_getElem?.1 hp
    obtain ⟨hi, hx⟩ := List.getElem?_eq_some_iff.1 hget
    rw [← hx, hy p.2 hi]
    exact (Bool.beq_eq_decide_eq ..)
  have hz : (ys.map Prod.snd).zipIdx = ys.zipIdx.map fun p => (p.1.2, p.2) := by
    rw [List.zipIdx_map]
    rfl
  unfold column
  rw [hz, List.filter_map, List.map_map]
  have hf : ys.zipIdx.filter ((fun p => p.2 % k == j) ∘ fun p => (p.1.2, p.2)) =
      ys.zipIdx.filter fun p => decide (p.1.1 = j) := List.filter_congr fun p hp => hmarks p hp
  rw [hf]
  conv_rhs => rw [← List.zipIdx_map_fst 0 ys, List.filter_map, List.map_map]
  rfl

theorem countP_mod (k Z j : Nat) (hj : j < k) : (List.range (k * Z)).countP (· % k == j) = Z := by
  induction Z with
  | zero => simp
  | succ Z ih =>
    have hblock : ((List.range k).map (k * Z + ·)).countP (· % k == j) = 1 := by
      rw [List.countP_map]
      have hone : (List.range k).count j = 1 := by simp [List.count_range, hj]
      rw [← hone, List.count]
      refine List.countP_congr fun i hi => ?_
      have hik := List.mem_range.1 hi
      simp [Nat.mod_eq_of_lt hik]
    rw [Nat.mul_succ, List.range_add, List.countP_append, ih, hblock]

theorem length_column {k j Z : Nat} (hj : j < k) {xs : List E} (hx : xs.length = k * Z) :
    (column k j xs).length = Z := by
  have hidx : xs.zipIdx.map Prod.snd = List.range (k * Z) := by
    rw [List.zipIdx_map_snd, hx, List.range_eq_range']
  rw [column, List.length_map, ← List.countP_eq_length_filter]
  conv_rhs => rw [← countP_mod k Z j hj, ← hidx, List.countP_map]
  rfl

/-- The classes of a list under a function below `k`, one after the other. -/
theorem flatMap_filter_perm {k : Nat} (f : E → Nat) {zs : List E} (hf : ∀ z ∈ zs, f z < k) :
    List.Perm ((List.range k).flatMap fun j => zs.filter fun z => f z == j) zs := by
  classical
  rw [List.perm_iff_count]
  intro z
  rw [List.count_flatMap]
  by_cases hz : z ∈ zs
  · have hterm : (List.count z ∘ fun j => zs.filter fun z => f z == j) =
        fun j => if j = f z then zs.count z else 0 := by
      funext j
      by_cases hj : j = f z
      · simp [hj, List.count_filter]
      · rw [if_neg hj]
        refine List.count_eq_zero.2 fun hm => hj ?_
        have := (List.mem_filter.1 hm).2
        exact (beq_iff_eq.1 this).symm
    rw [hterm]
    have hsum : ∀ n c, ((List.range n).map fun j => if j = f z then c else 0).sum =
        if f z < n then c else 0 := fun n c => by
      induction n with
      | zero => simp
      | succ n ih =>
        rw [List.range_succ, List.map_append, List.sum_append, ih]
        by_cases h1 : f z < n
        · simp [h1, show ¬ n = f z by omega, show f z < n + 1 by omega]
        · by_cases h2 : n = f z
          · simp [h2]
          · simp [h1, h2, show ¬ f z < n + 1 by omega]
    rw [hsum, if_pos (hf z hz)]
  · rw [List.count_eq_zero.2 hz]
    refine List.sum_eq_zero fun c hc => ?_
    obtain ⟨j, -, rfl⟩ := List.mem_map.1 hc
    exact List.count_eq_zero.2 fun hm => hz (List.mem_of_mem_filter hm)

theorem columns_perm {k : Nat} (hk : 0 < k) (xs : List E) :
    List.Perm ((List.range k).map fun j => column k j xs).flatten xs := by
  have hmod : ∀ p ∈ xs.zipIdx, p.2 % k < k := fun p _ => Nat.mod_lt _ hk
  have h := (flatMap_filter_perm (fun p : E × Nat => p.2 % k) hmod).map Prod.fst
  rw [List.zipIdx_map_fst, List.map_flatMap] at h
  rwa [← List.flatMap_def]

end Columns

/-! ## Several ways -/

section Multi

variable {E : Type} {isDummy : E → Bool} {mark : E → Nat} {upd : E → E} {k m : Nat}

theorem length_flatten_buckets {Z : Nat} {buckets : List (List E)} (hb : buckets.length = k)
    (hz : ∀ b ∈ buckets, b.length = Z) : buckets.flatten.length = k * Z := by
  rw [List.length_flatten, List.map_congr_left hz, List.map_const', List.sum_replicate_nat, hb]

/-- **The `k`-way path only moves elements**, whatever the marks and however they are counted. -/
theorem mergeSplitMulti_perm (h3 : 3 ≤ k) (h8 : k ≤ 8) {buckets : List (List E)}
    (hb : buckets.length = k) (hz : ∀ b ∈ buckets, b.length = 2 ^ m) {out : List (List E)}
    (hout : mergeSplitMulti isDummy (fun x => (mark x, upd x)) k (2 ^ m) buckets = some out) :
    out.length = k ∧ (∀ b ∈ out, b.length = 2 ^ m) ∧
      List.Perm out.flatten (buckets.flatten.map upd) := by
  unfold mergeSplitMulti at hout
  obtain ⟨hmarked, -⟩ := markElements_eq isDummy (fun x => (mark x, upd x)) buckets.flatten
    (Lanes.set1 (2 ^ m))
  generalize markElements isDummy (fun x => (mark x, upd x)) buckets.flatten (Lanes.set1 (2 ^ m)) =
    r at hout hmarked
  dsimp only at hout
  split at hout
  · cases hout
  generalize hms : assignMarks r.2 0 (r.2.extract 0) r.1 = ms at hout
  have hsnd : ms.map Prod.snd = buckets.flatten.map upd := by
    rw [← hms, map_snd_assignMarks, hmarked, List.map_map]
    rfl
  have hlen : ms.length = k * 2 ^ m := by
    rw [← length_flatten_buckets hb hz, ← List.length_map Prod.snd, hsnd, List.length_map]
  obtain ⟨ys, hy, hp⟩ := interleave_perm h3 h8 ms hlen
  rw [hy] at hout
  obtain rfl : (List.range k).map (fun j => column k j (ys.map Prod.snd)) = out := by
    simpa using hout
  refine ⟨by simp, fun b hbm => ?_, ?_⟩
  · obtain ⟨j, hj, rfl⟩ := List.mem_map.1 hbm
    exact length_column (List.mem_range.1 hj) (by rw [List.length_map, hp.length_eq, hlen])
  · refine (columns_perm (by omega) _).trans ?_
    rw [← hsnd]
    exact hp.map _

/-- With every lane positive the `k`-way path goes through. -/
theorem mergeSplitMulti_eq_some (h3 : 3 ≤ k) (h8 : k ≤ 8) {buckets : List (List E)}
    (hb : buckets.length = k) (hz : ∀ b ∈ buckets, b.length = 2 ^ m)
    (hlanes : ∀ j : Fin 8, 0 < (BitVec.ofNat 32 (2 ^ m) -
      BitVec.ofNat 32 (realMarkCount isDummy mark j buckets.flatten)).toInt) :
    ∃ out, mergeSplitMulti isDummy (fun x => (mark x, upd x)) k (2 ^ m) buckets = some out := by
  obtain ⟨hmarked, hcounts⟩ := markElements_eq isDummy (fun x => (mark x, upd x)) buckets.flatten
    (Lanes.set1 (2 ^ m))
  unfold mergeSplitMulti
  generalize markElements isDummy (fun x => (mark x, upd x)) buckets.flatten (Lanes.set1 (2 ^ m)) =
    r at hmarked hcounts
  have hpos : r.2.containLeZero = false := by
    refine decide_eq_false ?_
    rintro ⟨j, hj⟩
    rw [hcounts j] at hj
    exact absurd (hlanes j) (Int.not_lt.2 hj)
  have hlen : (assignMarks r.2 0 (r.2.extract 0) r.1).length = k * 2 ^ m := by
    rw [← List.length_map Prod.snd, map_snd_assignMarks, hmarked, List.length_map, List.length_map,
      length_flatten_buckets hb hz]
  obtain ⟨ys, hy, -⟩ := interleave_perm h3 h8 _ hlen
  dsimp only
  rw [hpos, hy]
  exact ⟨_, rfl⟩

/-- Every real element has one of the `k` marks. -/
theorem sum_realMarkCount (hmark : ∀ x, mark x < k) (xs : List E) :
    ∑ j ∈ Finset.range k, realMarkCount isDummy mark j xs = xs.countP fun x => !isDummy x := by
  induction xs with
  | nil => simp [realMarkCount]
  | cons x xs ih =>
    simp only [realMarkCount, List.countP_cons] at ih ⊢
    rw [Finset.sum_add_distrib, ih]
    congr 1
    cases isDummy x with
    | true => simp
    | false => simp [hmark x]

theorem countP_withMark_dummy (hk : k ≤ 8) (hmark : ∀ x, mark x < k) (xs : List E) :
    markCount 255 (xs.map (withMark isDummy fun x => (mark x, upd x))) = xs.countP isDummy := by
  rw [markCount, List.countP_map]
  refine List.countP_congr fun x _ => ?_
  have := hmark x
  cases hd : isDummy x with
  | true => simp [withMark, hd]
  | false => simp [withMark, hd]; omega

theorem markCount_withMark {j : Nat} (hj : j < 255) (xs : List E) :
    markCount j (xs.map (withMark isDummy fun x => (mark x, upd x))) =
      realMarkCount isDummy mark j xs := by
  rw [markCount, List.countP_map]
  refine List.countP_congr fun x _ => ?_
  cases hd : isDummy x with
  | true => simp [withMark, hd]; omega
  | false => simp [withMark, hd]

/-- If every one of `k` marks occurs `Z` times in a list of `k * Z` elements, there is no other. -/
theorem marksBelow_of_count {Z : Nat} {ms : List (Nat × E)} (hlen : ms.length = k * Z)
    (hcount : ∀ j < k, markCount j ms = Z) : MarksBelow k ms := by
  have hsum : ∀ ms : List (Nat × E), ∑ j ∈ Finset.range k, markCount j ms =
      ms.countP fun p => decide (p.1 < k) := fun ms => by
    induction ms with
    | nil => simp [markCount]
    | cons p ms ih =>
      simp only [markCount, List.countP_cons] at ih ⊢
      rw [Finset.sum_add_distrib, ih]
      simp
  have hall : ms.countP (fun p => decide (p.1 < k)) = ms.length := by
    rw [← hsum, Finset.sum_congr rfl fun j hj => hcount j (Finset.mem_range.1 hj), hlen]
    simp
  exact fun p hp => by simpa using List.countP_eq_length.1 hall p hp

section Fits

variable {xs : List E} {lanes : Lanes}

/-- The number of dummies that mark `j` takes. -/
def remaining (isDummy : E → Bool) (mark : E → Nat) (Z j : Nat) (xs : List E) : Nat :=
  Z - realMarkCount isDummy mark j xs

/-- The lane of a mark that does not overflow is the number of dummies it takes. -/
theorem extract_lanes (h8 : k ≤ 8) {Z : Nat} (hZ : Z < 2 ^ 31)
    (hlanes : ∀ j : Fin 8, lanes j = Lanes.set1 Z j -
      BitVec.ofNat 32 (realMarkCount isDummy mark j xs)) {j : Nat} (hj : j < k)
    (hfit : realMarkCount isDummy mark j xs < Z) :
    lanes.extract j = BitVec.ofNat 32 (remaining isDummy mark Z j xs) ∧
      1 ≤ remaining isDummy mark Z j xs ∧ remaining isDummy mark Z j xs < 2 ^ 32 := by
  have hext : lanes.extract j = lanes ⟨j, by omega⟩ := by
    rw [Lanes.extract]
    exact congrArg lanes (Fin.ext (Nat.mod_eq_of_lt (show j < 8 by omega)))
  unfold remaining
  refine ⟨?_, by omega, by omega⟩
  rw [hext, hlanes, Lanes.set1]
  apply BitVec.eq_of_toNat_eq
  rw [BitVec.toNat_sub, BitVec.toNat_ofNat, BitVec.toNat_ofNat, BitVec.toNat_ofNat]
  dsimp only
  omega

/-- There are as many dummies as the marks take. -/
theorem countP_dummy_eq (hmark : ∀ x, mark x < k) {Z : Nat} (hlen : xs.length = k * Z)
    (hfit : ∀ j < k, realMarkCount isDummy mark j xs < Z) :
    xs.countP isDummy = ∑ j ∈ Finset.range k, remaining isDummy mark Z j xs := by
  have hsum : ∑ j ∈ Finset.range k, remaining isDummy mark Z j xs +
      ∑ j ∈ Finset.range k, realMarkCount isDummy mark j xs = k * Z := by
    have hfill : ∀ j ∈ Finset.range k,
        remaining isDummy mark Z j xs + realMarkCount isDummy mark j xs = Z := fun j hj =>
      Nat.sub_add_cancel (Nat.le_of_lt (hfit j (Finset.mem_range.1 hj)))
    rw [← Finset.sum_add_distrib, Finset.sum_congr rfl hfill]
    simp
  have hall : xs.length = _ := List.length_eq_countP_add_countP isDummy
  simp only [Bool.not_eq_true, Bool.decide_eq_false] at hall
  rw [sum_realMarkCount hmark] at hsum
  omega

/-- Filled up with dummies, every mark occurs `Z` times. -/
theorem markCount_filled (h3 : 3 ≤ k) (h8 : k ≤ 8) {Z : Nat} (hZ : Z < 2 ^ 31)
    (hmark : ∀ x, mark x < k) (hlen : xs.length = k * Z)
    (hlanes : ∀ j : Fin 8, lanes j = Lanes.set1 Z j -
      BitVec.ofNat 32 (realMarkCount isDummy mark j xs))
    (hfit : ∀ j < k, realMarkCount isDummy mark j xs < Z) {j : Nat} (hj : j < k) :
    markCount j (assignMarks lanes 0 (lanes.extract 0)
      (xs.map (withMark isDummy fun x => (mark x, upd x)))) = Z := by
  have hrem : ∀ j < k, lanes.extract j = BitVec.ofNat 32 (remaining isDummy mark Z j xs) ∧
      1 ≤ remaining isDummy mark Z j xs ∧ remaining isDummy mark Z j xs < 2 ^ 32 :=
    fun j hj => extract_lanes h8 hZ hlanes hj (hfit j hj)
  have hd : markCount 255 (xs.map (withMark isDummy fun x => (mark x, upd x))) =
      remaining isDummy mark Z 0 xs +
        ∑ j ∈ Finset.Ico (0 + 1) k, remaining isDummy mark Z j xs := by
    rw [countP_withMark_dummy h8 hmark, countP_dummy_eq hmark hlen hfit, Finset.range_eq_Ico,
      Finset.sum_eq_sum_Ico_succ_bot (show 0 < k by omega)]
  obtain ⟨e1, e2, e3⟩ := hrem 0 (by omega)
  have hc := hfit j hj
  rw [e1, markCount_assignMarks h8 hrem _ (by omega) e2 e3 hd hj, markCount_withMark (by omega)]
  unfold remaining
  split_ifs
  · omega
  · subst j
    omega
  · omega

end Fits

/-- The real elements of a mark, before and after the marks of the dummies are assigned. -/
theorem filter_filled (hupd : ∀ x, isDummy (upd x) = isDummy x) (lanes : Lanes) (q : Nat)
    (rem : BitVec 32) (xs : List E) {j : Nat} (hmark : ∀ x, mark x < 255) :
    (((assignMarks lanes q rem (xs.map (withMark isDummy fun x => (mark x, upd x)))).filter
      fun p => decide (p.1 = j) && !isDummy p.2).map Prod.snd) =
      (xs.filter fun x => !isDummy x && decide (mark x = j)).map upd := by
  rw [filter_assignMarks isDummy, List.filter_map, List.map_map]
  · congr 1
    refine List.filter_congr fun x _ => ?_
    cases hd : isDummy x with
    | true => simp [withMark, hd, hupd]
    | false => simp [withMark, hd, hupd]
  · intro p hp h255
    obtain ⟨x, -, rfl⟩ := List.mem_map.1 hp
    cases hd : isDummy x with
    | true => simp [withMark, hupd, hd]
    | false =>
      have := hmark x
      simp [withMark, hd] at h255
      omega

/-- The check of the lanes fails exactly when some mark has `2 ^ m` or more real elements. -/
theorem containLeZero_iff (h8 : k ≤ 8) (hmark : ∀ x, mark x < k) {xs : List E} {lanes : Lanes}
    (htoInt : ∀ j : Fin 8, (lanes j).toInt = (2 ^ m : Nat) -
      (realMarkCount isDummy mark j xs : Int)) :
    lanes.containLeZero = true ↔ ∃ j < k, 2 ^ m ≤ realMarkCount isDummy mark j xs := by
  have hpos := Nat.two_pow_pos m
  rw [Lanes.containLeZero, decide_eq_true_iff]
  constructor
  · rintro ⟨j, hj⟩
    rw [htoInt] at hj
    refine ⟨j, ?_, by omega⟩
    -- no element has a mark from `k` on
    by_contra hjk
    have : realMarkCount isDummy mark j xs = 0 := List.countP_eq_zero.2 fun x _ => by
      have := hmark x
      simp only [Bool.and_eq_true, decide_eq_true_eq, not_and]
      omega
    omega
  · rintro ⟨j, hj, hle⟩
    refine ⟨⟨j, by omega⟩, ?_⟩
    rw [htoInt]
    dsimp only
    omega

/-- **The `k`-way path** aborts exactly when some mark has `Z` or more real elements; otherwise the
real elements of each mark are in its bucket. -/
theorem mergeSplitMulti_spec (h3 : 3 ≤ k) (h8 : k ≤ 8) (hlane : (k - 1) * 2 ^ m ≤ 2 ^ 31)
    (hmark : ∀ x, mark x < k) (hupd : ∀ x, isDummy (upd x) = isDummy x)
    {buckets : List (List E)} (hb : buckets.length = k) (hz : ∀ b ∈ buckets, b.length = 2 ^ m) :
    (mergeSplitMulti isDummy (fun x => (mark x, upd x)) k (2 ^ m) buckets = none ↔
      ∃ j < k, 2 ^ m ≤ realMarkCount isDummy mark j buckets.flatten) ∧
    ∀ out, mergeSplitMulti isDummy (fun x => (mark x, upd x)) k (2 ^ m) buckets = some out →
      out.length = k ∧ ∀ j < k, (out.getD j []).length = 2 ^ m ∧
        List.Perm ((out.getD j []).filter fun x => !isDummy x)
          ((buckets.flatten.filter fun x => !isDummy x && decide (mark x = j)).map upd) := by
  have hlen := length_flatten_buckets hb hz
  have hZ : 2 * 2 ^ m ≤ 2 ^ 31 := (Nat.mul_le_mul_right _ (show 2 ≤ k - 1 by omega)).trans hlane
  have hkZ : k * 2 ^ m = (k - 1) * 2 ^ m + 2 ^ m := by
    rw [← Nat.succ_mul, Nat.succ_eq_add_one, Nat.sub_add_cancel (by omega)]
  obtain ⟨hmarked, hlanes⟩ := markElements_eq isDummy (fun x => (mark x, upd x)) buckets.flatten
    (Lanes.set1 (2 ^ m))
  unfold mergeSplitMulti
  generalize markElements isDummy (fun x => (mark x, upd x)) buckets.flatten (Lanes.set1 (2 ^ m)) =
    r at hmarked hlanes ⊢
  generalize buckets.flatten = xs at hlen hmarked hlanes ⊢
  change ∀ j : Fin 8, r.2 j = Lanes.set1 (2 ^ m) j -
    BitVec.ofNat 32 (realMarkCount isDummy mark j xs) at hlanes
  have htoInt : ∀ j : Fin 8, (r.2 j).toInt =
      (2 ^ m : Nat) - (realMarkCount isDummy mark j xs : Int) := fun j => by
    have hc : realMarkCount isDummy mark j xs ≤ xs.length := List.countP_le_length
    rw [hlanes j, Lanes.set1]
    exact toInt_lane (by omega) (by omega)
  have habort := containLeZero_iff h8 hmark htoInt
  by_cases hover : r.2.containLeZero = true
  · refine ⟨iff_of_true (by simp [hover]) (habort.1 hover), fun out hout => ?_⟩
    simp [hover] at hout
  · have hfit : ∀ j < k, realMarkCount isDummy mark j xs < 2 ^ m := fun j hj => by
      by_contra hc
      exact hover (habort.2 ⟨j, hj, by omega⟩)
    have hcount : ∀ j < k, markCount j (assignMarks r.2 0 (r.2.extract 0) r.1) = 2 ^ m :=
      fun j hj => by
        rw [hmarked]
        exact markCount_filled h3 h8 (by omega) hmark hlen hlanes hfit hj
    have hmslen : (assignMarks r.2 0 (r.2.extract 0) r.1).length = k * 2 ^ m := by
      rw [← List.length_map Prod.snd, map_snd_assignMarks, hmarked, List.length_map,
        List.length_map, hlen]
    obtain ⟨ys, hy, hp, hcyc⟩ := interleave_spec h3 h8 _ hmslen
      (marksBelow_of_count hmslen hcount) hcount
    dsimp only
    rw [if_neg hover, hy]
    refine ⟨iff_of_false (by simp) ?_, fun out hout => ?_⟩
    · rintro ⟨j, hj, hle⟩
      exact Nat.not_le.2 (hfit j hj) hle
    obtain rfl : (List.range k).map (fun j => column k j (ys.map Prod.snd)) = out := by
      simpa using hout
    refine ⟨by simp, fun j hj => ?_⟩
    have hget : ((List.range k).map (fun j => column k j (ys.map Prod.snd))).getD j [] =
        (ys.filter fun p => decide (p.1 = j)).map Prod.snd := by
      rw [← column_map_snd hcyc]
      simp [hj]
    rw [hget]
    refine ⟨?_, ?_⟩
    · rw [List.length_map, ← List.countP_eq_length_filter, hp.countP_eq]
      exact hcount j hj
    · rw [List.filter_map, List.filter_filter,
        ← filter_filled hupd r.2 0 (r.2.extract 0) xs (fun x => by have := hmark x; omega),
        ← hmarked]
      refine List.Perm.map _ ?_
      have := hp.filter fun p => decide (p.1 = j) && !isDummy p.2
      simpa [Bool.and_comm] using this

end Multi

end EM.Algorithm
