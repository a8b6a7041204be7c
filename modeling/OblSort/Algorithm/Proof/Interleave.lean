import OblSort.Algorithm.Interleave
import OblSort.Algorithm.Proof.EdgeRec
import OblSort.Algorithm.Proof.StaticSort
import Mathlib.Data.List.Perm.Basic

/-!
# Interleaving puts every mark in its place

Two ways: the loop gives unequal pairs of marks alternately to the two halves, so each half gets
half of the marked elements (`countP_balanceMarks`). Several ways: the edges of the path tell each
pair which way to lie, a repeated edge turning round every time, so the two halves get equally many
of every mark (`count_swapPairs`) because the Euler walk is in balance. Both recursions end with the
marks in cyclic order.
-/

namespace EM.Algorithm

open Net Orient

variable {α : Type}

/-! ## Two ways -/

theorem balanceMarks_perm (isMarked : α → Bool) (t : Bool) (left right : List α) :
    List.Perm ((balanceMarks isMarked t left right).1 ++ (balanceMarks isMarked t left right).2)
      (left ++ right) := by
  induction left generalizing t right with
  | nil => cases right <;> simp [balanceMarks]
  | cons a left ih =>
    cases right with
    | nil => simp [balanceMarks]
    | cons b right =>
      have h := ih (isMarked b != (isMarked a != t)) right
      simp only [balanceMarks]
      split
      · refine List.Perm.trans (List.Perm.cons b (List.perm_middle.trans (h.cons a))) ?_
        refine List.Perm.trans (List.Perm.swap a b _) (List.Perm.cons a List.perm_middle.symm)
      · exact (List.perm_middle.trans (h.cons b)).cons a |>.trans (List.perm_middle.symm.cons a)

/-- Unequal pairs go alternately to the two halves, the first one with its marked element on the
left if `t` is set. -/
theorem countP_balanceMarks (isMarked : α → Bool) (t : Bool) {left right : List α}
    (hlen : left.length = right.length) :
    (balanceMarks isMarked t left right).1.countP isMarked =
      (left.countP isMarked + right.countP isMarked + t.toNat) / 2 := by
  induction left generalizing t right with
  | nil =>
    obtain rfl : right = [] := List.length_eq_zero_iff.1 hlen.symm
    cases t <;> simp [balanceMarks]
  | cons a left ih =>
    cases right with
    | nil => simp at hlen
    | cons b right =>
      have h := ih (isMarked b != (isMarked a != t)) (by simpa using hlen)
      simp only [balanceMarks]
      cases ha : isMarked a <;> cases hb : isMarked b <;> cases t <;>
        simp_all <;> omega

theorem twoWayHalves_perm (isMarked : α → Bool) (xs : List α) :
    List.Perm ((twoWayHalves isMarked xs).1 ++ (twoWayHalves isMarked xs).2) xs := by
  simp only [twoWayHalves]
  generalize hl : xs.take ((xs.length + 2) / 4 * 2) = left
  generalize hr : xs.drop ((xs.length + 2) / 4 * 2) = right
  have hx : xs = left ++ right := by rw [← hl, ← hr, List.take_append_drop]
  generalize twoWaySkip xs.length = k
  have h := balanceMarks_perm isMarked (!left.head?.any isMarked) (left.drop k.1) (right.drop k.2)
  generalize balanceMarks isMarked (!left.head?.any isMarked) (left.drop k.1)
    (right.drop k.2) = rest at h
  rw [hx, List.append_assoc]
  conv_rhs => rw [← List.take_append_drop k.1 left, ← List.take_append_drop k.2 right]
  rw [List.append_assoc]
  refine List.Perm.append_left _ ?_
  -- the right bucket's skipped elements move to the front on both sides
  have h1 : List.Perm (rest.1 ++ (right.take k.2 ++ rest.2))
    (right.take k.2 ++ (rest.1 ++ rest.2)) :=
    List.perm_append_comm_assoc ..
  have h2 : List.Perm (left.drop k.1 ++ (right.take k.2 ++ right.drop k.2))
      (right.take k.2 ++ (left.drop k.1 ++ right.drop k.2)) := List.perm_append_comm_assoc ..
  exact h1.trans ((h.append_left _).trans h2.symm)

/-- Each half of an even range gets half of its length of the marked elements. -/
theorem countP_twoWayHalves (isMarked : α → Bool) {xs : List α} (h4 : 4 ≤ xs.length)
    (heven : xs.length % 2 = 0) (hc : xs.countP isMarked = xs.length / 2) :
    (twoWayHalves isMarked xs).1.countP isMarked = (twoWayHalves isMarked xs).1.length / 2 ∧
      (twoWayHalves isMarked xs).2.countP isMarked = (twoWayHalves isMarked xs).2.length / 2 := by
  have hlen := length_twoWayHalves isMarked xs
  have htotal := (twoWayHalves_perm isMarked xs).countP_eq isMarked
  rw [List.countP_append, hc] at htotal
  have hleft : (twoWayHalves isMarked xs).1.countP isMarked = ((xs.length + 2) / 4 * 2) / 2 := by
    simp only [twoWayHalves]
    generalize hl : xs.take ((xs.length + 2) / 4 * 2) = left
    generalize hr : xs.drop ((xs.length + 2) / 4 * 2) = right
    have hl' : left.length = (xs.length + 2) / 4 * 2 := by rw [← hl, List.length_take]; omega
    have hr' : right.length = xs.length - (xs.length + 2) / 4 * 2 := by rw [← hr, List.length_drop]
    have hx : left.countP isMarked + right.countP isMarked = xs.length / 2 := by
      rw [← hc, ← List.countP_append, ← hl, ← hr, List.take_append_drop]
    rw [List.countP_append]
    rcases (by omega : xs.length % 4 = 0 ∨ xs.length % 4 = 2) with hm | hm
    · cases left with
      | nil => simp at hl'; omega
      | cons a left =>
        cases right with
        | nil => simp at hr'; omega
        | cons b right =>
          simp only [twoWaySkip, hm, List.drop_succ_cons, List.drop_zero, List.take_succ_cons,
            List.take_zero, List.head?_cons, Option.any_some]
          rw [countP_balanceMarks _ _ (by simp at hl' hr'; omega)]
          simp only [List.countP_cons, List.countP_nil] at hx ⊢
          cases ha : isMarked a <;> cases hb : isMarked b <;> simp_all <;> omega
    · rcases left with _ | ⟨a, _ | ⟨b, left⟩⟩
      · simp at hl'; omega
      · simp at hl'; omega
      · simp only [twoWaySkip, hm, List.drop_succ_cons, List.drop_zero, List.take_succ_cons,
          List.take_zero, List.head?_cons, Option.any_some]
        rw [countP_balanceMarks _ _ (by simp at hl' hr'; omega)]
        simp only [List.countP_cons, List.countP_nil] at hx ⊢
        cases ha : isMarked a <;> cases hb : isMarked b <;> simp_all <;> omega
  omega

/-- The marks alternate, a marked element first. -/
def Alternates (isMarked : α → Bool) (xs : List α) : Prop :=
  ∀ i (hi : i < xs.length), isMarked xs[i] = decide (i % 2 = 0)

theorem Alternates.append {isMarked : α → Bool} {xs ys : List α} (hx : Alternates isMarked xs)
    (hy : Alternates isMarked ys) (heven : xs.length % 2 = 0) : Alternates isMarked (xs ++ ys) := by
  intro i hi
  by_cases h : i < xs.length
  · rw [List.getElem_append_left h, hx i h]
  · rw [List.getElem_append_right (by omega), hy _ (by rw [List.length_append] at hi; omega),
      decide_eq_decide]
    omega

/-- **`InterleaveTwoWay`** permutes an even range and makes its marks alternate. -/
theorem interleaveTwoWay_spec (isMarked : α → Bool) (xs : List α) (h2 : 2 ≤ xs.length)
    (heven : xs.length % 2 = 0) (hc : xs.countP isMarked = xs.length / 2) :
    List.Perm (interleaveTwoWay isMarked xs) xs ∧
      Alternates isMarked (interleaveTwoWay isMarked xs) := by
  induction hn : xs.length using Nat.strong_induction_on generalizing xs with
  | _ n ih =>
    unfold interleaveTwoWay
    split
    · rename_i a b
      simp only [List.countP_cons, List.countP_nil, List.length_cons, List.length_nil] at hc
      cases ha : isMarked a <;> cases hb : isMarked b <;> simp [ha, hb] at hc
      · refine ⟨List.Perm.swap a b [], fun i hi => ?_⟩
        simp only [Bool.false_eq_true, if_false, List.length_cons, List.length_nil] at hi ⊢
        rcases (by omega : i = 0 ∨ i = 1) with rfl | rfl <;> simp [ha, hb]
      · refine ⟨List.Perm.refl _, fun i hi => ?_⟩
        simp only [if_true, List.length_cons, List.length_nil] at hi ⊢
        rcases (by omega : i = 0 ∨ i = 1) with rfl | rfl <;> simp [ha, hb]
    · rename_i hne
      have h4 : 4 ≤ xs.length := by
        by_contra hlt
        obtain ⟨a, b, rfl⟩ := List.length_eq_two.1 (show xs.length = 2 by omega)
        exact hne a b rfl
      rw [if_neg (by omega)]
      have hlen := length_twoWayHalves isMarked xs
      obtain ⟨hc1, hc2⟩ := countP_twoWayHalves isMarked h4 heven hc
      obtain ⟨hp1, ha1⟩ := ih _ (by omega) _ (by omega) (by omega) hc1 rfl
      obtain ⟨hp2, ha2⟩ := ih _ (by omega) _ (by omega) (by omega) hc2 rfl
      refine ⟨(hp1.append hp2).trans (twoWayHalves_perm isMarked xs), ha1.append ha2 ?_⟩
      rw [hp1.length_eq]
      omega

/-- It comes to an end: the halves of an even range of at least four elements are even and not
empty. -/
theorem interleaveTwoWay_run (isMarked : α → Bool) {xs : List α} (h2 : 2 ≤ xs.length)
    (heven : xs.length % 2 = 0) : InterleavesTwoWay isMarked xs (interleaveTwoWay isMarked xs) := by
  induction hn : xs.length using Nat.strong_induction_on generalizing xs with
  | _ n ih =>
    by_cases hpair : xs.length = 2
    · obtain ⟨a, b, rfl⟩ := List.length_eq_two.1 hpair
      rw [interleaveTwoWay]
      exact InterleavesTwoWay.pair a b
    · obtain ⟨hleft, hright⟩ := length_twoWayHalves isMarked xs
      rw [interleaveTwoWay_of_ne isMarked hpair, if_neg (by omega)]
      apply InterleavesTwoWay.halves hpair
      · exact ih _ (by omega) (by omega) (by omega) rfl
      · exact ih _ (by omega) (by omega) (by omega) rfl

/-- **`InterleaveTwoWay`** of two buckets with as many marked elements as fit in one: both
alternate. -/
theorem interleaveTwoWayBuckets_spec (isMarked : α → Bool) {left right : List α} {Z : Nat}
    (hl : left.length = Z) (hr : right.length = Z) (h2 : 2 ≤ Z) (heven : Z % 2 = 0)
    (hc : left.countP isMarked + right.countP isMarked = Z) :
    let out := interleaveTwoWayBuckets isMarked left right
    InterleavesTwoWayBuckets isMarked left right out ∧
      List.Perm (out.1 ++ out.2) (left ++ right) ∧ out.1.length = Z ∧ out.2.length = Z ∧
      Alternates isMarked out.1 ∧ Alternates isMarked out.2 := by
  cases left with
  | nil => simp at hl; omega
  | cons a left =>
  cases right with
  | nil => simp at hr; omega
  | cons b right =>
    have hlen : left.length = right.length := by simp at hl hr; omega
    simp only [InterleavesTwoWayBuckets, interleaveTwoWayBuckets, List.head?_cons, Option.any_some,
      List.drop_succ_cons, List.drop_zero, List.take_succ_cons, List.take_zero,
      List.singleton_append]
    have hp := balanceMarks_perm isMarked (isMarked b) left right
    have hcount := countP_balanceMarks isMarked (isMarked b) hlen
    have hlb := length_balanceMarks isMarked (isMarked b) left right
    generalize balanceMarks isMarked (isMarked b) left right = rest at hp hcount hlb
    have htotal := hp.countP_eq isMarked
    simp only [List.countP_append, List.countP_cons, List.length_cons] at htotal hc hl hr
    have h1 : (a :: rest.1).length = Z := by rw [List.length_cons]; omega
    have h2' : (b :: rest.2).length = Z := by rw [List.length_cons]; omega
    obtain ⟨hp1, ha1⟩ := interleaveTwoWay_spec isMarked (a :: rest.1) (by omega) (by omega)
      (by rw [h1, List.countP_cons]
          cases hma : isMarked a <;> cases hmb : isMarked b <;> simp_all <;> omega)
    obtain ⟨hp2, ha2⟩ := interleaveTwoWay_spec isMarked (b :: rest.2) (by omega) (by omega)
      (by rw [h2', List.countP_cons]
          cases hma : isMarked a <;> cases hmb : isMarked b <;> simp_all <;> omega)
    refine ⟨⟨interleaveTwoWay_run isMarked (by omega) (by omega),
      interleaveTwoWay_run isMarked (by omega) (by omega)⟩, (hp1.append hp2).trans ?_,
      hp1.length_eq.trans h1, hp2.length_eq.trans h2', ha1, ha2⟩
    exact ((List.perm_middle.trans (hp.cons b)).cons a).trans (List.perm_middle.symm.cons a)

theorem Alternates.iff {isMarked : α → Bool} {xs : List α} (h : Alternates isMarked xs) (i : Nat)
    (hi : i < xs.length) : isMarked xs[i] = true ↔ i % 2 = 0 := by
  rw [h i hi, decide_eq_true_iff]

/-- **`InterleaveTwoWay` alternates marks.** On an even range half of whose elements are marked it
comes to an end, permutes the range and leaves the marked elements exactly at the even positions. On
two buckets of even size with as many marked elements as fit in one it does so in each. -/
theorem interleaveTwoWay_alternates (isMarked : α → Bool) :
    (∀ xs : List α, 2 ≤ xs.length → xs.length % 2 = 0 → xs.countP isMarked = xs.length / 2 →
      let out := interleaveTwoWay isMarked xs
      InterleavesTwoWay isMarked xs out ∧ List.Perm out xs ∧
        ∀ i (hi : i < out.length), isMarked out[i] = true ↔ i % 2 = 0) ∧
    ∀ (Z : Nat) (left right : List α), 2 ≤ Z → Z % 2 = 0 → left.length = Z → right.length = Z →
      left.countP isMarked + right.countP isMarked = Z →
      let out := interleaveTwoWayBuckets isMarked left right
      InterleavesTwoWayBuckets isMarked left right out ∧
        List.Perm (out.1 ++ out.2) (left ++ right) ∧ out.1.length = Z ∧ out.2.length = Z ∧
        (∀ i (hi : i < out.1.length), isMarked out.1[i] = true ↔ i % 2 = 0) ∧
        ∀ i (hi : i < out.2.length), isMarked out.2[i] = true ↔ i % 2 = 0 := by
  constructor
  · intro xs h2 heven hc
    obtain ⟨hp, ha⟩ := interleaveTwoWay_spec isMarked xs h2 heven hc
    exact ⟨interleaveTwoWay_run isMarked h2 heven, hp, ha.iff⟩
  · intro Z left right h2 heven hl hr hc
    obtain ⟨hrun, hp, hl', hr', ha1, ha2⟩ :=
      interleaveTwoWayBuckets_spec isMarked hl hr h2 heven hc
    exact ⟨hrun, hp, hl', hr', ha1.iff, ha2.iff⟩

/-- Six elements, three of them marked at the end, and two buckets of two. -/
theorem interleaveTwoWay_alternates_six :
    List.Perm (interleaveTwoWay (3 ≤ ·) [0, 1, 2, 3, 4, 5]) [0, 1, 2, 3, 4, 5] ∧
      (interleaveTwoWayBuckets (2 ≤ ·) [0, 1] [2, 3]).1.length = 2 :=
  ⟨((interleaveTwoWay_alternates (3 ≤ ·)).1 [0, 1, 2, 3, 4, 5] (by decide) (by decide)
      (by decide)).2.1,
    ((interleaveTwoWay_alternates (2 ≤ ·)).2 2 [0, 1] [2, 3] (by decide) (by decide) rfl rfl
      (by decide)).2.2.1⟩

theorem Alternates.tail {isMarked : α → Bool} {a b : α} {xs : List α}
    (h : Alternates isMarked (a :: b :: xs)) :
    isMarked a = true ∧ isMarked b = false ∧ Alternates isMarked xs := by
  refine ⟨h 0 (by simp), h 1 (by simp), fun i hi => ?_⟩
  have := h (i + 2) (by simpa using hi)
  simpa using this

/-- Swapping alternate positions of two alternating buckets separates the marks. -/
theorem swapAlternate_spec (isMarked : α → Bool) (left right : List α)
    (hlen : left.length = right.length) (heven : left.length % 2 = 0)
    (hl : Alternates isMarked left) (hr : Alternates isMarked right) :
    List.Perm ((swapAlternate left right).1 ++ (swapAlternate left right).2) (left ++ right) ∧
      (swapAlternate left right).1.length = left.length ∧
      (∀ x ∈ (swapAlternate left right).1, isMarked x = true) ∧
      ∀ x ∈ (swapAlternate left right).2, isMarked x = false := by
  induction left, right using swapAlternate.induct with
  | case1 a b left c d right ih =>
    obtain ⟨ha, hb, hl'⟩ := hl.tail
    obtain ⟨hc, hd, hr'⟩ := hr.tail
    obtain ⟨hp, h1, h2, h3⟩ := ih (by simpa using hlen)
      (by simp only [List.length_cons] at heven; omega) hl' hr'
    rw [swapAlternate]
    refine ⟨?_, by simpa using h1, ?_, ?_⟩
    · classical
      rw [List.perm_iff_count] at hp ⊢
      intro x
      have := hp x
      simp only [List.count_append, List.count_cons] at this ⊢
      omega
    · intro x hx
      simp only [List.mem_cons] at hx
      rcases hx with rfl | rfl | hx
      · exact ha
      · exact hc
      · exact h2 x hx
    · intro x hx
      simp only [List.mem_cons] at hx
      rcases hx with rfl | rfl | hx
      · exact hb
      · exact hd
      · exact h3 x hx
  | case2 left right hne =>
    -- two empty buckets are left
    have hshort := swapAlternate_short hne
    obtain rfl : left = [] := List.length_eq_zero_iff.1 (by omega)
    obtain rfl : right = [] := List.length_eq_zero_iff.1 hlen.symm
    simp [swapAlternate]

/-- **`InterleaveTwoWayPartition`** of two buckets with as many marked elements as fit in one: the
marked elements end up in the left one, the others in the right one. -/
theorem interleaveTwoWayPartition_spec (isMarked : α → Bool) {left right : List α} {Z : Nat}
    (hl : left.length = Z) (hr : right.length = Z) (h2 : 2 ≤ Z) (heven : Z % 2 = 0)
    (hc : left.countP isMarked + right.countP isMarked = Z) :
    List.Perm ((interleaveTwoWayPartition isMarked left right).1 ++
        (interleaveTwoWayPartition isMarked left right).2) (left ++ right) ∧
      (interleaveTwoWayPartition isMarked left right).1.length = Z ∧
      (∀ x ∈ (interleaveTwoWayPartition isMarked left right).1, isMarked x = true) ∧
      ∀ x ∈ (interleaveTwoWayPartition isMarked left right).2, isMarked x = false := by
  obtain ⟨-, hp, hl', hr', ha1, ha2⟩ := interleaveTwoWayBuckets_spec isMarked hl hr h2 heven hc
  obtain ⟨hp', hlen, hmarked, hunmarked⟩ :=
    swapAlternate_spec isMarked _ _ (hl'.trans hr'.symm) (by omega) ha1 ha2
  exact ⟨hp'.trans hp, hlen.trans hl', hmarked, hunmarked⟩

/-! ## The edges between two halves -/

/-- The edges that occur an odd number of times between the marks of two lists. -/
def pairBits : List (Nat × α) → List (Nat × α) → BitVec 64
  | l :: left, r :: right => EdgeRec.getEdgesMask l.1 r.1 ^^^ pairBits left right
  | _, _ => 0

theorem recordEdges_eq (k : Nat) (left right : List (Nat × α)) :
    recordEdges k left right = ⟨pairBits left right, k⟩ := by
  have h : ∀ r : EdgeRec, (left.zip right).foldl (fun rec p => rec.flipEdge p.1.1 p.2.1) r =
      ⟨r.edges ^^^ pairBits left right, r.k⟩ := by
    induction left generalizing right with
    | nil => intro r; simp [pairBits]
    | cons l left ih =>
      intro r
      cases right with
      | nil => simp [pairBits]
      | cons x right =>
        rw [List.zip_cons_cons, List.foldl_cons, ih]
        simp [pairBits, EdgeRec.flipEdge, EdgeRec.flipEdges, BitVec.xor_assoc]
  simpa [recordEdges, EdgeRec.new] using h (EdgeRec.new k)

/-- The bits of the pair `a`, `b`. -/
def pairMat (a b x y : Fin 8) : Bool := decide ((x, y) = (a, b)) || decide ((x, y) = (b, a))

theorem pairMat_symm (a b x y : Fin 8) : pairMat a b x y = pairMat a b y x := by
  simp only [pairMat, Prod.mk.injEq]
  rw [Bool.or_comm]
  congr 1 <;> rw [decide_eq_decide] <;> exact and_comm

theorem mat_flip (e : BitVec 64) (a b x y : Fin 8) :
    mat (e ^^^ EdgeRec.getEdgesMask a b) x y = (mat e x y ^^ pairMat a b x y) := by
  rw [mat_xor, mat_getEdgesMask]
  rfl

theorem mat_pairBits_cons (a b : Fin 8) (u w : α) (left right : List (Nat × α)) (x y : Fin 8) :
    mat (pairBits ((a.val, u) :: left) ((b.val, w) :: right)) x y =
      (mat (pairBits left right) x y ^^ pairMat a b x y) := by
  rw [pairBits, BitVec.xor_comm, mat_flip]

/-- Marks below `k`. -/
def MarksBelow (k : Nat) (xs : List (Nat × α)) : Prop := ∀ p ∈ xs, p.1 < k

theorem MarksBelow.mono {k k' : Nat} {xs : List (Nat × α)} (h : MarksBelow k xs) (hk : k ≤ k') :
    MarksBelow k' xs := fun p hp => Nat.lt_of_lt_of_le (h p hp) hk

/-- Two lists of equal length whose marks are below 8, pair by pair. -/
theorem pairs_induction {motive : List (Nat × α) → List (Nat × α) → Prop} (nil : motive [] [])
    (cons : ∀ (a b : Fin 8) (u w : α) (left right : List (Nat × α)), motive left right →
      motive ((a.val, u) :: left) ((b.val, w) :: right))
    {left right : List (Nat × α)} (hlen : left.length = right.length) (hl : MarksBelow 8 left)
    (hr : MarksBelow 8 right) : motive left right := by
  induction left generalizing right with
  | nil =>
    obtain rfl := List.length_eq_zero_iff.1 hlen.symm
    exact nil
  | cons l left ih =>
    cases right with
    | nil => simp at hlen
    | cons r right =>
      exact cons ⟨l.1, hl l (.head _)⟩ ⟨r.1, hr r (.head _)⟩ l.2 r.2 left right
        (ih (by simpa using hlen) (fun p hp => hl p (.tail _ hp)) (fun p hp => hr p (.tail _ hp)))

theorem pairBits_symm {left right : List (Nat × α)} (hlen : left.length = right.length)
    (hl : MarksBelow 8 left) (hr : MarksBelow 8 right) (x y : Fin 8) :
    mat (pairBits left right) x y = mat (pairBits left right) y x := by
  refine pairs_induction (motive := fun l r => mat (pairBits l r) x y = mat (pairBits l r) y x)
    (by simp [pairBits, mat]) (fun a b u w left right ih => ?_) hlen hl hr
  rw [mat_pairBits_cons, mat_pairBits_cons, ih, pairMat_symm]

/-- An edge joins two marks of the lists. -/
theorem pairBits_below {k : Nat} (hk : k ≤ 8) : ∀ {left right : List (Nat × α)},
    left.length = right.length → MarksBelow k left → MarksBelow k right → ∀ x y : Fin 8,
      mat (pairBits left right) x y = true → x.val < k ∧ y.val < k
  | [], [], _, _, _, x, y, h => by simp [pairBits, mat] at h
  | [], _ :: _, hlen, _, _, _, _, _ => by simp at hlen
  | _ :: _, [], hlen, _, _, _, _, _ => by simp at hlen
  | (a, u) :: left, (b, w) :: right, hlen, hl, hr, x, y, h => by
    have ha : a < k := hl _ (.head _)
    have hb : b < k := hr _ (.head _)
    have hc := mat_pairBits_cons ⟨a, by omega⟩ ⟨b, by omega⟩ u w left right x y
    dsimp only at hc
    rw [hc] at h
    by_cases hp : pairMat ⟨a, by omega⟩ ⟨b, by omega⟩ x y = true
    · simp only [pairMat, Bool.or_eq_true, decide_eq_true_iff, Prod.mk.injEq] at hp
      rcases hp with ⟨rfl, rfl⟩ | ⟨rfl, rfl⟩
      · exact ⟨ha, hb⟩
      · exact ⟨hb, ha⟩
    · rw [Bool.not_eq_true] at hp
      rw [hp, Bool.xor_false] at h
      exact pairBits_below hk (by simpa using hlen) (fun p hp => hl p (.tail _ hp))
        (fun p hp => hr p (.tail _ hp)) x y h

/-- There are at most as many edges as pairs. -/
theorem size_pairBits {left right : List (Nat × α)} (hlen : left.length = right.length)
    (hl : MarksBelow 8 left) (hr : MarksBelow 8 right) :
    size (simple (pairBits left right)) ≤ 2 * left.length := by
  refine pairs_induction (motive := fun l r => size (simple (pairBits l r)) ≤ 2 * l.length) ?_
    (fun a b u w left right ih => ?_) hlen hl hr
  · simp [size, deg, simple, pairBits, mat]
  · have hpt : ∀ x y, (simple (pairBits ((a.val, u) :: left) ((b.val, w) :: right)) x y).toNat ≤
        (simple (pairBits left right) x y).toNat +
          ((if x = a then (if y = b then 1 else 0) else 0) +
            (if x = b then (if y = a then 1 else 0) else 0)) := by
      intro x y
      simp only [simple, mat_pairBits_cons, pairMat, Prod.mk.injEq]
      by_cases h1 : x = a ∧ y = b
      · rw [if_pos h1.1, if_pos h1.2]
        refine Nat.le_trans (Bool.toNat_le _) (by omega)
      · by_cases h2 : x = b ∧ y = a
        · rw [if_pos h2.1, if_pos h2.2]
          refine Nat.le_trans (Bool.toNat_le _) (by omega)
        · simp [h1, h2]
    have hsum : size (simple (pairBits ((a.val, u) :: left) ((b.val, w) :: right))) ≤
        size (simple (pairBits left right)) + 2 := by
      refine (Finset.sum_le_sum fun x _ => Finset.sum_le_sum fun y _ => hpt x y).trans ?_
      simp_rw [Finset.sum_add_distrib]
      simp [size, deg, Finset.sum_ite_irrel]
    rw [List.length_cons]
    omega

/-! ## Swapping along the path -/

theorem and_bitAt_eq_zero (e : BitVec 64) (a b : Fin 8) :
    (e &&& bitAt (8 * a.val + b.val) == 0) = !mat e a b := by
  cases h : mat e a b with
  | false =>
    have : e &&& bitAt (8 * a.val + b.val) = 0#64 := edges_eq_zero fun x y => by
      rw [mat_and, mat_bitAt]
      by_cases hxy : (x, y) = (a, b)
      · obtain ⟨rfl, rfl⟩ := Prod.mk.inj hxy
        simp [h]
      · simp [hxy]
    simp [this]
  | true =>
    have hne : e &&& bitAt (8 * a.val + b.val) ≠ 0#64 := fun h0 => by
      have := congrArg (fun e => mat e a b) h0
      simp only [mat_and, mat_bitAt, h] at this
      simp [mat] at this
    simpa using hne

/-- The path is asked about an edge and turns it round. -/
theorem retrieveAndFlipEdge_eq (path : EdgeRec) (a b : Fin 8) :
    path.retrieveAndFlipEdge a b =
      (mat path.edges a b, ⟨path.edges ^^^ EdgeRec.getEdgesMask a b, path.k⟩) := by
  simp only [EdgeRec.retrieveAndFlipEdge, EdgeRec.getEdgesMask, getEdgeOffset_eq _ b.isLt,
    getEdgeOffset_eq _ a.isLt]
  rw [and_bitAt_eq_zero]
  simp

/-- Every pair is directed one way. -/
def Antisymm (D : Fin 8 → Fin 8 → Bool) : Prop := ∀ a b, a ≠ b → D a b = !D b a

theorem Antisymm.flip {e : BitVec 64} (h : Antisymm (mat e)) (a b : Fin 8) :
    Antisymm (mat (e ^^^ EdgeRec.getEdgesMask a b)) := by
  intro x y hxy
  rw [mat_flip, mat_flip, pairMat_symm a b y x, h x y hxy]
  cases mat e y x <;> cases pairMat a b x y <;> rfl

theorem net_congr {G G' D D' : Fin 8 → Fin 8 → Bool} {u : Fin 8}
    (h : ∀ w, arc G' D' u w = arc G D u w) : net G' D' u = net G D u :=
  Finset.sum_congr rfl fun w _ => h w

/-- What a pair adds to the signed degrees: its direction on the path before it is turned round. -/
theorem net_pairBits_cons {e : BitVec 64} (he : Antisymm (mat e)) (a b : Fin 8) (u w : α)
    (left right : List (Nat × α)) (c : Fin 8) :
    net (simple (pairBits ((a.val, u) :: left) ((b.val, w) :: right))) (mat e) c =
      net (simple (pairBits left right)) (mat (e ^^^ EdgeRec.getEdgesMask a b)) c +
        (if a = b then 0 else if mat e a b then (if c = a then 1 else 0) - (if c = b then 1 else 0)
          else (if c = b then 1 else 0) - (if c = a then 1 else 0)) := by
  by_cases hab : a = b
  · subst hab
    rw [if_pos rfl, add_zero]
    refine net_congr fun y => ?_
    have hp : c ≠ y → pairMat a a c y = false := fun hne => by
      simp only [pairMat, Prod.mk.injEq, Bool.or_self, decide_eq_false_iff_not]
      rintro ⟨rfl, rfl⟩
      exact hne rfl
    by_cases hcy : c = y
    · simp [arc, simple, hcy]
    · simp only [arc, simple, mat_pairBits_cons, mat_flip, hp hcy, Bool.xor_false]
  · have hchange : ∀ x y, (x, y) ≠ (a, b) → (x, y) ≠ (b, a) →
        arc (simple (pairBits ((a.val, u) :: left) ((b.val, w) :: right))) (mat e) x y =
          arc (simple (pairBits left right)) (mat (e ^^^ EdgeRec.getEdgesMask a b)) x y := by
      intro x y h1 h2
      have hp : pairMat a b x y = false := by
        simp only [pairMat, h1, h2, decide_false, Bool.or_self]
      simp only [arc, simple, mat_pairBits_cons, mat_flip, hp, Bool.xor_false]
    have hpab : pairMat a b a b = true := by simp [pairMat]
    have hpba : pairMat a b b a = true := by simp [pairMat]
    have h1 : arc (simple (pairBits ((a.val, u) :: left) ((b.val, w) :: right))) (mat e) a b -
        arc (simple (pairBits left right)) (mat (e ^^^ EdgeRec.getEdgesMask a b)) a b =
          if mat e a b then 1 else -1 := by
      simp only [arc, simple, mat_pairBits_cons, mat_flip, hpab, ne_eq, hab, not_false_eq_true,
        decide_true, Bool.and_true]
      cases mat (pairBits left right) a b <;> cases mat e a b <;> decide
    have h2 : arc (simple (pairBits ((a.val, u) :: left) ((b.val, w) :: right))) (mat e) b a -
        arc (simple (pairBits left right)) (mat (e ^^^ EdgeRec.getEdgesMask a b)) b a =
          if mat e a b then -1 else 1 := by
      simp only [arc, simple, mat_pairBits_cons, mat_flip, hpba, ne_eq, Ne.symm hab,
        not_false_eq_true, decide_true, Bool.and_true, he b a (Ne.symm hab)]
      cases mat (pairBits left right) b a <;> cases mat e a b <;> decide
    rw [net_change hab hchange c, h1, h2, if_neg hab]
    cases mat e a b <;> simp only [if_true, Bool.false_eq_true, if_false] <;> split_ifs <;> omega

/-- How often the mark `c` occurs. -/
def markCount (c : Nat) (xs : List (Nat × α)) : Nat := xs.countP fun p => decide (p.1 = c)

theorem markCount_cons (c a : Fin 8) (u : α) (xs : List (Nat × α)) :
    (markCount c ((a.val, u) :: xs) : Int) = markCount c xs + if c = a then 1 else 0 := by
  by_cases h : c = a
  · subst h
    simp [markCount]
  · have hne : ¬ a.val = c.val := fun e => h (Fin.ext e.symm)
    simp [markCount, h, hne]

/-- **What swapping along a path does to the marks**: the left half gets fewer of a mark than the
right half by the mark's signed degree. -/
theorem markCount_swapPairs {left right : List (Nat × α)} (hlen : left.length = right.length)
    (hl : MarksBelow 8 left) (hr : MarksBelow 8 right) (path : EdgeRec)
    (hp : Antisymm (mat path.edges)) (c : Fin 8) :
    (markCount c (swapPairs path left right).1 : Int) + net (simple (pairBits left right))
      (mat path.edges) c = markCount c (swapPairs path left right).2 := by
  refine pairs_induction (motive := fun l r => ∀ path : EdgeRec, Antisymm (mat path.edges) →
    (markCount c (swapPairs path l r).1 : Int) + net (simple (pairBits l r)) (mat path.edges) c =
      markCount c (swapPairs path l r).2) ?_ (fun a b u w left right ih path hp => ?_)
      hlen hl hr path
    hp
  · intro path _
    simp [swapPairs, markCount, net, arc, simple, pairBits, mat]
  · have h := ih ⟨path.edges ^^^ EdgeRec.getEdgesMask a b, path.k⟩ (hp.flip a b)
    rw [net_pairBits_cons hp]
    simp only [swapPairs, retrieveAndFlipEdge_eq]
    cases hflag : mat path.edges a b with
    | false =>
      simp only [Bool.false_eq_true, if_false, markCount_cons]
      split_ifs <;> simp_all <;> omega
    | true =>
      simp only [if_true, markCount_cons]
      split_ifs <;> simp_all <;> omega

theorem swapPairs_perm (path : EdgeRec) (left right : List (Nat × α)) :
    List.Perm ((swapPairs path left right).1 ++ (swapPairs path left right).2) (left ++ right) := by
  induction left generalizing path right with
  | nil => cases right <;> simp [swapPairs]
  | cons a left ih =>
    cases right with
    | nil => simp [swapPairs]
    | cons b right =>
      have h := ih (path.retrieveAndFlipEdge a.1 b.1).2 right
      simp only [swapPairs]
      split
      · refine List.Perm.trans (List.Perm.cons b (List.perm_middle.trans (h.cons a))) ?_
        refine List.Perm.trans (List.Perm.swap a b _) (List.Perm.cons a List.perm_middle.symm)
      · exact (List.perm_middle.trans (h.cons b)).cons a |>.trans (List.perm_middle.symm.cons a)

theorem interleaveHalves_perm (k : Nat) (xs : List (Nat × α)) :
    List.Perm ((interleaveHalves k xs).1 ++ (interleaveHalves k xs).2) xs := by
  have hx := List.take_append_drop (xs.length / 2) xs
  unfold interleaveHalves
  dsimp only
  split
  · rename_i l left r right hl hr
    rw [hl, hr] at hx
    conv_rhs => rw [← hx]
    exact ((List.perm_middle.trans ((swapPairs_perm _ left right).cons r)).cons l).trans
      (List.perm_middle.symm.cons l)
  · rw [hx]

/-- With an even number of occurrences of every mark all degrees are even. -/
theorem deg_pairBits {left right : List (Nat × α)} (hlen : left.length = right.length)
    (hl : MarksBelow 8 left) (hr : MarksBelow 8 right) (c : Fin 8)
    (heven : (markCount c left + markCount c right) % 2 = 0) :
    deg (simple (pairBits left right)) c % 2 = 0 := by
  -- along any orientation the signed degree has the parity of the degree
  let lower : EdgeRec := ⟨0xFF7F3F1F0F070301#64, 8⟩
  have hanti : Antisymm (mat lower.edges) := by unfold Antisymm; decide
  have h := markCount_swapPairs hlen hl hr lower hanti c
  have hp : markCount c (swapPairs lower left right).1 + markCount c
    (swapPairs lower left right).2 =
      markCount c left + markCount c right := by
    unfold markCount
    rw [← List.countP_append, ← List.countP_append]
    exact (swapPairs_perm lower left right).countP_eq _
  have hmod := net_mod_two (simple (pairBits left right)) (mat lower.edges) c
  omega

theorem net_not (G D : Fin 8 → Fin 8 → Bool) (c : Fin 8) :
    net G (fun a b => !D a b) c = -net G D c := by
  unfold net
  rw [← Finset.sum_neg_distrib]
  refine Finset.sum_congr rfl fun w _ => ?_
  have hflip : ∀ x y : Bool, (if x then (if !y then (1 : Int) else -1) else 0) =
      -(if x then (if y then 1 else -1) else 0) := by decide
  exact hflip (G c w) (D c w)

/-- Reversing the path or not, the first pair is treated like the others. -/
theorem interleaveHalves_eq (k : Nat) {xs : List (Nat × α)} (hx : MarksBelow 8 xs)
    (h2 : 2 ≤ xs.length) {path : EdgeRec}
    (hpath : path = (recordEdges k (xs.take (xs.length / 2))
      (xs.drop (xs.length / 2))).eulerPath (xs.length / 2)) :
    ∃ path' : EdgeRec, (path'.edges = path.edges ∨ path'.edges = ~~~path.edges) ∧
      interleaveHalves k xs =
        swapPairs path' (xs.take (xs.length / 2)) (xs.drop (xs.length / 2)) := by
  unfold interleaveHalves
  dsimp only
  rw [← hpath]
  cases hl : xs.take (xs.length / 2) with
  | nil =>
    have := congrArg List.length hl
    rw [List.length_take, List.length_nil] at this
    omega
  | cons l left =>
  cases hr : xs.drop (xs.length / 2) with
  | nil =>
    have := congrArg List.length hr
    rw [List.length_drop, List.length_nil] at this
    omega
  | cons r right =>
    have hl8 : l.1 < 8 := hx l (List.mem_of_mem_take (by rw [hl]; exact .head _))
    have hr8 : r.1 < 8 := hx r (List.mem_of_mem_drop (by rw [hr]; exact .head _))
    have hret := retrieveAndFlipEdge_eq path ⟨l.1, hl8⟩ ⟨r.1, hr8⟩
    dsimp only at hret ⊢
    rw [hret]
    cases hdir : mat path.edges ⟨l.1, hl8⟩ ⟨r.1, hr8⟩ with
    | false =>
      refine ⟨path, .inl rfl, ?_⟩
      simp only [swapPairs, hret, hdir, Bool.false_eq_true, if_false, EdgeRec.flipEdges,
        BitVec.ofNat_eq_ofNat, BitVec.xor_zero]
    | true =>
      refine ⟨⟨~~~path.edges, path.k⟩, .inr rfl, ?_⟩
      have hret' := retrieveAndFlipEdge_eq ⟨~~~path.edges, path.k⟩ ⟨l.1, hl8⟩ ⟨r.1, hr8⟩
      dsimp only at hret'
      have hx : path.edges ^^^ EdgeRec.getEdgesMask l.1 r.1 ^^^ BitVec.allOnes 64 =
          ~~~path.edges ^^^ EdgeRec.getEdgesMask l.1 r.1 := by
        rw [BitVec.xor_assoc, BitVec.xor_comm _ (BitVec.allOnes 64), ← BitVec.xor_assoc,
          BitVec.xor_allOnes]
      simp only [swapPairs, hret', mat_not, hdir, Bool.not_true, Bool.false_eq_true, if_false,
        if_true, EdgeRec.flipEdges, hx]

/-- **Both halves get equally many of every mark.** -/
theorem markCount_interleaveHalves {k : Nat} (hk : k ≤ 8) {xs : List (Nat × α)}
    (hx : MarksBelow k xs) (h2 : 2 ≤ xs.length) (heven : xs.length % 2 = 0) {c : Nat} (hc : c < 8)
    (hcount : ∀ a < 8, markCount a xs % 2 = 0) :
    markCount c (interleaveHalves k xs).1 = markCount c xs / 2 ∧
      markCount c (interleaveHalves k xs).2 = markCount c xs / 2 := by
  generalize hl : xs.take (xs.length / 2) = left
  generalize hr : xs.drop (xs.length / 2) = right
  have happ : left ++ right = xs := by rw [← hl, ← hr, List.take_append_drop]
  have hlen : left.length = right.length := by
    rw [← hl, ← hr, List.length_take, List.length_drop]
    omega
  have hlk : MarksBelow k left := fun p hp => hx p (by rw [← happ]; exact List.mem_append_left _ hp)
  have hrk : MarksBelow k right :=
    fun p hp => hx p (by rw [← happ]; exact List.mem_append_right _ hp)
  have hl8 := hlk.mono hk
  have hr8 := hrk.mono hk
  have hsum : ∀ a, markCount a left + markCount a right = markCount a xs := fun a => by
    rw [← happ]
    simp [markCount, List.countP_append]
  have hor : Oriented (simple (pairBits left right)) (fun a b => decide (b < a))
      (mat ((recordEdges k left right).eulerPath (xs.length / 2)).edges) := by
    rw [recordEdges_eq]
    refine eulerPath_spec (r := ⟨pairBits left right, k⟩) hk (pairBits_symm hlen hl8 hr8)
      (pairBits_below hk hlen hlk hrk)
      (fun u => deg_pairBits hlen hl8 hr8 u (by rw [hsum]; exact hcount u u.isLt)) ?_
    refine (size_pairBits hlen hl8 hr8).trans ?_
    rw [← hl, List.length_take]
    omega
  obtain ⟨path', hedges, heq⟩ := interleaveHalves_eq k (hx.mono hk) h2 rfl
  rw [hl, hr] at hedges heq
  have hbal : Antisymm (mat path'.edges) ∧
      net (simple (pairBits left right)) (mat path'.edges) ⟨c, hc⟩ = 0 := by
    rcases hedges with e | e
    · rw [e]
      exact ⟨hor.antisymm, hor.balanced _⟩
    · have hmat : mat (~~~((recordEdges k left right).eulerPath (xs.length / 2)).edges) =
          fun a b => !mat ((recordEdges k left right).eulerPath (xs.length / 2)).edges a b := by
        funext a b
        exact mat_not _ a b
      rw [e, hmat, net_not, hor.balanced]
      exact ⟨fun a b hab => congrArg Bool.not (hor.antisymm a b hab), rfl⟩
  have h := markCount_swapPairs hlen hl8 hr8 path' hbal.1 ⟨c, hc⟩
  have hp : markCount c (swapPairs path' left right).1 +
      markCount c (swapPairs path' left right).2 = markCount c xs := by
    rw [← hsum c]
    unfold markCount
    rw [← List.countP_append, ← List.countP_append]
    exact (swapPairs_perm path' left right).countP_eq _
  rw [hbal.2] at h
  rw [heq]
  dsimp only at h
  have := hcount c hc
  omega

/-! ## Several ways -/

/-- The marks in cyclic order `0, 1, …, k - 1, 0, 1, …`. -/
def Cyclic (k : Nat) (xs : List (Nat × α)) : Prop := ∀ i (hi : i < xs.length), xs[i].1 = i % k

theorem Cyclic.append {k : Nat} {xs ys : List (Nat × α)} (hx : Cyclic k xs) (hy : Cyclic k ys)
    (hk : k ∣ xs.length) : Cyclic k (xs ++ ys) := by
  intro i hi
  by_cases h : i < xs.length
  · rw [List.getElem_append_left h, hx i h]
  · rw [List.getElem_append_right (by omega), hy _ (by rw [List.length_append] at hi; omega)]
    obtain ⟨q, hq⟩ := hk
    conv_rhs => rw [show i = i - xs.length + k * q by omega]
    rw [Nat.add_mul_mod_self_left]

section Halves

variable {k m : Nat} {xs : List (Nat × α)} (hlen : xs.length = k * 2 ^ (m + 1))

include hlen

theorem length_interleaveHalves_pow :
    (interleaveHalves k xs).1.length = k * 2 ^ m ∧ (interleaveHalves k xs).2.length =
      k * 2 ^ m := by
  have hpow : k * 2 ^ (m + 1) = k * 2 ^ m + k * 2 ^ m := by
    rw [Nat.pow_succ, ← Nat.mul_assoc]
    omega
  have hl := length_interleaveHalves k xs
  omega

/-- The recursive calls on the halves. -/
theorem interleave_halves (h3 : 3 ≤ k) {ys zs : List (Nat × α)}
    (hy : interleave k (interleaveHalves k xs).1 = some ys)
    (hz : interleave k (interleaveHalves k xs).2 = some zs) :
    interleave k xs = some (ys ++ zs) := by
  have hpow : k * 2 ^ (m + 1) = k * 2 ^ m + k * 2 ^ m := by
    rw [Nat.pow_succ, ← Nat.mul_assoc]
    omega
  have hpos : k ≤ k * 2 ^ m := Nat.le_mul_of_pos_right k (Nat.two_pow_pos m)
  rw [interleave, if_neg (by omega), if_neg (by omega)]
  simp [hy, hz]

end Halves

/-- **`Interleave` only permutes**, whatever the marks. -/
theorem interleave_perm {k m : Nat} (h3 : 3 ≤ k) (h8 : k ≤ 8) (xs : List (Nat × α))
    (hlen : xs.length = k * 2 ^ m) : ∃ ys, interleave k xs = some ys ∧ List.Perm ys xs := by
  induction m generalizing xs with
  | zero =>
    refine ⟨StaticSort.sortMarks k xs, ?_, StaticSort.sortMarks_perm k xs⟩
    rw [interleave, if_pos (by simpa using hlen), interleaveBaseCase, if_pos ⟨h3, h8⟩]
  | succ m ih =>
    obtain ⟨hl₁, hl₂⟩ := length_interleaveHalves_pow hlen
    obtain ⟨ys, hy, hpy⟩ := ih (interleaveHalves k xs).1 hl₁
    obtain ⟨zs, hz, hpz⟩ := ih (interleaveHalves k xs).2 hl₂
    exact ⟨ys ++ zs, interleave_halves hlen h3 hy hz,
      (hpy.append hpz).trans (interleaveHalves_perm k xs)⟩

theorem markCount_eq (c : Nat) (xs : List (Nat × α)) :
    markCount c xs = (xs.map Prod.fst).count c := by
  rw [List.count, List.countP_map]
  rfl

theorem markCount_range {k : Nat} {xs : List (Nat × α)} (hx : MarksBelow k xs)
    (hcount : ∀ c < k, markCount c xs = 1) : List.Perm (xs.map Prod.fst) (List.range k) := by
  rw [List.perm_iff_count]
  intro c
  rw [← markCount_eq, List.count_range]
  by_cases h : c < k
  · simp [h, hcount c h]
  · rw [if_neg h, markCount, List.countP_eq_zero]
    intro p hp
    have := hx p hp
    simp only [decide_eq_true_eq]
    omega

theorem interleaveBaseCase_cyclic {k : Nat} {xs : List (Nat × α)} (hlen : xs.length = k)
    (hx : MarksBelow k xs) (hcount : ∀ c < k, markCount c xs = 1) :
    Cyclic k (StaticSort.sortMarks k xs) := by
  have hp := StaticSort.sortMarks_perm k xs
  have hsorted : List.Pairwise (· ≤ ·) ((StaticSort.sortMarks k xs).map Prod.fst) :=
    List.pairwise_map.2 (StaticSort.sortMarks_sorted hlen)
  have hmarks : (StaticSort.sortMarks k xs).map Prod.fst = List.range k :=
    ((hp.map Prod.fst).trans (markCount_range hx hcount)).eq_of_pairwise
      (fun a b _ _ => Nat.le_antisymm) hsorted List.pairwise_le_range
  intro i hi
  have hik : i < k := by rw [hp.length_eq] at hi; omega
  have := List.getElem_of_eq hmarks (show i < ((StaticSort.sortMarks k xs).map Prod.fst).length by
    simpa using hi)
  rw [List.getElem_map, List.getElem_range] at this
  rw [this, Nat.mod_eq_of_lt hik]

/-- **`Interleave`** puts `2 ^ m` elements of every mark into cyclic order. -/
theorem interleave_spec {k m : Nat} (h3 : 3 ≤ k) (h8 : k ≤ 8) (xs : List (Nat × α))
    (hlen : xs.length = k * 2 ^ m) (hx : MarksBelow k xs)
    (hcount : ∀ c < k, markCount c xs = 2 ^ m) :
    ∃ ys, interleave k xs = some ys ∧ List.Perm ys xs ∧ Cyclic k ys := by
  induction m generalizing xs with
  | zero =>
    refine ⟨StaticSort.sortMarks k xs, ?_, StaticSort.sortMarks_perm k xs,
      interleaveBaseCase_cyclic (by simpa using hlen) hx (by simpa using hcount)⟩
    rw [interleave, if_pos (by simpa using hlen), interleaveBaseCase, if_pos ⟨h3, h8⟩]
  | succ m ih =>
    obtain ⟨hl₁, hl₂⟩ := length_interleaveHalves_pow hlen
    have hp := interleaveHalves_perm k xs
    have hcount' : ∀ a < 8, markCount a xs % 2 = 0 := fun a _ => by
      by_cases ha : a < k
      · rw [hcount a ha, Nat.pow_succ]
        omega
      · have : markCount a xs = 0 := List.countP_eq_zero.2 fun p hm => by
          have := hx p hm
          simp only [decide_eq_true_eq]
          omega
        omega
    have hpos : k ≤ k * 2 ^ (m + 1) := Nat.le_mul_of_pos_right k (Nat.two_pow_pos _)
    have heven : xs.length % 2 = 0 := by
      rw [hlen, Nat.pow_succ, ← Nat.mul_assoc]
      exact Nat.mul_mod_left _ _
    have hhalf : ∀ c < k, markCount c (interleaveHalves k xs).1 = 2 ^ m ∧
        markCount c (interleaveHalves k xs).2 = 2 ^ m := fun c hc => by
      have := markCount_interleaveHalves h8 hx (by omega) heven (show c < 8 by omega) hcount'
      rw [hcount c hc, Nat.pow_succ] at this
      omega
    have hx1 : MarksBelow k (interleaveHalves k xs).1 := fun p hm =>
      hx p (hp.mem_iff.1 (List.mem_append_left _ hm))
    have hx2 : MarksBelow k (interleaveHalves k xs).2 := fun p hm =>
      hx p (hp.mem_iff.1 (List.mem_append_right _ hm))
    obtain ⟨ys, hy, hpy, hcy⟩ := ih (interleaveHalves k xs).1 hl₁ hx1 fun c hc => (hhalf c hc).1
    obtain ⟨zs, hz, hpz, hcz⟩ := ih (interleaveHalves k xs).2 hl₂ hx2 fun c hc => (hhalf c hc).2
    exact ⟨ys ++ zs, interleave_halves hlen h3 hy hz, (hpy.append hpz).trans hp,
      hcy.append hcz ⟨2 ^ m, hpy.length_eq.trans hl₁⟩⟩

/-! ### Marks and elements side by side -/

/-- `2 ^ m` marks of every kind leave no room for others. -/
theorem marks_lt_of_count {k c : Nat} {marks : List Nat} (hlen : marks.length = k * c)
    (hcount : ∀ a < k, marks.count a = c) : ∀ a ∈ marks, a < k := by
  have hsum : ∀ j ≤ k, marks.countP (fun a => decide (a < j)) = j * c := by
    intro j
    induction j with
    | zero => simp
    | succ j ih =>
      intro hj
      have hsplit : ∀ xs : List Nat, xs.countP (fun a => decide (a < j + 1)) =
          xs.countP (fun a => decide (a < j)) + xs.count j := by
        intro xs
        induction xs with
        | nil => rfl
        | cons a xs ihx =>
          simp only [List.countP_cons, List.count_cons, ihx, decide_eq_true_eq, beq_iff_eq]
          split <;> split <;> split <;> omega
      rw [hsplit, ih (by omega), hcount j (by omega), Nat.succ_mul]
  have hall := List.countP_eq_length.1 ((hsum k (Nat.le_refl k)).trans hlen.symm)
  exact fun a ha => of_decide_eq_true (hall a ha)

/-- **`Interleave`** on `k * 2 ^ m` elements with as many marks, each of the `k` marks equally
often: elements and marks are permuted alike, and the marks end in cyclic order. -/
theorem interleave_cyclic (k m : Nat) (h3 : 3 ≤ k) (h8 : k ≤ 8) (marks : List Nat) (elems : List α)
    (hmarks : marks.length = k * 2 ^ m) (helems : elems.length = k * 2 ^ m)
    (hcount : ∀ c < k, marks.count c = 2 ^ m) :
    ∃ ys, interleave k (marks.zip elems) = some ys ∧ List.Perm ys (marks.zip elems) ∧
      ∀ i (hi : i < ys.length), ys[i].1 = i % k := by
  have hfst : (marks.zip elems).map Prod.fst = marks := List.map_fst_zip (by omega)
  have hlen : (marks.zip elems).length = k * 2 ^ m := by
    rw [List.length_zip, hmarks, helems, Nat.min_self]
  refine interleave_spec h3 h8 _ hlen ?_ ?_
  · intro p hp
    refine marks_lt_of_count hmarks hcount _ ?_
    rw [← hfst]
    exact List.mem_map_of_mem hp
  · intro c hc
    rw [← hcount c hc]
    conv_rhs => rw [← hfst, List.count, List.countP_map]
    rfl

/-- Three ways, two elements of each. -/
theorem interleave_cyclic_three :
    ∃ ys, interleave 3 ([2, 2, 1, 0, 1, 0].zip ["a", "b", "c", "d", "e", "f"]) = some ys ∧
      List.Perm ys ([2, 2, 1, 0, 1, 0].zip ["a", "b", "c", "d", "e", "f"]) ∧
      ∀ i (hi : i < ys.length), ys[i].1 = i % 3 :=
  interleave_cyclic 3 1 (by decide) (by decide) [2, 2, 1, 0, 1, 0]
  ["a", "b", "c", "d", "e", "f"] rfl rfl
    (by decide)

end EM.Algorithm
