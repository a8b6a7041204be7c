import OblSort.Algorithm.Instrumented
import OblSort.Algorithm.Proof.Bitonic
import Mathlib.Algebra.BigOperators.Group.List.Basic
import Mathlib.Data.List.GetD

/-!
# The building blocks are oblivious

For every instrumented function two things. Without what it records it is the function it
instruments (`value_…`). And two runs of it on inputs of the same lengths record the same accesses
(`agree_…`), whatever the contents, the marks and the values computed from them are: offsets, target
bits, orientations and counts are arbitrary on both sides.
-/

namespace EM.Algorithm

open Net Trace Traced

variable {α : Type}

/-- Lists of the same length. -/
def SameLength {β γ : Type} (xs : List β) (ys : List γ) : Prop := xs.length = ys.length

/-- Two lists each of the same length. -/
def SameLengths {β γ : Type} (p : List β × List β) (q : List γ × List γ) : Prop :=
  SameLength p.1 q.1 ∧ SameLength p.2 q.2

namespace SameLength

variable {β γ : Type} {xs ys : List β} {xs' ys' : List γ}

theorem append (h : SameLength xs xs') (h' : SameLength ys ys') :
    SameLength (xs ++ ys) (xs' ++ ys') := by
  unfold SameLength at *
  rw [List.length_append, List.length_append, h, h']

theorem take (h : SameLength xs xs') (n : Nat) : SameLength (xs.take n) (xs'.take n) := by
  unfold SameLength at *
  rw [List.length_take, List.length_take, h]

theorem drop (h : SameLength xs xs') (n : Nat) : SameLength (xs.drop n) (xs'.drop n) := by
  unfold SameLength at *
  rw [List.length_drop, List.length_drop, h]

theorem cons (h : SameLength xs xs') (x : β) (x' : γ) : SameLength (x :: xs) (x' :: xs') :=
  congrArg (· + 1) h

theorem tail {x : β} {x' : γ} (h : SameLength (x :: xs) (x' :: xs')) : SameLength xs xs' :=
  Nat.succ.inj h

/-- Two runs of a loop along a list. -/
theorem all (h : SameLength xs xs') : List.Forall₂ (fun _ _ => True) xs xs' := by
  induction xs generalizing xs' with
  | nil =>
    cases xs' with
    | nil => exact .nil
    | cons x' xs' => cases h
  | cons x xs ih =>
    cases xs' with
    | nil => cases h
    | cons x' xs' => exact .cons trivial (ih h.tail)

end SameLength

/-- Two runs of a loop along two lists: it ends in both when one of the lists does. -/
inductive SamePairs {β γ : Type} : List β → List β → List γ → List γ → Prop
  | left {right : List β} {right' : List γ} (h : SameLength right right') :
      SamePairs [] right [] right'
  | right {a : β} {a' : γ} {left : List β} {left' : List γ} (h : SameLength left left') :
      SamePairs (a :: left) [] (a' :: left') []
  | next {a b : β} {a' b' : γ} {left right : List β} {left' right' : List γ}
      (h : SamePairs left right left' right') :
      SamePairs (a :: left) (b :: right) (a' :: left') (b' :: right')

theorem SameLength.pairs {β γ : Type} {left right : List β} {left' right' : List γ}
    (hl : SameLength left left') (hr : SameLength right right') :
    SamePairs left right left' right' := by
  induction left generalizing right left' right' with
  | nil =>
    cases left' with
    | nil => exact .left hr
    | cons a' left' => cases hl
  | cons a left ih =>
    cases left' with
    | nil => cases hl
    | cons a' left' =>
      cases right with
      | nil =>
        cases right' with
        | nil => exact .right hl.tail
        | cons b' right' => cases hr
      | cons b right =>
        cases right' with
        | nil => cases hr
        | cons b' right' => exact .next (ih hl.tail hr.tail)

/-! ## Bitonic sort -/

theorem value_exchT (cmp : α → α → Bool) (dire : Bool) (i j : Nat) {c : Traced Access (List α)}
    {xs : List α} (h : c.value = some xs) :
    (exchT cmp dire i j c).value = some (listExch cmp dire i j xs) := by
  simp [exchT, h]

theorem value_bitonicSortT (cmp : α → α → Bool) (dire : Bool) (xs : List α) :
    (bitonicSortT cmp dire xs).value = some (bitonicSort (listExch cmp) dire 0 xs.length xs) :=
  bitonicSort_rel (R := fun (c : Traced Access (List α)) ys => c.value = some ys) dire 0 xs.length
    (fun d i j _ _ _ _ _ _ h => value_exchT cmp d i j h) (value_pure xs)

theorem agree_exchT {cmp cmp' : α → α → Bool} (dire : Bool) (i j : Nat)
    {c c' : Traced Access (List α)} (h : Agree SameLength c c') :
    Agree SameLength (exchT cmp dire i j c) (exchT cmp' dire i j c') := by
  refine h.bind fun xs xs' hxs => .step _ (.step _ (.step _ (.pure ?_)))
  simpa [SameLength, listExch] using hxs

theorem agree_bitonicSortT {cmp cmp' : α → α → Bool} (dire : Bool) {xs xs' : List α}
    (h : SameLength xs xs') :
    Agree SameLength (bitonicSortT cmp dire xs) (bitonicSortT cmp' dire xs') := by
  rw [bitonicSortT, bitonicSortT, show xs.length = xs'.length from h]
  exact bitonicSort_rel dire 0 xs'.length (fun d i j _ _ _ _ _ _ hc => agree_exchT d i j hc)
    (.pure h)

/-! ## Compaction -/

theorem value_condSwapAllT (b : Nat → Bool) (l r : Loc) (i : Nat) (xs ys : List α) :
    (condSwapAllT b l r i xs ys).value = some (condSwapAll b i xs ys) := by
  induction xs generalizing i ys with
  | nil => cases ys <;> rfl
  | cons x xs ih =>
    cases ys with
    | nil => rfl
    | cons y ys => simp [condSwapAllT, condSwapAll, ih]

theorem agree_condSwapAllT (b b' : Nat → Bool) (l r : Loc) (i : Nat) {xs ys xs' ys' : List α}
    (hx : SameLength xs xs') (hy : SameLength ys ys') :
    Agree SameLengths (condSwapAllT b l r i xs ys) (condSwapAllT b' l r i xs' ys') := by
  have hpairs := hx.pairs hy
  clear hx hy
  induction hpairs generalizing i with
  | left h => exact .pure ⟨rfl, h⟩
  | right h => exact .pure ⟨h.cons _ _, rfl⟩
  | next h ih =>
    refine .step _ ((ih (i + 1)).bind fun p q hpq => .pure ?_)
    split <;> split <;> exact ⟨hpq.1.cons _ _, hpq.2.cons _ _⟩

theorem value_orOffCompactSeparateMarkT (k z begin : Nat) (marks : List Bool) (xs : List α) :
    (orOffCompactSeparateMarkT k z begin marks xs).value =
      some (orOffCompactSeparateMark k z marks xs) := by
  induction k generalizing z begin marks xs with
  | zero => rfl
  | succ k ih =>
    cases k with
    | zero => simp [orOffCompactSeparateMarkT, orOffCompactSeparateMark, value_condSwapAllT]
    | succ k => simp [orOffCompactSeparateMarkT, orOffCompactSeparateMark, value_condSwapAllT, ih]

theorem agree_orOffCompactSeparateMarkT (k z z' begin : Nat) (marks marks' : List Bool)
    {xs xs' : List α} (h : SameLength xs xs') :
    Agree SameLength (orOffCompactSeparateMarkT k z begin marks xs)
      (orOffCompactSeparateMarkT k z' begin marks' xs') := by
  induction k generalizing z z' begin marks marks' xs xs' with
  | zero => exact .pure h
  | succ k ih =>
    cases k with
    | zero =>
      refine .step _ (.step _ (.step _ ?_))
      exact (agree_condSwapAllT _ _ _ _ 0 (h.take 1) (h.drop 1)).bind fun p q hpq =>
        .pure (hpq.1.append hpq.2)
    | succ k =>
      refine .step _ (.step _ ?_)
      refine (ih _ _ _ _ _ (h.take _)).bind fun left left' hleft => ?_
      refine (ih _ _ _ _ _ (h.drop _)).bind fun right right' hright => ?_
      exact (agree_condSwapAllT _ _ _ _ 0 hleft hright).bind fun p q hpq =>
        .pure (hpq.1.append hpq.2)

theorem value_orCompactSeparateMarkT (fuel begin : Nat) (marks : List Bool) (xs : List α) :
    (orCompactSeparateMarkT fuel begin marks xs).value =
      some (orCompactSeparateMark fuel marks xs) := by
  induction fuel generalizing begin marks xs with
  | zero => rfl
  | succ fuel ih =>
    simp only [orCompactSeparateMarkT, orCompactSeparateMark]
    by_cases hn : xs.length ≤ 1
    · simp [hn]
    · by_cases h2 : xs.length - 2 ^ xs.length.log2 = 0
      · simp [hn, h2, value_orOffCompactSeparateMarkT]
      · simp [hn, h2, value_orOffCompactSeparateMarkT, value_condSwapAllT, ih]

theorem agree_orCompactSeparateMarkT (fuel begin : Nat) (marks marks' : List Bool) {xs xs' : List α}
    (h : SameLength xs xs') :
    Agree SameLength (orCompactSeparateMarkT fuel begin marks xs)
      (orCompactSeparateMarkT fuel begin marks' xs') := by
  induction fuel generalizing begin marks marks' xs xs' with
  | zero => exact .pure h
  | succ fuel ih =>
    have hlen : xs.length = xs'.length := h
    simp only [orCompactSeparateMarkT, hlen]
    split
    · exact .pure h
    · split
      · exact agree_orOffCompactSeparateMarkT _ _ _ _ _ _ h
      · refine .step _ (.step _ ?_)
        refine (ih _ _ _ (h.take _)).bind fun left left' hleft => ?_
        refine (agree_orOffCompactSeparateMarkT _ _ _ _ _ _ (h.drop _)).bind
          fun right right' hright => ?_
        exact (agree_condSwapAllT _ _ _ _ 0 hleft (hright.drop _)).bind fun p q hpq =>
          .pure ((hpq.1.append (hright.take _)).append hpq.2)

theorem value_markPrefixT (isMarked : α → Bool) (i : Nat) (xs : List α) :
    (markPrefixT isMarked i xs).value = some (xs.map isMarked) := by
  induction xs generalizing i with
  | nil => rfl
  | cons x xs ih => simp [markPrefixT, ih]

theorem agree_markPrefixT (isMarked isMarked' : α → Bool) (i : Nat) {xs xs' : List α}
    (h : SameLength xs xs') :
    Agree (fun _ _ => True) (markPrefixT isMarked i xs) (markPrefixT isMarked' i xs') := by
  have hall := h.all
  clear h
  induction hall generalizing i with
  | nil => exact .pure trivial
  | @cons x x' xs xs' _ _ ih =>
    exact .step _ (.step _ ((ih (i + 1)).bind fun _ _ _ => .pure trivial))

theorem value_orCompactT (isMarked : α → Bool) (xs : List α) :
    (orCompactT isMarked xs).value = some (orCompact isMarked xs) := by
  by_cases hn : xs.length ≤ 1
  · cases hx : xs.length with
    | zero => simp [orCompactT, orCompact, orCompactSeparateMark, hx]
    | succ n =>
      rw [hx] at hn
      simp [orCompactT, orCompact, orCompactSeparateMark, hx, hn]
  · simp [orCompactT, orCompact, hn, value_markPrefixT, value_orCompactSeparateMarkT]

theorem agree_orCompactT (isMarked isMarked' : α → Bool) {xs xs' : List α} (h : SameLength xs xs') :
    Agree SameLength (orCompactT isMarked xs) (orCompactT isMarked' xs') := by
  have hlen : xs.length = xs'.length := h
  simp only [orCompactT, hlen]
  split
  · exact .pure h
  · exact .step _ ((agree_markPrefixT isMarked isMarked' 0 h).bind fun marks marks' _ =>
      agree_orCompactSeparateMarkT _ 0 marks marks' h)

theorem value_goodrichDistT (isMarked : α → Bool) (i numMarked : Nat) (xs : List α) :
    (goodrichDistT isMarked i numMarked xs).value =
      some (goodrichDist isMarked i numMarked xs) := by
  induction xs generalizing i numMarked with
  | nil => rfl
  | cons x xs ih => simp [goodrichDistT, goodrichDist, ih]

theorem agree_goodrichDistT (isMarked isMarked' : α → Bool) (i numMarked numMarked' : Nat)
    {xs xs' : List α} (h : SameLength xs xs') :
    Agree (fun _ _ => True) (goodrichDistT isMarked i numMarked xs)
      (goodrichDistT isMarked' i numMarked' xs') := by
  have hall := h.all
  clear h
  induction hall generalizing i numMarked numMarked' with
  | nil => exact .pure trivial
  | @cons x x' xs xs' _ _ ih =>
    exact .step _ (.step _ ((ih _ _ _).bind fun _ _ _ => .pure trivial))

theorem value_goodrichMoveT (isMarked : α → Bool) (i : Nat) (s : List α × List Nat) (j : Nat) :
    (goodrichMoveT isMarked i s j).value = some (goodrichMove isMarked i s j) := by
  simp [goodrichMoveT, goodrichMove]

theorem length_swapAt {β : Type} (i j : Nat) (xs : List β) :
    (swapAt i j xs).length = xs.length := by
  unfold swapAt
  split <;> simp

theorem agree_goodrichMoveT (isMarked isMarked' : α → Bool) (i j : Nat) {s s' : List α × List Nat}
    (h : SameLength s.1 s'.1) :
    Agree (fun s s' => SameLength s.1 s'.1) (goodrichMoveT isMarked i s j)
      (goodrichMoveT isMarked' i s' j) := by
  refine .step _ (.step _ (.step _ (.step _ (.step _ (.pure ?_)))))
  have hlen : s.1.length = s'.1.length := h
  split <;> split <;> simpa [SameLength, length_swapAt] using hlen

theorem value_goodrichLevelT (isMarked : α → Bool) (s : List α × List Nat) (i : Nat) :
    (goodrichLevelT isMarked s i).value = some (goodrichLevel isMarked s i) :=
  value_foldlM (value_goodrichMoveT isMarked i) _ s

theorem agree_goodrichLevelT (isMarked isMarked' : α → Bool) (i : Nat) {s s' : List α × List Nat}
    (h : SameLength s.1 s'.1) :
    Agree (fun s s' => SameLength s.1 s'.1) (goodrichLevelT isMarked s i)
      (goodrichLevelT isMarked' s' i) := by
  rw [goodrichLevelT, goodrichLevelT, show s.1.length = s'.1.length from h]
  exact .foldlM (fun j s s' hs => agree_goodrichMoveT isMarked isMarked' i j hs) _ h

theorem value_goodrichLevelsT (isMarked : α → Bool) (level : Nat) (s : List α × List Nat) :
    (goodrichLevelsT isMarked level s).value = some (goodrichLevels isMarked level s) := by
  simp [goodrichLevelsT, goodrichLevels, value_foldlM (value_goodrichLevelT isMarked)]

theorem agree_goodrichLevelsT (isMarked isMarked' : α → Bool) (level : Nat)
    {s s' : List α × List Nat} (h : SameLength s.1 s'.1) :
    Agree SameLength (goodrichLevelsT isMarked level s) (goodrichLevelsT isMarked' level s') := by
  refine Agree.bind (R := fun s s' : List α × List Nat => SameLength s.1 s'.1) ?_
    fun s s' hs => .pure hs
  exact .foldlM (fun i s s' hs => agree_goodrichLevelT isMarked isMarked' i hs) _ h

theorem value_goodrichCompactT (isMarked : α → Bool) (xs : List α) :
    (goodrichCompactT isMarked xs).value = some (goodrichCompact isMarked xs) := by
  simp [goodrichCompactT, goodrichCompact, value_goodrichDistT, value_goodrichLevelsT]

theorem agree_goodrichCompactT (isMarked isMarked' : α → Bool) {xs xs' : List α}
    (h : SameLength xs xs') :
    Agree SameLength (goodrichCompactT isMarked xs) (goodrichCompactT isMarked' xs') := by
  rw [goodrichCompactT, goodrichCompactT, show xs.length = xs'.length from h]
  exact (agree_goodrichDistT isMarked isMarked' 0 0 0 h).bind fun dist dist' _ =>
    agree_goodrichLevelsT isMarked isMarked' _ h

/-! ## Interleaving two ways -/

theorem value_balanceMarksT (isMarked : α → Bool) (l r : Loc) (i : Nat) (targetBit : Bool)
    (left right : List α) :
    (balanceMarksT isMarked l r i targetBit left right).value =
      some (balanceMarks isMarked targetBit left right) := by
  induction left generalizing i targetBit right with
  | nil => cases right <;> rfl
  | cons a left ih =>
    cases right with
    | nil => rfl
    | cons b right => simp [balanceMarksT, balanceMarks, ih]

theorem agree_balanceMarksT (isMarked isMarked' : α → Bool) (l r : Loc) (i : Nat)
    (targetBit targetBit' : Bool) {left right left' right' : List α} (hl : SameLength left left')
    (hr : SameLength right right') :
    Agree SameLengths (balanceMarksT isMarked l r i targetBit left right)
      (balanceMarksT isMarked' l r i targetBit' left' right') := by
  have hpairs := hl.pairs hr
  clear hl hr
  induction hpairs generalizing i targetBit targetBit' with
  | left h => exact .pure ⟨rfl, h⟩
  | right h => exact .pure ⟨h.cons _ _, rfl⟩
  | next h ih =>
    refine .step _ (.step _ (.step _ ((ih (i + 1) _ _).bind fun p q hpq => .pure ?_)))
    split <;> split <;> exact ⟨hpq.1.cons _ _, hpq.2.cons _ _⟩

theorem value_twoWayHalvesT (isMarked : α → Bool) (l : Loc) (xs : List α) :
    (twoWayHalvesT isMarked l xs).value = some (twoWayHalves isMarked xs) := by
  simp [twoWayHalvesT, twoWayHalves, value_balanceMarksT]

theorem agree_twoWayHalvesT (isMarked isMarked' : α → Bool) (l : Loc) {xs xs' : List α}
    (h : SameLength xs xs') :
    Agree SameLengths (twoWayHalvesT isMarked l xs) (twoWayHalvesT isMarked' l xs') := by
  have hlen : xs.length = xs'.length := h
  simp only [twoWayHalvesT, hlen]
  refine .step _ ?_
  refine (agree_balanceMarksT isMarked isMarked' _ _ 0 _ _ ((h.take _).drop _)
    ((h.drop _).drop _)).bind fun p q hpq => .pure ?_
  exact ⟨((h.take _).take _).append hpq.1, ((h.drop _).take _).append hpq.2⟩

theorem interleaveTwoWayT_of_ne (isMarked : α → Bool) (fuel : Nat) (l : Loc) {xs : List α}
    (h : xs.length ≠ 2) :
    interleaveTwoWayT isMarked (fuel + 1) l xs = if xs.length < 4 then pure xs else (do
      let halves ← twoWayHalvesT isMarked l xs
      let left ← interleaveTwoWayT isMarked fuel l halves.1
      let right ← interleaveTwoWayT isMarked fuel (l.shift ((xs.length + 2) / 4 * 2)) halves.2
      pure (left ++ right)) := by
  conv_lhs => unfold interleaveTwoWayT
  split
  · exact absurd rfl h
  · rfl

theorem value_interleaveTwoWayT (isMarked : α → Bool) {fuel : Nat} (l : Loc) {xs : List α}
    (hfuel : xs.length ≤ fuel) :
    (interleaveTwoWayT isMarked fuel l xs).value = some (interleaveTwoWay isMarked xs) := by
  induction fuel generalizing l xs with
  | zero =>
    obtain rfl := List.length_eq_zero_iff.1 (Nat.le_zero.1 hfuel)
    rw [interleaveTwoWay_of_ne isMarked (by simp)]
    rfl
  | succ fuel ih =>
    by_cases h2 : xs.length = 2
    · obtain ⟨a, b, rfl⟩ := List.length_eq_two.1 h2
      simp [interleaveTwoWayT, interleaveTwoWay]
    · rw [interleaveTwoWayT_of_ne isMarked fuel l h2, interleaveTwoWay_of_ne isMarked h2]
      by_cases h4 : xs.length < 4
      · simp [h4]
      · obtain ⟨hleft, hright⟩ := length_twoWayHalves isMarked xs
        have hl := ih l (show (twoWayHalves isMarked xs).1.length ≤ fuel by omega)
        have hr := ih (l.shift ((xs.length + 2) / 4 * 2))
          (show (twoWayHalves isMarked xs).2.length ≤ fuel by omega)
        simp [h4, value_twoWayHalvesT, hl, hr]

theorem agree_interleaveTwoWayT (isMarked isMarked' : α → Bool) (fuel : Nat) (l : Loc)
    {xs xs' : List α} (h : SameLength xs xs') :
    Agree SameLength (interleaveTwoWayT isMarked fuel l xs)
      (interleaveTwoWayT isMarked' fuel l xs') := by
  induction fuel generalizing l xs xs' with
  | zero => exact .pure h
  | succ fuel ih =>
    have hlen : xs.length = xs'.length := h
    by_cases h2 : xs'.length = 2
    · obtain ⟨a, b, rfl⟩ := List.length_eq_two.1 (hlen.trans h2)
      obtain ⟨a', b', rfl⟩ := List.length_eq_two.1 h2
      refine .step _ (.step _ (.pure ?_))
      split <;> split <;> rfl
    · rw [interleaveTwoWayT_of_ne isMarked fuel l (hlen.trans_ne h2),
        interleaveTwoWayT_of_ne isMarked' fuel l h2, hlen]
      split
      · exact .pure h
      · refine (agree_twoWayHalvesT isMarked isMarked' l h).bind fun p q hpq => ?_
        refine (ih l hpq.1).bind fun left left' hleft => ?_
        exact (ih _ hpq.2).bind fun right right' hright => .pure (hleft.append hright)

theorem value_interleaveTwoWayBucketsT (isMarked : α → Bool) (l r : Loc) (left right : List α) :
    (interleaveTwoWayBucketsT isMarked l r left right).value =
      some (interleaveTwoWayBuckets isMarked left right) := by
  obtain ⟨hleft, hright⟩ := length_balanceMarks isMarked (right.head?.any isMarked) (left.drop 1)
    (right.drop 1)
  simp only [interleaveTwoWayBucketsT, interleaveTwoWayBuckets, value_bind, value_record,
    value_balanceMarksT, Option.bind_some]
  rw [value_interleaveTwoWayT isMarked l, value_interleaveTwoWayT isMarked r]
  · rfl
  · simp only [List.length_append, List.length_take, hright, List.length_drop]
    omega
  · simp only [List.length_append, List.length_take, hleft, List.length_drop]
    omega

theorem agree_interleaveTwoWayBucketsT (isMarked isMarked' : α → Bool) (l r : Loc)
    {left right left' right' : List α} (hl : SameLength left left') (hr : SameLength right right') :
    Agree SameLengths (interleaveTwoWayBucketsT isMarked l r left right)
      (interleaveTwoWayBucketsT isMarked' l r left' right') := by
  have hleft : left.length = left'.length := hl
  have hright : right.length = right'.length := hr
  rw [interleaveTwoWayBucketsT, interleaveTwoWayBucketsT, hleft, hright]
  refine .step _ ?_
  refine (agree_balanceMarksT isMarked isMarked' _ _ 0 _ _ (hl.drop 1) (hr.drop 1)).bind
    fun p q hpq => ?_
  refine (agree_interleaveTwoWayT isMarked isMarked' _ l ((hl.take 1).append hpq.1)).bind
    fun xs xs' hxs => ?_
  exact (agree_interleaveTwoWayT isMarked isMarked' _ r ((hr.take 1).append hpq.2)).bind
    fun ys ys' hys => .pure ⟨hxs, hys⟩

theorem swapAlternateT_of_short (l r : Loc) (i : Nat) {left right : List α}
    (h : left.length < 2 ∨ right.length < 2) :
    swapAlternateT l r i left right = pure (left, right) := by
  unfold swapAlternateT
  split
  · simp only [List.length_cons] at h
    omega
  · rfl

theorem value_swapAlternateT (l r : Loc) (i : Nat) (left right : List α) :
    (swapAlternateT l r i left right).value = some (swapAlternate left right) := by
  fun_induction swapAlternate left right generalizing i with
  | case1 a b left c d right rest ih => simp [swapAlternateT, rest, ih]
  | case2 left right h =>
    unfold swapAlternateT
    split
    · exact absurd rfl (h _ _ _ _ _ _ rfl)
    · rfl

theorem agree_swapAlternateT (l r : Loc) (i : Nat) {left right left' right' : List α}
    (hl : SameLength left left') (hr : SameLength right right') :
    Agree SameLengths (swapAlternateT l r i left right) (swapAlternateT l r i left' right') := by
  fun_induction swapAlternate left right generalizing i left' right' with
  | case1 a b left c d right rest ih =>
    rcases left' with _ | ⟨a', _ | ⟨b', left'⟩⟩
    · cases hl
    · cases hl
    rcases right' with _ | ⟨c', _ | ⟨d', right'⟩⟩
    · cases hr
    · cases hr
    refine .step _ ((ih (i + 1) hl.tail.tail hr.tail.tail).bind fun p q hpq => .pure ?_)
    exact ⟨(hpq.1.cons _ _).cons _ _, (hpq.2.cons _ _).cons _ _⟩
  | case2 left right h =>
    have hshort := swapAlternate_short h
    have hleft : left.length = left'.length := hl
    have hright : right.length = right'.length := hr
    rw [swapAlternateT_of_short l r i hshort, swapAlternateT_of_short l r i (by omega)]
    exact .pure ⟨hl, hr⟩

theorem value_interleaveTwoWayPartitionT (isMarked : α → Bool) (l r : Loc) (left right : List α) :
    (interleaveTwoWayPartitionT isMarked l r left right).value =
      some (interleaveTwoWayPartition isMarked left right) := by
  simp [interleaveTwoWayPartitionT, interleaveTwoWayPartition, value_interleaveTwoWayBucketsT,
    value_swapAlternateT]

theorem agree_interleaveTwoWayPartitionT (isMarked isMarked' : α → Bool) (l r : Loc)
    {left right left' right' : List α} (hl : SameLength left left') (hr : SameLength right right') :
    Agree SameLengths (interleaveTwoWayPartitionT isMarked l r left right)
      (interleaveTwoWayPartitionT isMarked' l r left' right') :=
  (agree_interleaveTwoWayBucketsT isMarked isMarked' l r hl hr).bind fun _ _ hpq =>
    agree_swapAlternateT l r 0 hpq.1 hpq.2

theorem value_interleaveTwoWayPartitionRangeT (isMarked : α → Bool) (xs : List α) :
    (interleaveTwoWayPartitionRangeT isMarked xs).value =
      some (interleaveTwoWayPartitionRange isMarked xs) := by
  simp only [interleaveTwoWayPartitionRangeT, interleaveTwoWayPartitionRange, value_bind,
    value_interleaveTwoWayT isMarked (.data 0) (Nat.le_refl xs.length), Option.bind_some]
  exact value_foldlM (fun _ _ => rfl) _ _

theorem agree_interleaveTwoWayPartitionRangeT (isMarked isMarked' : α → Bool) {xs xs' : List α}
    (h : SameLength xs xs') :
    Agree SameLength (interleaveTwoWayPartitionRangeT isMarked xs)
      (interleaveTwoWayPartitionRangeT isMarked' xs') := by
  have hlen : xs.length = xs'.length := h
  simp only [interleaveTwoWayPartitionRangeT, hlen]
  refine (agree_interleaveTwoWayT isMarked isMarked' _ _ h).bind fun ys ys' hys => ?_
  refine Agree.foldlM (R := SameLength) (fun t ys ys' hys => ?_) _ hys
  refine .step _ (.pure ?_)
  have hlen' : ys.length = ys'.length := hys
  simpa [SameLength, length_swapAt] using hlen'

/-! ## Interleaving several ways -/

theorem value_exchMarksT (arr : Arr) (begin : Nat) (dire : Bool) (i j : Nat)
    {c : Traced Access (List (Nat × α))} {xs : List (Nat × α)} (h : c.value = some xs) :
    (exchMarksT arr begin dire i j c).value =
      some (listExch (fun a b => decide (a.1 ≤ b.1)) dire i j xs) := by
  simp [exchMarksT, h]

theorem agree_exchMarksT (arr : Arr) (begin : Nat) (dire : Bool) (i j : Nat)
    {c c' : Traced Access (List (Nat × α))} (h : Agree SameLength c c') :
    Agree SameLength (exchMarksT arr begin dire i j c) (exchMarksT arr begin dire i j c') := by
  refine h.bind fun xs xs' hxs => .step _ (.step _ (.step _ (.step _ (.pure ?_))))
  simpa [SameLength, listExch] using hxs

theorem value_interleaveBaseCaseT (arr : Arr) (begin k : Nat) (xs : List (Nat × α)) :
    (interleaveBaseCaseT arr begin k xs).value = interleaveBaseCase k xs := by
  unfold interleaveBaseCaseT interleaveBaseCase
  split
  · exact run_rel (R := fun (c : Traced Access (List (Nat × α))) ys => c.value = some ys)
      (fun c _ _ _ h => value_exchMarksT arr begin c.dire c.fst c.snd h) (value_pure xs)
  · rfl

theorem agree_interleaveBaseCaseT (arr : Arr) (begin k : Nat) {xs xs' : List (Nat × α)}
    (h : SameLength xs xs') :
    Agree SameLength (interleaveBaseCaseT arr begin k xs)
    (interleaveBaseCaseT arr begin k xs') := by
  unfold interleaveBaseCaseT
  split
  · exact run_rel (fun c _ _ _ hc => agree_exchMarksT arr begin c.dire c.fst c.snd hc) (.pure h)
  · exact .stop_left

theorem value_recordEdgesT (l r i : Nat) (rec : EdgeRec) (left right : List (Nat × α)) :
    (recordEdgesT l r i rec left right).value =
      some ((left.zip right).foldl (fun rec p => rec.flipEdge p.1.1 p.2.1) rec) := by
  induction left generalizing i rec right with
  | nil => cases right <;> rfl
  | cons a left ih =>
    cases right with
    | nil => rfl
    | cons b right => simp [recordEdgesT, ih]

theorem agree_recordEdgesT (l r i : Nat) (rec rec' : EdgeRec)
    {left right left' right' : List (Nat × α)}
    (hl : SameLength left left') (hr : SameLength right right') :
    Agree (fun _ _ => True) (recordEdgesT l r i rec left right)
      (recordEdgesT l r i rec' left' right') := by
  have hpairs := hl.pairs hr
  clear hl hr
  induction hpairs generalizing i rec rec' with
  | left h => exact .pure trivial
  | right h => exact .pure trivial
  | next h ih => exact .step _ (.step _ (ih (i + 1) _ _))

theorem value_swapPairsT (arr : Arr) (l r i : Nat) (path : EdgeRec) (left right : List (Nat × α)) :
    (swapPairsT arr l r i path left right).value = some (swapPairs path left right) := by
  induction left generalizing i path right with
  | nil => cases right <;> rfl
  | cons a left ih =>
    cases right with
    | nil => rfl
    | cons b right => simp [swapPairsT, swapPairs, ih]

theorem agree_swapPairsT (arr : Arr) (l r i : Nat) (path path' : EdgeRec)
    {left right left' right' : List (Nat × α)} (hl : SameLength left left')
    (hr : SameLength right right') :
    Agree SameLengths (swapPairsT arr l r i path left right)
      (swapPairsT arr l r i path' left' right') := by
  have hpairs := hl.pairs hr
  clear hl hr
  induction hpairs generalizing i path path' with
  | left h => exact .pure ⟨rfl, h⟩
  | right h => exact .pure ⟨h.cons _ _, rfl⟩
  | next h ih =>
    refine .step _ (.step _ (.step _ (.step _ ((ih (i + 1) _ _).bind fun p q hpq => .pure ?_))))
    split <;> split <;> exact ⟨hpq.1.cons _ _, hpq.2.cons _ _⟩

theorem value_interleaveHalvesT (arr : Arr) (begin k : Nat) (xs : List (Nat × α)) :
    (interleaveHalvesT arr begin k xs).value = some (interleaveHalves k xs) := by
  simp only [interleaveHalvesT, interleaveHalves, value_bind, value_recordEdgesT, Option.bind_some,
    recordEdges]
  generalize xs.take (xs.length / 2) = left
  generalize xs.drop (xs.length / 2) = right
  cases left with
  | nil => rfl
  | cons a left =>
    cases right with
    | nil => rfl
    | cons b right =>
      simp only [value_bind, value_record, value_swapPairsT, Option.bind_some, value_pure]
      rfl

theorem agree_interleaveHalvesT (arr : Arr) (begin k : Nat) {xs xs' : List (Nat × α)}
    (h : SameLength xs xs') :
    Agree SameLengths (interleaveHalvesT arr begin k xs) (interleaveHalvesT arr begin k xs') := by
  have hlen : xs.length = xs'.length := h
  have hl := h.take (xs'.length / 2)
  have hr := h.drop (xs'.length / 2)
  simp only [interleaveHalvesT, hlen]
  refine (agree_recordEdgesT _ _ 0 _ _ hl hr).bind fun rec rec' _ => ?_
  generalize xs.take (xs'.length / 2) = left at *
  generalize xs.drop (xs'.length / 2) = right at *
  generalize xs'.take (xs'.length / 2) = left' at *
  generalize xs'.drop (xs'.length / 2) = right' at *
  cases hl.pairs hr with
  | left h => exact .pure ⟨rfl, h⟩
  | right h => exact .pure ⟨h.cons _ _, rfl⟩
  | next h =>
    refine .step _ (.step _ ?_)
    refine (agree_swapPairsT arr _ _ 1 _ _ hl.tail hr.tail).bind fun p q hpq => .pure ?_
    exact ⟨hpq.1.cons _ _, hpq.2.cons _ _⟩

theorem value_interleaveT (arr : Arr) (k : Nat) {fuel : Nat} (begin : Nat) {xs : List (Nat × α)}
    (hfuel : xs.length < fuel) : (interleaveT arr k fuel begin xs).value = interleave k xs := by
  induction fuel generalizing begin xs with
  | zero => omega
  | succ fuel ih =>
    rw [interleaveT, interleave]
    split
    · exact value_interleaveBaseCaseT arr begin k xs
    · split
      · rfl
      · obtain ⟨hleft, hright⟩ := length_interleaveHalves k xs
        have hl := ih begin (show (interleaveHalves k xs).1.length < fuel by omega)
        have hr :=
          ih (begin + xs.length / 2) (show (interleaveHalves k xs).2.length < fuel by omega)
        simp only [value_bind, value_interleaveHalvesT, Option.bind_some, hl, hr, value_pure]
        rfl

theorem agree_interleaveT (arr : Arr) (k fuel begin : Nat) {xs xs' : List (Nat × α)}
    (h : SameLength xs xs') :
    Agree SameLength (interleaveT arr k fuel begin xs) (interleaveT arr k fuel begin xs') := by
  induction fuel generalizing begin xs xs' with
  | zero => exact .pure h
  | succ fuel ih =>
    have hlen : xs.length = xs'.length := h
    rw [interleaveT, interleaveT, hlen]
    split
    · exact agree_interleaveBaseCaseT arr begin k h
    · split
      · exact .pure h
      · refine (agree_interleaveHalvesT arr begin k h).bind fun p q hpq => ?_
        refine (ih begin hpq.1).bind fun left left' hleft => ?_
        exact (ih _ hpq.2).bind fun right right' hright => .pure (hleft.append hright)

/-! ## Merge-split of two ways -/

section TwoWay

variable {E Indicator : Type} [Markable E Indicator]

theorem value_setMarksT (stores : Bool) (Z : Nat) (indicator : Indicator) (t : Nat) (xs : List E) :
    (setMarksT stores Z indicator t xs).value =
      some (xs.map (Markable.setAndGetMarked indicator)) := by
  induction xs generalizing t with
  | nil => rfl
  | cons x xs ih => cases stores <;> simp [setMarksT, ih]

theorem agree_setMarksT (stores : Bool) (Z : Nat) (indicator indicator' : Indicator) (t : Nat)
    {xs xs' : List E} (h : SameLength xs xs') :
    Agree SameLength (setMarksT stores Z indicator t xs) (setMarksT stores Z indicator' t xs') := by
  have hall := h.all
  clear h
  induction hall generalizing t with
  | nil => exact .pure rfl
  | @cons x x' xs xs' _ _ ih =>
    have hrest := (ih (t + 1)).bind (Q := SameLength) fun rest rest' hrest => .pure
      (hrest.cons (Markable.setAndGetMarked indicator x) (Markable.setAndGetMarked indicator' x'))
    cases stores with
    | true => exact .step _ (.step _ hrest)
    | false => exact .step _ hrest

theorem value_changeMarksT (Z : Nat) (indicator : Indicator) (dir : Bool) (t diff : Nat)
    (xs : List E) :
    (changeMarksT Z indicator dir t diff xs).value = some (changeMarks indicator dir diff xs) := by
  induction xs generalizing t diff with
  | nil => rfl
  | cons x xs ih => simp [changeMarksT, changeMarks, ih]

theorem agree_changeMarksT (Z : Nat) (indicator indicator' : Indicator) (dir dir' : Bool)
    (t diff diff' : Nat) {xs xs' : List E} (h : SameLength xs xs') :
    Agree (fun p q => SameLength p.2 q.2) (changeMarksT Z indicator dir t diff xs)
      (changeMarksT Z indicator' dir' t diff' xs') := by
  have hall := h.all
  clear h
  induction hall generalizing t diff diff' with
  | nil => exact .pure rfl
  | @cons x x' xs xs' _ _ ih =>
    refine .step _ (.step _ ?_)
    exact (ih (t + 1) _ _).bind fun rest rest' hrest => .pure (hrest.cons _ _)

theorem value_mergeSplitTwoWayT (stores : Bool) (Z : Nat) (indicator : Indicator)
    (left right : List E) :
    (mergeSplitTwoWayT stores Z indicator left right).value =
      mergeSplitTwoWay Z indicator left right := by
  simp only [mergeSplitTwoWayT, mergeSplitTwoWay, value_bind, value_setMarksT, value_changeMarksT,
    Option.bind_some, apply_ite Traced.value, value_stop, value_interleaveTwoWayPartitionT]

theorem agree_mergeSplitTwoWayT (stores : Bool) (Z : Nat) (indicator indicator' : Indicator)
    {left right left' right' : List E} (hl : SameLength left left') (hr : SameLength right right') :
    Agree SameLengths (mergeSplitTwoWayT stores Z indicator left right)
      (mergeSplitTwoWayT stores Z indicator' left' right') := by
  refine (agree_setMarksT stores Z indicator indicator' 0 (hl.append hr)).bind
    fun marked marked' hmarked => ?_
  have hmap : SameLength (marked.map (·.2)) (marked'.map (·.2)) := by
    unfold SameLength at *
    rw [List.length_map, List.length_map, hmarked]
  refine (agree_changeMarksT Z indicator indicator' _ _ 0 _ _ hmap).bind
    fun changed changed' hchanged => ?_
  -- a run whose count does not come out stops
  split
  · exact .stop_left
  · split
    · exact .stop_right
    · exact agree_interleaveTwoWayPartitionT _ _ _ _ (hchanged.take Z) (hchanged.drop Z)

end TwoWay

/-! ## Merge-split of several ways -/

section Multi

variable {E : Type} {isDummy : E → Bool} {getMark : E → Nat × E}
  {getMarkT getMarkT' : (t : Nat) → E → Traced Access (Nat × E)}

theorem value_markElementsT (hmark : ∀ t x, (getMarkT t x).value = some (getMark x)) (Z t : Nat)
    (xs : List E) (remainCounts : Lanes) :
    (markElementsT isDummy getMarkT Z t xs remainCounts).value =
      some (markElements isDummy getMark xs remainCounts) := by
  induction xs generalizing t remainCounts with
  | nil => rfl
  | cons x xs ih => simp [markElementsT, markElements, hmark, ih]

theorem agree_markElementsT
    (hmark : ∀ t x x', Agree (fun _ _ => True) (getMarkT t x) (getMarkT' t x')) (Z t : Nat)
    (remainCounts remainCounts' : Lanes) {xs xs' : List E} (h : SameLength xs xs') :
    Agree (fun p q => SameLength p.1 q.1) (markElementsT isDummy getMarkT Z t xs remainCounts)
      (markElementsT isDummy getMarkT' Z t xs' remainCounts') := by
  have hall := h.all
  clear h
  induction hall generalizing t remainCounts remainCounts' with
  | nil => exact .pure rfl
  | @cons x x' xs xs' _ _ ih =>
    refine .step _ (.step _ (.step _ ((hmark t x x').bind fun marked marked' _ => .step _ ?_)))
    exact (ih (t + 1) _ _).bind fun rest rest' hrest => .pure (hrest.cons _ _)

theorem value_assignMarksT (remainCounts : Lanes) (t currMark : Nat) (currRemain : BitVec 32)
    (xs : List (Nat × E)) :
    (assignMarksT remainCounts t currMark currRemain xs).value =
      some (assignMarks remainCounts currMark currRemain xs) := by
  induction xs generalizing t currMark currRemain with
  | nil => rfl
  | cons x xs ih => simp [assignMarksT, assignMarks, ih]

theorem agree_assignMarksT (remainCounts remainCounts' : Lanes) (t currMark currMark' : Nat)
    (currRemain currRemain' : BitVec 32) {xs xs' : List (Nat × E)} (h : SameLength xs xs') :
    Agree SameLength (assignMarksT remainCounts t currMark currRemain xs)
      (assignMarksT remainCounts' t currMark' currRemain' xs') := by
  have hall := h.all
  clear h
  induction hall generalizing t currMark currMark' currRemain currRemain' with
  | nil => exact .pure rfl
  | @cons x x' xs xs' _ _ ih =>
    refine .step _ (.step _ ?_)
    exact (ih (t + 1) _ _ _ _).bind fun rest rest' hrest => .pure (hrest.cons _ _)

theorem value_copyBackT (k t : Nat) (xs : List E) : (copyBackT k t xs).value = some () := by
  induction xs generalizing t with
  | nil => rfl
  | cons x xs ih => simp [copyBackT, ih]

theorem agree_copyBackT (k t : Nat) {xs xs' : List E} (h : SameLength xs xs') :
    Agree (fun _ _ => True) (copyBackT k t xs) (copyBackT k t xs') := by
  have hall := h.all
  clear h
  induction hall generalizing t with
  | nil => exact .pure trivial
  | @cons x x' xs xs' _ _ ih => exact .step _ (.step _ (ih (t + 1)))

theorem value_mergeSplitMultiT (hmark : ∀ t x, (getMarkT t x).value = some (getMark x)) (k Z : Nat)
    (buckets : List (List E)) :
    (mergeSplitMultiT isDummy getMarkT k Z buckets).value =
      mergeSplitMulti isDummy getMark k Z buckets := by
  simp only [mergeSplitMultiT, mergeSplitMulti, value_bind, value_markElementsT hmark,
    Option.bind_some]
  split
  · rfl
  · simp only [value_bind, value_assignMarksT, Option.bind_some,
      value_interleaveT .temp k 0 (Nat.lt_succ_self _), value_copyBackT, value_pure]
    rfl

theorem agree_mergeSplitMultiT
    (hmark : ∀ t x x', Agree (fun _ _ => True) (getMarkT t x) (getMarkT' t x')) (k Z : Nat)
    {buckets buckets' : List (List E)} (h : SameLength buckets.flatten buckets'.flatten) :
    Agree (fun _ _ => True) (mergeSplitMultiT isDummy getMarkT k Z buckets)
      (mergeSplitMultiT isDummy getMarkT' k Z buckets') := by
  refine (agree_markElementsT hmark Z 0 _ _ h).bind fun marked marked' hmarked => ?_
  dsimp only
  -- a run without dummies for every mark stops
  split
  · exact .stop_left
  · split
    · exact .stop_right
    · refine (agree_assignMarksT _ _ 0 _ _ _ _ hmarked).bind fun assigned assigned' hassigned => ?_
      rw [show assigned.length = assigned'.length from hassigned]
      refine (agree_interleaveT .temp k _ 0 hassigned).bind fun temp temp' htemp => ?_
      exact (agree_copyBackT k 0 htemp).bind fun _ _ _ => .pure trivial

end Multi

/-! ## Merge-split -/

theorem value_shiftTagsT (j i : Nat) (xs : List (TaggedT α)) :
    (shiftTagsT j i xs).value = some (xs.map TaggedT.shiftTag) := by
  induction xs generalizing i with
  | nil => rfl
  | cons x xs ih => simp [shiftTagsT, ih]

theorem agree_shiftTagsT (j i : Nat) {xs xs' : List (TaggedT α)} (h : SameLength xs xs') :
    Agree (fun _ _ => True) (shiftTagsT j i xs) (shiftTagsT j i xs') := by
  have hall := h.all
  clear h
  induction hall generalizing i with
  | nil => exact .pure trivial
  | @cons x x' xs xs' _ _ ih =>
    exact .step _ (.step _ ((ih (i + 1)).bind fun _ _ _ => .pure trivial))

theorem value_mergeSplitKWayT (k Z : Nat) (buckets : List (List (TaggedT α))) :
    (mergeSplitKWayT k Z buckets).value = mergeSplitKWay k Z buckets := by
  unfold mergeSplitKWayT mergeSplitKWay
  split
  · simp only [value_bind, value_mergeSplitTwoWayT, value_shiftTagsT, value_pure, Option.bind_some]
    cases mergeSplitTwoWay Z 1#64 (buckets.getD 0 []) (buckets.getD 1 []) with
    | none => rfl
    | some p => rfl
  · exact value_mergeSplitMultiT (fun _ _ => rfl) k Z buckets

theorem value_pivotMarkT [SortKey α] (t : Nat) (x : Block α) (i : Nat) (pivots : List (Block α)) :
    (pivotMarkT t x i pivots).value = some (pivotMark pivots x) := by
  induction pivots generalizing i with
  | nil => rfl
  | cons pivot pivots ih =>
    simp only [pivotMarkT, value_bind, value_record, Option.bind_some, ih, value_pure, pivotMark,
      List.countP_cons]
    split <;> rfl

theorem agree_pivotMarkT [SortKey α] (t : Nat) (x x' : Block α) (i : Nat)
    {pivots pivots' : List (Block α)} (h : SameLength pivots pivots') :
    Agree (fun _ _ => True) (pivotMarkT t x i pivots) (pivotMarkT t x' i pivots') := by
  have hall := h.all
  clear h
  induction hall generalizing i with
  | nil => exact .pure trivial
  | @cons pivot pivot' pivots pivots' _ _ ih =>
    exact .step _ (.step _ ((ih (i + 1)).bind fun _ _ _ => .pure trivial))

theorem value_mergeSplitKWayPivotT [SortKey α] (k Z : Nat) (pivots : List (Block α))
    (buckets : List (List (Block α))) :
    (mergeSplitKWayPivotT k Z pivots buckets).value = mergeSplitKWayPivot k Z pivots buckets := by
  unfold mergeSplitKWayPivotT mergeSplitKWayPivot
  split
  · cases pivots with
    | nil => rfl
    | cons pivot pivots =>
      simp only [value_bind, value_record, value_mergeSplitTwoWayT, value_pure, Option.bind_some,
        List.head?_cons]
      rfl
  · exact value_mergeSplitMultiT (fun t x => by simp [value_pivotMarkT]) k Z buckets

/-- `k` buckets of `Z` elements. -/
structure Buckets {E : Type} (k Z : Nat) (buckets : List (List E)) : Prop where
  count : buckets.length = k
  size : ∀ b ∈ buckets, b.length = Z

theorem Buckets.flatten {E : Type} {k Z : Nat} {buckets buckets' : List (List E)}
    (h : Buckets k Z buckets) (h' : Buckets k Z buckets') :
    SameLength buckets.flatten buckets'.flatten := by
  have hlen : ∀ bs : List (List E), Buckets k Z bs → bs.flatten.length = k * Z := fun bs hbs => by
    rw [List.length_flatten, List.map_congr_left hbs.size, List.map_const', List.sum_replicate_nat,
      hbs.count]
  exact (hlen buckets h).trans (hlen buckets' h').symm

theorem Buckets.getD {E : Type} {Z : Nat} {buckets buckets' : List (List E)}
    (h : Buckets 2 Z buckets) (h' : Buckets 2 Z buckets') {i : Nat} (hi : i < 2) :
    SameLength (buckets.getD i []) (buckets'.getD i []) := by
  have hlen : ∀ bs : List (List E), Buckets 2 Z bs → (bs.getD i []).length = Z := fun bs hbs => by
    have hlt : i < bs.length := by
      rw [hbs.count]
      exact hi
    rw [List.getD_eq_getElem _ _ hlt]
    exact hbs.size _ (List.getElem_mem hlt)
  exact (hlen buckets h).trans (hlen buckets' h').symm

theorem agree_mergeSplitKWayT {k Z : Nat} {buckets buckets' : List (List (TaggedT α))}
    (h : Buckets k Z buckets) (h' : Buckets k Z buckets') :
    Agree (fun _ _ => True) (mergeSplitKWayT k Z buckets) (mergeSplitKWayT k Z buckets') := by
  unfold mergeSplitKWayT
  split
  · subst k
    refine (agree_mergeSplitTwoWayT false Z _ _ (h.getD h' (by omega)) (h.getD h' (by omega))).bind
      fun p q hpq => ?_
    refine (agree_shiftTagsT 0 0 hpq.1).bind fun _ _ _ => ?_
    exact (agree_shiftTagsT 1 0 hpq.2).bind fun _ _ _ => .pure trivial
  · refine agree_mergeSplitMultiT (fun t x x' => ?_) k Z (h.flatten h')
    exact .step _ (.step _ (.pure trivial))

theorem agree_mergeSplitKWayPivotT [SortKey α] {k Z : Nat} {pivots pivots' : List (Block α)}
    (hp : SameLength pivots pivots') {buckets buckets' : List (List (Block α))}
    (h : Buckets k Z buckets) (h' : Buckets k Z buckets') :
    Agree (fun _ _ => True) (mergeSplitKWayPivotT k Z pivots buckets)
      (mergeSplitKWayPivotT k Z pivots' buckets') := by
  unfold mergeSplitKWayPivotT
  split
  · subst k
    cases hp.all with
    | nil => exact .stop_left
    | cons _ _ =>
      refine .step _ ?_
      exact (agree_mergeSplitTwoWayT true Z _ _ (h.getD h' (by omega)) (h.getD h' (by omega))).bind
        fun _ _ _ => .pure trivial
  · refine agree_mergeSplitMultiT (fun t x x' => ?_) k Z (h.flatten h')
    exact (agree_pivotMarkT t x x' 0 (hp.take _)).bind fun _ _ _ => .pure trivial

/-! ## Obliviousness -/

/-- **The building blocks are oblivious.** What they record depends on the length of the input, and
on the number of ways and the bucket size, only: two runs on any two inputs, with any comparison
functions, predicates, marks and pivots, record the same. Runs of `Interleave` and `MergeSplitKWay`
are compared when neither aborts. What records is the code itself: each instrumented function
returns what the function it instruments returns. -/
theorem buildingBlocks_oblivious :
    (∀ (cmp cmp' : α → α → Bool) (dire : Bool) (xs xs' : List α), xs.length = xs'.length →
      (bitonicSortT cmp dire xs).trace = (bitonicSortT cmp' dire xs').trace) ∧
    (∀ (isMarked isMarked' : α → Bool) (xs xs' : List α), xs.length = xs'.length →
      (orCompactT isMarked xs).trace = (orCompactT isMarked' xs').trace ∧
      (goodrichCompactT isMarked xs).trace = (goodrichCompactT isMarked' xs').trace ∧
      (interleaveTwoWayPartitionRangeT isMarked xs).trace =
        (interleaveTwoWayPartitionRangeT isMarked' xs').trace) ∧
    (∀ (isMarked isMarked' : α → Bool) (l r : Loc) (left right left' right' : List α),
      left.length = left'.length → right.length = right'.length →
      (interleaveTwoWayPartitionT isMarked l r left right).trace =
        (interleaveTwoWayPartitionT isMarked' l r left' right').trace) ∧
    (∀ (k Z : Nat) (buckets buckets' : List (List (TaggedT α))), Buckets k Z buckets →
      Buckets k Z buckets' → ∀ es es', (mergeSplitKWayT k Z buckets).trace = some es →
      (mergeSplitKWayT k Z buckets').trace = some es' → es = es') ∧
    (∀ [SortKey α] (k Z : Nat) (pivots pivots' : List (Block α))
      (buckets buckets' : List (List (Block α))), pivots.length = pivots'.length →
      Buckets k Z buckets → Buckets k Z buckets' → ∀ es es',
      (mergeSplitKWayPivotT k Z pivots buckets).trace = some es →
      (mergeSplitKWayPivotT k Z pivots' buckets').trace = some es' → es = es') ∧
    (∀ (k : Nat) (xs xs' : List (Nat × α)), xs.length = xs'.length → ∀ es es',
      (interleaveT .data k (xs.length + 1) 0 xs).trace = some es →
      (interleaveT .data k (xs'.length + 1) 0 xs').trace = some es' → es = es') ∧
    (∀ (cmp : α → α → Bool) (dire : Bool) (xs : List α), (bitonicSortT cmp dire xs).value =
      some (bitonicSort (listExch cmp) dire 0 xs.length xs)) ∧
    (∀ (isMarked : α → Bool) (xs : List α),
      (orCompactT isMarked xs).value = some (orCompact isMarked xs) ∧
      (goodrichCompactT isMarked xs).value = some (goodrichCompact isMarked xs) ∧
      (interleaveTwoWayPartitionRangeT isMarked xs).value =
        some (interleaveTwoWayPartitionRange isMarked xs)) ∧
    (∀ (isMarked : α → Bool) (l r : Loc) (left right : List α),
      (interleaveTwoWayPartitionT isMarked l r left right).value =
        some (interleaveTwoWayPartition isMarked left right)) ∧
    (∀ (k Z : Nat) (buckets : List (List (TaggedT α))),
      (mergeSplitKWayT k Z buckets).value = mergeSplitKWay k Z buckets) ∧
    (∀ [SortKey α] (k Z : Nat) (pivots : List (Block α)) (buckets : List (List (Block α))),
      (mergeSplitKWayPivotT k Z pivots buckets).value = mergeSplitKWayPivot k Z pivots buckets) ∧
    (∀ (arr : Arr) (k begin : Nat) (xs : List (Nat × α)),
      (interleaveT arr k (xs.length + 1) begin xs).value = interleave k xs) := by
  refine ⟨fun cmp cmp' dire xs xs' h => ?_, fun isMarked isMarked' xs xs' h => ⟨?_, ?_, ?_⟩,
    fun isMarked isMarked' l r left right left' right' hl hr => ?_,
    fun k Z buckets buckets' h h' es es' hes hes' => ?_,
    fun k Z pivots pivots' buckets buckets' hp h h' es es' hes hes' => ?_,
    fun k xs xs' h es es' hes hes' => ?_, value_bitonicSortT,
    fun isMarked xs => ⟨value_orCompactT isMarked xs, value_goodrichCompactT isMarked xs,
      value_interleaveTwoWayPartitionRangeT isMarked xs⟩,
    value_interleaveTwoWayPartitionT, value_mergeSplitKWayT, value_mergeSplitKWayPivotT,
    fun arr k begin xs => value_interleaveT arr k begin (Nat.lt_succ_self _)⟩
  · exact (agree_bitonicSortT dire h).trace_eq_of_value (value_bitonicSortT cmp dire xs)
      (value_bitonicSortT cmp' dire xs')
  · exact (agree_orCompactT isMarked isMarked' h).trace_eq_of_value (value_orCompactT isMarked xs)
      (value_orCompactT isMarked' xs')
  · exact (agree_goodrichCompactT isMarked isMarked' h).trace_eq_of_value
      (value_goodrichCompactT isMarked xs) (value_goodrichCompactT isMarked' xs')
  · exact (agree_interleaveTwoWayPartitionRangeT isMarked isMarked' h).trace_eq_of_value
      (value_interleaveTwoWayPartitionRangeT isMarked xs)
      (value_interleaveTwoWayPartitionRangeT isMarked' xs')
  · exact (agree_interleaveTwoWayPartitionT isMarked isMarked' l r hl hr).trace_eq_of_value
      (value_interleaveTwoWayPartitionT isMarked l r left right)
      (value_interleaveTwoWayPartitionT isMarked' l r left' right')
  · exact (agree_mergeSplitKWayT h h').trace_eq hes hes'
  · exact (agree_mergeSplitKWayPivotT hp h h').trace_eq hes hes'
  · rw [h] at hes
    exact (agree_interleaveT .data k _ 0 h).trace_eq hes hes'

/-- Three elements none of which is marked, and three that all are. -/
theorem buildingBlocks_oblivious_three :
    (orCompactT (fun _ : Nat => false) [1, 2, 3]).trace =
      (orCompactT (fun _ : Nat => true) [4, 5, 6]).trace :=
  ((@buildingBlocks_oblivious Nat).2.1 (fun _ => false) (fun _ => true) [1, 2, 3] [4, 5, 6] rfl).1

end EM.Algorithm
