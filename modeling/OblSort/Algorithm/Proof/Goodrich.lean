import OblSort.Algorithm.Proof.OrCompact
import Mathlib.Tactic.Ring

/-!
# Compaction by distances

`GoodrichCompact` moves the `a`-th marked element from its place `p` to the place `a` by the bits of
`p - a`, the low ones first. Up to the level `i` it has come to `a + (p - a) / 2 ^ i * 2 ^ i`
(`levelPlace`), and the order of the marked elements has stayed the same, so on its way from `j` to
`j - 2 ^ i` it meets none of them (`Placed.move`).
-/

namespace EM.Algorithm

open Compact

variable {α : Type} {isMarked : α → Bool}

/-! ## Places -/

/-- The marked elements `front` stand at the places `pos`, with the distances that they have to
go. -/
structure Placed (isMarked : α → Bool) (front : List α) (pos : Nat → Nat) (s : List α × List Nat) :
    Prop where
  length : s.2.length = s.1.length
  elem : ∀ a < front.length, s.1[pos a]? = front[a]?
  dist : ∀ a < front.length, s.2[pos a]? = some (pos a - a)
  only : ∀ x y, s.1[x]? = some y → isMarked y = true → ∃ a < front.length, pos a = x

variable {front : List α} {pos pos' : Nat → Nat} {s : List α × List Nat}

theorem Placed.congr (h : Placed isMarked front pos s) (heq : ∀ a < front.length, pos' a = pos a) :
    Placed isMarked front pos' s where
  length := h.length
  elem a ha := by rw [heq a ha, h.elem a ha]
  dist a ha := by rw [heq a ha, h.dist a ha]
  only x y hx hy := by
    obtain ⟨a, ha, rfl⟩ := h.only x y hx hy
    exact ⟨a, ha, heq a ha⟩

theorem Placed.lt (h : Placed isMarked front pos s) {a : Nat} (ha : a < front.length) :
    pos a < s.1.length :=
  (List.getElem?_eq_some_iff.1 ((h.elem a ha).trans (List.getElem?_eq_getElem ha))).1

/-- One marked element goes to a place where there is none. -/
theorem Placed.swap (h : Placed isMarked front pos s) {a t : Nat} (ha : a < front.length)
    (ht : t < s.1.length) (hfree : ∀ b < front.length, pos b ≠ t)
    (hinj : ∀ b < front.length, pos b = pos a → b = a) :
    Placed isMarked front (Function.update pos a t)
      (swapAt (pos a) t s.1, s.2.set t (t - a)) where
  length := by
    rw [List.length_set, h.length]
    exact (swapAt_perm _ _ _).length_eq.symm
  elem b hb := by
    have hlt := h.lt ha
    by_cases hba : b = a
    · subst hba
      rw [Function.update_self, getElem?_swapAt hlt ht, if_pos rfl, h.elem b hb]
    · have hne : pos b ≠ pos a := fun heq => hba (hinj b hb heq)
      rw [Function.update_of_ne hba, getElem?_swapAt hlt ht, if_neg (hfree b hb), if_neg hne,
        h.elem b hb]
  dist b hb := by
    by_cases hba : b = a
    · subst hba
      rw [Function.update_self, List.getElem?_set_self (by rwa [h.length])]
    · rw [Function.update_of_ne hba, List.getElem?_set_ne (hfree b hb).symm, h.dist b hb]
  only x y hx hy := by
    rw [getElem?_swapAt (h.lt ha) ht] at hx
    split at hx
    · exact ⟨a, ha, by rw [Function.update_self]; exact Eq.symm ‹_›⟩
    · split at hx
      · obtain ⟨b, hb, hbt⟩ := h.only t y hx hy
        exact absurd hbt (hfree b hb)
      · obtain ⟨b, hb, rfl⟩ := h.only x y hx hy
        refine ⟨b, hb, Function.update_of_ne (fun hba => ?_) _ _⟩
        subst hba
        contradiction

/-! ## Levels -/

/-- Where the `a`-th marked element is before the level `i`, with `d a` the distance that it has to
go in all. -/
def levelPlace (d : Nat → Nat) (i a : Nat) : Nat := a + d a / 2 ^ i * 2 ^ i

/-- Where it is when the loop of the level `i` has come to `j`. -/
def midPlace (d : Nat → Nat) (i j a : Nat) : Nat :=
  if levelPlace d i a < j then levelPlace d (i + 1) a else levelPlace d i a

/-- A level takes one bit from the distance. -/
theorem levelPlace_succ (d : Nat → Nat) (i a : Nat) :
    levelPlace d i a = levelPlace d (i + 1) a + d a / 2 ^ i % 2 * 2 ^ i := by
  have hbit := Nat.div_add_mod (d a / 2 ^ i) 2
  unfold levelPlace
  rw [Nat.pow_succ, ← Nat.div_div_eq_div_mul]
  generalize d a / 2 ^ i = q at *
  conv_lhs => rw [← hbit]
  ring

/-- At a place below `2 ^ i` no bit is left of the distance. -/
theorem levelPlace_of_lt {d : Nat → Nat} {i a : Nat} (h : levelPlace d i a < 2 ^ i) :
    levelPlace d (i + 1) a = levelPlace d i a := by
  have hzero : d a / 2 ^ i = 0 := by
    by_contra hne
    have := Nat.mul_le_mul_right (2 ^ i) (Nat.pos_of_ne_zero hne)
    unfold levelPlace at h
    omega
  have hsucc := levelPlace_succ d i a
  rw [hzero, Nat.zero_mod, Nat.zero_mul] at hsucc
  exact hsucc.symm

theorem levelPlace_lt {d : Nat → Nat} {a b : Nat} (hab : a < b) (hd : d a ≤ d b) (i : Nat) :
    levelPlace d i a < levelPlace d i b := by
  have := Nat.mul_le_mul_right (2 ^ i) (Nat.div_le_div_right (c := 2 ^ i) hd)
  unfold levelPlace
  omega

/-- Whether the element `j` is moved at the level `i`. -/
def isMoved (isMarked : α → Bool) (i : Nat) (s : List α × List Nat) (j : Nat) : Bool :=
  s.1[j]?.any isMarked && s.2.getD j 0 &&& (2 ^ (i + 1) - 1) != 0

theorem goodrichMove_eq (isMarked : α → Bool) (i : Nat) (s : List α × List Nat) (j : Nat) :
    goodrichMove isMarked i s j =
      if isMoved isMarked i s j then
        (swapAt j (j - 2 ^ i) s.1,
          s.2.set (j - 2 ^ i) (s.2.getD j 0 >>> (i + 1) <<< (i + 1)))
      else s := rfl

theorem goodrichMove_perm (isMarked : α → Bool) (i : Nat) (s : List α × List Nat) (j : Nat) :
    List.Perm (goodrichMove isMarked i s j).1 s.1 := by
  rw [goodrichMove_eq]
  split
  · exact swapAt_perm _ _ _
  · exact .refl _

/-- The distance tells whether its bit is set, and what is left of it. -/
theorem levelPlace_dist (d : Nat → Nat) (i a : Nat) :
    ((levelPlace d i a - a) &&& (2 ^ (i + 1) - 1) != 0) = decide (d a / 2 ^ i % 2 = 1) ∧
      (levelPlace d i a - a) >>> (i + 1) <<< (i + 1) = levelPlace d (i + 1) a - a := by
  have hpos := Nat.two_pow_pos i
  have hmod : d a / 2 ^ i * 2 ^ i % (2 * 2 ^ i) = d a / 2 ^ i % 2 * 2 ^ i :=
    Nat.mul_mod_mul_right ..
  have hdiv : d a / 2 ^ i * 2 ^ i / (2 * 2 ^ i) = d a / 2 ^ i / 2 := Nat.mul_div_mul_right _ _ hpos
  unfold levelPlace
  rw [Nat.add_sub_cancel_left, Nat.add_sub_cancel_left, Nat.and_two_pow_sub_one_eq_mod,
    Nat.shiftRight_eq_div_pow, Nat.shiftLeft_eq, Nat.pow_succ, Nat.mul_comm (2 ^ i) 2, hmod, hdiv,
    Nat.div_div_eq_div_mul, Nat.mul_comm (2 ^ i) 2]
  refine ⟨?_, rfl⟩
  obtain h | h : d a / 2 ^ i % 2 = 0 ∨ d a / 2 ^ i % 2 = 1 := by omega
  · simp [h]
  · simp [h]

section Level

variable {d : Nat → Nat} (hd : ∀ a b, a < b → b < front.length → d a ≤ d b)
  (hfront : ∀ x ∈ front, isMarked x = true)

include hd

theorem midPlace_inj {i j a b : Nat} (ha : a < front.length) (hb : b < front.length)
    (heq : midPlace d i j b = j) (hj : levelPlace d i a = j) : b = a := by
  have hle := levelPlace_succ d i b
  unfold midPlace at heq
  split at heq
  · omega
  · by_contra hne
    rcases Nat.lt_or_gt_of_ne hne with hlt | hlt
    · have := levelPlace_lt hlt (hd b a hlt ha) i
      omega
    · have := levelPlace_lt hlt (hd a b hlt hb) i
      omega

include hfront

/-- **One step** at the level `i`: what moves, moves to a place where no marked element is. -/
theorem Placed.move {i j : Nat} (hij : 2 ^ i ≤ j) (hj : j < s.1.length)
    (h : Placed isMarked front (midPlace d i j) s) :
    Placed isMarked front (midPlace d i (j + 1)) (goodrichMove isMarked i s j) ∧
      (isMoved isMarked i s j = true → (s.1[j - 2 ^ i]?.any isMarked) = false) := by
  have hpos := Nat.two_pow_pos i
  rw [goodrichMove_eq]
  by_cases hat : ∃ a < front.length, levelPlace d i a = j
  · obtain ⟨a, ha, haj⟩ := hat
    have hmid : midPlace d i j a = j := by rw [midPlace, if_neg (by omega), haj]
    have hother : ∀ b < front.length, b ≠ a → midPlace d i (j + 1) b = midPlace d i j b :=
      fun b hb hne => by
        have hbj : levelPlace d i b ≠ j := fun hbj =>
          hne (midPlace_inj hd ha hb (by rw [midPlace, if_neg (by omega), hbj]) haj)
        unfold midPlace
        split <;> split <;> first | rfl | omega
    have hsucc := levelPlace_succ d i a
    obtain ⟨hbit, hleft⟩ := levelPlace_dist d i a
    have helem := h.elem a ha
    have hdist := h.dist a ha
    rw [hmid] at helem hdist
    rw [haj] at hbit hleft
    have hmoved : isMoved isMarked i s j = decide (d a / 2 ^ i % 2 = 1) := by
      rw [isMoved, helem, List.getElem?_eq_getElem ha, Option.any_some,
        hfront _ (List.getElem_mem ha), Bool.true_and, List.getD_eq_getElem?_getD, hdist,
        Option.getD_some, hbit]
    have hnew : midPlace d i (j + 1) a = levelPlace d (i + 1) a := by
      rw [midPlace, if_pos (by omega)]
    rw [hmoved, List.getD_eq_getElem?_getD, hdist, Option.getD_some, hleft]
    by_cases hone : d a / 2 ^ i % 2 = 1
    · rw [hone, Nat.one_mul, haj] at hsucc
      have ht : j - 2 ^ i = levelPlace d (i + 1) a := by omega
      -- the marked elements before it have moved, the ones after it have not
      have hfree : ∀ b < front.length, midPlace d i j b ≠ j - 2 ^ i := fun b hb heq => by
        rcases Nat.lt_trichotomy b a with hlt | rfl | hlt
        · have h1 := levelPlace_lt hlt (hd b a hlt ha) i
          have h2 := levelPlace_lt hlt (hd b a hlt ha) (i + 1)
          rw [midPlace, if_pos (by omega)] at heq
          omega
        · omega
        · have h1 := levelPlace_lt hlt (hd a b hlt hb) i
          rw [midPlace, if_neg (by omega)] at heq
          omega
      refine ⟨?_, fun _ => ?_⟩
      · rw [decide_eq_true hone, if_pos rfl]
        have hswap := h.swap ha (show j - 2 ^ i < s.1.length by omega) hfree fun b hb heq =>
          midPlace_inj hd ha hb (heq.trans hmid) haj
        rw [hmid] at hswap
        rw [ht] at hswap ⊢
        refine hswap.congr fun b hb => ?_
        by_cases hba : b = a
        · subst hba
          rw [Function.update_self, hnew]
        · rw [Function.update_of_ne hba, hother b hb hba]
      · cases hy : s.1[j - 2 ^ i]? with
        | none => rfl
        | some y =>
          rw [Option.any_some]
          by_contra hmark
          obtain ⟨b, hb, heq⟩ := h.only _ y hy (by simpa using hmark)
          exact hfree b hb heq
    · have hzero : d a / 2 ^ i % 2 = 0 := by omega
      rw [hzero, Nat.zero_mul, Nat.add_zero] at hsucc
      rw [decide_eq_false hone]
      refine ⟨h.congr fun b hb => ?_, fun hf => by cases hf⟩
      by_cases hba : b = a
      · subst hba
        rw [hnew, hmid, ← hsucc, haj]
      · exact hother b hb hba
  · -- no marked element is at `j`
    have hsame : ∀ a < front.length, midPlace d i (j + 1) a = midPlace d i j a := fun a ha => by
      have hne : levelPlace d i a ≠ j := fun heq => hat ⟨a, ha, heq⟩
      unfold midPlace
      split <;> split <;> first | rfl | omega
    have hmoved : isMoved isMarked i s j = false := by
      rw [isMoved, List.getElem?_eq_getElem hj, Option.any_some]
      by_contra hmark
      rw [Bool.not_eq_false, Bool.and_eq_true] at hmark
      obtain ⟨a, ha, heq⟩ := h.only j _ (List.getElem?_eq_getElem hj) hmark.1
      have hle := levelPlace_succ d i a
      refine hat ⟨a, ha, ?_⟩
      unfold midPlace at heq
      split at heq <;> omega
    rw [hmoved]
    exact ⟨h.congr hsame, fun hf => by cases hf⟩

/-- The loop of a level, up to `m` elements from its first one on. -/
theorem Placed.moves {i m : Nat} (hm : 2 ^ i + m ≤ s.1.length)
    (h : Placed isMarked front (levelPlace d i) s) :
    Placed isMarked front (midPlace d i (2 ^ i + m))
        ((List.range' (2 ^ i) m).foldl (goodrichMove isMarked i) s) ∧
      ((List.range' (2 ^ i) m).foldl (goodrichMove isMarked i) s).1.length = s.1.length := by
  induction m with
  | zero =>
    refine ⟨h.congr fun a _ => ?_, rfl⟩
    unfold midPlace
    split
    · exact levelPlace_of_lt ‹_›
    · rfl
  | succ m ih =>
    obtain ⟨hmid, hlen⟩ := ih (by omega)
    rw [List.range'_concat, List.foldl_append, List.foldl_cons, List.foldl_nil, Nat.one_mul]
    refine ⟨(hmid.move hd hfront (by omega) (by omega)).1, ?_⟩
    rw [← hlen]
    exact (goodrichMove_perm _ _ _ _).length_eq

/-- **One level** takes a bit from every distance. -/
theorem Placed.level {i : Nat} (h : Placed isMarked front (levelPlace d i) s) :
    Placed isMarked front (levelPlace d (i + 1)) (goodrichLevel isMarked s i) := by
  have hplace := fun a (ha : a < front.length) => h.lt ha
  by_cases hle : 2 ^ i ≤ s.1.length
  · obtain ⟨hmid, -⟩ := h.moves hd hfront (show 2 ^ i + (s.1.length - 2 ^ i) ≤ s.1.length by omega)
    refine hmid.congr fun a ha => ?_
    have := hplace a ha
    rw [midPlace, if_pos (by omega)]
  · have hnone : s.1.length - 2 ^ i = 0 := by omega
    rw [goodrichLevel, hnone]
    exact h.congr fun a ha => levelPlace_of_lt ((hplace a ha).trans (Nat.lt_of_not_le hle))

theorem Placed.levels (h : Placed isMarked front (levelPlace d 0) s) (i : Nat) :
    Placed isMarked front (levelPlace d i) ((List.range i).foldl (goodrichLevel isMarked) s) := by
  induction i with
  | zero => exact h
  | succ i ih =>
    rw [List.range_succ, List.foldl_append]
    exact ih.level hd hfront

end Level

/-! ## The whole run -/

theorem length_goodrichDist (isMarked : α → Bool) (i numMarked : Nat) (xs : List α) :
    (goodrichDist isMarked i numMarked xs).length = xs.length := by
  induction xs generalizing i numMarked with
  | nil => rfl
  | cons x xs ih => rw [goodrichDist, List.length_cons, List.length_cons, ih]

/-- The places of the marked elements at the start, with their distances. -/
theorem goodrichDist_places (isMarked : α → Bool) (i numMarked : Nat) (xs : List α) :
    ∃ p : Nat → Nat, (∀ a b, a < b → p a < p b) ∧
      (∀ a < (xs.filter isMarked).length, xs[p a]? = (xs.filter isMarked)[a]? ∧
        (goodrichDist isMarked i numMarked xs)[p a]? = some (i + p a - (numMarked + a))) ∧
      ∀ x y, xs[x]? = some y → isMarked y = true → ∃ a < (xs.filter isMarked).length, p a = x := by
  induction xs generalizing i numMarked with
  | nil => exact ⟨id, fun _ _ h => h, fun a ha => (Nat.not_lt_zero a ha).elim,
      fun x y h => by simp at h⟩
  | cons x xs ih =>
    cases hx : isMarked x with
    | false =>
      obtain ⟨p, hp, hget, honly⟩ := ih (i + 1) numMarked
      refine ⟨fun a => p a + 1, fun a b hab => Nat.succ_lt_succ (hp a b hab), ?_, ?_⟩
      · simp only [List.filter_cons, hx, Bool.false_eq_true, if_false, List.getElem?_cons_succ,
          goodrichDist]
        intro a ha
        rw [(hget a ha).1, (hget a ha).2, show i + (p a + 1) = i + 1 + p a by omega]
        exact ⟨rfl, rfl⟩
      · intro k y hk hy
        simp only [List.filter_cons, hx, Bool.false_eq_true, if_false]
        cases k with
        | zero =>
          rw [List.getElem?_cons_zero, Option.some.injEq] at hk
          rw [hk, hy] at hx
          cases hx
        | succ k =>
          obtain ⟨a, ha, rfl⟩ := honly k y (by simpa using hk) hy
          exact ⟨a, ha, rfl⟩
    | true =>
      obtain ⟨p, hp, hget, honly⟩ := ih (i + 1) (numMarked + 1)
      refine ⟨fun a => if a = 0 then 0 else p (a - 1) + 1, fun a b hab => ?_, ?_, ?_⟩
      · dsimp only
        rw [if_neg (show b ≠ 0 by omega)]
        split
        · omega
        · exact Nat.succ_lt_succ (hp _ _ (by omega))
      · simp only [List.filter_cons, hx, if_true, goodrichDist]
        intro a ha
        cases a with
        | zero => simp
        | succ a =>
          have htail := hget a (by simpa using ha)
          simp only [Nat.succ_ne_zero, if_false, Nat.add_sub_cancel, List.getElem?_cons_succ, htail,
            true_and, Option.some.injEq]
          omega
      · intro k y hk hy
        simp only [List.filter_cons, hx, if_true, List.length_cons]
        cases k with
        | zero => exact ⟨0, Nat.succ_pos _, rfl⟩
        | succ k =>
          obtain ⟨a, ha, rfl⟩ := honly k y (by simpa using hk) hy
          exact ⟨a + 1, Nat.succ_lt_succ ha, by simp⟩

/-- The start of a run. -/
theorem goodrich_start (isMarked : α → Bool) (xs : List α) :
    ∃ d : Nat → Nat, (∀ a b, a < b → b < (xs.filter isMarked).length → d a ≤ d b) ∧
      (∀ x ∈ xs.filter isMarked, isMarked x = true) ∧
      Placed isMarked (xs.filter isMarked) (levelPlace d 0) (xs, goodrichDist isMarked 0 0 xs) := by
  obtain ⟨p, hp, hget, honly⟩ := goodrichDist_places isMarked 0 0 xs
  have hmono : StrictMono p := fun a b hab => hp a b hab
  have hplace : levelPlace (fun a => p a - a) 0 = p := funext fun a => by
    have := hmono.le_apply (x := a)
    simp only [levelPlace, Nat.pow_zero, Nat.div_one, Nat.mul_one]
    omega
  refine ⟨fun a => p a - a, fun a b hab _ => ?_, fun x hx => (List.mem_filter.1 hx).2, ?_⟩
  · have hle := hmono.add_le_nat (b - a) a
    rw [Nat.sub_add_cancel hab.le] at hle
    dsimp only
    omega
  · rw [hplace]
    exact
      { length := length_goodrichDist isMarked 0 0 xs
        elem := fun a ha => (hget a ha).1
        dist := fun a ha => by rw [(hget a ha).2, Nat.zero_add, Nat.zero_add]
        only := honly }

/-- The state when the loop of the level `i` has come to `j`. -/
def goodrichState (isMarked : α → Bool) (xs : List α) (i j : Nat) : List α × List Nat :=
  (List.range' (2 ^ i) (j - 2 ^ i)).foldl (goodrichMove isMarked i)
    ((List.range i).foldl (goodrichLevel isMarked) (xs, goodrichDist isMarked 0 0 xs))

/-- A marked element is never moved to the place of another one. -/
def NoCollision (isMarked : α → Bool) (xs : List α) : Prop :=
  ∀ i j, 2 ^ i ≤ j → j < xs.length → isMoved isMarked i (goodrichState isMarked xs i j) j = true →
    ((goodrichState isMarked xs i j).1[j - 2 ^ i]?.any isMarked) = false

theorem goodrichLevel_perm (isMarked : α → Bool) (s : List α × List Nat) (i : Nat) :
    List.Perm (goodrichLevel isMarked s i).1 s.1 := by
  rw [goodrichLevel]
  generalize List.range' (2 ^ i) (s.1.length - 2 ^ i) = js
  induction js generalizing s with
  | nil => exact .refl _
  | cons j js ih => exact (ih _).trans (goodrichMove_perm _ _ _ _)

theorem goodrichLevels_perm (isMarked : α → Bool) (level : Nat) (s : List α × List Nat) :
    List.Perm (goodrichLevels isMarked level s) s.1 := by
  rw [goodrichLevels]
  induction level with
  | zero => exact .refl _
  | succ level ih =>
    rw [List.range_succ, List.foldl_append]
    exact (goodrichLevel_perm _ _ _).trans ih

theorem goodrich_noCollision (isMarked : α → Bool) (xs : List α) : NoCollision isMarked xs := by
  obtain ⟨d, hmono, hfront, hstart⟩ := goodrich_start isMarked xs
  intro i j hij hj
  have hlen : (goodrichLevels isMarked i (xs, goodrichDist isMarked 0 0 xs)).length = xs.length :=
    (goodrichLevels_perm isMarked i _).length_eq
  obtain ⟨hmid, hlen'⟩ := (hstart.levels hmono hfront i).moves hmono hfront
    (show 2 ^ i + (j - 2 ^ i) ≤
      (goodrichLevels isMarked i (xs, goodrichDist isMarked 0 0 xs)).length by
      rw [hlen]
      omega)
  rw [Nat.add_sub_cancel' hij] at hmid
  exact (hmid.move hmono hfront hij (by rw [hlen']; exact hj.trans_eq hlen.symm)).2

/-- **`GoodrichCompact`** is a tight compaction. -/
theorem goodrichCompact_tight (isMarked : α → Bool) {xs : List α} (hxs : xs.length ≤ 2 ^ 63) :
    Tight isMarked xs (goodrichCompact isMarked xs) := by
  refine tight_of_getElem? (goodrichLevels_perm _ _ _) fun a ha => ?_
  obtain ⟨d, hmono, hfront, hstart⟩ := goodrich_start isMarked xs
  rw [List.countP_eq_length_filter] at ha
  have hlt := hstart.lt ha
  have hlevel : getLogBaseTwo (getNextPowerOfTwo xs.length) = Nat.clog 2 xs.length := by
    have hclog : Nat.clog 2 xs.length < 64 :=
      Nat.lt_succ_of_le (Nat.clog_le_of_le_pow hxs)
    rw [getNextPowerOfTwo_eq (Nat.zero_lt_of_lt hlt) hxs, getLogBaseTwo_two_pow _ hclog]
  rw [goodrichCompact, hlevel]
  have hzero : d a / 2 ^ Nat.clog 2 xs.length = 0 := by
    have hpow := Nat.le_pow_clog (b := 2) (by decide) xs.length
    refine Nat.div_eq_of_lt (Nat.lt_of_lt_of_le ?_ hpow)
    simp only [levelPlace, Nat.pow_zero, Nat.div_one, Nat.mul_one] at hlt
    omega
  have hend := (hstart.levels hmono hfront (Nat.clog 2 xs.length)).elem a ha
  rwa [levelPlace, hzero, Nat.zero_mul, Nat.add_zero] at hend

/-- **`GoodrichCompact`** permutes its range without a collision and brings the marked elements to
the front, in their order. `OrCompact` does the same as long as their number fits into a word of its
prefix sums. -/
theorem goodrichCompact_compacts (isMarked : α → Bool) (r : Range α) :
    List.Perm (goodrichCompact isMarked r.elems) r.elems ∧ NoCollision isMarked r.elems ∧
      (goodrichCompact isMarked r.elems).take (r.elems.countP isMarked) = r.elems.filter isMarked ∧
      ∀ w ≤ 64, r.elems.countP isMarked < 2 ^ w →
        (orCompactMarkType w isMarked r.elems).take (r.elems.countP isMarked) =
          (goodrichCompact isMarked r.elems).take (r.elems.countP isMarked) := by
  have hlen := r.length_lt
  have htight := goodrichCompact_tight isMarked hlen.le
  refine ⟨htight.perm, goodrich_noCollision _ _, htight.front, fun w hw hcount => ?_⟩
  rw [orCompactMarkType_eq hw (by omega) hcount]
  exact (orCompact_tight isMarked r.elems).front_eq htight

/-- The odd ones of five numbers. -/
theorem goodrichCompact_compacts_five :
    (goodrichCompact (· % 2 == 1) [2, 3, 4, 5, 7]).take 3 = [3, 5, 7] ∧
      (orCompactMarkType 32 (· % 2 == 1) [2, 3, 4, 5, 7]).take 3 =
        (goodrichCompact (· % 2 == 1) [2, 3, 4, 5, 7]).take 3 := by
  obtain ⟨-, -, hfront, horCompact⟩ :=
    goodrichCompact_compacts (· % 2 == 1) ⟨[2, 3, 4, 5, 7], by decide⟩
  exact ⟨hfront, horCompact 32 (by decide) (by decide)⟩

/-- With `2 ^ w` marked elements in front of as many others the prefixes differ. -/
theorem orCompactMarkType_differs {w : Nat} (hw : 0 < w) (hw' : w < 62) :
    ∃ r : Range Bool, (orCompactMarkType w id r.elems).take (r.elems.countP id) ≠
      (goodrichCompact id r.elems).take (r.elems.countP id) := by
  have hwrap : orCompactMarkType w id (List.replicate (2 ^ w) true ++
    List.replicate (2 ^ w) false) =
      List.replicate (2 ^ w) false ++ List.replicate (2 ^ w) true :=
    orCompactMarkType_wraps hw (by omega) rfl
  have hlt : 2 ^ w + 2 ^ w < 2 ^ 63 := by
    have : 2 ^ (w + 1) < 2 ^ 63 := Nat.pow_lt_pow_right (by decide) (by omega)
    omega
  have hpos := Nat.two_pow_pos w
  generalize 2 ^ w = h at *
  have hlen : (List.replicate h true ++ List.replicate h false).length = h + h := by simp
  have hcount : (List.replicate h true ++ List.replicate h false).countP id = h := by
    simp [List.countP_replicate]
  refine ⟨⟨List.replicate h true ++ List.replicate h false, hlen.trans_lt hlt⟩, fun heq => ?_⟩
  have hmarked := (goodrichCompact_tight id (hlen.trans_lt hlt).le).marked
  rw [← heq, hwrap, hcount, List.take_left' List.length_replicate] at hmarked
  cases hmarked false (List.mem_replicate.2 ⟨hpos.ne', rfl⟩)

/-- `OrCompact` keeps its sums in words of 32 bits. -/
theorem goodrichCompact_not_orCompact :
    ¬ ∀ (isMarked : Bool → Bool) (r : Range Bool),
      List.Perm (goodrichCompact isMarked r.elems) r.elems ∧ NoCollision isMarked r.elems ∧
        (goodrichCompact isMarked r.elems).take (r.elems.countP isMarked) =
          r.elems.filter isMarked ∧
        (orCompactMarkType 32 isMarked r.elems).take (r.elems.countP isMarked) =
          (goodrichCompact isMarked r.elems).take (r.elems.countP isMarked) := by
  intro h
  obtain ⟨r, hr⟩ := orCompactMarkType_differs (show 0 < 32 by decide) (by decide)
  exact hr (h id r).2.2.2

end EM.Algorithm
