import OblSort.Algorithm.WaksOnOff
import Mathlib.Data.List.Basic

/-!
# Counts and searches of the Waksman walk

The counts `U` form a binary tree over the positions, laid out in place: `CountTree` says that the
last count of every first half is the number of its positions that are not selected. With it a
search for the `rho`-th position that is not selected finds one, and a search for a tag finds the
tag in a sorted table. The counts on a path and what is left between `i` and `j` bound what is
subtracted, so nothing wraps around; over a run of `DecUnselectedCounts` this gives
`unselectedCounts_orderStatistics`.
-/

namespace EM.Algorithm.WaksOnOff

/-! ## The tree of counts -/

/-- How many of the `n` positions from `begin` are not selected. -/
def unselected (sel : Nat → Bool) (begin n : Nat) : Nat :=
  (List.range n).countP fun i => !sel (begin + i)

theorem unselected_add (sel : Nat → Bool) (begin n m : Nat) :
    unselected sel begin (n + m) = unselected sel begin n + unselected sel (begin + n) m := by
  rw [unselected, List.range_add, List.countP_append, List.countP_map]
  simp only [unselected, Function.comp_def, Nat.add_assoc]

theorem unselected_congr {sel sel' : Nat → Bool} {begin n : Nat}
    (h : ∀ i, begin ≤ i → i < begin + n → sel' i = sel i) :
    unselected sel' begin n = unselected sel begin n :=
  List.countP_congr fun i hi => by
    have := List.mem_range.1 hi
    rw [h _ (by omega) (by omega)]

/-- The first half of `n` positions. -/
theorem half_bounds {n : Nat} (h : 2 ≤ n) : 1 ≤ divRoundUp n 2 ∧ divRoundUp n 2 < n ∧
    n - divRoundUp n 2 ≤ divRoundUp n 2 ∧ divRoundUp n 2 ≤ n - divRoundUp n 2 + 1 := by
  unfold divRoundUp
  omega

/-- The counts of the `n` positions from `begin`. -/
inductive CountTree (sel : Nat → Bool) (U : List Nat) : (begin n : Nat) → Prop
  | leaf {begin n : Nat} (h : n < 2) : CountTree sel U begin n
  | node {begin n : Nat} (h : 2 ≤ n)
      (count : U[begin + divRoundUp n 2 - 1]? = some (unselected sel begin (divRoundUp n 2)))
      (left : CountTree sel U begin (divRoundUp n 2))
      (right : CountTree sel U (begin + divRoundUp n 2) (n - divRoundUp n 2)) :
      CountTree sel U begin n

/-- The tree is about its own positions and all of their counts but the last. -/
theorem CountTree.congr {sel sel' : Nat → Bool} {U U' : List Nat} {begin n : Nat}
    (h : CountTree sel U begin n) (hsel : ∀ i, begin ≤ i → i < begin + n → sel' i = sel i)
    (hU : ∀ i, begin ≤ i → i + 1 < begin + n → U'[i]? = U[i]?) : CountTree sel' U' begin n := by
  induction h with
  | leaf h => exact .leaf h
  | @node begin n h count left right ihl ihr =>
    have hk := half_bounds h
    refine .node h ?_ (ihl (fun i h1 h2 => hsel i h1 (by omega)) fun i h1 h2 => hU i h1 (by omega))
      (ihr (fun i h1 h2 => hsel i (by omega) (by omega)) fun i h1 h2 => hU i (by omega) (by omega))
    rw [hU _ (by omega) (by omega), count,
      unselected_congr fun i h1 h2 => hsel i h1 (by omega)]

/-- A change behind the positions of the tree. -/
theorem CountTree.modify {sel : Nat → Bool} {U : List Nat} {begin n i : Nat}
    (h : CountTree sel U begin n)
    (hi : begin + n ≤ i + 1) (f : Nat → Nat) : CountTree sel (U.modify i f) begin n :=
  h.congr (fun _ _ _ => rfl) fun j _ hj => List.getElem?_modify_ne _ _ (by omega)

/-- The tree of the counts at the start, when nothing is selected. -/
theorem createUnselectedCountsHelper_spec (begin n : Nat) (U : List Nat)
    (hlen : begin + n ≤ U.length) :
    CountTree (fun _ => false) (createUnselectedCountsHelper begin n U) begin n ∧
      (createUnselectedCountsHelper begin n U).length = U.length ∧
      ∀ i, (i < begin ∨ begin + n ≤ i + 1) →
        (createUnselectedCountsHelper begin n U)[i]? = U[i]? := by
  induction n using Nat.strongRecOn generalizing begin U with
  | ind n ih =>
    rw [createUnselectedCountsHelper]
    split
    · rename_i h
      exact ⟨.leaf h, rfl, fun _ _ => rfl⟩
    · rename_i h
      have hk := half_bounds (show 2 ≤ n by omega)
      dsimp only
      generalize hU₁ : U.set (begin + divRoundUp n 2 - 1) (divRoundUp n 2) = U₁
      have hlen₁ : U₁.length = U.length := by rw [← hU₁, List.length_set]
      obtain ⟨tree₂, hlen₂, hframe₂⟩ := ih (divRoundUp n 2) hk.2.1 begin U₁ (by omega)
      generalize createUnselectedCountsHelper begin (divRoundUp n 2) U₁ = U₂ at tree₂ hlen₂ hframe₂
      obtain ⟨tree₃, hlen₃, hframe₃⟩ :=
        ih (n - divRoundUp n 2) (by omega) (begin + divRoundUp n 2) U₂ (by omega)
      generalize createUnselectedCountsHelper (begin + divRoundUp n 2) (n - divRoundUp n 2) U₂ = U₃
        at tree₃ hlen₃ hframe₃
      refine ⟨.node (by omega) ?_ (tree₂.congr (fun _ _ _ => rfl) fun i h1 h2 =>
        hframe₃ i (by omega)) tree₃, by omega, fun i hi => ?_⟩
      · rw [hframe₃ _ (by omega), hframe₂ _ (by omega), ← hU₁, List.getElem?_set_self (by omega)]
        congr 1
        exact (List.length_range.symm.trans (List.countP_eq_length.2 fun _ _ => rfl).symm)
      · rw [hframe₃ _ (by omega), hframe₂ _ (by omega), ← hU₁, List.getElem?_set_ne (by omega)]

/-- The counts when nothing is selected. -/
theorem createUnselectedCounts_spec {n : Nat} (hn : 1 ≤ n) :
    CountTree (fun _ => false) (createUnselectedCounts n) 0 n ∧
      (createUnselectedCounts n).length = n ∧ (createUnselectedCounts n)[n - 1]? = some n := by
  have hlen : ((List.replicate n 0).set (n - 1) n).length = n := by
    rw [List.length_set, List.length_replicate]
  have hlast : ((List.replicate n 0).set (n - 1) n)[n - 1]? = some n :=
    List.getElem?_set_self (by rw [List.length_replicate]; omega)
  rw [createUnselectedCounts]
  split
  · rename_i h1
    exact ⟨.leaf h1, hlen, hlast⟩
  · obtain ⟨tree, hlen', hframe⟩ := createUnselectedCountsHelper_spec 0 n
      ((List.replicate n 0).set (n - 1) n) (by omega)
    exact ⟨tree, hlen'.trans hlen, (hframe _ (by omega)).trans hlast⟩

/-- The positions selected so far and `x`. -/
def select (sel : Nat → Bool) (x : Nat) : Nat → Bool := fun i => sel i || i == x

theorem select_ne {sel : Nat → Bool} {x i : Nat} (h : i ≠ x) : select sel x i = sel i := by
  rw [select, beq_eq_false_iff_ne.2 h, Bool.or_false]

/-- Selecting a position takes it off the count. -/
theorem unselected_select {sel : Nat → Bool} {begin n x : Nat} (hx : sel x = false)
    (hle : begin ≤ x) (hlt : x < begin + n) :
    unselected (select sel x) begin n + 1 = unselected sel begin n := by
  obtain ⟨m, rfl⟩ := Nat.exists_eq_add_of_le hle
  obtain ⟨r, rfl⟩ := Nat.exists_eq_add_of_le (show m + 1 ≤ n by omega)
  have hone : ∀ sel : Nat → Bool, unselected sel (begin + m) 1 = (!sel (begin + m)).toNat :=
    fun sel => by
      rw [unselected]
      cases h : sel (begin + m) <;> simp [h]
  have hleft : unselected (select sel (begin + m)) begin m = unselected sel begin m :=
    unselected_congr fun i _ h => select_ne (by omega)
  have hright : unselected (select sel (begin + m)) (begin + (m + 1)) r =
      unselected sel (begin + (m + 1)) r := unselected_congr fun i h _ => select_ne (by omega)
  have hself : select sel (begin + m) (begin + m) = true := by
    rw [select, beq_self_eq_true, Bool.or_true]
  rw [unselected_add, unselected_add, unselected_add, unselected_add, hone, hone, hleft, hright,
    hself, hx]
  simp only [Bool.not_true, Bool.not_false, Bool.toNat_true, Bool.toNat_false]
  omega

/-- **Selecting a position** keeps the tree, and takes one off the last count. -/
theorem decUnselectedCounts_spec {begin n l : Nat} {sel : Nat → Bool} {U : List Nat} (hl : l < n)
    (hlen : begin + n ≤ U.length) (htree : CountTree sel U begin n)
    (hsel : sel (begin + l) = false) :
    ∃ U', decUnselectedCounts begin n l U = some U' ∧ U'.length = U.length ∧
      CountTree (select sel (begin + l)) U' begin n ∧
      U'[begin + n - 1]? = U[begin + n - 1]?.map (· - 1) ∧
      ∀ i, (i < begin ∨ begin + n ≤ i) → U'[i]? = U[i]? := by
  induction n using Nat.strongRecOn generalizing begin l U with
  | ind n ih =>
    rw [decUnselectedCounts, if_neg (by omega)]
    dsimp only
    by_cases hn : n < 2
    · obtain rfl : n = 1 := by omega
      obtain rfl : l = 0 := by omega
      rw [if_pos (by decide), if_neg (by omega)]
      refine ⟨_, rfl, List.length_modify _ _ _, .leaf (by omega), ?_, fun i hi => ?_⟩
      · exact List.getElem?_modify_eq _ _ _
      · exact List.getElem?_modify_ne _ _ (by omega)
    · cases htree with
      | leaf h => exact absurd h hn
      | node h count left right =>
        have hk := half_bounds h
        by_cases hlk : l < divRoundUp n 2
        · rw [if_pos hlk, if_pos (by omega)]
          have hmod : ∀ i, i ≠ begin + n - 1 → (U.modify (begin + n - 1) (· - 1))[i]? = U[i]? :=
            fun i hi => List.getElem?_modify_ne _ _ (Ne.symm hi)
          obtain ⟨U', hrun, hlen', htree', hlast, hframe⟩ := ih (divRoundUp n 2) hk.2.1 hlk
            (show begin + divRoundUp n 2 ≤ (U.modify (begin + n - 1) (· - 1)).length by
              rw [List.length_modify]
              omega)
            (left.modify (by omega) _) hsel
          refine ⟨U', hrun, by rw [hlen', List.length_modify], .node h ?_ htree' (right.congr
            (fun i h1 _ => select_ne (by omega)) fun i h1 h2 => ?_), ?_, fun i hi => ?_⟩
          · rw [hlast, hmod _ (by omega), count, Option.map_some,
              ← unselected_select hsel (by omega) (by omega), Nat.add_sub_cancel]
          · rw [hframe i (by omega), hmod i (by omega)]
          · rw [hframe _ (by omega)]
            exact List.getElem?_modify_eq _ _ _
          · rw [hframe i (by omega), hmod i (by omega)]
        · rw [if_neg hlk]
          have hpos : begin + divRoundUp n 2 + (l - divRoundUp n 2) = begin + l := by omega
          have hend : begin + divRoundUp n 2 + (n - divRoundUp n 2) - 1 = begin + n - 1 := by omega
          obtain ⟨U', hrun, hlen', htree', hlast, hframe⟩ := ih (n - divRoundUp n 2) (by omega)
            (show l - divRoundUp n 2 < n - divRoundUp n 2 by omega)
            (show begin + divRoundUp n 2 + (n - divRoundUp n 2) ≤ U.length by omega) right
            (by rwa [hpos])
          rw [hpos] at htree'
          rw [hend] at hlast
          refine ⟨U', hrun, hlen', .node h ?_ (left.congr (fun i _ h2 => select_ne (by omega))
            fun i h1 h2 => hframe i (by omega)) htree', hlast, fun i hi => hframe i (by omega)⟩
          rw [hframe _ (by omega), count, unselected_congr fun i _ h2 => select_ne (by omega)]

/-! ## Searches -/

/-- The middle of `n` positions from `i` is the last one of their first half. -/
theorem middle_eq {i n : Nat} (hn : 2 ≤ n) : (i + (i + n - 1)) / 2 = i + divRoundUp n 2 - 1 := by
  unfold divRoundUp
  omega

/-- **A random position** that the search finds is not selected, and `rho` positions before it are
not. -/
theorem forwardOrRandLoop_random {F : ForwardLookUp} {U : List Nat} {h : BitVec 64}
    {sel : Nat → Bool} {fuel i n rho : Nat} (hn : 1 ≤ n) (hfuel : n ≤ fuel)
    (hF : i + n ≤ F.length) (htree : CountTree sel U i n) (hrho : rho < unselected sel i n) :
    ∃ l, forwardOrRandLoop F U h true fuel i (i + n - 1) rho = some l ∧ i ≤ l ∧ l < i + n ∧
      sel l = false ∧ unselected sel i (l - i) = rho := by
  induction fuel generalizing i n rho with
  | zero => omega
  | succ fuel ih =>
    rw [forwardOrRandLoop]
    cases htree with
    | leaf hlt =>
      obtain rfl : n = 1 := by omega
      rw [if_pos (by omega)]
      have hsel : sel i = false := by
        cases hsel : sel i with
        | false => rfl
        | true => simp [unselected, hsel] at hrho
      have hone : unselected sel i 1 ≤ 1 := List.countP_le_length
      refine ⟨_, rfl, by omega, by omega, ?_, ?_⟩
      · rwa [show (i + (i + 1 - 1)) / 2 = i by omega]
      · rw [show (i + (i + 1 - 1)) / 2 - i = 0 by omega, show rho = 0 by omega]
        rfl
    | node h2 count left right =>
      have hk := half_bounds h2
      rw [if_neg (by omega), middle_eq h2, List.getElem?_eq_getElem (show i + divRoundUp n 2 - 1 <
        F.length by omega), count]
      simp only [Option.bind_eq_bind, Option.bind_some, if_true]
      have hsum : unselected sel i n = unselected sel i (divRoundUp n 2) +
          unselected sel (i + divRoundUp n 2) (n - divRoundUp n 2) := by
        rw [← unselected_add, Nat.add_sub_cancel' (by omega)]
      split
      · obtain ⟨l, hl, h1, h3, h4, h5⟩ := ih (show 1 ≤ n - divRoundUp n 2 by omega) (by omega)
          (by omega) right (show rho - unselected sel i (divRoundUp n 2) < _ by omega)
        refine ⟨l, ?_, by omega, by omega, h4, ?_⟩
        · rw [← hl]
          congr 1 <;> omega
        · rw [show l - i = divRoundUp n 2 + (l - (i + divRoundUp n 2)) by omega, unselected_add, h5]
          omega
      · obtain ⟨l, hl, h1, h3, h4, h5⟩ := ih hk.1 (by omega) (by omega) left
          (show rho < _ by omega)
        exact ⟨l, hl, by omega, by omega, h4, h5⟩

/-- The table is in the order of its tags. -/
def TagsIncrease (F : ForwardLookUp) : Prop :=
  ∀ (a b : Nat) (x y : TaggedT (Nat × Nat)), F[a]? = some x → F[b]? = some y → a < b →
    x.tag.ult y.tag = true

/-- **A tag** is found where it is. -/
theorem forwardOrRandLoop_tag {F : ForwardLookUp} {U : List Nat} {fuel i n t rho : Nat}
    (hfuel : n ≤ fuel) (hi : i ≤ t) (ht : t < i + n) (hF : i + n ≤ F.length)
    (hU : U.length = F.length) (hsorted : TagsIncrease F) {x : TaggedT (Nat × Nat)}
    (hx : F[t]? = some x) :
    forwardOrRandLoop F U x.tag false fuel i (i + n - 1) rho = some t := by
  induction fuel generalizing i n rho with
  | zero => omega
  | succ fuel ih =>
    rw [forwardOrRandLoop]
    by_cases hn : n < 2
    · rw [if_pos (by omega)]
      congr 1
      omega
    · have h2 : 2 ≤ n := by omega
      have hk := half_bounds h2
      have hl : i + divRoundUp n 2 - 1 < F.length := by omega
      rw [if_neg (by omega), middle_eq h2, List.getElem?_eq_getElem hl,
        List.getElem?_eq_getElem (show i + divRoundUp n 2 - 1 < U.length by omega)]
      simp only [Option.bind_eq_bind, Option.bind_some, Bool.false_eq_true, if_false]
      -- the tag in the middle is less than the one sought exactly when it is to the left of it
      by_cases hlt : i + divRoundUp n 2 - 1 < t
      · rw [if_pos (hsorted _ _ _ _ (List.getElem?_eq_getElem hl) hx hlt)]
        have hend : i + divRoundUp n 2 - 1 + 1 + (n - divRoundUp n 2) - 1 = i + n - 1 := by omega
        rw [← hend]
        exact ih (by omega) (by omega) (by omega) (by omega)
      · rw [if_neg ?_]
        · exact ih (by omega) hi (by omega) (by omega)
        · intro hult
          rcases Nat.eq_or_lt_of_le (Nat.le_of_not_lt hlt) with heq | hgt
          · subst heq
            rw [List.getElem?_eq_getElem hl] at hx
            cases hx
            rw [BitVec.ult_iff_lt, BitVec.lt_def] at hult
            omega
          · have := hsorted _ _ _ _ hx (List.getElem?_eq_getElem hl) hgt
            rw [BitVec.ult_iff_lt, BitVec.lt_def] at hult this
            omega

/-! ## No subtraction wraps around -/

theorem checkedSub_of_le {a b : Nat} (h : b ≤ a) : checkedSub a b = some (a - b) := if_pos h

/-- A position that is not selected counts. -/
theorem unselected_pos {sel : Nat → Bool} {begin n x : Nat} (hle : begin ≤ x) (hlt : x < begin + n)
    (hsel : sel x = false) : 0 < unselected sel begin n := by
  have := unselected_select hsel hle hlt
  omega

/-- The counts on the way to a position that is not selected are positive. -/
theorem decUnselectedCountsChecked_eq {begin n l c : Nat} {sel : Nat → Bool} {U : List Nat}
    (hl : l < n) (hlen : begin + n ≤ U.length) (htree : CountTree sel U begin n)
    (hsel : sel (begin + l) = false) (hlast : U[begin + n - 1]? = some c) (hc : 1 ≤ c) :
    decUnselectedCountsChecked begin n l U = decUnselectedCounts begin n l U := by
  induction n using Nat.strongRecOn generalizing begin l c U with
  | ind n ih =>
    have hn0 : ¬ n = 0 := by omega
    rw [decUnselectedCountsChecked, decUnselectedCounts, if_neg hn0, if_neg hn0]
    dsimp only
    split
    · rename_i hlk
      have hset : U.set (begin + n - 1) (c - 1) = U.modify (begin + n - 1) (· - 1) := by
        rw [List.modify_eq_set, hlast]
        rfl
      rw [hlast, Option.bind_some, checkedSub_of_le hc, Option.bind_some, hset]
      split
      · rename_i hn
        cases htree with
        | leaf h => omega
        | node h count left right =>
          have hk := half_bounds h
          refine ih _ hk.2.1 hlk ?_ (left.modify (by omega) _) hsel
            ((List.getElem?_modify_ne _ _ (by omega)).trans count)
            (unselected_pos (by omega) (by omega) hsel)
          rw [List.length_modify]
          omega
      · rfl
    · rename_i hlk
      rw [checkedSub_of_le (by omega), Option.bind_some]
      cases htree with
      | leaf h =>
        have : divRoundUp n 2 = 1 := by unfold divRoundUp; omega
        omega
      | node h count left right =>
        have hk := half_bounds h
        refine ih _ (by omega) (by omega) (by omega) right ?_ ?_ hc
        · rwa [show begin + divRoundUp n 2 + (l - divRoundUp n 2) = begin + l by omega]
        · rwa [show begin + divRoundUp n 2 + (n - divRoundUp n 2) - 1 = begin + n - 1 by omega]

/-- In a random search `u` is what is left from `i` to `j`, and `rho` is below it. -/
theorem forwardOrRandLoopChecked_eq {F : ForwardLookUp} {U : List Nat} {h : BitVec 64}
    {sel : Nat → Bool} {fuel i n rho : Nat} (hn : 1 ≤ n) (hF : i + n ≤ F.length)
    (htree : CountTree sel U i n) :
    forwardOrRandLoopChecked F U h true fuel i (i + n - 1) (unselected sel i n) rho =
      forwardOrRandLoop F U h true fuel i (i + n - 1) rho := by
  induction fuel generalizing i n rho with
  | zero => rfl
  | succ fuel ih =>
    rw [forwardOrRandLoopChecked, forwardOrRandLoop]
    cases htree with
    | leaf hlt => rw [if_pos (by omega), if_pos (by omega)]
    | node h2 count left right =>
      have hk := half_bounds h2
      rw [if_neg (by omega), if_neg (by omega), middle_eq h2, List.getElem?_eq_getElem
        (show i + divRoundUp n 2 - 1 < F.length by omega), count]
      simp only [Option.bind_eq_bind, Option.bind_some, if_true]
      have hsum : unselected sel i n = unselected sel i (divRoundUp n 2) +
          unselected sel (i + divRoundUp n 2) (n - divRoundUp n 2) := by
        rw [← unselected_add, Nat.add_sub_cancel' (by omega)]
      split
      · rename_i hle
        rw [checkedSub_of_le (by omega), Option.bind_some, checkedSub_of_le hle, Option.bind_some,
          hsum, Nat.add_sub_cancel_left]
        have := @ih (i + divRoundUp n 2) (n - divRoundUp n 2)
          (rho - unselected sel i (divRoundUp n 2)) (by omega) (by omega) right
        rwa [show i + divRoundUp n 2 - 1 + 1 = i + divRoundUp n 2 by omega,
          show i + n - 1 = i + divRoundUp n 2 + (n - divRoundUp n 2) - 1 by omega]
      · exact ih hk.1 (by omega) left

/-! ## Order statistics -/

/-- The position before which `rho` positions are not selected is the one with number `rho`. -/
theorem getElem?_unselected {sel : Nat → Bool} {n l : Nat} (hl : l < n) (hsel : sel l = false) :
    ((List.range n).filter fun i => !sel i)[unselected sel 0 l]? = some l := by
  obtain ⟨m, rfl⟩ := Nat.exists_eq_add_of_lt hl
  have hcount : ((List.range l).filter fun i => !sel i).length = unselected sel 0 l := by
    rw [← List.countP_eq_length_filter, unselected]
    simp only [Nat.zero_add]
  rw [Nat.add_assoc, List.range_add, List.filter_append,
    List.getElem?_append_right (by omega), hcount, Nat.sub_self, List.range_succ_eq_map]
  simp [hsel]

/-- The counts of `n` positions when `sel` is selected. -/
structure Counted (sel : Nat → Bool) (n : Nat) (U : List Nat) : Prop where
  length : U.length = n
  tree : CountTree sel U 0 n
  last : U[n - 1]? = some (unselected sel 0 n)

theorem Counted.create {n : Nat} (hn : 1 ≤ n) :
    Counted (fun _ => false) n (createUnselectedCounts n) := by
  obtain ⟨htree, hlen, hlast⟩ := createUnselectedCounts_spec hn
  refine ⟨hlen, htree, hlast.trans (congrArg some ?_)⟩
  exact List.length_range.symm.trans (List.countP_eq_length.2 fun _ _ => rfl).symm

/-- **`DecUnselectedCounts`** of a position that is not selected. -/
theorem Counted.dec {sel : Nat → Bool} {n l : Nat} {U : List Nat} (h : Counted sel n U) (hl : l < n)
    (hsel : sel l = false) : ∃ U', decUnselectedCounts 0 n l U = some U' ∧
      decUnselectedCountsChecked 0 n l U = some U' ∧ Counted (select sel l) n U' := by
  have hsel0 : sel (0 + l) = false := by rwa [Nat.zero_add]
  obtain ⟨U', hrun, hlen, htree, hlast, -⟩ :=
    decUnselectedCounts_spec hl (show 0 + n ≤ U.length by rw [h.length]; omega) h.tree hsel0
  have hlast0 : U[0 + n - 1]? = some (unselected sel 0 n) := by rw [Nat.zero_add, h.last]
  have hchecked := decUnselectedCountsChecked_eq hl (show 0 + n ≤ U.length by rw [h.length]; omega)
    h.tree hsel0 hlast0 (unselected_pos (Nat.zero_le l) (by omega) hsel)
  rw [Nat.zero_add] at htree hlast
  refine ⟨U', hrun, hchecked.trans hrun, hlen.trans h.length, htree, ?_⟩
  rw [hlast, h.last, Option.map_some, ← unselected_select hsel (Nat.zero_le l) (by omega),
    Nat.add_sub_cancel]

/-- **`ForwardOrRand`** for the draw `rho`. -/
theorem Counted.random {sel : Nat → Bool} {n rho : Nat} {U : List Nat} (h : Counted sel n U)
    {F : ForwardLookUp} (hF : F.length = n) (hn : 1 ≤ n) (f : Nat) (forwardPrp : Nat → BitVec 64)
    (hrho : rho < unselected sel 0 n) :
    ∃ l, ((List.range n).filter fun i => !sel i)[rho]? = some l ∧
      forwardOrRandLoop F U (forwardPrp f) true n 0 (n - 1) rho = some l ∧
      forwardOrRandChecked F U f true forwardPrp (fun _ => rho) = some l := by
  obtain ⟨l, hl, -, hlt, hsel, hrank⟩ := forwardOrRandLoop_random (h := forwardPrp f) hn
    (Nat.le_refl n) (show 0 + n ≤ F.length by omega) h.tree hrho
  have hchecked : forwardOrRandLoopChecked F U (forwardPrp f) true n 0 (0 + n - 1)
    (unselected sel 0 n) rho =
      forwardOrRandLoop F U (forwardPrp f) true n 0 (0 + n - 1) rho :=
    forwardOrRandLoopChecked_eq hn (show 0 + n ≤ F.length by omega) h.tree
  rw [Nat.zero_add] at hl hlt hchecked
  rw [Nat.sub_zero] at hrank
  refine ⟨l, hrank ▸ getElem?_unselected hlt hsel, hl, ?_⟩
  simp only [forwardOrRandChecked, hF, checkedSub_of_le hn, h.last, Option.bind_eq_bind,
    Option.bind_some, checkedSub_of_le (show 1 ≤ unselected sel 0 n by omega)]
  exact hchecked.trans hl

/-- The runs of `DecUnselectedCounts` on indices that differ. -/
theorem Counted.run {sel : Nat → Bool} {n : Nat} {U : List Nat} (h : Counted sel n U)
    {ls : List Nat} (hlt : ∀ l ∈ ls, l < n) (hnodup : ls.Nodup) (hsel : ∀ l ∈ ls, sel l = false) :
    ∃ U', ls.foldlM (fun U l => decUnselectedCounts 0 n l U) U = some U' ∧
      ls.foldlM (fun U l => decUnselectedCountsChecked 0 n l U) U = some U' ∧
      Counted (fun i => sel i || decide (i ∈ ls)) n U' ∧
      unselected (fun i => sel i || decide (i ∈ ls)) 0 n + ls.length = unselected sel 0 n := by
  induction ls generalizing sel U with
  | nil => exact ⟨U, rfl, rfl, by simpa using h, by simp⟩
  | cons l ls ih =>
    obtain ⟨hnot, hnodup⟩ := List.nodup_cons.1 hnodup
    have hl := hlt l List.mem_cons_self
    obtain ⟨U₁, hdec, hchecked, h₁⟩ := h.dec hl (hsel l List.mem_cons_self)
    obtain ⟨U', hrun, hrun', h', hcount⟩ :=
      ih h₁ (fun x hx => hlt x (List.mem_cons_of_mem l hx)) hnodup fun x hx => by
        have hne : x ≠ l := fun e => hnot (e ▸ hx)
        rw [select_ne hne]
        exact hsel x (List.mem_cons_of_mem l hx)
    have hfun : (fun i => select sel l i || decide (i ∈ ls)) = fun i =>
      sel i || decide (i ∈ l :: ls) := by
      funext i
      rw [select, Bool.or_assoc]
      congr 1
      by_cases hi : i = l <;> simp [hi]
    rw [hfun] at h' hcount
    refine ⟨U', by simp [hdec, hrun], by simp [hchecked, hrun'], h', ?_⟩
    have := unselected_select (hsel l List.mem_cons_self) (Nat.zero_le l) (show l < 0 + n by omega)
    rw [List.length_cons]
    omega

/-- **The tree of counts answers order statistics.** After `DecUnselectedCounts` on indices that
differ, the last count is the number `u` of indices that are left, and for a draw `rho` below `u`
`ForwardOrRand` returns the `rho`-th smallest of them, counted from 0. No subtraction wraps
around. -/
theorem unselectedCounts_orderStatistics (n : Nat) (hn : 1 ≤ n) (ls : List Nat)
    (hlt : ∀ l ∈ ls, l < n) (hnodup : ls.Nodup) :
    ∃ U, ls.foldlM (fun U l => decUnselectedCounts 0 n l U) (createUnselectedCounts n) = some U ∧
      ls.foldlM (fun U l => decUnselectedCountsChecked 0 n l U)
      (createUnselectedCounts n) = some U ∧
      ∀ u, u + ls.length = n → 0 < u → U[n - 1]? = some u ∧
        ∀ (F : ForwardLookUp) (f : Nat) (forwardPrp : Nat → BitVec 64), F.length = n → ∀ rho < u,
          ∃ l, ((List.range n).filter fun i => i ∉ ls)[rho]? = some l ∧
            forwardOrRandLoop F U (forwardPrp f) true n 0 (n - 1) rho = some l ∧
            forwardOrRandChecked F U f true forwardPrp (fun _ => rho) = some l := by
  obtain ⟨U, hrun, hrun', h, hcount⟩ :=
    (Counted.create hn).run hlt hnodup fun _ _ => rfl
  have hall : unselected (fun _ => false) 0 n = n :=
    (List.countP_eq_length.2 fun _ _ => rfl).trans List.length_range
  simp only [Bool.false_or] at h hcount
  rw [hall] at hcount
  refine ⟨U, hrun, hrun', fun u hu _ => ?_⟩
  obtain rfl : u = unselected (fun i => decide (i ∈ ls)) 0 n := by omega
  refine ⟨h.last, fun F f forwardPrp hF rho hrho => ?_⟩
  obtain ⟨l, hl, hsearch, hchecked⟩ := h.random hF hn f forwardPrp hrho
  refine ⟨l, ?_, hsearch, hchecked⟩
  rw [← hl]
  congr 2
  funext i
  rw [decide_not]

/-- Five indices of which 3 and 0 are taken. -/
theorem unselectedCounts_orderStatistics_five :
    ∃ U, [3, 0].foldlM (fun U l => decUnselectedCounts 0 5 l U)
    (createUnselectedCounts 5) = some U ∧
      U[4]? = some 3 :=
  let ⟨U, hrun, _, h⟩ := unselectedCounts_orderStatistics 5 (by decide) [3, 0]
    (by decide) (by decide)
  ⟨U, hrun, (h 3 rfl (by decide)).1⟩

end EM.Algorithm.WaksOnOff
