import OblSort.Algorithm.Permute
import OblSort.Algorithm.Proof.Interleave

/-!
# `Permute` puts every element at its mark

Modulo `halfSize` every mark occurs twice, the mark that no element has included, so the Euler walk
gives one of each to either half (`permuteHalves_spec`). The recursive calls sort the halves, keep
the bits of the levels above (`Placed`), and the bit of this level tells which element of a pair
belongs to the right.
-/

namespace EM.Algorithm.Permute

variable {α β : Type}

/-! ## Marks -/

theorem lowNibble_eq (mark : BitVec 8) : lowNibble mark = mark.toNat % 16 := by
  rw [lowNibble, BitVec.toNat_and]
  exact Nat.and_two_pow_sub_one_eq_mod mark.toNat 4

theorem levelBit_eq (level : Nat) : levelBit level = BitVec.twoPow 8 (4 + level) := by
  rw [BitVec.twoPow_eq, BitVec.shiftLeft_add]
  rfl

/-- The test of the last loop reads the bit of the level. -/
theorem and_levelBit {level : Nat} (h : level < 4) (mark : BitVec 8) :
    (mark &&& levelBit level == 0) = !mark.getLsbD (4 + level) := by
  rw [levelBit_eq, BitVec.and_twoPow]
  have hne : BitVec.twoPow 8 (4 + level) ≠ 0#8 := by
    interval_cases level <;> decide
  cases mark.getLsbD (4 + level) <;> simp [hne]

theorem reduceMark_of_lt {halfSize level : Nat} {mark : BitVec 8} (h : lowNibble mark < halfSize) :
    reduceMark halfSize level mark = mark := by
  simp [reduceMark, Nat.not_le.2 h]

theorem reduceMark_of_le {halfSize level : Nat} {mark : BitVec 8} (h : halfSize ≤ lowNibble mark) :
    reduceMark halfSize level mark = (mark - BitVec.ofNat 8 halfSize) ||| levelBit level := by
  simp only [reduceMark, h, if_true, BitVec.allOnes_and, BitVec.and_allOnes]

/-- No borrow leaves the nibble. -/
theorem toNat_sub_of_le {halfSize : Nat} {mark : BitVec 8} (h : halfSize ≤ lowNibble mark) :
    (mark - BitVec.ofNat 8 halfSize).toNat = mark.toNat - halfSize := by
  rw [lowNibble_eq] at h
  have := mark.isLt
  rw [BitVec.toNat_sub, BitVec.toNat_ofNat]
  omega

theorem lowNibble_reduceMark {halfSize level : Nat} (hlevel : level < 4) (mark : BitVec 8) :
    lowNibble (reduceMark halfSize level mark) =
      if halfSize ≤ lowNibble mark then lowNibble mark - halfSize else lowNibble mark := by
  split
  · rename_i h
    have hbit : levelBit level &&& 0xF#8 = 0#8 := by
      interval_cases level <;> decide
    have hor : lowNibble ((mark - BitVec.ofNat 8 halfSize) ||| levelBit level) =
        lowNibble (mark - BitVec.ofNat 8 halfSize) := by
      rw [lowNibble, BitVec.and_comm, BitVec.and_or_distrib_left,
        BitVec.and_comm _ (levelBit level), hbit, BitVec.or_zero, BitVec.and_comm, lowNibble]
    rw [reduceMark_of_le h, hor, lowNibble_eq, toNat_sub_of_le h]
    rw [lowNibble_eq] at h ⊢
    omega
  · rename_i h
    rw [reduceMark_of_lt (Nat.lt_of_not_le h)]

/-- Only the bit of the level changes above the nibble. -/
theorem getLsbD_reduceMark {halfSize level l : Nat} (hlevel : level < 4) (mark : BitVec 8) :
    (reduceMark halfSize level mark).getLsbD (4 + l) =
      (mark.getLsbD (4 + l) || (decide (l = level) && decide (halfSize ≤ lowNibble mark))) := by
  by_cases h : halfSize ≤ lowNibble mark
  · have hhigh : (mark - BitVec.ofNat 8 halfSize).getLsbD (4 + l) = mark.getLsbD (4 + l) := by
      rw [BitVec.getLsbD, BitVec.getLsbD, toNat_sub_of_le h, Nat.add_comm, Nat.testBit_add,
        Nat.testBit_add]
      rw [lowNibble_eq] at h
      congr 1
      omega
    rw [reduceMark_of_le h, BitVec.getLsbD_or, hhigh, levelBit_eq, BitVec.getLsbD_twoPow]
    have : 4 + level < 8 := by omega
    simp only [this, h, decide_true, Bool.true_and, Bool.and_true]
    congr 1
    rw [decide_eq_decide]
    omega
  · rw [reduceMark_of_lt (Nat.lt_of_not_le h)]
    simp [h]

/-! ## The halves -/

theorem swapPairs_map (g : α → β) (path : EdgeRec) (left right : List (Nat × α)) :
    swapPairs path (left.map (Prod.map id g)) (right.map (Prod.map id g)) =
      ((swapPairs path left right).1.map (Prod.map id g),
        (swapPairs path left right).2.map (Prod.map id g)) := by
  induction left generalizing path right with
  | nil => cases right <;> rfl
  | cons l left ih =>
    cases right with
    | nil => rfl
    | cons r right =>
      simp only [List.map_cons, swapPairs, Prod.map_fst, id_eq, ih]
      split <;> rfl

theorem swapPairs_append (path : EdgeRec) {left right : List (Nat × α)} (extra : List (Nat × α))
    (hlen : left.length = right.length) :
    swapPairs path left (right ++ extra) =
      ((swapPairs path left right).1, (swapPairs path left right).2 ++ extra) := by
  induction left generalizing path right with
  | nil =>
    rw [List.length_nil, eq_comm, List.length_eq_zero_iff] at hlen
    subst hlen
    cases extra <;> rfl
  | cons l left ih =>
    cases right with
    | nil => cases hlen
    | cons r right =>
      simp only [List.cons_append, swapPairs, ih _ (Nat.succ.inj hlen)]
      split <;> rfl

theorem recordEdges_append (k : Nat) {left right : List (Nat × α)} (extra : List (Nat × α))
    (hlen : left.length = right.length) :
    recordEdges k left (right ++ extra) = recordEdges k left right := by
  have : left.zip (right ++ extra) = left.zip right := by
    conv_lhs => rw [← List.append_nil left]
    rw [List.zip_append hlen, List.zip_nil_left, List.append_nil]
  rw [recordEdges, this, recordEdges]

theorem recordEdges_map (k : Nat) (g : α → β) (left right : List (Nat × α)) :
    recordEdges k (left.map (Prod.map id g)) (right.map (Prod.map id g)) =
      recordEdges k left right := by
  rw [recordEdges, recordEdges, List.zip_map, List.foldl_map]
  rfl

/-- It does not matter when an edge is recorded. -/
theorem recordEdges_cons (k : Nat) (l r : Nat × α) (left right : List (Nat × α)) :
    recordEdges k (l :: left) (r :: right) = (recordEdges k left right).flipEdge l.1 r.1 := by
  rw [recordEdges_eq, recordEdges_eq, pairBits, BitVec.xor_comm]
  rfl

/-- The path along `edges` that leaves the pair `l`, `r` as it is, after that pair. -/
def pathAfter (edges : EdgeRec) (numEdge l r : Nat) : EdgeRec :=
  let (reversePathMask, path) := (edges.eulerPath numEdge).retrieveAndFlipEdge l r
  path.flipEdges (if reversePathMask then BitVec.allOnes 64 else 0)

theorem interleaveHalves_cons (k : Nat) (l r : Nat × α) {left right : List (Nat × α)}
    (hlen : left.length = right.length) :
    interleaveHalves k ((l :: left) ++ (r :: right)) =
      let path := pathAfter ((recordEdges k left right).flipEdge l.1 r.1) (left.length + 1) l.1 r.1
      let rest := swapPairs path left right
      (l :: rest.1, r :: rest.2) := by
  have hhalf : ((l :: left) ++ (r :: right)).length / 2 = (l :: left).length := by
    rw [List.length_append, List.length_cons, List.length_cons]
    omega
  unfold interleaveHalves
  rw [hhalf, List.take_left, List.drop_left]
  dsimp only
  rw [recordEdges_cons, List.length_cons]
  rfl

/-- An element, or the one that is missing, under its mark. -/
def underOption (x : Nat × (BitVec 8 × α)) : Nat × Option (BitVec 8 × α) := Prod.map id some x

/-- The halves of `Permute` are those of `Interleave` with the last pair first. -/
theorem permuteHalves_eq {level : Nat} {xs init rightInit extra : List (BitVec 8 × α)}
    {last : BitVec 8 × α} {o : Option (BitVec 8 × α)}
    (hleft : (xs.map fun x => (reduceMark ((xs.length + 1) / 2) level x.1, x.2)).take
      ((xs.length + 1) / 2) = init ++ [last])
    (hright : (xs.map fun x => (reduceMark ((xs.length + 1) / 2) level x.1, x.2)).drop
      ((xs.length + 1) / 2) = rightInit ++ extra)
    (hlen : init.length = rightInit.length) (hhalf : (xs.length + 1) / 2 = init.length + 1) :
    ∃ rest : List (Nat × (BitVec 8 × α)) × List (Nat × (BitVec 8 × α)),
      permuteHalves level xs = (rest.1.map Prod.snd ++ [last], rest.2.map Prod.snd ++ extra) ∧
      interleaveHalves ((xs.length + 1) / 2)
        ((underOption (underNibble last) :: init.map (underOption ∘ underNibble)) ++
          ((lastRight xs.length (rightInit ++ extra), o) ::
            rightInit.map (underOption ∘ underNibble))) =
        (underOption (underNibble last) :: rest.1.map underOption,
          (lastRight xs.length (rightInit ++ extra), o) :: rest.2.map underOption) ∧
      List.Perm (rest.1 ++ rest.2) ((init ++ rightInit).map underNibble) := by
  have hmap : ∀ ys : List (BitVec 8 × α), ys.map (underOption ∘ underNibble) =
      (ys.map underNibble).map (Prod.map id some) := fun ys => by
    rw [List.map_map]
    rfl
  have hlen' : (init.map underNibble).length = (rightInit.map underNibble).length := by
    rw [List.length_map, List.length_map, hlen]
  let v := lastRight xs.length (rightInit ++ extra)
  let path := pathAfter ((recordEdges ((xs.length + 1) / 2) (init.map underNibble)
    (rightInit.map underNibble)).flipEdge (lowNibble last.1) v) ((xs.length + 1) / 2)
      (lowNibble last.1) v
  refine ⟨swapPairs path (init.map underNibble) (rightInit.map underNibble), ?_, ?_, ?_⟩
  · have hextra : (extra.map underNibble).map Prod.snd = extra := by
      rw [List.map_map]
      exact List.map_id _
    unfold permuteHalves
    dsimp only
    rw [hleft, hright, List.getLast?_concat]
    dsimp only
    rw [List.dropLast_concat, List.map_append, recordEdges_append _ _ hlen',
      swapPairs_append _ _ hlen', List.map_append, hextra]
    rfl
  · rw [hmap, hmap, interleaveHalves_cons _ _ _ (by simpa using hlen)]
    dsimp only
    rw [swapPairs_map, recordEdges_map, List.length_map, List.length_map, ← hhalf]
    rfl
  · rw [List.map_append]
    exact swapPairs_perm _ _ _

/-- The low nibbles of the marks. -/
def keys (xs : List (BitVec 8 × α)) : List Nat := xs.map fun x => lowNibble x.1

theorem keys_append (xs ys : List (BitVec 8 × α)) : keys (xs ++ ys) = keys xs ++ keys ys :=
  List.map_append

/-- The elements with their marks reduced. -/
def reduced (level : Nat) (xs : List (BitVec 8 × α)) : List (BitVec 8 × α) :=
  xs.map fun x => (reduceMark ((xs.length + 1) / 2) level x.1, x.2)

theorem length_reduced (level : Nat) (xs : List (BitVec 8 × α)) :
    (reduced level xs).length = xs.length := List.length_map _

theorem range_reduce {h n : Nat} (hn : h ≤ n) (hn' : n ≤ 2 * h) :
    (List.range n).map (fun k => if h ≤ k then k - h else k) =
      List.range h ++ List.range (n - h) := by
  obtain ⟨m, rfl⟩ : ∃ m, n = h + m := ⟨n - h, by omega⟩
  rw [List.range_add, List.map_append, List.map_map, Nat.add_sub_cancel_left]
  congr 1
  · conv_rhs => rw [← List.map_id (List.range h)]
    refine List.map_congr_left fun k hk => ?_
    rw [if_neg (Nat.not_le.2 (List.mem_range.1 hk)), id]
  · conv_rhs => rw [← List.map_id (List.range m)]
    refine List.map_congr_left fun k _ => ?_
    simp

/-- The reduced marks: all positions of the left half and all of the right half. -/
theorem keys_reduced {level : Nat} (hlevel : level < 4) {xs : List (BitVec 8 × α)}
    (hkeys : List.Perm (keys xs) (List.range xs.length)) :
    List.Perm (keys (reduced level xs)) (List.range ((xs.length + 1) / 2) ++
      List.range (xs.length - (xs.length + 1) / 2)) := by
  have heq : keys (reduced level xs) = (keys xs).map fun k =>
      if (xs.length + 1) / 2 ≤ k then k - (xs.length + 1) / 2 else k := by
    rw [keys, keys, reduced, List.map_map, List.map_map]
    exact List.map_congr_left fun x _ => lowNibble_reduceMark hlevel x.1
  rw [heq, ← range_reduce (by omega) (by omega)]
  exact hkeys.map _

/-- With every mark twice, either half of `Interleave` has every mark once. -/
theorem interleaveHalves_once {k : Nat} (hk : k ≤ 8) (hpos : 0 < k) {zs : List (Nat × α)}
    (hzs : List.Perm (zs.map Prod.fst) (List.range k ++ List.range k)) :
    List.Perm ((interleaveHalves k zs).1.map Prod.fst) (List.range k) ∧
      List.Perm ((interleaveHalves k zs).2.map Prod.fst) (List.range k) := by
  have hlen : zs.length = k + k := by simpa using hzs.length_eq
  have hbelow : MarksBelow k zs := fun p hp => by
    have := hzs.mem_iff.1 (List.mem_map_of_mem hp)
    simpa using this
  have hcount : ∀ c, markCount c zs = if c < k then 2 else 0 := fun c => by
    rw [markCount_eq, hzs.count_eq, List.count_append, List.count_range]
    split <;> rfl
  have heven : ∀ a < 8, markCount a zs % 2 = 0 := fun a _ => by
    rw [hcount]
    split <;> rfl
  have hhalf : ∀ c < k, markCount c (interleaveHalves k zs).1 = 1 ∧
      markCount c (interleaveHalves k zs).2 = 1 := fun c hc => by
    have := markCount_interleaveHalves hk hbelow (by omega) (by omega) (show c < 8 by omega) heven
    rwa [hcount, if_pos hc] at this
  have hperm := interleaveHalves_perm k zs
  exact ⟨markCount_range (fun p hp => hbelow p (hperm.mem_iff.1 (List.mem_append_left _ hp)))
      fun c hc => (hhalf c hc).1,
    markCount_range (fun p hp => hbelow p (hperm.mem_iff.1 (List.mem_append_right _ hp)))
      fun c hc => (hhalf c hc).2⟩

/-- Both halves have every reduced mark once, `missing` being the mark that no element has. -/
theorem permuteHalves_split {level : Nat} {xs init rightInit extra : List (BitVec 8 × α)}
    {last : BitVec 8 × α} (missing : List Nat) (h16 : xs.length ≤ 16)
    (hleft : (reduced level xs).take ((xs.length + 1) / 2) = init ++ [last])
    (hright : (reduced level xs).drop ((xs.length + 1) / 2) = rightInit ++ extra)
    (hlen : init.length = rightInit.length) (hhalf : (xs.length + 1) / 2 = init.length + 1)
    (hkeys : List.Perm (keys (reduced level xs)) (List.range ((xs.length + 1) / 2) ++
      List.range (xs.length - (xs.length + 1) / 2)))
    (hlast : keys extra ++ missing = [lastRight xs.length (rightInit ++ extra)])
    (hmissing : List.range (xs.length - (xs.length + 1) / 2) ++ missing =
      List.range ((xs.length + 1) / 2)) :
    List.Perm (keys (permuteHalves level xs).1) (List.range ((xs.length + 1) / 2)) ∧
      List.Perm (keys (permuteHalves level xs).2)
        (List.range (xs.length - (xs.length + 1) / 2)) ∧
      List.Perm ((permuteHalves level xs).1 ++ (permuteHalves level xs).2) (reduced level xs) := by
  obtain ⟨rest, hhalves, hinter, hperm⟩ := permuteHalves_eq (o := none) hleft hright hlen hhalf
  have happ : reduced level xs = init ++ [last] ++ (rightInit ++ extra) := by
    rw [← hleft, ← hright, List.take_append_drop]
  generalize lastRight xs.length (rightInit ++ extra) = v at hlast hinter
  generalize hzs : (underOption (underNibble last) :: init.map (underOption ∘ underNibble)) ++
    ((v, none) :: rightInit.map (underOption ∘ underNibble)) = zs at hinter
  have hfst : ∀ ys : List (BitVec 8 × α),
      (ys.map (underOption ∘ underNibble)).map Prod.fst = keys ys := fun ys => by
    rw [List.map_map]
    rfl
  -- every mark below the half size occurs twice
  have hzsk : List.Perm (zs.map Prod.fst)
      (List.range ((xs.length + 1) / 2) ++ List.range ((xs.length + 1) / 2)) := by
    have hlist : zs.map Prod.fst = (lowNibble last.1 :: keys init) ++ (v :: keys rightInit) := by
      rw [← hzs, List.map_append, List.map_cons, List.map_cons, hfst, hfst]
      rfl
    have htwice := hkeys.append_right missing
    rw [List.append_assoc, hmissing] at htwice
    rw [hlist]
    refine List.Perm.trans ?_ htwice
    rw [happ, keys_append, keys_append, keys_append, List.append_assoc (keys init ++ _),
      List.append_assoc (keys rightInit), hlast]
    exact (List.perm_append_singleton _ _).symm.append (List.perm_append_singleton _ _).symm
  obtain ⟨hone, hother⟩ := interleaveHalves_once (by omega) (by omega) hzsk
  rw [hinter] at hone hother
  have htag : ∀ ys : List (Nat × (BitVec 8 × α)), (∀ y ∈ ys, y ∈ rest.1 ++ rest.2) →
      (ys.map underOption).map Prod.fst = keys (ys.map Prod.snd) := fun ys hys => by
    rw [keys, List.map_map, List.map_map]
    refine List.map_congr_left fun y hy => ?_
    obtain ⟨x, -, rfl⟩ := List.mem_map.1 (hperm.mem_iff.1 (hys y hy))
    rfl
  rw [List.map_cons, htag _ fun y hy => List.mem_append_left _ hy] at hone
  rw [List.map_cons, htag _ fun y hy => List.mem_append_right _ hy] at hother
  rw [hhalves]
  refine ⟨?_, ?_, ?_⟩
  · rw [keys_append]
    exact (List.perm_append_singleton _ _).trans hone
  · rw [← List.perm_append_right_iff missing, keys_append, List.append_assoc, hlast, hmissing]
    exact (List.perm_append_singleton _ _).trans hother
  · have hsnd : List.Perm (rest.1.map Prod.snd ++ rest.2.map Prod.snd) (init ++ rightInit) := by
      have := hperm.map Prod.snd
      rw [List.map_append, List.map_map] at this
      exact this.trans (List.Perm.of_eq (List.map_id _))
    rw [happ]
    simp only [List.append_assoc, List.singleton_append]
    refine List.perm_middle.trans (List.Perm.trans (List.Perm.cons last ?_) List.perm_middle.symm)
    rw [← List.append_assoc, ← List.append_assoc]
    exact hsnd.append_right extra

/-- **Both halves have every reduced mark once**, and together the elements with their marks
reduced. -/
theorem permuteHalves_spec {level : Nat} (hlevel : level < 4) {xs : List (BitVec 8 × α)}
    (h3 : 3 ≤ xs.length) (h16 : xs.length ≤ 16)
    (hkeys : List.Perm (keys xs) (List.range xs.length)) :
    List.Perm (keys (permuteHalves level xs).1) (List.range ((xs.length + 1) / 2)) ∧
      List.Perm (keys (permuteHalves level xs).2)
        (List.range (xs.length - (xs.length + 1) / 2)) ∧
      List.Perm ((permuteHalves level xs).1 ++ (permuteHalves level xs).2) (reduced level xs) := by
  have hred := keys_reduced hlevel hkeys
  have hlen := length_reduced level xs
  obtain hnil | ⟨init, last, hleft⟩ :=
    List.eq_nil_or_concat' ((reduced level xs).take ((xs.length + 1) / 2))
  · have := congrArg List.length hnil
    rw [List.length_take, List.length_nil] at this
    omega
  have hinit := congrArg List.length hleft
  rw [List.length_take, List.length_append, List.length_singleton] at hinit
  by_cases hodd : xs.length % 2 = 1
  · refine permuteHalves_split [xs.length - (xs.length + 1) / 2] h16 hleft
      (List.append_nil _).symm ?_ (by omega) hred ?_ ?_
    · rw [List.length_drop]
      omega
    · rw [lastRight, if_pos hodd]
      rfl
    · rw [← List.range_succ]
      congr 1
      omega
  · obtain hnil | ⟨rightInit, x, hright⟩ :=
      List.eq_nil_or_concat' ((reduced level xs).drop ((xs.length + 1) / 2))
    · have := congrArg List.length hnil
      rw [List.length_drop, List.length_nil] at this
      omega
    have hdrop := congrArg List.length hright
    rw [List.length_drop, List.length_append, List.length_singleton] at hdrop
    refine permuteHalves_split [] h16 hleft hright (by omega) (by omega) hred ?_ ?_
    · rw [lastRight, if_neg hodd, List.getLast?_concat]
      rfl
    · rw [List.append_nil]
      congr 1
      omega

/-! ## The last loop -/

theorem length_undoReduce (level : Nat) (left right : List (BitVec 8 × α)) :
    (undoReduce level left right).1.length = left.length ∧
      (undoReduce level left right).2.length = right.length := by
  induction left generalizing right with
  | nil => cases right <;> simp [undoReduce]
  | cons l left ih =>
    cases right with
    | nil => simp [undoReduce]
    | cons r right =>
      have := ih right
      simp only [undoReduce]
      split <;> simpa using this

/-- The element of a pair whose bit is set is on the right after it. -/
theorem undoReduce_pair {level : Nat} (hlevel : level < 4) {left right : List (BitVec 8 × α)}
    {j : Nat} {l r : BitVec 8 × α} (hl : left[j]? = some l) (hr : right[j]? = some r) :
    (undoReduce level left right).1[j]? = some (if r.1.getLsbD (4 + level) then l else r) ∧
      (undoReduce level left right).2[j]? = some (if r.1.getLsbD (4 + level) then r else l) := by
  induction left generalizing right j with
  | nil => simp at hl
  | cons l' left ih =>
    cases right with
    | nil => simp at hr
    | cons r' right =>
      rw [undoReduce, and_levelBit hlevel]
      cases j with
      | zero =>
        obtain rfl : l' = l := by simpa using hl
        obtain rfl : r' = r := by simpa using hr
        cases r'.1.getLsbD (4 + level) <;> exact ⟨rfl, rfl⟩
      | succ j =>
        have := ih (by simpa using hl) (by simpa using hr)
        split <;> simpa using this

theorem undoReduce_single (level : Nat) {left right : List (BitVec 8 × α)} {j : Nat}
    (hr : right[j]? = none) : (undoReduce level left right).1[j]? = left[j]? := by
  induction left generalizing right j with
  | nil => cases right <;> rfl
  | cons l left ih =>
    cases right with
    | nil => rfl
    | cons r right =>
      cases j with
      | zero => simp at hr
      | succ j =>
        have := ih (j := j) (by simpa using hr)
        simp only [undoReduce]
        split <;> simpa using this

/-! ## Runs of `Permute` -/

/-- What `Permute` is given at a level: every position once, and the bits from the level on are
clear. -/
structure Marked (level : Nat) (xs : List (BitVec 8 × α)) : Prop where
  keys : List.Perm (keys xs) (List.range xs.length)
  clear : ∀ x ∈ xs, ∀ l, level ≤ l → x.1.getLsbD (4 + l) = false

/-- Every element of `xs` stands in `ys` where its mark says, with the bits of the levels above. -/
structure Placed (level : Nat) (xs ys : List (BitVec 8 × α)) : Prop where
  length_eq : ys.length = xs.length
  at_mark : ∀ x ∈ xs, ∃ mark, ys[lowNibble x.1]? = some (mark, x.2) ∧
    ∀ l < level, mark.getLsbD (4 + l) = x.1.getLsbD (4 + l)

/-- The mark before it was reduced at `level`. -/
def value (halfSize level : Nat) (mark : BitVec 8) : Nat :=
  lowNibble mark + if mark.getLsbD (4 + level) then halfSize else 0

theorem value_reduceMark {halfSize level : Nat} (hlevel : level < 4) {mark : BitVec 8}
    (hclear : mark.getLsbD (4 + level) = false) :
    value halfSize level (reduceMark halfSize level mark) = lowNibble mark := by
  rw [value, lowNibble_reduceMark hlevel, getLsbD_reduceMark hlevel, hclear]
  by_cases h : halfSize ≤ lowNibble mark <;> simp [h]

theorem lowNibble_lt {xs : List (BitVec 8 × α)} (h : List.Perm (keys xs) (List.range xs.length))
    {x : BitVec 8 × α} (hx : x ∈ xs) : lowNibble x.1 < xs.length :=
  List.mem_range.1 (h.mem_iff.1 (List.mem_map_of_mem hx))

theorem exists_lowNibble {xs : List (BitVec 8 × α)} (h : List.Perm (keys xs) (List.range xs.length))
    {k : Nat} (hk : k < xs.length) : ∃ x ∈ xs, lowNibble x.1 = k :=
  List.mem_map.1 (h.mem_iff.2 (List.mem_range.2 hk))

/-- A lookup in the two halves: the bit says in which. -/
theorem getElem?_halves {left right : List α} {k : Nat} {b : Bool} {a : α} {halfSize : Nat}
    (hlen : left.length = halfSize) (hk : k < halfSize)
    (h : (if b then right else left)[k]? = some a) :
    (left ++ right)[k + if b then halfSize else 0]? = some a := by
  cases b with
  | false => rwa [if_neg (by simp), Nat.add_zero, List.getElem?_append_left (by omega)]
  | true =>
    rw [if_pos rfl, List.getElem?_append_right (by omega), hlen, Nat.add_sub_cancel]
    exact h

/-- The last loop after the recursive calls puts every element where its mark before the reduction
says. -/
theorem Placed.undo {level halfSize : Nat} (hlevel : level < 4) {l r l' r' : List (BitVec 8 × α)}
    (hl : Placed (level + 1) l l') (hr : Placed (level + 1) r r') (hlen : l.length = halfSize)
    (hle : r.length ≤ halfSize) (hkeysl : List.Perm (keys l) (List.range l.length))
    (hkeysr : List.Perm (keys r) (List.range r.length))
    (hlt : ∀ z ∈ l, value halfSize level z.1 < halfSize + r.length)
    (hne : ∀ z ∈ l, ∀ w ∈ r, value halfSize level z.1 ≠ value halfSize level w.1)
    {z : BitVec 8 × α} (hz : z ∈ l ++ r) :
    ∃ mark, ((undoReduce level l' r').1 ++ (undoReduce level l' r').2)[value halfSize level z.1]? =
        some (mark, z.2) ∧ ∀ i < level, mark.getLsbD (4 + i) = z.1.getLsbD (4 + i) := by
  have hhalf : (undoReduce level l' r').1.length = halfSize := by
    rw [(length_undoReduce level l' r').1, hl.length_eq, hlen]
  obtain hzl | hzr := List.mem_append.1 hz
  · obtain ⟨mark, hmark, hbits⟩ := hl.at_mark z hzl
    have hk := lowNibble_lt hkeysl hzl
    refine ⟨mark, getElem?_halves hhalf (by omega) ?_, fun i hi => hbits i (by omega)⟩
    by_cases hkr : lowNibble z.1 < r.length
    · -- its partner has the same low nibble, so the other bit
      obtain ⟨w, hw, hwz⟩ := exists_lowNibble hkeysr hkr
      obtain ⟨markw, hmarkw, hbitsw⟩ := hr.at_mark w hw
      rw [hwz] at hmarkw
      have hpair := undoReduce_pair hlevel hmark hmarkw
      rw [hbitsw level (by omega)] at hpair
      have hvalue := hne z hzl w hw
      rw [value, value, hwz] at hvalue
      cases hb : z.1.getLsbD (4 + level) <;> cases hb' : w.1.getLsbD (4 + level) <;>
        simp_all
    · have hb : z.1.getLsbD (4 + level) = false := by
        have := hlt z hzl
        rw [value] at this
        cases hbit : z.1.getLsbD (4 + level) with
        | false => rfl
        | true =>
          rw [if_pos hbit] at this
          omega
      have hnone : r'[lowNibble z.1]? = none := by
        rw [List.getElem?_eq_none_iff, hr.length_eq]
        omega
      rw [hb, if_neg (by simp), undoReduce_single level hnone, hmark]
  · obtain ⟨mark, hmark, hbits⟩ := hr.at_mark z hzr
    have hk := lowNibble_lt hkeysr hzr
    refine ⟨mark, getElem?_halves hhalf (by omega) ?_, fun i hi => hbits i (by omega)⟩
    have hl' := List.getElem?_eq_getElem (l := l') (i := lowNibble z.1)
      (by rw [hl.length_eq]; omega)
    have hpair := undoReduce_pair hlevel hl' hmark
    rw [hbits level (by omega)] at hpair
    cases hb : z.1.getLsbD (4 + level) <;> simp_all

theorem Marked.reduced {level : Nat} (hlevel : level < 4) {xs : List (BitVec 8 × α)}
    (h : Marked level xs) {z : BitVec 8 × α} (hz : z ∈ reduced level xs) {l : Nat}
    (hl : level + 1 ≤ l) : z.1.getLsbD (4 + l) = false := by
  obtain ⟨x, hx, rfl⟩ := List.mem_map.1 hz
  rw [getLsbD_reduceMark hlevel, h.clear x hx l (by omega),
    decide_eq_false (show l ≠ level by omega)]
  rfl

/-- The recursive calls find marks that are marks of their level. -/
theorem Marked.halves {level : Nat} (hlevel : level < 4) {xs : List (BitVec 8 × α)}
    (h3 : 3 ≤ xs.length) (h16 : xs.length ≤ 16) (h : Marked level xs) :
    Marked (level + 1) (permuteHalves level xs).1 ∧
      Marked (level + 1) (permuteHalves level xs).2 := by
  obtain ⟨hkeys1, hkeys2, hperm⟩ := permuteHalves_spec hlevel h3 h16 h.keys
  obtain ⟨hlen1, hlen2⟩ := length_permuteHalves level xs
  exact ⟨⟨by rwa [hlen1], fun z hz l hl =>
      h.reduced hlevel (hperm.mem_iff.1 (List.mem_append_left _ hz)) hl⟩,
    ⟨by rwa [hlen2], fun z hz l hl =>
      h.reduced hlevel (hperm.mem_iff.1 (List.mem_append_right _ hz)) hl⟩⟩

/-- One level of the recursion. -/
theorem Placed.step {level : Nat} (hlevel : level < 4) {xs l' r' : List (BitVec 8 × α)}
    (h3 : 3 ≤ xs.length) (h16 : xs.length ≤ 16) (h : Marked level xs)
    (hl : Placed (level + 1) (permuteHalves level xs).1 l')
    (hr : Placed (level + 1) (permuteHalves level xs).2 r') :
    Placed level xs ((undoReduce level l' r').1 ++ (undoReduce level l' r').2) := by
  obtain ⟨-, -, hperm⟩ := permuteHalves_spec hlevel h3 h16 h.keys
  obtain ⟨hlen1, hlen2⟩ := length_permuteHalves level xs
  obtain ⟨hm1, hm2⟩ := h.halves hlevel h3 h16
  have hvalue : ∀ x ∈ xs, value ((xs.length + 1) / 2) level
      (reduceMark ((xs.length + 1) / 2) level x.1) = lowNibble x.1 := fun x hx =>
    value_reduceMark hlevel (h.clear x hx level (Nat.le_refl _))
  -- before the reduction no two marks are equal
  have hvalues : List.Perm (((permuteHalves level xs).1 ++ (permuteHalves level xs).2).map
      fun z => value ((xs.length + 1) / 2) level z.1) (List.range xs.length) := by
    refine (hperm.map _).trans ?_
    rw [reduced, List.map_map, List.map_congr_left (g := fun x => lowNibble x.1) hvalue]
    exact h.keys
  have hnodup := hvalues.nodup_iff.2 List.nodup_range
  rw [List.map_append] at hnodup
  have hlt : ∀ z ∈ (permuteHalves level xs).1, value ((xs.length + 1) / 2) level z.1 <
      (xs.length + 1) / 2 + (permuteHalves level xs).2.length := fun z hz => by
    have := List.mem_range.1 (hvalues.mem_iff.1 (List.mem_map_of_mem (List.mem_append_left _ hz)))
    omega
  have hne : ∀ z ∈ (permuteHalves level xs).1, ∀ w ∈ (permuteHalves level xs).2,
      value ((xs.length + 1) / 2) level z.1 ≠ value ((xs.length + 1) / 2) level w.1 :=
    fun z hz w hw heq => List.disjoint_of_nodup_append hnodup (List.mem_map_of_mem hz)
      (List.mem_map.2 ⟨w, hw, heq.symm⟩)
  constructor
  · rw [List.length_append, (length_undoReduce level l' r').1, (length_undoReduce level l' r').2,
      hl.length_eq, hr.length_eq]
    omega
  · intro x hx
    have hz : (reduceMark ((xs.length + 1) / 2) level x.1, x.2) ∈
        (permuteHalves level xs).1 ++ (permuteHalves level xs).2 :=
      hperm.mem_iff.2 (List.mem_map_of_mem hx)
    obtain ⟨mark, hmark, hbits⟩ := Placed.undo hlevel hl hr hlen1 (by omega) hm1.keys hm2.keys hlt
      hne hz
    rw [hvalue x hx] at hmark
    refine ⟨mark, hmark, fun l hl => ?_⟩
    rw [hbits l hl, getLsbD_reduceMark hlevel, decide_eq_false (show l ≠ level by omega),
      Bool.false_and, Bool.or_false]

theorem Placed.two {level : Nat} {a b : BitVec 8 × α} (h : Marked level [a, b]) :
    Placed level [a, b] (if lowNibble a.1 ≠ 0 then [b, a] else [a, b]) := by
  have ha := lowNibble_lt h.keys (List.mem_cons_self)
  have hb := lowNibble_lt h.keys (x := b) (by simp)
  have hne : lowNibble a.1 ≠ lowNibble b.1 := by
    have := h.keys.nodup_iff.2 List.nodup_range
    simpa [keys] using this
  simp only [List.length_cons, List.length_nil] at ha hb
  by_cases h0 : lowNibble a.1 = 0
  · have h1 : lowNibble b.1 = 1 := by omega
    rw [if_neg (by simpa using h0)]
    refine ⟨rfl, fun x hx => ?_⟩
    obtain rfl | rfl : x = a ∨ x = b := by simpa using hx
    · exact ⟨x.1, by rw [h0]; rfl, fun _ _ => rfl⟩
    · exact ⟨x.1, by rw [h1]; rfl, fun _ _ => rfl⟩
  · have h1 : lowNibble a.1 = 1 := by omega
    have h2 : lowNibble b.1 = 0 := by omega
    rw [if_pos h0]
    refine ⟨rfl, fun x hx => ?_⟩
    obtain rfl | rfl : x = a ∨ x = b := by simpa using hx
    · exact ⟨x.1, by rw [h1]; rfl, fun _ _ => rfl⟩
    · exact ⟨x.1, by rw [h2]; rfl, fun _ _ => rfl⟩

theorem Placed.one {level : Nat} {xs : List (BitVec 8 × α)} (h : Marked level xs)
    (hlen : xs.length ≤ 1) : Placed level xs xs := by
  refine ⟨rfl, fun x hx => ⟨x.1, ?_, fun _ _ => rfl⟩⟩
  obtain ⟨y, rfl⟩ : ∃ y, xs = [y] :=
    List.length_eq_one_iff.1 (by have := List.length_pos_of_mem hx; omega)
  have h0 : lowNibble x.1 = 0 := by
    have := lowNibble_lt h.keys hx
    rw [List.length_singleton] at this
    omega
  rw [h0, List.mem_singleton.1 hx]
  rfl

/-- **`Permute` at any level** puts every element where its mark says. -/
theorem permute_placed {level : Nat} {xs : List (BitVec 8 × α)} (hlen : xs.length ≤ 2 ^ (4 - level))
    (h : Marked level xs) : Placed level xs (permute level xs) := by
  induction hn : xs.length using Nat.strong_induction_on generalizing level xs with
  | _ n ih =>
    subst hn
    unfold permute
    split
    · exact .two h
    · rename_i h2
      have hne : xs.length ≠ 2 := fun hlen2 => by
        obtain ⟨a, b, rfl⟩ := List.length_eq_two.1 hlen2
        exact h2 a b rfl
      split
      · exact .one h (by omega)
      · -- a level that has more than two elements has room for their bit
        have hlevel : level < 3 := by
          by_contra hge
          have := Nat.pow_le_pow_right (show 0 < 2 by decide) (show 4 - level ≤ 1 by omega)
          omega
        have h16 := Nat.pow_le_pow_right (show 0 < 2 by decide) (show 4 - level ≤ 4 by omega)
        have hpow : 2 ^ (4 - level) = 2 * 2 ^ (4 - (level + 1)) := by
          rw [← Nat.pow_succ', show 4 - level = (4 - (level + 1)).succ by omega]
        obtain ⟨hlen1, hlen2⟩ := length_permuteHalves level xs
        obtain ⟨hm1, hm2⟩ := h.halves (by omega) (by omega) (by omega)
        exact Placed.step (by omega) (by omega) (by omega) h
          (ih _ (by omega) (by omega) hm1 rfl) (ih _ (by omega) (by omega) hm2 rfl)

/-! ## `Permute` -/

theorem lowNibble_ofNat {m : Nat} (h : m < 16) : lowNibble (BitVec.ofNat 8 m) = m := by
  rw [lowNibble_eq, BitVec.toNat_ofNat]
  omega

/-- Marks below 16 leave the bits of all levels clear. -/
theorem Marked.zip {marks : List Nat} {data : List α} (hlen : marks.length = data.length)
    (h16 : marks.length ≤ 16) (hperm : List.Perm marks (List.range marks.length)) :
    Marked 0 ((marks.map (BitVec.ofNat 8)).zip data) := by
  have hlt : ∀ m ∈ marks, m < 16 := fun m hm => by
    have := List.mem_range.1 (hperm.mem_iff.1 hm)
    omega
  have hfst : ((marks.map (BitVec.ofNat 8)).zip data).map Prod.fst = marks.map (BitVec.ofNat 8) :=
    List.map_fst_zip (by rw [List.length_map, hlen])
  constructor
  · have hkeys : Permute.keys ((marks.map (BitVec.ofNat 8)).zip data) = marks := by
      have : Permute.keys ((marks.map (BitVec.ofNat 8)).zip data) =
          (((marks.map (BitVec.ofNat 8)).zip data).map Prod.fst).map lowNibble := by
        rw [List.map_map]
        rfl
      rw [this, hfst, List.map_map]
      conv_rhs => rw [← List.map_id marks]
      exact List.map_congr_left fun m hm => lowNibble_ofNat (hlt m hm)
    rw [hkeys, List.length_zip, List.length_map, ← hlen, Nat.min_self]
    exact hperm
  · intro x hx l _
    have hmem := List.mem_map_of_mem (f := Prod.fst) hx
    rw [hfst, List.mem_map] at hmem
    obtain ⟨m, hm, hx1⟩ := hmem
    have hpow := Nat.pow_le_pow_right (show 0 < 2 by decide) (show 4 ≤ 4 + l by omega)
    have := hlt m hm
    rw [← hx1, BitVec.getLsbD_ofNat, Nat.testBit_lt_two_pow (by omega), Bool.and_false]

/-- **`Permute` sorts by marks**: on at most 16 elements, whose marks are the positions in any
order, the element with mark `m` comes to position `m`. -/
theorem permute_moves (marks : List Nat) (data : List α) (hlen : marks.length = data.length)
    (_h1 : 1 ≤ marks.length) (h16 : marks.length ≤ 16)
    (hperm : List.Perm marks (List.range marks.length)) :
    ((permute 0 ((marks.map (BitVec.ofNat 8)).zip data)).map Prod.snd).length = data.length ∧
      ∀ i m : Nat, marks[i]? = some m →
        ((permute 0 ((marks.map (BitVec.ofNat 8)).zip data)).map Prod.snd)[m]? = data[i]? := by
  have hzip : ((marks.map (BitVec.ofNat 8)).zip data).length = data.length := by
    rw [List.length_zip, List.length_map, hlen, Nat.min_self]
  have hplaced := permute_placed (by rw [hzip, ← hlen]; exact h16) (Marked.zip hlen h16 hperm)
  refine ⟨by rw [List.length_map, hplaced.length_eq, hzip], fun i m hm => ?_⟩
  have hi : i < data.length := by
    rw [← hlen]
    exact (List.getElem?_eq_some_iff.1 hm).1
  have hmem : (BitVec.ofNat 8 m, data[i]) ∈ (marks.map (BitVec.ofNat 8)).zip data := by
    refine List.mem_of_getElem? (i := i) ?_
    rw [List.getElem?_zip_eq_some]
    exact ⟨by rw [List.getElem?_map, hm]; rfl, List.getElem?_eq_getElem hi⟩
  obtain ⟨mark, hat, -⟩ := hplaced.at_mark _ hmem
  have hm16 : m < 16 := by
    have := List.mem_range.1 (hperm.mem_iff.1 (List.mem_of_getElem? hm))
    omega
  rw [lowNibble_ofNat hm16] at hat
  rw [List.getElem?_map, hat, List.getElem?_eq_getElem hi]
  rfl

/-- Five letters. -/
theorem permute_moves_five :
    ((permute 0 (([3, 0, 4, 1, 2].map (BitVec.ofNat 8)).zip ['d', 'a', 'e', 'b', 'c'])).map
        Prod.snd).length = 5 ∧
      ∀ i m : Nat, [3, 0, 4, 1, 2][i]? = some m →
        ((permute 0 (([3, 0, 4, 1, 2].map (BitVec.ofNat 8)).zip ['d', 'a', 'e', 'b', 'c'])).map
          Prod.snd)[m]? = ['d', 'a', 'e', 'b', 'c'][i]? :=
  permute_moves [3, 0, 4, 1, 2] ['d', 'a', 'e', 'b', 'c'] rfl (by decide) (by decide) (by decide)

end EM.Algorithm.Permute
