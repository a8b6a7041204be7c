import OblSort.Algorithm.Proof.Bitonic
import OblSort.Algorithm.Proof.WaksCounts
import OblSort.Lib.Pairing

/-!
# The walk of `InBits`

`InBits` walks along two pairings of the positions `0, …, 2 * k - 1`: of positions with the same
switch of the input layer, and of positions whose values have the same switch of the output layer.
The positions that it comes to go to the top network. `inBits_spec`: they have one position of every
pair of either pairing, and the control bits are those that bring them there.
-/

namespace EM.Algorithm.WaksOnOff

open Pairing

/-! ## Tables -/

/-- The values `pi x` of the positions `x`, a permutation of the numbers below `m`. -/
structure Values (m : Nat) (pi : Nat → Nat) : Prop where
  perm : List.Perm ((List.range m).map pi) (List.range m)

section Values

variable {m : Nat} {pi : Nat → Nat} (h : Values m pi)

include h

theorem Values.lt {x : Nat} (hx : x < m) : pi x < m :=
  List.mem_range.1 (h.perm.mem_iff.1 (List.mem_map_of_mem (List.mem_range.2 hx)))

theorem Values.exists {y : Nat} (hy : y < m) : ∃ x < m, pi x = y := by
  obtain ⟨x, hx, rfl⟩ := List.mem_map.1 (h.perm.mem_iff.2 (List.mem_range.2 hy))
  exact ⟨x, List.mem_range.1 hx, rfl⟩

theorem Values.inj {x y : Nat} (hx : x < m) (hy : y < m) (heq : pi x = pi y) : x = y :=
  List.inj_on_of_nodup_map (h.perm.nodup_iff.2 List.nodup_range) (List.mem_range.2 hx)
    (List.mem_range.2 hy) heq

end Values

/-- Different arguments below `m` have different images. -/
def InjBelow {β : Type} (m : Nat) (g : Nat → β) : Prop :=
  ∀ x < m, ∀ y < m, g x = g y → x = y

/-- What the look-up tables hold. -/
structure Tables (m : Nat) (pi : Nat → Nat) (fwd bwd : Nat → BitVec 64) (F : ForwardLookUp)
    (rev : BitVec 64 → Nat × Nat) : Prop where
  length : F.length = m
  entry : ∀ (l : Nat) (x : TaggedT (Nat × Nat)), F[l]? = some x →
    x.v.1 < m ∧ x = ⟨fwd x.v.1, (x.v.1, pi x.v.1)⟩
  find : ∀ a < m, ∃ l : Nat, F[l]? = some ⟨fwd a, (a, pi a)⟩
  sorted : TagsIncrease F
  reverse : ∀ (l : Nat) (x : TaggedT (Nat × Nat)), F[l]? = some x → rev (bwd x.v.2) = (x.v.1, l)

/-- The order of the tags. -/
theorem decides_tag {α : Type} : Net.Decides (fun a b : TaggedT α => a.tag.toNat ≤ b.tag.toNat)
    fun a b => a.tag.ult b.tag where
  trans _ _ _ := Nat.le_trans
  le_of_cmp a b h := by
    rw [BitVec.ult_iff_lt, BitVec.lt_def] at h
    omega
  le_of_not a b h := by
    rw [← Bool.not_eq_true, BitVec.ult_iff_lt, BitVec.lt_def] at h
    omega

/-- Sorting by distinct tags puts them in increasing order. -/
theorem tagSort_increasing {α : Type} {xs : List (TaggedT α)} (hlen : xs.length ≤ 2 ^ 63)
    (hnodup : (xs.map TaggedT.tag).Nodup) :
    List.Pairwise (fun a b : TaggedT α => a.tag.toNat < b.tag.toNat)
      (bitonicSortList (fun a b => a.tag.ult b.tag) xs) := by
  have hperm := (bitonicSortList_perm (fun a b : TaggedT α => a.tag.ult b.tag) xs).map TaggedT.tag
  have hdist := List.pairwise_map.1 (hperm.nodup_iff.2 hnodup)
  refine (bitonicSortList_sorted decides_tag hlen).imp₂ (fun a b hle hne => ?_) hdist
  exact Nat.lt_of_le_of_ne hle fun heq => hne (BitVec.eq_of_toNat_eq heq)

/-- Updates at different keys do not overwrite each other. -/
theorem foldl_update_eq {K E V : Type} [DecidableEq K] (key : E → K) (val : E → V) {L : List E}
    (hnodup : (L.map key).Nodup) (R : K → V) :
    (∀ e ∈ L, L.foldl (fun R e => Function.update R (key e) (val e)) R (key e) = val e) ∧
      ∀ x, x ∉ L.map key → L.foldl (fun R e => Function.update R (key e) (val e)) R x = R x := by
  induction L generalizing R with
  | nil => exact ⟨fun e he => absurd he List.not_mem_nil, fun _ _ => rfl⟩
  | cons e L ih =>
    rw [List.map_cons, List.nodup_cons] at hnodup
    obtain ⟨hmem, hother⟩ := ih hnodup.2 (Function.update R (key e) (val e))
    refine ⟨fun e' he' => ?_, fun x hx => ?_⟩
    · rcases List.mem_cons.1 he' with rfl | he'
      · rw [List.foldl_cons, hother _ hnodup.1, Function.update_self]
      · exact hmem e' he'
    · rw [List.map_cons, List.mem_cons, not_or] at hx
      rw [List.foldl_cons, hother x hx.2, Function.update_of_ne hx.1]

theorem tables_create {P : List Nat} {d : Nat} {pi : Nat → Nat} {fwd bwd : Nat → BitVec 64}
    (hpi : ∀ i, (P.map (· >>> d)).getD i P.length = pi i)
    (hvals : Values (2 * divRoundUp P.length 2) pi) (hm : 2 * divRoundUp P.length 2 ≤ 2 ^ 63)
    (hfwd : InjBelow (2 * divRoundUp P.length 2) fwd)
    (hbwd : InjBelow (2 * divRoundUp P.length 2) bwd) :
    Tables (2 * divRoundUp P.length 2) pi fwd bwd (createForwardLookUp P d fwd)
      (createReverseLookUp (createForwardLookUp P d fwd) bwd) := by
  generalize hmm : 2 * divRoundUp P.length 2 = m at *
  have hF : createForwardLookUp P d fwd = bitonicSortList (fun a b => a.tag.ult b.tag)
      ((List.range m).map fun i => ⟨fwd i, (i, pi i)⟩) := by
    rw [createForwardLookUp, hmm]
    simp only [hpi]
  generalize createForwardLookUp P d fwd = F at hF ⊢
  have hperm : List.Perm F ((List.range m).map fun i => ⟨fwd i, (i, pi i)⟩) := by
    rw [hF]
    exact bitonicSortList_perm _ _
  have hmem : ∀ x, x ∈ F ↔ ∃ i < m, ⟨fwd i, (i, pi i)⟩ = x := fun x => by
    rw [hperm.mem_iff, List.mem_map]
    simp only [List.mem_range]
  have hnodup : (F.map TaggedT.tag).Nodup := by
    rw [(hperm.map _).nodup_iff, List.map_map]
    exact List.Nodup.map_on (fun x hx y hy h => hfwd x (List.mem_range.1 hx) y
      (List.mem_range.1 hy) h) List.nodup_range
  have hentry : ∀ x ∈ F, x.v.1 < m ∧ x = ⟨fwd x.v.1, (x.v.1, pi x.v.1)⟩ := fun x hx => by
    obtain ⟨i, hi, rfl⟩ := (hmem x).1 hx
    exact ⟨hi, rfl⟩
  refine ⟨?_, fun l x hx => hentry x (List.mem_of_getElem? hx), fun a ha => ?_, ?_,
    fun l x hx => ?_⟩
  · rw [hperm.length_eq, List.length_map, List.length_range]
  · exact List.getElem?_of_mem ((hmem _).2 ⟨a, ha, rfl⟩)
  · intro a b x y hx hy hab
    have hsorted := tagSort_increasing (by rwa [List.length_map, List.length_range])
      ((hperm.map _).nodup_iff.1 hnodup)
    rw [← hF] at hsorted
    have ha := List.getElem?_eq_some_iff.1 hx
    have hb := List.getElem?_eq_some_iff.1 hy
    obtain ⟨ha, rfl⟩ := ha
    obtain ⟨hb, rfl⟩ := hb
    exact BitVec.ult_iff_lt.2 (BitVec.lt_def.2 (List.pairwise_iff_getElem.1 hsorted a b ha hb hab))
  · -- the second components are distinct, so no entry of the table is overwritten
    have hkeys : (F.zipIdx.map fun p => bwd p.1.v.2).Nodup := by
      have hfst : F.zipIdx.map (fun p => bwd p.1.v.2) = F.map fun x => bwd x.v.2 := by
        conv_rhs => rw [← List.zipIdx_map_fst 0 F, List.map_map]
        rfl
      rw [hfst, (hperm.map _).nodup_iff, List.map_map]
      refine List.Nodup.map_on (fun x hx y hy h => ?_) List.nodup_range
      have hx := List.mem_range.1 hx
      have hy := List.mem_range.1 hy
      exact hvals.inj hx hy (hbwd _ (hvals.lt hx) _ (hvals.lt hy) h)
    exact (foldl_update_eq (fun p : TaggedT (Nat × Nat) × Nat => bwd p.1.v.2)
      (fun p => (p.1.v.1, p.2)) hkeys _).1 (x, l) (List.mem_zipIdx_iff_getElem?.2 hx)

/-! ## The two pairings -/

theorem associate_pairs (k : Nat) : Pairs (· < 2 * k) (associate k) where
  mem x hx := by
    unfold associate
    split <;> omega
  invol x hx := by
    unfold associate
    split <;> split <;> omega
  ne x hx := by
    unfold associate
    split <;> omega

/-- The position whose value is the associate of the value of `x`. -/
def partner (k : Nat) (pi : Nat → Nat) (bwd : Nat → BitVec 64) (rev : BitVec 64 → Nat × Nat)
    (x : Nat) : Nat :=
  (rev (bwd (associate k (pi x)))).1

section Walk

variable {k : Nat} {pi : Nat → Nat} {fwd bwd : Nat → BitVec 64} {F : ForwardLookUp}
  {rev : BitVec 64 → Nat × Nat} (hT : Tables (2 * k) pi fwd bwd F rev) (hV : Values (2 * k) pi)

include hT

/-- Different entries are about different positions. -/
theorem Tables.index_inj {l l' : Nat} {x x' : TaggedT (Nat × Nat)} (hx : F[l]? = some x)
    (hx' : F[l']? = some x') (heq : x.v.1 = x'.v.1) : l = l' := by
  have htag : x = x' := by
    rw [(hT.entry l x hx).2, (hT.entry l' x' hx').2, heq]
  subst htag
  rcases Nat.lt_trichotomy l l' with h | h | h
  · have := hT.sorted l l' x x hx hx' h
    rw [BitVec.ult_iff_lt, BitVec.lt_def] at this
    omega
  · exact h
  · have := hT.sorted l' l x x hx' hx h
    rw [BitVec.ult_iff_lt, BitVec.lt_def] at this
    omega

include hV

/-- The reverse table finds the partner. -/
theorem Tables.partner_spec {x : Nat} (hx : x < 2 * k) :
    partner k pi bwd rev x < 2 * k ∧ pi (partner k pi bwd rev x) = associate k (pi x) ∧
      ∃ (l : Nat) (y : TaggedT (Nat × Nat)), F[l]? = some y ∧ y.v.1 = partner k pi bwd rev x ∧
        rev (bwd (associate k (pi x))) = (partner k pi bwd rev x, l) := by
  obtain ⟨y, hy, hpi⟩ := hV.exists ((associate_pairs k).mem _ (hV.lt hx))
  obtain ⟨l, hl⟩ := hT.find y hy
  have hrev := hT.reverse l _ hl
  rw [hpi] at hrev
  have hpartner : partner k pi bwd rev x = y := by rw [partner, hrev]
  rw [hpartner]
  exact ⟨hy, hpi, l, _, hl, rfl, hrev⟩

theorem Tables.partner_pairs : Pairs (· < 2 * k) (partner k pi bwd rev) where
  mem x hx := (hT.partner_spec hV hx).1
  invol x hx := by
    have h := hT.partner_spec hV hx
    have h' := hT.partner_spec hV h.1
    refine hV.inj h'.1 hx ?_
    rw [h'.2.1, h.2.1, (associate_pairs k).invol _ (hV.lt hx)]
  ne x hx heq := by
    have h := (hT.partner_spec hV hx).2.1
    rw [heq] at h
    exact (associate_pairs k).ne _ (hV.lt hx) h.symm

end Walk

/-! ## Marking positions -/

/-- The entries of the table whose positions are visited. -/
def selOf (F : ForwardLookUp) (vis : List Nat) (l : Nat) : Bool :=
  match F[l]? with
  | some x => decide (x.v.1 ∈ vis)
  | none => false

/-- The counts when `vis` is visited. -/
structure Counts (F : ForwardLookUp) (vis : List Nat) (U : List Nat) : Prop where
  length : U.length = F.length
  tree : CountTree (selOf F vis) U 0 F.length
  last : U[F.length - 1]? = some (unselected (selOf F vis) 0 F.length)

theorem Counts.congr {F : ForwardLookUp} {vis vis' U : List Nat} (h : Counts F vis U)
    (hvis : ∀ x, x ∈ vis' ↔ x ∈ vis) : Counts F vis' U := by
  have hsel : selOf F vis' = selOf F vis := by
    funext l
    unfold selOf
    split
    · simp only [hvis]
    · rfl
  exact ⟨h.length, hsel ▸ h.tree, hsel ▸ h.last⟩

theorem counts_create {F : ForwardLookUp} (hF : 2 ≤ F.length) :
    Counts F [] (createUnselectedCounts F.length) := by
  have hsel : selOf F [] = fun _ => false := by
    funext l
    unfold selOf
    split
    · exact decide_eq_false List.not_mem_nil
    · rfl
  obtain ⟨htree, hlen, hlast⟩ := createUnselectedCounts_spec (show 1 ≤ F.length by omega)
  refine ⟨hlen, hsel ▸ htree, ?_⟩
  rw [hlast, hsel]
  congr 1
  exact (List.length_range.symm.trans (List.countP_eq_length.2 fun _ _ => rfl).symm)

section Walk

variable {k : Nat} {pi : Nat → Nat} {fwd bwd : Nat → BitVec 64} {F : ForwardLookUp}
  {rev : BitVec 64 → Nat × Nat} (hT : Tables (2 * k) pi fwd bwd F rev) (hV : Values (2 * k) pi)

include hT

/-- Marking the entry of a position. -/
theorem Tables.dec {l : Nat} {x : TaggedT (Nat × Nat)} {vis U : List Nat} (hx : F[l]? = some x)
    (hc : Counts F vis U) (hnew : x.v.1 ∉ vis) :
    ∃ U', decUnselectedCounts 0 F.length l U = some U' ∧ Counts F (x.v.1 :: vis) U' := by
  have hl : l < F.length := (List.getElem?_eq_some_iff.1 hx).1
  have hsel : selOf F vis l = false := by
    rw [selOf, hx]
    exact decide_eq_false hnew
  have hselect : selOf F (x.v.1 :: vis) = select (selOf F vis) l := by
    funext i
    by_cases hi : i = l
    · subst hi
      simp [selOf, select, hx]
    · rw [select_ne hi]
      cases hy : F[i]? with
      | none => simp [selOf, hy]
      | some y =>
        have hne : y.v.1 ≠ x.v.1 := fun heq => hi (hT.index_inj hy hx heq)
        simp [selOf, hy, hne]
  obtain ⟨U', hrun, hlen, htree, hlast, -⟩ := decUnselectedCounts_spec hl
    (show 0 + F.length ≤ U.length by rw [hc.length]; omega) hc.tree
    (show selOf F vis (0 + l) = false by rwa [Nat.zero_add])
  rw [Nat.zero_add] at htree hlast
  refine ⟨U', hrun, hlen.trans hc.length, hselect ▸ htree, ?_⟩
  rw [hlast, hc.last, hselect, Option.map_some,
    ← unselected_select hsel (Nat.zero_le l) (show l < 0 + F.length by omega), Nat.add_sub_cancel]

include hV

/-- One step of the walk, once the search has found the entry of a position that is left. -/
theorem Tables.visit_found {R : Random} {call draw f l : Nat} {b : Bool} {vis U : List Nat}
    {x : TaggedT (Nat × Nat)} (hbwd : R.backwardPrp call = bwd) (hc : Counts F vis U)
    (hrun : ∀ u, U[F.length - 1]? = some u → forwardOrRandLoop F U
      (R.forwardPrp call f) b F.length 0 (F.length - 1) (R.uniformRandom draw u) = some l)
    (hx : F[l]? = some x) (hnew : x.v.1 ∉ vis) (hpnew : partner k pi bwd rev x.v.1 ∉ vis) :
    ∃ U', visit R call draw k F rev f b U = some (x.v.1, partner k pi bwd rev x.v.1, U') ∧
      Counts F (partner k pi bwd rev x.v.1 :: x.v.1 :: vis) U' := by
  obtain ⟨hlt, hentry⟩ := hT.entry l x hx
  have hpi : x.v.2 = pi x.v.1 := by rw [hentry]
  obtain ⟨hplt, -, l₂, y, hy, hy1, hrev⟩ := hT.partner_spec hV hlt
  obtain ⟨U₁, hU₁, hc₁⟩ := hT.dec hx hc hnew
  have hne : partner k pi bwd rev x.v.1 ∉ x.v.1 :: vis := by
    rw [List.mem_cons, not_or]
    exact ⟨(hT.partner_pairs hV).ne _ hlt, hpnew⟩
  rw [← hy1] at hne
  obtain ⟨U₂, hU₂, hc₂⟩ := hT.dec hy hc₁ hne
  refine ⟨U₂, ?_, hy1 ▸ hc₂⟩
  unfold visit
  simp only [hc.last, hrun _ hc.last, hx, hU₁, hpi, hbwd, hrev, hU₂, Option.bind_eq_bind,
    Option.bind_some]

/-- A step of the walk to a given position. -/
theorem Tables.visit_at {R : Random} {call f : Nat} (draw : Nat) {vis U : List Nat}
    (hfwd : R.forwardPrp call = fwd) (hbwd : R.backwardPrp call = bwd) (hc : Counts F vis U)
    (hf : f < 2 * k) (hnew : f ∉ vis) (hpnew : partner k pi bwd rev f ∉ vis) :
    ∃ U', visit R call draw k F rev f false U = some (f, partner k pi bwd rev f, U') ∧
      Counts F (partner k pi bwd rev f :: f :: vis) U' := by
  obtain ⟨l, hl⟩ := hT.find f hf
  refine hT.visit_found hV hbwd hc (fun u _ => ?_) hl hnew hpnew
  have hlt := (List.getElem?_eq_some_iff.1 hl).1
  have htag : forwardOrRandLoop F U (fwd f) false F.length 0 (0 + F.length - 1)
      (R.uniformRandom draw u) = some l :=
    forwardOrRandLoop_tag (Nat.le_refl F.length) (Nat.zero_le l) (by omega) (by omega) hc.length
      hT.sorted hl
  rw [Nat.zero_add] at htag
  rw [hfwd]
  exact htag

/-- A step of the walk to a random position, when some are left. -/
theorem Tables.visit_random {R : Random} {call f : Nat} (draw : Nat) {vis U : List Nat}
    (hbwd : R.backwardPrp call = bwd) (hdraw : ∀ draw u, 0 < u → R.uniformRandom draw u < u)
    (hc : Counts F vis U) (hleft : ∃ y < 2 * k, y ∉ vis)
    (hpnew : ∀ x < 2 * k, x ∉ vis → partner k pi bwd rev x ∉ vis) :
    ∃ x < 2 * k, x ∉ vis ∧ ∃ U',
      visit R call draw k F rev f true U = some (x, partner k pi bwd rev x, U') ∧
        Counts F (partner k pi bwd rev x :: x :: vis) U' := by
  obtain ⟨y, hy, hyvis⟩ := hleft
  obtain ⟨ly, hly⟩ := hT.find y hy
  have hlty := (List.getElem?_eq_some_iff.1 hly).1
  have hpos : 0 < unselected (selOf F vis) 0 F.length := by
    refine unselected_pos (Nat.zero_le ly) (by omega) ?_
    rw [selOf, hly]
    exact decide_eq_false hyvis
  obtain ⟨l, hl, -, hlt, hsel, -⟩ := forwardOrRandLoop_random (h := R.forwardPrp call f)
    (show 1 ≤ F.length by omega) (Nat.le_refl F.length) (show 0 + F.length ≤ F.length by omega)
    hc.tree (hdraw draw _ hpos)
  rw [Nat.zero_add] at hl hlt
  have hx := List.getElem?_eq_getElem hlt
  have hnew : (F.get ⟨l, hlt⟩).v.1 ∉ vis := by
    rw [selOf, hx] at hsel
    exact of_decide_eq_false hsel
  have hxlt := (hT.entry l _ hx).1
  refine ⟨_, hxlt, hnew, hT.visit_found hV hbwd hc (fun u hu => ?_) hx hnew (hpnew _ hxlt hnew)⟩
  rw [hc.last] at hu
  cases hu
  exact hl

/-! ## The loop -/

/-- The control bit of the switch of a position. -/
def bitOf (k f : Nat) : TaggedT Bool :=
  ⟨BitVec.ofNat 64 (f - if f ≥ k then k else 0), decide (f ≥ k)⟩

/-- The walk after it has come to the positions `tops`. -/
structure WalkInv (k : Nat) (pi : Nat → Nat) (bwd : Nat → BitVec 64) (F : ForwardLookUp)
    (rev : BitVec 64 → Nat × Nat) (tops : List Nat) (w : Walk) : Prop where
  walked : ∃ s < 2 * k, w.f = associate k s ∧
    Walked (· < 2 * k) (associate k) (partner k pi bwd rev) tops w.c s
  counts : Counts F (visited (partner k pi bwd rev) tops) w.U
  first : tops.head? = some (k - 1)
  bits : w.bits = tops.tail.map (bitOf k)

omit hT hV in
/-- Fewer than `k` positions and their partners are not all. -/
theorem exists_left {q : Nat → Nat} {tops : List Nat} (h : tops.length < k) :
    ∃ y < 2 * k, y ∉ visited q tops := by
  by_contra hall
  have hsub : List.range (2 * k) ⊆ visited q tops := fun y hy => by
    by_contra hnot
    exact hall ⟨y, List.mem_range.1 hy, hnot⟩
  have hle := (List.subperm_of_subset List.nodup_range hsub).length_le
  rw [visited, List.length_append, List.length_map, List.length_range] at hle
  omega

/-- **One round** comes to one more position. -/
theorem Tables.walkStep_inv {R : Random} {call : Nat} (draw : Nat) {tops : List Nat} {w : Walk}
    (hfwd : R.forwardPrp call = fwd) (hbwd : R.backwardPrp call = bwd)
    (hdraw : ∀ draw u, 0 < u → R.uniformRandom draw u < u) (hlen : tops.length < k)
    (h : WalkInv k pi bwd F rev tops w) :
    ∃ f w', walkStep R call draw k F rev w = some w' ∧ WalkInv k pi bwd F rev (tops ++ [f]) w' := by
  obtain ⟨s, hs, hf, hw⟩ := h.walked
  have hq := hT.partner_pairs hV
  have hp := associate_pairs k
  have hvis : ∀ f : Nat, ∀ x, x ∈ visited (partner k pi bwd rev) (tops ++ [f]) ↔
      x ∈ partner k pi bwd rev f :: f :: visited (partner k pi bwd rev) tops :=
    fun f x => (visited_concat_perm f).mem_iff
  have hne : tops ≠ [] := List.ne_nil_of_mem hw.start
  have hfirst : ∀ f, (tops ++ [f]).head? = some (k - 1) := fun f => by
    rw [List.head?_append_of_ne_nil _ hne]
    exact h.first
  have hbits : ∀ f, w.bits ++ [bitOf k f] = (tops ++ [f]).tail.map (bitOf k) := fun f => by
    rw [List.tail_append_of_ne_nil hne, List.map_append, h.bits]
    rfl
  by_cases hclosed : associate k s = w.c
  · have hb : (w.f == w.c) = true := beq_iff_eq.2 (hf.trans hclosed)
    obtain ⟨x, hx, hnew, U', hrun, hc⟩ := hT.visit_random hV draw (f := w.f) hbwd hdraw
      h.counts (exists_left hlen) fun x hx hnew => hw.partner hq hx hnew
    refine ⟨x, ⟨associate k (partner k pi bwd rev x), x, U', w.bits ++ [bitOf k x]⟩, ?_,
      ⟨partner k pi bwd rev x, hq.mem x hx, rfl,
      hw.restart hp hq hs hclosed hx hnew⟩, hc.congr (hvis x), hfirst x, hbits x⟩
    rw [walkStep, hb]
    simp only [hrun, Option.bind_eq_bind, Option.bind_some, if_true, bitOf]
  · have hb : (w.f == w.c) = false := beq_eq_false_iff_ne.2 fun heq => hclosed (hf.symm.trans heq)
    have hflt : w.f < 2 * k := hf ▸ hp.mem s hs
    have hnew : w.f ∉ visited (partner k pi bwd rev) tops := fun hmem =>
      hclosed (hw.closed hp hs (hf ▸ hmem))
    obtain ⟨U', hrun, hc⟩ := hT.visit_at hV draw hfwd hbwd h.counts hflt hnew
      (hw.partner hq hflt hnew)
    refine ⟨w.f, ⟨associate k (partner k pi bwd rev w.f), w.c, U', w.bits ++ [bitOf k w.f]⟩, ?_,
      ⟨partner k pi bwd rev w.f, hq.mem _ hflt, rfl, ?_⟩, hc.congr (hvis w.f),
      hfirst w.f, hbits w.f⟩
    · rw [walkStep, hb]
      simp only [hrun, Option.bind_eq_bind, Option.bind_some, Bool.false_eq_true, if_false, bitOf]
    · rw [hf]
      exact hw.next hp hq hs hclosed

/-- **The loop** comes to `count` positions more. -/
theorem Tables.walkLoop_inv {R : Random} {call : Nat} (draw : Nat) {w : Walk} {count : Nat}
    (hfwd : R.forwardPrp call = fwd) (hbwd : R.backwardPrp call = bwd)
    (hdraw : ∀ draw u, 0 < u → R.uniformRandom draw u < u) (hcount : count + 1 ≤ k)
    (h : WalkInv k pi bwd F rev [k - 1] w) :
    ∃ tops w', walkLoop R call draw k F rev count w = some w' ∧ tops.length = count + 1 ∧
      WalkInv k pi bwd F rev tops w' := by
  induction count with
  | zero => exact ⟨[k - 1], w, rfl, rfl, h⟩
  | succ i ih =>
    obtain ⟨tops, w', hrun, hlen, hinv⟩ := ih (by omega)
    obtain ⟨f, w'', hstep, hinv'⟩ := hT.walkStep_inv hV (draw + i) hfwd hbwd hdraw (by omega)
      hinv
    refine ⟨tops ++ [f], w'', ?_, by rw [List.length_append, hlen]; rfl, hinv'⟩
    rw [walkLoop, hrun]
    exact hstep

end Walk

/-! ## The control bits of the input layer -/

/-- The positions `tops` that go to the top network: one of every pair. -/
structure Split (k : Nat) (pi : Nat → Nat) (tops : List Nat) : Prop where
  first : k - 1 ∈ tops
  input : ∀ x < 2 * k, x ∈ tops ↔ associate k x ∉ tops
  output : ∀ x < 2 * k, ∀ y < 2 * k, pi y = associate k (pi x) → (x ∈ tops ↔ y ∉ tops)

/-- The switch of a position. -/
theorem bitOf_tag {k f : Nat} (hk : k ≤ 2 ^ 63) (hf : f < 2 * k) :
    (bitOf k f).tag.toNat = f - if f ≥ k then k else 0 := by
  rw [bitOf, BitVec.toNat_ofNat, Nat.mod_eq_of_lt]
  split <;> omega

/-- The positions with one switch are associates. -/
theorem bitOf_inj {k f g : Nat} (hk : k ≤ 2 ^ 63) (hf : f < 2 * k) (hg : g < 2 * k)
    (heq : (bitOf k f).tag = (bitOf k g).tag) : f = g ∨ f = associate k g := by
  have h := congrArg BitVec.toNat heq
  rw [bitOf_tag hk hf, bitOf_tag hk hg] at h
  unfold associate
  split <;> split at h <;> split at h <;> omega

section Bits

variable {k : Nat} {pi : Nat → Nat} {rest : List Nat} (hk : k ≤ 2 ^ 63)
  (hlt : ∀ x ∈ (k - 1) :: rest, x < 2 * k) (hnodup : ((k - 1) :: rest).Nodup)
  (hsplit : Split k pi ((k - 1) :: rest))

include hk hlt hnodup hsplit

/-- The walk sets every switch once. -/
theorem bits_nodup : ((rest.map (bitOf k)).map TaggedT.tag).Nodup := by
  rw [List.map_map]
  refine List.Nodup.map_on (fun f hf g hg heq => ?_) (List.nodup_cons.1 hnodup).2
  have hf := List.mem_cons_of_mem (k - 1) hf
  have hg := List.mem_cons_of_mem (k - 1) hg
  rcases bitOf_inj hk (hlt f hf) (hlt g hg) heq with h | h
  · exact h
  · exact absurd (h ▸ hf) ((hsplit.input g (hlt g hg)).1 hg)

/-- The last switch is left out. -/
theorem bits_lt {f : Nat} (hf : f ∈ rest) : (bitOf k f).tag.toNat < k - 1 := by
  have hmem := List.mem_cons_of_mem (k - 1) hf
  have hfk := hlt f hmem
  rw [bitOf_tag hk hfk]
  have hfirst := (hsplit.input _ (hlt _ List.mem_cons_self)).1 List.mem_cons_self
  have hne : f ≠ k - 1 := fun heq => (List.nodup_cons.1 hnodup).1 (heq ▸ hf)
  have hne' : f ≠ associate k (k - 1) := fun heq => hfirst (heq ▸ hmem)
  unfold associate at hne'
  split <;> split at hne' <;> omega

/-- The sorted control bits are those of the switches `0, …, k - 2`. -/
theorem sortedBits_getElem? (hlen : rest.length = k - 1) {p : Nat} (hp : p < k - 1) :
    ((bitonicSortList (fun a b => a.tag.ult b.tag) (rest.map (bitOf k))).map TaggedT.v)[p]? =
      some (decide (p + k ∈ (k - 1) :: rest)) := by
  have hperm := bitonicSortList_perm (fun a b : TaggedT Bool => a.tag.ult b.tag)
    (rest.map (bitOf k))
  have hsorted := tagSort_increasing (by rw [List.length_map]; omega)
    (bits_nodup hk hlt hnodup hsplit)
  generalize bitonicSortList (fun a b => a.tag.ult b.tag) (rest.map (bitOf k)) = sorted
    at hperm hsorted
  have hslen : sorted.length = k - 1 := by rw [hperm.length_eq, List.length_map, hlen]
  -- `k - 1` different numbers below `k - 1` in increasing order
  have htags : sorted.map (fun x => x.tag.toNat) = List.range (k - 1) := by
    have hpw : List.Pairwise (· < ·) (sorted.map fun x => x.tag.toNat) :=
      List.pairwise_map.2 hsorted
    refine List.Perm.eq_of_pairwise (fun a b _ _ h h' => absurd h (Nat.lt_asymm h')) hpw
      List.pairwise_lt_range ?_
    refine (List.subperm_of_subset (hpw.imp Nat.ne_of_lt) fun t ht => ?_).perm_of_length_le
      (by simp [hslen])
    obtain ⟨x, hx, rfl⟩ := List.mem_map.1 ht
    obtain ⟨f, hf, rfl⟩ := List.mem_map.1 (hperm.mem_iff.1 hx)
    exact List.mem_range.2 (bits_lt hk hlt hnodup hsplit hf)
  have hp' : p < sorted.length := by omega
  have htag : (sorted.get ⟨p, hp'⟩).tag.toNat = p := by
    have := congrArg (fun l : List Nat => l[p]?) htags
    simpa [List.getElem?_range hp, List.getElem?_eq_getElem hp'] using this
  obtain ⟨f, hf, hfp⟩ := List.mem_map.1 (hperm.mem_iff.1 (List.get_mem sorted ⟨p, hp'⟩))
  have hmem := List.mem_cons_of_mem (k - 1) hf
  have hfk := hlt f hmem
  rw [List.getElem?_map, List.getElem?_eq_getElem hp', Option.map_some]
  rw [← hfp, bitOf_tag hk hfk] at htag
  change some (sorted.get ⟨p, hp'⟩).v = _
  rw [← hfp]
  congr 1
  refine decide_eq_decide.2 ⟨fun hge => ?_, fun hmem' => ?_⟩
  · rw [if_pos hge] at htag
    rwa [show p + k = f by omega]
  · by_contra hlt'
    rw [if_neg hlt', Nat.sub_zero] at htag
    have := (hsplit.input f hfk).1 hmem
    rw [associate, if_pos (by omega), htag] at this
    exact this hmem'

end Bits

/-- What a run may take at random: PRPs that are injective on the positions, and draws in range. -/
structure Random.Ideal (R : Random) (m : Nat) : Prop where
  forward : ∀ call, InjBelow m (R.forwardPrp call)
  backward : ∀ call, InjBelow m (R.backwardPrp call)
  draw : ∀ draw u, 0 < u → R.uniformRandom draw u < u

/-- **`InBits`** brings one position of every pair to the top. -/
theorem inBits_spec {R : Random} (drawn : Drawn) {P : List Nat} {d : Nat} {pi : Nat → Nat}
    (hn : 2 < P.length) (hP : P.length ≤ 2 ^ 62)
    (hpi : ∀ i, (P.map (· >>> d)).getD i P.length = pi i)
    (hvals : Values (2 * divRoundUp P.length 2) pi) (hR : R.Ideal (2 * divRoundUp P.length 2)) :
    ∃ C drawn' tops, inBits R drawn P d = some (C, drawn') ∧ C.length = divRoundUp P.length 2 - 1 ∧
      Split (divRoundUp P.length 2) pi tops ∧
      ∀ p < divRoundUp P.length 2 - 1, C[p]? =
        some (decide (p + divRoundUp P.length 2 ∈ tops)) := by
  have hhalf := half_bounds (show 2 ≤ P.length by omega)
  have hT := tables_create hpi hvals (by omega)
    (hR.forward drawn.calls) (hR.backward drawn.calls)
  generalize hk : divRoundUp P.length 2 = k at *
  generalize hFdef : createForwardLookUp P d (R.forwardPrp drawn.calls) = F at hT
  generalize hrev : createReverseLookUp F (R.backwardPrp drawn.calls) = rev at hT
  have hq := hT.partner_pairs hvals
  have hcounts := counts_create (F := F) (by rw [hT.length]; omega)
  obtain ⟨U, hvisit, hU⟩ := hT.visit_at hvals drawn.draws rfl rfl hcounts
    (show k - 1 < 2 * k by omega) List.not_mem_nil List.not_mem_nil
  have hstart : WalkInv k pi (R.backwardPrp drawn.calls) F rev [k - 1]
      ⟨associate k (partner k pi (R.backwardPrp drawn.calls) rev (k - 1)), k - 1, U, []⟩ :=
    ⟨⟨_, hq.mem _ (show k - 1 < 2 * k by omega), rfl, .single hq (show k - 1 < 2 * k by omega)⟩,
      hU.congr fun x => (List.Perm.swap _ _ []).mem_iff, rfl, rfl⟩
  obtain ⟨tops, w, hrun, hlen, hinv⟩ := hT.walkLoop_inv hvals (drawn.draws + 1) rfl rfl hR.draw
    (show k - 1 + 1 ≤ k by omega) hstart
  obtain ⟨s, hs, -, hw⟩ := hinv.walked
  obtain ⟨rest, rfl⟩ : ∃ rest, tops = (k - 1) :: rest := by
    have hfirst := hinv.first
    cases tops with
    | nil => exact absurd hfirst (by simp)
    | cons x rest =>
      cases hfirst
      exact ⟨rest, rfl⟩
  -- `k` positions and their partners are all there are
  have hall : ∀ x < 2 * k,
      x ∈ visited (partner k pi (R.backwardPrp drawn.calls) rev) ((k - 1) :: rest) := by
    have hsub : visited (partner k pi (R.backwardPrp drawn.calls) rev) ((k - 1) :: rest) ⊆
        List.range (2 * k) := fun x hx => by
      rcases mem_visited.1 hx with hx | hx
      · exact List.mem_range.2 (hw.dom x hx)
      · obtain ⟨y, hy, rfl⟩ := List.mem_map.1 hx
        exact List.mem_range.2 (hq.mem y (hw.dom y hy))
    have hperm := (List.subperm_of_subset hw.nodup hsub).perm_of_length_le (by
      rw [visited, List.length_append, List.length_map, List.length_range, hlen]
      omega)
    exact fun x hx => hperm.mem_iff.2 (List.mem_range.2 hx)
  have hsplit : Split k pi ((k - 1) :: rest) := by
    refine ⟨List.mem_cons_self, fun x hx => hw.transversal (associate_pairs k) hs hall hx,
      fun x hx y hy hxy => ?_⟩
    have hspec := hT.partner_spec hvals hx
    rw [hw.transversal_partner hq hall hx, hvals.inj hy hspec.1 (hxy.trans hspec.2.1.symm)]
  have hnodup : ((k - 1) :: rest).Nodup := (List.nodup_append.1 hw.nodup).1
  have hrest : rest.length = k - 1 := by
    rw [List.length_cons] at hlen
    omega
  refine ⟨_, ⟨drawn.calls + 1, drawn.draws + k⟩, (k - 1) :: rest, ?_, ?_, hsplit, fun p hp =>
    sortedBits_getElem? (by omega) hw.dom hnodup hsplit hrest hp⟩
  · rw [inBits, if_neg (by omega)]
    simp only [hk, hFdef, hrev, ← hT.length, hvisit, hrun, hinv.bits, List.tail_cons,
      Option.bind_eq_bind, Option.bind_some]
  · rw [List.length_map, (bitonicSortList_perm _ _).length_eq, List.length_map, hrest]

end EM.Algorithm.WaksOnOff
