import OblSort.Algorithm.KWayDistriSort
import OblSort.Algorithm.Proof.MergeSplitKWay
import OblSort.Algorithm.Proof.SortDef
import OblSort.Common.Proof.Utils
import OblSort.Lib.Strided
import Mathlib.Algebra.BigOperators.Group.List.Basic
import Mathlib.Algebra.Order.BigOperators.GroupWithZero.List
import Mathlib.Algebra.Order.Ring.Nat

/-!
# Routing by pivots

The destination of an element is the number of pivots below it, which is its partition. The layers
of a distribution sorter route by destinations, the most significant digit first: the layers in
memory bring to bucket `k` of their range the elements whose destination is in unit `k` of it
(`KWayDistriSortBasic_spec`), whatever the order in which they were read.

A sorter stops only at a merge-split that has `Z` or more real elements.
-/

namespace EM.Algorithm

open EM.DynamicPageVector Loop Store Strided

/-! ## Destinations -/

section Destinations

variable {α : Type}

/-- What is compared of a block: its element and its tag. -/
def Block.key (x : Block α) : α × BitVec 32 := (x.data, x.tag)

/-- The real elements of a bucket. -/
def contents (bucket : List (Block α)) : Multiset (α × BitVec 32) :=
  ((bucket.filter fun x => !x.dummyFlag).map Block.key : List (α × BitVec 32))

@[simp] theorem contents_nil : contents ([] : List (Block α)) = 0 := rfl

theorem contents_cons_real {x : Block α} (hx : x.dummyFlag = false) (xs : List (Block α)) :
    contents (x :: xs) = x.key ::ₘ contents xs := by
  rw [contents, List.filter_cons_of_pos (by simp [hx])]
  rfl

theorem contents_cons_dummy {x : Block α} (hx : x.dummyFlag = true) (xs : List (Block α)) :
    contents (x :: xs) = contents xs := by
  rw [contents, List.filter_cons_of_neg (by simp [hx])]
  rfl

theorem contents_append (xs ys : List (Block α)) :
    contents (xs ++ ys) = contents xs + contents ys := by
  rw [contents, List.filter_append, List.map_append]
  rfl

theorem contents_gather (n : Nat) (m : Nat → List (Block α)) :
    contents (gather n m) = ∑ i ∈ Finset.range n, contents (m i) := by
  induction n with
  | zero => rfl
  | succ n ih => rw [gather_succ, contents_append, ih, Finset.sum_range_succ]

variable [SortKey α]

/-- The number of pivots below an element. -/
def dest (pivots : List (Block α)) (y : α × BitVec 32) : Nat :=
  pivotMark pivots ⟨y.1, y.2, false, false⟩

theorem dest_key (pivots : List (Block α)) (x : Block α) : dest pivots x.key =
    pivotMark pivots x := rfl

theorem dest_le (pivots : List (Block α)) (y : α × BitVec 32) : dest pivots y ≤ pivots.length :=
  List.countP_le_length

/-- A property that is inherited to the left holds of a front. -/
theorem lt_countP_iff {β : Type} {p : β → Bool} {xs : List β}
    (h : xs.Pairwise fun a b => p b = true → p a = true) {j : Nat} (hj : j < xs.length) :
    j < xs.countP p ↔ p xs[j] = true := by
  induction xs generalizing j with
  | nil => simp at hj
  | cons x xs ih =>
    obtain ⟨hx, hxs⟩ := List.pairwise_cons.1 h
    by_cases hp : p x = true
    · rw [List.countP_cons_of_pos hp]
      cases j with
      | zero => simp [hp]
      | succ j => simpa using ih hxs (by simpa using hj)
    · have hnone : xs.countP p = 0 :=
        List.countP_eq_zero.2 fun y hy hpy => hp (hx y hy hpy)
      rw [List.countP_cons_of_neg hp, hnone]
      cases j with
      | zero => simp [hp]
      | succ j =>
        have hj : j < xs.length := by simpa using hj
        have hne : ¬ p xs[j] = true := fun hpy => hp (hx _ (List.getElem_mem _) hpy)
        simp [hne]

/-- Values that are all there, and how many of them have a property. -/
theorem mapM_getElem? {β : Type} {xs : List Nat} {ys : List β} {idx : Nat → Nat}
    (h : ∀ i ∈ xs, idx i < ys.length) : ∃ zs, (xs.mapM fun i => ys[idx i]?) = some zs ∧
      zs.length = xs.length ∧ ∀ (p : β → Bool) (q : Nat → Bool),
        (∀ i ∈ xs, ∀ hi : idx i < ys.length, p ys[idx i] = q i) → zs.countP p = xs.countP q := by
  induction xs with
  | nil => exact ⟨[], rfl, rfl, fun _ _ _ => rfl⟩
  | cons x xs ih =>
    obtain ⟨zs, hzs, hlen, hcount⟩ := ih fun i hi => h i (List.mem_cons_of_mem _ hi)
    have hx := h x List.mem_cons_self
    refine ⟨ys[idx x] :: zs, ?_, by simp [hlen], fun p q hpq => ?_⟩
    · rw [List.mapM_cons, hzs, List.getElem?_eq_getElem hx]
      rfl
    · rw [List.countP_cons, List.countP_cons, hpq x List.mem_cons_self hx,
        hcount p q fun i hi => hpq i (List.mem_cons_of_mem _ hi)]

variable [IsStrictWeakOrder α SortKey.Lt] (heq : SortKey.EqIsIncomp α) {pivots : List (Block α)}

include heq in
/-- Of pivots in order, those before the destination of an element are below it. -/
theorem pivot_lt_iff (hsorted : pivots.Pairwise Block.Le) (x : Block α) {j : Nat}
    (hj : j < pivots.length) : pivots[j].lt x = true ↔ j < dest pivots x.key := by
  rw [dest_key, pivotMark]
  refine (lt_countP_iff (p := fun pivot => pivot.lt x) (hsorted.imp fun {p q} hpq hq => ?_) hj).symm
  by_contra hp
  have hle : x.Le p := by simpa [Block.Le] using hp
  have := (Block.decides heq).trans _ _ _ hle hpq
  rw [Block.Le, hq] at this
  cases this

end Destinations

/-! ## Numbers -/

theorem countP_le_range' (e n : Nat) : (List.range' 1 n).countP (fun i => decide (i ≤ e)) =
    min e n := by
  induction n with
  | zero => simp
  | succ n ih =>
    rw [List.range'_1_concat, List.countP_append, ih, List.countP_singleton]
    split <;> rename_i h <;> rw [decide_eq_true_iff] at h <;> omega

/-- The borders of the `w` parts of unit `g` that are not after a destination in this unit. -/
theorem countP_borders {u w g d : Nat} (hu : 0 < u) (hw : 0 < w) (hd : d / (u * w) = g) :
    (List.range' 1 (w - 1)).countP (fun i => decide ((g * w + i) * u ≤ d)) = d / u - g * w := by
  have hdiv : d / u / w = g := by rw [Nat.div_div_eq_div_mul, hd]
  have hlow : g * w ≤ d / u := by
    rw [← hdiv]
    exact Nat.div_mul_le_self ..
  have hhigh : d / u < g * w + w := by
    have := Nat.lt_mul_div_succ (d / u) hw
    rw [hdiv, Nat.mul_comm, Nat.succ_mul] at this
    exact this
  have hiff : ∀ i, (g * w + i) * u ≤ d ↔ i ≤ d / u - g * w := fun i => by
    rw [← Nat.le_div_iff_mul_le hu]
    omega
  have hcongr : (List.range' 1 (w - 1)).countP (fun i => decide ((g * w + i) * u ≤ d)) =
      (List.range' 1 (w - 1)).countP fun i => decide (i ≤ d / u - g * w) :=
    List.countP_congr fun i _ => by simpa using hiff i
  rw [hcongr, countP_le_range']
  omega

/-! ## The state -/

namespace KWayDistriSorter

variable {α σ : Type} {S : KWayDistriSorter α}

/-- The state over a list of input elements and a list of output elements. -/
abbrev LState (α σ : Type) := State α σ (InOut α)

/-- The elements that blocks were made of, with their tags. -/
def givenKeys (s : LState α σ) : Multiset (α × BitVec 32) := (s.given.map Block.key : List _)

@[simp] theorem card_givenKeys (s : LState α σ) : (givenKeys s).card = s.given.length := by
  simp [givenKeys]

/-- The buckets all have their size. -/
def Sized (S : KWayDistriSorter α) (s : LState α σ) : Prop := ∀ p, (s.batch p).length = S.Z

/-- The pages and the output are the same. -/
structure SameRest (s s' : LState α σ) : Prop where
  vec : s'.vec = s.vec
  partitions : s'.partitions = s.partitions
  written : s'.io.written = s.io.written

theorem SameRest.refl (s : LState α σ) : SameRest s s := ⟨rfl, rfl, rfl⟩

theorem SameRest.trans {s s' s'' : LState α σ} (h : SameRest s s') (h' : SameRest s' s'') :
    SameRest s s'' :=
  ⟨h'.vec.trans h.vec, h'.partitions.trans h.partitions, h'.written.trans h.written⟩

/-! ## Tag and pad -/

/-- What padding the blocks of a bucket does: `n` elements of the input are put in it, if there are
as many. -/
structure Padded (n : Nat) (its : List (Block α)) (s : LState α σ)
    (r : List (Block α) × LState α σ) :
    Prop where
  length : r.1.length = its.length
  contents : contents r.1 + givenKeys s = givenKeys r.2
  rest : r.2.io.rest = s.io.rest.drop n
  batch : r.2.batch = s.batch
  same : SameRest s r.2

theorem readBlock_spec (it : Block α) {x : α × Nat} {rest : List (α × Nat)} {s : LState α σ}
    (hrest : s.io.rest = x :: rest) : ∃ block s', S.readBlock InOut.vector it s = .ok (block, s') ∧
      block.dummyFlag = false ∧ block.data = x.1 ∧ s'.given = s.given ++ [block] ∧
      s'.io.rest = rest ∧
      s'.batch = s.batch ∧ SameRest s s' := by
  obtain ⟨⟨rest', written⟩, inputCount, batch, allocated, vec, given, partitions⟩ := s
  subst hrest
  exact ⟨_, _, rfl, rfl, rfl, rfl, rfl, rfl, rfl, rfl, rfl⟩

theorem tagAndPad_spec (offset : Nat) (its : List (Block α)) (s : LState α σ)
    {E : Stop α σ (InOut α) → Prop} :
    Ends (Padded (min (S.numRealPerBucket - offset) its.length) its s) E
      (S.tagAndPad InOut.vector offset its s) := by
  induction its generalizing offset s with
  | nil => exact ⟨rfl, by simp, by simp, rfl, .refl s⟩
  | cons it its ih =>
    rw [tagAndPad, fillBlock]
    cases hrest : s.io.rest with
    | nil =>
      have heof : InOut.vector.eof s.io = true := by simp [InOut.vector, hrest]
      rw [if_neg (by simp [heof]), ok_bind]
      refine Ends.bind (ih (offset + 1) s) fun r hr => ?_
      refine ⟨by simp [hr.length], ?_, ?_, hr.batch, hr.same⟩
      · rw [contents_cons_dummy rfl, hr.contents]
      · rw [hr.rest, hrest, List.drop_nil, List.drop_nil]
    | cons x rest =>
      have heof : InOut.vector.eof s.io = false := by simp [InOut.vector, hrest]
      by_cases ho : offset < S.numRealPerBucket
      · rw [if_pos ⟨ho, heof⟩]
        obtain ⟨block, s', hread, hreal, -, hgiven, hrest', hbatch, hsame⟩ :=
          readBlock_spec (S := S) it hrest
        rw [hread, ok_bind]
        refine Ends.bind (ih (offset + 1) s') fun r hr => ?_
        refine ⟨by simp [hr.length], ?_, ?_, hr.batch.trans hbatch, hsame.trans hr.same⟩
        · have hkeys : givenKeys s' = givenKeys s + {block.key} := by
            rw [givenKeys, hgiven, List.map_append, ← Multiset.coe_add]
            rfl
          rw [contents_cons_real hreal, ← hr.contents, hkeys, ← Multiset.singleton_add]
          ac_rfl
        · rw [hr.rest, hrest', hrest]
          have hmin : min (S.numRealPerBucket - offset) (it :: its).length =
              min (S.numRealPerBucket - (offset + 1)) its.length + 1 := by
            rw [List.length_cons]
            omega
          rw [hmin, List.drop_succ_cons]
      · rw [if_neg fun h => ho h.1, ok_bind]
        refine Ends.bind (ih (offset + 1) s) fun r hr => ?_
        refine ⟨by simp [hr.length], ?_, ?_, hr.batch, hr.same⟩
        · rw [contents_cons_dummy rfl, hr.contents]
        · rw [hr.rest]
          congr 1
          omega

/-! ## In memory -/

/-- What a sorter relies on: a nested list of ways from 2 to 8, pivots in order between the
partitions, buckets of a power of two that hold their elements of the input, and positions that fit
into an `int`. -/
structure Valid [SortKey α] (S : KWayDistriSorter α) : Prop where
  ways_ne_nil : S.distriParams.ways ≠ []
  inner_ne_nil : ∀ ws ∈ S.distriParams.ways, ws ≠ []
  way_range : ∀ ws ∈ S.distriParams.ways, ∀ way ∈ ws, 2 ≤ way ∧ way ≤ 8
  totalPartition : S.distriParams.totalPartition = (S.distriParams.ways.map List.prod).prod
  partitionSize_pos : 0 < S.partitionSize
  totalBucket : S.numTotalBucket = S.distriParams.totalPartition * S.partitionSize
  Z : ∃ m, 1 ≤ m ∧ S.Z = 2 ^ m
  numReal : S.numRealPerBucket ≤ S.Z
  pivots_length : S.allPivots.length = S.distriParams.totalPartition - 1
  pivots_sorted : S.allPivots.Pairwise Block.Le
  small : S.numTotalBucket * S.Z < 2 ^ 31

variable [SortKey α] [IsStrictWeakOrder α SortKey.Lt] (heq : SortKey.EqIsIncomp α) (hS : S.Valid)

/-- What a merge-split of the `way` buckets at `idx` does: it brings the elements of unit `g` to
their parts of it. -/
structure RowSplit (S : KWayDistriSorter α) (u way g : Nat) (idx : Nat → Nat)
    (s s' : LState α σ) : Prop where
  batch : ∃ vals, s'.batch = putAll idx vals way s.batch ∧ ∀ i < way, (vals i).length = S.Z ∧
    contents (vals i) = unit (dest S.allPivots) u (g * way + i)
      (∑ j ∈ Finset.range way, contents (s.batch (idx j)))
  io : s'.io = s.io
  given : s'.given = s.given
  same : SameRest s s'

include heq hS in
/-- The pivots between the parts of unit `g`. -/
theorem pivotMark_borders {u way g : Nat} (hu : 0 < u) (h2 : 2 ≤ way)
    (hfit : (g * way + way) * u ≤ S.distriParams.totalPartition) (pos : Nat → Nat)
    (hpos : ∀ i < way, pos i = (g * way + i) * u) :
    ∃ pivots, ((List.range' 1 (way - 1)).mapM fun i => S.allPivots[pos i - 1]?) = some pivots ∧
      pivots.length = way - 1 ∧ ∀ x : Block α, dest S.allPivots x.key / (u * way) = g →
        g * way + pivotMark pivots x = dest S.allPivots x.key / u := by
  have hlt : ∀ i ∈ List.range' 1 (way - 1), 0 < pos i ∧ pos i - 1 < S.allPivots.length ∧
      pos i = (g * way + i) * u := fun i hi => by
    obtain ⟨h1, h2⟩ := List.mem_range'_1.1 hi
    have hlow : 1 * 1 ≤ (g * way + i) * u := Nat.mul_le_mul (by omega) hu
    have hhigh : (g * way + i + 1) * u ≤ (g * way + way) * u := Nat.mul_le_mul_right u (by omega)
    rw [Nat.succ_mul] at hhigh
    rw [hpos i (by omega), hS.pivots_length]
    omega
  obtain ⟨pivots, hpivots, hlen, hcount⟩ := mapM_getElem? fun i hi => (hlt i hi).2.1
  refine ⟨pivots, hpivots, by simp [hlen], fun x hx => ?_⟩
  have hmark : pivotMark pivots x =
      (List.range' 1 (way - 1)).countP fun i =>
        decide ((g * way + i) * u ≤ dest S.allPivots x.key) := by
    refine hcount (fun pivot => pivot.lt x) _ fun i hi hi' => Bool.eq_iff_iff.2 ?_
    obtain ⟨hpos, -, heq'⟩ := hlt i hi
    rw [pivot_lt_iff heq hS.pivots_sorted x hi', decide_eq_true_iff, ← heq']
    omega
  rw [hmark, countP_borders hu (by omega) hx]
  have hlow : g * way ≤ dest S.allPivots x.key / u := by
    rw [← hx, ← Nat.div_div_eq_div_mul]
    exact Nat.div_mul_le_self ..
  omega

omit [IsStrictWeakOrder α SortKey.Lt] in
/-- The lanes of a merge-split hold its counts. -/
theorem Valid.lanes {S : KWayDistriSorter α} (hS : S.Valid) {way : Nat}
    (h : way ≤ S.numTotalBucket) :
    (way - 1) * S.Z ≤ 2 ^ 31 := by
  calc (way - 1) * S.Z ≤ S.numTotalBucket * S.Z := Nat.mul_le_mul_right _ (by omega)
    _ ≤ 2 ^ 31 := Nat.le_of_lt hS.small

omit [IsStrictWeakOrder α SortKey.Lt] in
include hS in
/-- **One merge-split** of the `way` buckets at `idx`, whose elements belong to unit `g`. -/
theorem mergeSplitAt_spec {u way g : Nat} {idx : Nat → Nat} (h2 : 2 ≤ way) (h8 : way ≤ 8)
    (hway : way ≤ S.numTotalBucket) {pivots : List (Block α)} (hlen : pivots.length = way - 1)
    (hmark : ∀ x : Block α, dest S.allPivots x.key / (u * way) = g →
      g * way + pivotMark pivots x = dest S.allPivots x.key / u) {s : LState α σ} (hs : S.Sized s)
    (hunit : ∀ y ∈ ∑ j ∈ Finset.range way, contents (s.batch (idx j)),
      dest S.allPivots y / (u * way) = g) :
    Ends (S.RowSplit u way g idx s) (fun e => e.1 = .mergeSplit ∧ e.2.given = s.given ∧
        S.Z ≤ (∑ j ∈ Finset.range way, contents (s.batch (idx j))).card)
      (S.mergeSplitAt way pivots idx s) := by
  obtain ⟨m, hm, hZ⟩ := hS.Z
  have hr := mergeSplitKWayPivot_routed h2 h8 hm (.inr (hZ ▸ hS.lanes hway)) hlen
    (show ((List.range way).map fun i => s.batch (idx i)).length = way by simp) fun b hb => by
      obtain ⟨i, -, rfl⟩ := List.mem_map.1 hb
      exact (hs _).trans hZ
  have hsum : contents ((List.range way).map fun i => s.batch (idx i)).flatten =
      ∑ j ∈ Finset.range way, contents (s.batch (idx j)) := by
    rw [← List.flatMap_def]
    exact contents_gather way _
  rw [mergeSplitAt, hZ]
  cases hcall : mergeSplitKWayPivot way (2 ^ m) pivots ((List.range way).map fun i =>
      s.batch (idx i)) with
  | none =>
    obtain ⟨j, -, hj⟩ := hr.abort.1 hcall
    refine ⟨rfl, rfl, ?_⟩
    have hle : realMarkCount Block.dummyFlag (pivotMark pivots) j
        ((List.range way).map fun i => s.batch (idx i)).flatten ≤
        (contents ((List.range way).map fun i => s.batch (idx i)).flatten).card := by
      rw [contents, Multiset.coe_card, List.length_map, ← List.countP_eq_length_filter]
      exact List.countP_mono_left fun x _ hx => by simp at hx ⊢; exact hx.1
    rw [hsum] at hle
    split at hj <;> omega
  | some out =>
    refine ⟨⟨_, rfl, fun i hi => ⟨?_, ?_⟩⟩, rfl, rfl, rfl, rfl, rfl⟩
    · rw [(hr.length out hcall).2 i hi, hZ]
    · have hperm := Multiset.coe_eq_coe.2 (hr.reals out hcall i hi)
      rw [contents]
      refine hperm.trans ?_
      rw [← hsum] at hunit ⊢
      rw [unit, contents, Multiset.filter_coe, List.filter_map, List.filter_filter]
      refine congrArg (fun xs : List (Block α) => Multiset.ofList (xs.map Block.key))
        (List.filter_congr fun x hx => ?_)
      rw [Function.comp_apply, Bool.and_comm]
      cases hd : x.dummyFlag with
      | true => simp
      | false =>
        have hmem : x.key ∈ contents ((List.range way).map fun i => s.batch (idx i)).flatten :=
          Multiset.mem_coe.2 (List.mem_map_of_mem (List.mem_filter.2 ⟨hx, by simp [hd]⟩))
        rw [← hmark x (hunit _ hmem), decide_eq_decide.2 (Nat.add_left_cancel_iff).symm]

/-- What a computation does to the buckets of the range `begin`, `begin + st`, …: `ents` has
entered, which is what `held` says and what was read. -/
structure Step (S : KWayDistriSorter α) (ioLayer begin st reads : Nat)
    (held : Multiset (α × BitVec 32))
    (ents : Multiset (α × BitVec 32)) (s s' : LState α σ) : Prop where
  ents : ents + givenKeys s = held + givenKeys s'
  given : ioLayer ≠ 0 → s'.given = s.given
  frame : ∀ p, p % st ≠ begin → s'.batch p = s.batch p
  sized : S.Sized s'
  rest : s'.io.rest = s.io.rest.drop reads
  same : SameRest s s'

/-- A run stops at a merge-split, where `Z` or more real elements are together. -/
def StopsOn (S : KWayDistriSorter α) (held : Multiset (α × BitVec 32)) (s : LState α σ)
    (e : Stop α σ (InOut α)) : Prop :=
  e.1 = .mergeSplit ∧ S.Z + s.given.length ≤ held.card + e.2.given.length

omit [SortKey α] [IsStrictWeakOrder α SortKey.Lt] in
theorem Step.card {ioLayer begin st reads : Nat} {held ents : Multiset (α × BitVec 32)}
    {s s' : LState α σ} (h : S.Step ioLayer begin st reads held ents s s') :
    ents.card + s.given.length = held.card + s'.given.length := by
  simpa using congrArg Multiset.card h.ents

/-- The positions of the strides of a layer. -/
theorem strides_eq {ε T : Type} {stuck : T → ε} {body : Nat → Nat → T → Except ε T}
    {begin st w F : Nat} (hb : begin < st) (hw : 0 < w) (s : T) :
    forStride (· + st * w) (st * (F * w)) stuck body (st * (F * w) + 1) begin 0 s =
      forRange F (fun k => body (begin + k * (st * w)) k) s := by
  have hmul : st * (F * w) = F * (st * w) := by ring
  have hF : F ≤ F * (st * w) := Nat.le_mul_of_pos_right F (Nat.mul_pos (by omega) hw)
  have hpos : forStride (· + st * w) (st * (F * w)) stuck body (st * (F * w) + 1)
      (begin + 0 * (st * w)) 0 s = forRange F (fun k => body (begin + k * (st * w)) (0 + k)) s := by
    refine forStride_eq_forRange (fun k => begin + k * (st * w)) (fun k hk => ?_) (fun k _ => ?_) ?_
      (by omega) 0 s
    · have hk' := Nat.mul_le_mul_right (st * w) (show k + 1 ≤ F from hk)
      have hle : st ≤ st * w := Nat.le_mul_of_pos_right st hw
      rw [Nat.succ_mul] at hk'
      omega
    · rw [Nat.succ_mul]
      omega
    · omega
  simpa using hpos

omit [IsStrictWeakOrder α SortKey.Lt] in
include hS in
theorem Valid.totalPartition_le : S.distriParams.totalPartition ≤ S.numTotalBucket := by
  rw [hS.totalBucket]
  exact Nat.le_mul_of_pos_right _ hS.partitionSize_pos

omit [IsStrictWeakOrder α SortKey.Lt] in
include hS in
theorem Valid.totalPartition_pos : 0 < S.distriParams.totalPartition := by
  rw [hS.totalPartition]
  exact prod_pos_of_nested_ways hS.way_range

include heq hS in
/-- One row of merge-splits more. -/
theorem mergeSplitStride_spec {begin st w F ps c k : Nat} {ents : Multiset (α × BitVec 32)}
    (h2 : 2 ≤ w) (h8 : w ≤ 8) (hb : begin < st) (hps : 0 < ps) (hk : k < F)
    (hfit : (c * (st * (F * w)) + st * (F * w)) * ps ≤ S.distriParams.totalPartition)
    {s : LState α σ} (hs : S.Sized s)
    (hl : Strided.LayerUpTo contents (dest S.allPivots) (ps * st)
      (c * F) begin st w F k ents s.batch) :
    Ends (S.RowSplit (ps * st) w (c * F + k) (fun j => begin + (k * w + j) * st) s)
      (fun e => e.1 = .mergeSplit ∧ e.2.given = s.given ∧ S.Z ≤ ents.card)
      (S.mergeSplitStride w ps (c * (st * (F * w))) st (begin + k * (st * w)) k s) := by
  have hrow := hl.ahead k hk (Nat.le_refl k)
  have hidx : (fun i => begin + k * (st * w) + i * st) = fun i => begin + (k * w + i) * st := by
    funext i
    ring
  have hunit : ((c * F + k) * w + w) * (ps * st) ≤ S.distriParams.totalPartition := by
    refine Nat.le_trans ?_ hfit
    calc ((c * F + k) * w + w) * (ps * st) = (c * F + (k + 1)) * (w * (ps * st)) := by ring
      _ ≤ (c * F + F) * (w * (ps * st)) := Nat.mul_le_mul_right _ (by omega)
      _ = (c * (st * (F * w)) + st * (F * w)) * ps := by ring
  have hway : w ≤ S.numTotalBucket := by
    refine Nat.le_trans (Nat.le_trans ?_ hunit) hS.totalPartition_le
    exact (Nat.le_add_left w _).trans (Nat.le_mul_of_pos_right _ (Nat.mul_pos hps (by omega)))
  obtain ⟨pivots, hpivots, hlen, hmark⟩ := pivotMark_borders heq hS (u := ps * st) (g := c * F + k)
    (Nat.mul_pos hps (by omega)) h2 hunit
    (fun i => ((k * w + i) * st + c * (st * (F * w))) * ps) fun i _ => by ring
  rw [mergeSplitStride, pivotsOf, hpivots]
  dsimp only
  rw [hidx]
  refine (mergeSplitAt_spec hS h2 h8 hway hlen hmark hs fun y hy => ?_).mono (fun _ h => h)
    fun e he => ⟨he.1, he.2.1, he.2.2.trans ?_⟩
  · rw [hrow] at hy
    exact (mem_unit.1 hy).2
  · rw [hrow]
    exact Multiset.card_le_card unit_le

include heq hS in
/-- **The merge-splits of a layer** on top of its columns. -/
theorem mergeSplitLayer_spec {ioLayer begin st w F ps c reads : Nat}
    {held ents : Multiset (α × BitVec 32)} (h2 : 2 ≤ w) (h8 : w ≤ 8) (hb : begin < st)
    (hps : 0 < ps) (hfit : (c * (st * (F * w)) + st * (F * w)) * ps ≤ S.distriParams.totalPartition)
    {s s₁ : LState α σ} (h₁ : S.Step ioLayer begin st reads held ents s s₁)
    (hcol : ColumnsRouted contents (dest S.allPivots) (ps * st * w) (c * F) begin st w F w ents
      s₁.batch) :
    Ends (fun s' => S.Step ioLayer begin st reads held ents s s' ∧
        Strided.RangeRouted contents (dest S.allPivots) (ps * st) (c * (F * w)) begin st
          (F * w) ents s'.batch)
      (S.StopsOn held s)
      (S.mergeSplitLayer w ps (c * (st * (F * w))) st begin (st * (F * w)) s₁) := by
  rw [mergeSplitLayer, strides_eq hb (by omega)]
  refine (forRange_ends (fun k s' => S.Step ioLayer begin st reads held ents s s' ∧
    Strided.LayerUpTo contents (dest S.allPivots) (ps * st) (c * F) begin st w F k ents s'.batch)
    ⟨h₁, hcol.layer⟩ ?_).mono ?_ fun _ he => he
  · rintro k hk s₂ ⟨h₂, hl⟩
    refine (mergeSplitStride_spec heq hS h2 h8 hb hps hk hfit h₂.sized hl).mono (fun s' h' => ?_)
      fun e he => ⟨he.1, ?_⟩
    · obtain ⟨vals, hbatch, hvals⟩ := h'.batch
      refine ⟨⟨?_, fun h0 => h'.given.trans (h₂.given h0), fun p hp => ?_, fun p => ?_,
        by rw [h'.io, h₂.rest], h₂.same.trans h'.same⟩, ?_⟩
      · rw [h₂.ents, givenKeys, givenKeys, h'.given]
      · rw [hbatch, putAll_row hb hp, h₂.frame p hp]
      · rw [hbatch]
        exact putAll_forall (P := fun b : List (Block α) => b.length = S.Z) h₂.sized
          (fun i hi => (hvals i hi).1) p
      · rw [hbatch]
        exact hl.next hb hk fun i hi => (hvals i hi).2
    · have := h₂.card
      rw [he.2.1]
      omega
  · rintro s' ⟨h', hl⟩
    refine ⟨h', ?_⟩
    rw [← Nat.mul_assoc]
    exact hl.routed

/-! ## Columns -/

/-- What is in bucket `p` before a layer of pages: nothing in the first one, which reads the
input. -/
def source (ioLayer : Nat) (s : LState α σ) (p : Nat) : Multiset (α × BitVec 32) :=
  if ioLayer = 0 then 0 else contents (s.batch p)

/-- How many elements of the input are read for `n` buckets. -/
def reads (S : KWayDistriSorter α) (ioLayer n : Nat) : Nat :=
  if ioLayer = 0 then n * S.numRealPerBucket else 0

omit [SortKey α] [IsStrictWeakOrder α SortKey.Lt] in
theorem reads_add (ioLayer n k : Nat) :
    S.reads ioLayer (n + k) = S.reads ioLayer n + S.reads ioLayer k := by
  unfold reads
  split <;> simp [Nat.add_mul]

/-- A range of `F` buckets is routed in units of `u` from unit `a` on. -/
def SplitsRange (S : KWayDistriSorter α) (u a ioLayer begin st F : Nat)
    (s s' : LState α σ) : Prop :=
  ∃ ents, S.Step ioLayer begin st (S.reads ioLayer F)
      (∑ k ∈ Finset.range F, source ioLayer s (begin + k * st)) ents s s' ∧
    Strided.RangeRouted contents (dest S.allPivots) u a begin st F ents s'.batch

/-- The first `i` of `w` columns, of `F` buckets each, are routed; the others are as they were. -/
structure Fed (S : KWayDistriSorter α) (u a ioLayer begin st w F i : Nat)
    (ents : Multiset (α × BitVec 32)) (s s' : LState α σ) : Prop where
  step : S.Step ioLayer begin st (S.reads ioLayer (i * F)) (∑ j ∈ Finset.range i,
    ∑ k ∈ Finset.range F, source ioLayer s (begin + (k * w + j) * st)) ents s s'
  columns : ColumnsRouted contents (dest S.allPivots) u a begin st w F i ents s'.batch
  ahead : ∀ j, i ≤ j → j < w → ∀ k,
    s'.batch (begin + (k * w + j) * st) = s.batch (begin + (k * w + j) * st)

omit [IsStrictWeakOrder α SortKey.Lt] in
theorem Fed.start {u a ioLayer begin st w F : Nat} {s : LState α σ} (hs : S.Sized s) :
    S.Fed u a ioLayer begin st w F 0 0 s s :=
  ⟨⟨by simp, fun _ => rfl, fun _ _ => rfl, hs, by simp [reads], .refl s⟩, .zero, fun _ _ _ _ => rfl⟩

omit [SortKey α] [IsStrictWeakOrder α SortKey.Lt] in
theorem source_column {ioLayer begin st w j : Nat} {s s' : LState α σ}
    (h : ∀ k, s'.batch (begin + (k * w + j) * st) = s.batch (begin + (k * w + j) * st)) (k : Nat) :
    source ioLayer s' (begin + j * st + k * (st * w)) =
      source ioLayer s (begin + (k * w + j) * st) := by
  rw [source, source, column_eq, h k]

/-- What enters, one after the other. -/
theorem ents_add {γ : Type} {ents ents' held held' g g₁ g₂ : Multiset γ} (h : ents + g = held + g₁)
    (h' : ents' + g₁ = held' + g₂) : ents + ents' + g = held + held' + g₂ := by
  calc ents + ents' + g = ents + g + ents' := by ac_rfl
    _ = held + (ents' + g₁) := by rw [h]; ac_rfl
    _ = held + held' + g₂ := by rw [h', add_assoc]

omit [IsStrictWeakOrder α SortKey.Lt] in
/-- One column more. -/
theorem Fed.next {u a ioLayer begin st w F i : Nat} {ents : Multiset (α × BitVec 32)}
    {s s₁ s₂ : LState α σ} (h : S.Fed u a ioLayer begin st w F i ents s s₁) (hb : begin < st)
    (hi : i < w) (h' : S.SplitsRange u a ioLayer (begin + i * st) (st * w) F s₁ s₂) :
    ∃ ents, S.Fed u a ioLayer begin st w F (i + 1) ents s s₂ := by
  obtain ⟨ents', h', hr⟩ := h'
  refine ⟨ents + ents', ⟨?_, fun h0 => (h'.given h0).trans (h.step.given h0),
    fun p hp => ?_, h'.sized,
    ?_, h.step.same.trans h'.same⟩, h.columns.next hb hi hr h'.frame, fun j hj hjw k => ?_⟩
  · rw [Finset.sum_range_succ,
      Finset.sum_congr rfl fun k _ => (source_column (h.ahead i (Nat.le_refl i) hi) k).symm]
    exact ents_add h.step.ents h'.ents
  · rw [h'.frame p (ne_column hb hp i), h.step.frame p hp]
  · rw [h'.rest, h.step.rest, List.drop_drop, ← reads_add, Nat.succ_mul]
  · rw [h'.frame, h.ahead j (by omega) hjw]
    rw [column_mod hb hjw]
    intro heq
    have := row_inj hb heq
    omega

omit [IsStrictWeakOrder α SortKey.Lt] in
/-- A column at which a run stops. -/
theorem Fed.stops {u a ioLayer begin st w F i : Nat} {ents : Multiset (α × BitVec 32)}
    {s s₁ : LState α σ} (h : S.Fed u a ioLayer begin st w F i ents s s₁) (hi : i < w)
    {e : Stop α σ (InOut α)} (he : S.StopsOn
      (∑ k ∈ Finset.range F, source ioLayer s₁ (begin + i * st + k * (st * w))) s₁ e) :
    S.StopsOn (∑ k ∈ Finset.range (F * w), source ioLayer s (begin + k * st)) s e := by
  refine ⟨he.1, ?_⟩
  have hle : (∑ j ∈ Finset.range (i + 1), ∑ k ∈ Finset.range F,
      source ioLayer s (begin + (k * w + j) * st)).card ≤
      (∑ k ∈ Finset.range (F * w), source ioLayer s (begin + k * st)).card := by
    rw [sum_columns]
    refine Multiset.card_le_card (Finset.sum_le_sum_of_subset fun j hj => ?_)
    simp only [Finset.mem_range] at hj ⊢
    omega
  have hcard := h.step.card
  have hstop := he.2
  rw [Finset.sum_congr rfl fun k _ => source_column (h.ahead i (Nat.le_refl i) hi) k] at hstop
  rw [Finset.sum_range_succ, Multiset.card_add] at hle
  omega

/-! ## The layers in memory -/

omit [SortKey α] [IsStrictWeakOrder α SortKey.Lt] in
theorem padBucket_spec (hreal : S.numRealPerBucket ≤ S.Z) (p : Nat) {s : LState α σ}
    (hs : S.Sized s) {E : Stop α σ (InOut α) → Prop} :
    Ends (fun s' => ∃ bucket, s'.batch = Function.update s.batch p bucket ∧
        contents bucket + givenKeys s = givenKeys s' ∧ bucket.length = S.Z ∧
        s'.io.rest = s.io.rest.drop S.numRealPerBucket ∧ SameRest s s') E
      (S.padBucket InOut.vector p s) := by
  rw [padBucket]
  refine (tagAndPad_spec 0 (s.batch p) s).bind fun r hr => ?_
  have hrest := hr.rest
  rw [Nat.sub_zero, hs, Nat.min_eq_left hreal] at hrest
  exact ⟨r.1, by dsimp only; rw [hr.batch], hr.contents, hr.length.trans (hs p), hrest, hr.same.vec,
    hr.same.partitions, hr.same.written⟩

omit [IsStrictWeakOrder α SortKey.Lt] in
include hS in
/-- Padding the buckets of a row, one after the other. -/
theorem padBucket_fed {u begin st w i : Nat} (hb : begin < st) (hi : i < w)
    (hu : S.distriParams.totalPartition ≤ u) {ents : Multiset (α × BitVec 32)} {s s₁ : LState α σ}
    (h : S.Fed u 0 0 begin st w 1 i ents s s₁) {E : Stop α σ (InOut α) → Prop} :
    Ends (fun s₂ => ∃ ents, S.Fed u 0 0 begin st w 1 (i + 1) ents s s₂) E
      (S.padBucket InOut.vector (begin + i * st) s₁) := by
  refine (padBucket_spec hS.numReal _ h.step.sized).mono (fun s₂ h₂ => ?_) fun _ he => he
  obtain ⟨bucket, hbatch, hkeys, hlen, hrest, hsame⟩ := h₂
  refine h.next hb hi ⟨contents bucket, ⟨by simpa [source] using hkeys, fun h0 => absurd rfl h0,
    fun p hp => ?_, fun p => ?_, by
      rw [hrest, reads, if_pos rfl, Nat.one_mul], hsame⟩, fun k hk => ?_⟩
  · have hmod := column_mod hb hi 0
    rw [Nat.zero_mul, Nat.zero_add] at hmod
    rw [hbatch, Function.update_of_ne]
    rintro rfl
    exact hp hmod
  · rw [hbatch]
    by_cases hp : p = begin + i * st
    · rw [hp, Function.update_self, hlen]
    · rw [Function.update_of_ne hp, h.step.sized]
  · obtain rfl : k = 0 := by omega
    rw [hbatch, Nat.zero_mul, Nat.add_zero, Function.update_self, Nat.zero_add, unit_eq_self]
    intro y _
    have hle := dest_le S.allPivots y
    have hpos := hS.totalPartition_pos
    rw [hS.pivots_length] at hle
    exact Nat.div_eq_of_lt (by omega)

omit [SortKey α] [IsStrictWeakOrder α SortKey.Lt] in
theorem waysOf_mem {ioLayer : Nat} (hio : ioLayer < S.distriParams.ways.length) :
    S.waysOf ioLayer ∈ S.distriParams.ways := by
  rw [waysOf, List.getD_eq_getElem _ _ hio]
  exact List.getElem_mem hio

omit [IsStrictWeakOrder α SortKey.Lt] in
include hS in
/-- The buckets of a row before the first layer of merge-splits. -/
theorem padBuckets_fed {ioLayer begin st w u a : Nat} (hb : begin < st)
    (hfirst : ioLayer = 0 → a = 0 ∧ S.distriParams.totalPartition ≤ u) {s : LState α σ}
    (hs : S.Sized s)
    (hunit : ∀ k < w, ∀ y ∈ source ioLayer s (begin + k * st), dest S.allPivots y / u = a)
    {E : Stop α σ (InOut α) → Prop} :
    Ends (fun s' => ∃ ents, S.Fed u a ioLayer begin st w 1 w ents s s') E
      (S.padBuckets InOut.vector ioLayer w begin st s) := by
  rw [padBuckets]
  split
  · rename_i h0
    obtain ⟨rfl, hu⟩ := hfirst h0
    subst h0
    refine forRange_ends (fun i s' => ∃ ents, S.Fed u 0 0 begin st w 1 i ents s s')
      ⟨0, .start hs⟩ ?_
    rintro i hi s₁ ⟨ents, h⟩
    exact padBucket_fed hS hb hi hu h
  · rename_i h0
    have hsum : ∑ j ∈ Finset.range w, ∑ k ∈ Finset.range 1, source ioLayer s
      (begin + (k * w + j) * st) =
        ∑ j ∈ Finset.range w, contents (s.batch (begin + j * st)) :=
      Finset.sum_congr rfl fun j _ => by simp [source, h0]
    refine ⟨∑ j ∈ Finset.range w, contents (s.batch (begin + j * st)), ⟨by rw [hsum], fun _ => rfl,
      fun _ _ => rfl, hs, by simp [reads, h0], .refl s⟩, fun k hk => ?_, fun j hj hjw => by omega⟩
    obtain rfl : k = 0 := by omega
    simp only [Nat.zero_mul, Nat.zero_add, Nat.add_zero]
    refine (unit_eq_self fun y hy => ?_).symm
    obtain ⟨j, hj, hy⟩ := Multiset.mem_sum.1 hy
    refine hunit j (Finset.mem_range.1 hj) y ?_
    rwa [source, if_neg h0]

include heq hS in
/-- A layer of merge-splits on top of its columns. -/
theorem Fed.merge {ioLayer begin st w F ps c : Nat} {ents : Multiset (α × BitVec 32)} (h2 : 2 ≤ w)
    (h8 : w ≤ 8) (hb : begin < st) (hps : 0 < ps)
    (hfit : (c * (st * (F * w)) + st * (F * w)) * ps ≤ S.distriParams.totalPartition)
    {s s₁ : LState α σ} (h : S.Fed (ps * st * w) (c * F) ioLayer begin st w F w ents s s₁) :
    Ends (S.SplitsRange (ps * st) (c * (F * w)) ioLayer begin st (F * w) s)
      (S.StopsOn (∑ k ∈ Finset.range (F * w), source ioLayer s (begin + k * st)) s)
      (S.mergeSplitLayer w ps (c * (st * (F * w))) st begin (st * (F * w)) s₁) := by
  have hstep := h.step
  rw [← sum_columns fun q => source ioLayer s (begin + q * st), Nat.mul_comm w] at hstep
  exact (mergeSplitLayer_spec heq hS h2 h8 hb hps hfit hstep h.columns).mono
    (fun s' h' => ⟨ents, h'⟩) fun _ he => he

include heq hS in
/-- **The layers in memory** route the range they are given, whose elements belong to unit `c`. -/
theorem KWayDistriSortBasic_spec {ioLayer ps c : Nat} (hio : ioLayer < S.distriParams.ways.length)
    (hps : 0 < ps) (hfit : (c * (S.waysOf ioLayer).prod + (S.waysOf ioLayer).prod) * ps ≤
      S.distriParams.totalPartition)
    (hfirst : ioLayer = 0 → c = 0 ∧ S.distriParams.totalPartition ≤ ps * (S.waysOf ioLayer).prod)
    {innerLayer : Nat} (hin : innerLayer < (S.waysOf ioLayer).length) {begin st F : Nat}
    (hb : begin < st) (hF : F = ((S.waysOf ioLayer).take (innerLayer + 1)).prod)
    (hst : st * F = (S.waysOf ioLayer).prod) {s : LState α σ} (hs : S.Sized s)
    (hunit : ∀ k < F, ∀ y ∈ source ioLayer s (begin + k * st),
      dest S.allPivots y / (ps * (S.waysOf ioLayer).prod) = c) :
    Ends (S.SplitsRange (ps * st) (c * F) ioLayer begin st F s)
      (S.StopsOn (∑ k ∈ Finset.range F, source ioLayer s (begin + k * st)) s)
      (S.KWayDistriSortBasic InOut.vector ioLayer (S.waysOf ioLayer).prod ps
        (c * (S.waysOf ioLayer).prod) innerLayer begin st s) := by
  have hmem := waysOf_mem hio
  obtain ⟨h2, h8⟩ := hS.way_range _ hmem _ (List.getElem_mem hin)
  rw [List.prod_take_succ _ _ hin] at hF
  rw [← hst] at hfit hfirst hunit ⊢
  induction innerLayer generalizing begin st F s with
  | zero =>
    rw [KWayDistriSortBasic, List.getD_eq_getElem _ _ hin]
    generalize (S.waysOf ioLayer)[0] = way at h2 h8 hF
    obtain rfl : F = 1 * way := hF
    refine Ends.bind (padBuckets_fed hS (u := ps * st * way) (a := c * 1) hb (fun h0 => ?_) hs
      fun k hk y hy => ?_) ?_
    · obtain ⟨rfl, hle⟩ := hfirst h0
      exact ⟨rfl, by rwa [Nat.one_mul, ← Nat.mul_assoc] at hle⟩
    · have := hunit k (by omega) y hy
      rwa [Nat.one_mul, ← Nat.mul_assoc, ← Nat.mul_one c] at this
    · rintro s₁ ⟨ents, h₁⟩
      exact h₁.merge heq hS h2 h8 hb hps hfit
  | succ innerLayer ih =>
    rw [KWayDistriSortBasic, List.getD_eq_getElem _ _ hin]
    have hin' : innerLayer < (S.waysOf ioLayer).length := by omega
    obtain ⟨h2', h8'⟩ := hS.way_range _ hmem _ (List.getElem_mem hin')
    have hG := List.prod_take_succ _ _ hin'
    generalize (S.waysOf ioLayer)[innerLayer + 1] = way at h2 h8 hF
    generalize ((S.waysOf ioLayer).take (innerLayer + 1)).prod = G at hF hG
    subst hF
    have hcomm : st * (G * way) = st * way * G := by ring
    refine Ends.bind (Q := fun s' => ∃ ents,
      S.Fed (ps * st * way) (c * G) ioLayer begin st way G way ents s s') ?_ ?_
    · refine forRange_ends (fun i s' => ∃ ents,
        S.Fed (ps * st * way) (c * G) ioLayer begin st way G i ents s s') ⟨0, .start hs⟩ ?_
      rintro i hi s₁ ⟨ents, h₁⟩
      rw [hcomm] at hfirst hfit hst hunit ⊢
      refine (ih hin' hfirst hfit (column_lt hb hi) hG hst h₁.step.sized
        (fun k hk y hy => ?_) h2' h8').mono
        (fun s₂ h₂ => h₁.next hb hi ?_) fun e he => h₁.stops hi he
      · rw [source_column (h₁.ahead i (Nat.le_refl i) hi)] at hy
        refine hunit (k * way + i) ?_ y hy
        calc k * way + i < k * way + way := by omega
          _ = (k + 1) * way := (Nat.succ_mul k way).symm
          _ ≤ G * way := Nat.mul_le_mul_right way hk
      · rwa [← Nat.mul_assoc] at h₂
    · rintro s₁ ⟨ents, h₁⟩
      exact h₁.merge heq hS h2 h8 hb hps hfit

end KWayDistriSorter

end EM.Algorithm
