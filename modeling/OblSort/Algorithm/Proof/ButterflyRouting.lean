import OblSort.Algorithm.KWayButterflySort
import OblSort.Algorithm.Proof.MergeSplitKWay
import OblSort.Common.Proof.Utils
import Mathlib.Algebra.BigOperators.Group.List.Basic
import Mathlib.Algebra.Order.BigOperators.GroupWithZero.List
import Mathlib.Algebra.Order.Ring.Nat

/-!
# Routing through the butterfly network

`part F q xs` is what of `xs` a network with `F` ways brings to its bucket `q`: the elements whose
tag is `q` modulo `F`, with the tag divided by `F`. Two layers, `F` buckets wide and `w` ways,
compose to `F * w` ways (`PartsRouted.merge`); the layers in memory and the layers of pages are both
of this form.

Every statement also says when a run stops: some class of tags then has `Z` or more elements.
-/

namespace EM.Algorithm

open EM.DynamicPageVector Loop Store

/-! ## Classes of tags -/

section Part

variable {α : Type}

def part (F q : Nat) (xs : List (TaggedT α)) : List (TaggedT α) :=
  (xs.filter fun x => decide (x.realTag % F = q)).map (TaggedT.divTag F)

theorem part_perm {F q : Nat} {xs ys : List (TaggedT α)} (h : List.Perm xs ys) :
    List.Perm (part F q xs) (part F q ys) :=
  (h.filter _).map _

theorem part_gather (F q n : Nat) (f : Nat → List (TaggedT α)) :
    part F q (gather n f) = gather n fun i => part F q (f i) := by
  rw [part, gather_filter, gather_map]
  rfl

theorem part_sublist {F q : Nat} {xs ys : List (TaggedT α)} (h : xs.Sublist ys) :
    (part F q xs).Sublist (part F q ys) :=
  (h.filter _).map _

theorem TaggedT.divTag_one (x : TaggedT α) : x.divTag 1 = x := by
  have htag : (x.divTag 1).tag = x.tag := by
    apply BitVec.eq_of_toNat_eq
    rw [toNat_divTag, Nat.div_one]
    exact Nat.div_add_mod x.tag.toNat (2 ^ 63)
  exact congrArg (fun tag => ({ x with tag := tag } : TaggedT α)) htag

theorem TaggedT.divTag_divTag (F w : Nat) (x : TaggedT α) :
    (x.divTag F).divTag w = x.divTag (F * w) := by
  have htag : ((x.divTag F).divTag w).tag = (x.divTag (F * w)).tag := by
    apply BitVec.eq_of_toNat_eq
    have hlt : x.realTag / F < 2 ^ 63 :=
      (Nat.div_le_self _ _).trans_lt (Nat.mod_lt _ (Nat.two_pow_pos 63))
    rw [toNat_divTag, toNat_divTag, realTag_divTag, Nat.div_div_eq_div_mul, toNat_divTag,
      Nat.mul_add_div (Nat.two_pow_pos 63), Nat.div_eq_of_lt hlt, Nat.add_zero]
  exact congrArg (fun tag => ({ x with tag := tag } : TaggedT α)) htag

@[simp] theorem part_one (xs : List (TaggedT α)) : part 1 0 xs = xs := by
  rw [part, List.filter_eq_self.2 fun x _ => by simp [Nat.mod_one],
    List.map_congr_left fun x _ => TaggedT.divTag_one x, List.map_id']

/-- The classes of a class. -/
theorem part_part {F w j i : Nat} (hj : j < F) (xs : List (TaggedT α)) :
    part w i (part F j xs) = part (F * w) (j + F * i) xs := by
  have hclass : ∀ t : Nat, (t % F = j ∧ t / F % w = i) ↔ t % (F * w) = j + F * i := fun t => by
    rw [Nat.mod_mul]
    constructor
    · rintro ⟨rfl, rfl⟩
      rfl
    · intro h
      have h1 := Nat.mod_lt t (show 0 < F by omega)
      have hmod := congrArg (· % F) h
      simp only [Nat.add_mul_mod_self_left, Nat.mod_mod, Nat.mod_eq_of_lt hj] at hmod
      refine ⟨hmod, ?_⟩
      rw [hmod] at h
      exact Nat.eq_of_mul_eq_mul_left (show 0 < F by omega) (Nat.add_left_cancel h)
  rw [part, part, part, List.filter_map, List.filter_filter, List.map_map]
  have hfilter : (xs.filter fun x => ((fun x => decide (x.realTag % w = i)) ∘ TaggedT.divTag F) x &&
      decide (x.realTag % F = j)) = xs.filter fun x => decide
        (x.realTag % (F * w) = j + F * i) := by
    refine List.filter_congr fun x _ => ?_
    rw [Function.comp_apply, TaggedT.realTag_divTag, Bool.and_comm, ← Bool.decide_and]
    exact decide_eq_decide.2 (hclass x.realTag)
  rw [hfilter]
  exact List.map_congr_left fun x _ => TaggedT.divTag_divTag F w x

/-- Some class of tags has `Z` or more elements. -/
def Overfull (Z : Nat) (xs : List (TaggedT α)) : Prop := ∃ M ≥ 2, ∃ r, Z ≤ (part M r xs).length

theorem Overfull.of_sublist {Z : Nat} {xs ys : List (TaggedT α)} (h : Overfull Z xs)
    (hs : xs.Sublist ys) : Overfull Z ys := by
  obtain ⟨M, hM, r, hr⟩ := h
  exact ⟨M, hM, r, hr.trans (part_sublist hs).length_le⟩

theorem Overfull.of_perm {Z : Nat} {xs ys : List (TaggedT α)} (h : Overfull Z xs)
    (hp : List.Perm xs ys) : Overfull Z ys := by
  obtain ⟨M, hM, r, hr⟩ := h
  exact ⟨M, hM, r, hr.trans (part_perm hp).length_eq.le⟩

theorem Overfull.of_part {Z F j : Nat} {xs : List (TaggedT α)} (h : Overfull Z (part F j xs))
    (hj : j < F) : Overfull Z xs := by
  obtain ⟨M, hM, r, hr⟩ := h
  rw [part_part hj] at hr
  exact ⟨F * M, hM.trans (Nat.le_mul_of_pos_left M (by omega)), _, hr⟩

end Part

/-! ## One merge-split -/

section MergeSplit

variable {α : Type} {k m : Nat}

/-- A merge-split brings the elements of each class to its bucket, or stops at a class with `Z` or
more elements. -/
theorem mergeSplitKWay_part (h2 : 2 ≤ k) (h8 : k ≤ 8) (hm : 1 ≤ m)
    (hlane : k = 2 ∨ (k - 1) * 2 ^ m ≤ 2 ^ 31) {f : Nat → List (TaggedT α)}
    (hf : ∀ i < k, (f i).length = 2 ^ m) :
    (mergeSplitKWay k (2 ^ m) ((List.range k).map f) = none →
      ∃ i < k, 2 ^ m ≤ (part k i (gather k fun i => reals (f i))).length) ∧
    ∀ out, mergeSplitKWay k (2 ^ m) ((List.range k).map f) = some out → ∀ i < k,
      (out.getD i []).length = 2 ^ m ∧
        List.Perm (reals (out.getD i [])) (part k i (gather k fun i => reals (f i))) := by
  have hz : ∀ b ∈ (List.range k).map f, b.length = 2 ^ m := fun b hb => by
    obtain ⟨i, hi, rfl⟩ := List.mem_map.1 hb
    exact hf i (List.mem_range.1 hi)
  have hr := mergeSplitKWay_routed h2 h8 hm hlane (by simp) hz
  have hclass : ∀ i, ((List.range k).map f).flatten.filter
      (fun x => !x.isDummy && decide (x.realTag % k = i)) =
      (gather k fun i => reals (f i)).filter fun x => decide (x.realTag % k = i) := fun i => by
    rw [← List.flatMap_def]
    change (gather k f).filter _ = _
    rw [gather_filter, gather_filter]
    refine gather_congr fun j _ => ?_
    rw [reals, List.filter_filter]
    exact List.filter_congr fun x _ => Bool.and_comm _ _
  refine ⟨fun hnone => ?_, fun out hout i hi => ⟨(hr.length out hout).2 i hi, ?_⟩⟩
  · obtain ⟨i, hi, hover⟩ := hr.abort.1 hnone
    refine ⟨i, hi, ?_⟩
    rw [realMarkCount, List.countP_eq_length_filter, hclass] at hover
    rw [part, List.length_map]
    split at hover <;> omega
  · have := hr.reals out hout i hi
    rwa [List.map_id, hclass] at this

end MergeSplit

/-! ## Layers of a store of buckets -/

section Layers

variable {α : Type} {begin way wb F i n : Nat} {f : Nat → List (TaggedT α)}
  {m m₁ m₂ : Nat → List (TaggedT α)}

/-- After the first `n` merge-splits of a layer: bucket `j` of each of the `way` parts of `wb`
buckets has been merged and split, for `j < n`. -/
structure LayerUpTo (begin way wb n : Nat) (m m' : Nat → List (TaggedT α)) : Prop where
  routed : ∀ i < way, ∀ j < n, List.Perm (reals (m' (begin + i * wb + j)))
    (part way i (gather way fun i => reals (m (begin + i * wb + j))))
  frame : ∀ p, (∀ i < way, ∀ j < n, p ≠ begin + i * wb + j) → m' p = m p

theorem LayerUpTo.zero : LayerUpTo begin way wb 0 m m :=
  ⟨fun _ _ j hj => absurd hj (by omega), fun _ _ => rfl⟩

theorem LayerUpTo.old (h : LayerUpTo begin way wb n m m₁) (hn : n < wb) (i : Nat) :
    m₁ (begin + i * wb + n) = m (begin + i * wb + n) :=
  h.frame _ fun i' _ j' hj' heq => by
    have := (grid_inj hn (by omega) heq).2
    omega

theorem LayerUpTo.next (h : LayerUpTo begin way wb n m m₁) (hn : n < wb)
    {vals : Nat → List (TaggedT α)} (hvals : ∀ i < way, List.Perm (reals (vals i))
      (part way i (gather way fun i => reals (m (begin + i * wb + n))))) :
    LayerUpTo begin way wb (n + 1) m (putAll (fun i => begin + i * wb + n) vals way m₁) where
  routed i hi j hj := by
    by_cases hjn : j = n
    · subst hjn
      rw [putAll_idx (fun i _ i' _ heq => (grid_inj hn hn heq).1) hi]
      exact hvals i hi
    · rw [putAll_of_ne fun i' _ heq => hjn (grid_inj hn (by omega) heq).2.symm]
      exact h.routed i hi j (by omega)
  frame p hp := by
    rw [putAll_of_ne fun i hi heq => hp i hi n (by omega) heq.symm]
    exact h.frame p fun i hi j hj => hp i hi j (by omega)

/-- A range of `n` buckets has been routed, where `f q` enters bucket `q`. -/
structure RangeRouted (f : Nat → List (TaggedT α)) (begin n : Nat)
    (m m' : Nat → List (TaggedT α)) : Prop where
  routed : ∀ q < n, List.Perm (reals (m' (begin + q))) (part n q (gather n f))
  frame : ∀ p, (p < begin ∨ begin + n ≤ p) → m' p = m p

/-- The first `i` parts of `F` buckets have been routed, each on its own. -/
structure PartsRouted (f : Nat → List (TaggedT α)) (begin F i : Nat)
    (m m' : Nat → List (TaggedT α)) : Prop where
  routed : ∀ i' < i, ∀ j < F, List.Perm (reals (m' (begin + i' * F + j)))
    (part F j (gather F fun q => f (i' * F + q)))
  frame : ∀ p, (p < begin ∨ begin + i * F ≤ p) → m' p = m p

theorem PartsRouted.zero : PartsRouted f begin F 0 m m :=
  ⟨fun _ h => absurd h (by omega), fun _ _ => rfl⟩

theorem PartsRouted.next (h : PartsRouted f begin F i m m₁)
    (h' : RangeRouted (fun q => f (i * F + q)) (begin + i * F) F m₁ m₂) :
    PartsRouted f begin F (i + 1) m m₂ where
  routed i' hi' j hj := by
    by_cases hii : i' = i
    · subst hii
      exact h'.routed j hj
    · have := grid_lt (show i' < i by omega) hj
      rw [h'.frame _ (by omega)]
      exact h.routed i' (by omega) j hj
  frame p hp := by
    rw [Nat.succ_mul] at hp
    rw [h'.frame p (by omega), h.frame p (by omega)]

/-- Bucket `j` of every part holds one class of what entered. -/
theorem PartsRouted.column (h : PartsRouted f begin F way m m₁) {j : Nat} (hj : j < F) :
    List.Perm (gather way fun i => reals (m₁ (begin + i * F + j)))
      (part F j (gather (F * way) f)) := by
  rw [Nat.mul_comm, gather_mul, part_gather]
  exact gather_perm fun i hi => h.routed i hi j hj

/-- **Two layers** compose: the classes of a column on top of routed parts. -/
theorem PartsRouted.combine (h : PartsRouted f begin F way m m₁) {xs : List (TaggedT α)} {i j : Nat}
    (hj : j < F)
    (hxs : List.Perm xs (part way i (gather way fun i => reals (m₁ (begin + i * F + j))))) :
    List.Perm xs (part (F * way) (j + F * i) (gather (F * way) f)) := by
  rw [← part_part hj]
  exact hxs.trans (part_perm (h.column hj))

/-- A full layer on top of routed parts routes the whole range. -/
theorem PartsRouted.merge (hF : 0 < F) (h : PartsRouted f begin F way m m₁)
    (h' : LayerUpTo begin way F F m₁ m₂) : RangeRouted f begin (F * way) m m₂ where
  routed q hq := by
    have hj : q % F < F := Nat.mod_lt q hF
    have := h.combine hj (h'.routed _ (Nat.div_lt_of_lt_mul hq) _ hj)
    rwa [Nat.mod_add_div, Nat.add_assoc, Nat.mul_comm (q / F), Nat.div_add_mod] at this
  frame p hp := by
    rw [Nat.mul_comm F way] at hp
    have hout : ∀ i < way, ∀ j < F, p ≠ begin + i * F + j := fun i hi j hj => by
      have := grid_lt hi hj
      omega
    rw [h'.frame p hout, h.frame p hp]

end Layers

/-! ## In memory -/

/-- Parameters for an input of `N` elements: a nested list of ways from 2 to 8, whose product is the
number of buckets, and a 64-bit power of two as bucket size. -/
structure KWayButterflyParams.Valid (params : KWayButterflyParams) (N : Nat) : Prop where
  ways_ne_nil : params.ways ≠ []
  inner_ne_nil : ∀ ws ∈ params.ways, ws ≠ []
  way_range : ∀ ws ∈ params.ways, ∀ way ∈ ws, 2 ≤ way ∧ way ≤ 8
  totalBucket : params.totalBucket = (params.ways.map List.prod).prod
  Z : ∃ m, 1 ≤ m ∧ m < 64 ∧ params.Z = 2 ^ m
  real_le : divRoundUp N params.totalBucket ≤ params.Z

/-- The lanes of every merge-split hold its counts. -/
def KWayButterflyParams.LanesFit (params : KWayButterflyParams) : Prop :=
  ∀ ws ∈ params.ways, ∀ way ∈ ws, way = 2 ∨ (way - 1) * params.Z ≤ 2 ^ 31

namespace ButterflySorter

variable {α σ : Type} {S : ButterflySorter}

/-- What a sorter relies on. -/
structure Valid (S : ButterflySorter) : Prop where
  ways_ne_nil : S.KWayParams.ways ≠ []
  inner_ne_nil : ∀ ws ∈ S.KWayParams.ways, ws ≠ []
  way_range : ∀ ws ∈ S.KWayParams.ways, ∀ way ∈ ws, 2 ≤ way ∧ way ≤ 8
  totalBucket : S.KWayParams.totalBucket = (S.KWayParams.ways.map List.prod).prod
  Z : ∃ m, 1 ≤ m ∧ S.Z = 2 ^ m
  Z_le : S.Z ≤ 2 ^ 63
  numReal : S.numRealPerBucket ≤ S.Z

/-- An element of the input as the sorter tags it. -/
def tagged (p : BitVec 64 × α) : TaggedT α := TaggedT.setData p.1 p.2

theorem isDummy_tagged (p : BitVec 64 × α) : (tagged p).isDummy = false := by
  rw [TaggedT.isDummy_eq, decide_eq_false_iff_not, tagged, TaggedT.setData]
  have : (p.1 &&& 0x7fffffffffffffff#64).toNat = p.1.toNat % 2 ^ 63 := by
    rw [BitVec.toNat_and]
    exact Nat.and_two_pow_sub_one_eq_mod _ 63
  rw [this]
  omega

theorem isDummy_setDummy (x : TaggedT α) : x.setDummy.isDummy = true := by
  rw [TaggedT.isDummy_eq, decide_eq_true_iff, TaggedT.setDummy, BitVec.toNat_or]
  exact Nat.right_le_or

theorem mem_reals {x : TaggedT α} {xs : List (TaggedT α)} :
    x ∈ reals xs ↔ x ∈ xs ∧ x.isDummy = false := by
  rw [reals, List.mem_filter, Bool.not_eq_true']
  rfl

theorem reals_cons_dummy {x : TaggedT α} (hx : x.isDummy = true) (xs : List (TaggedT α)) :
    reals (x :: xs) = reals xs :=
  List.filter_cons_of_neg (by change ¬ (!x.isDummy) = true; simp [hx])

theorem reals_cons_real {x : TaggedT α} (hx : x.isDummy = false) (xs : List (TaggedT α)) :
    reals (x :: xs) = x :: reals xs :=
  List.filter_cons_of_pos (by change (!x.isDummy) = true; simp [hx])

/-- What padding a bucket does: it takes the next elements of the input, as many as it should. -/
theorem tagAndPad_spec (n offset : Nat) (bucket : List (TaggedT α))
    (reader : List (BitVec 64 × α)) :
    reals (tagAndPad n offset bucket reader).1 =
        (reader.take (min (n - offset) bucket.length)).map tagged ∧
      (tagAndPad n offset bucket reader).2 = reader.drop (min (n - offset) bucket.length) ∧
      (tagAndPad n offset bucket reader).1.length = bucket.length := by
  induction bucket generalizing offset reader with
  | nil => simp [tagAndPad, reals]
  | cons it its ih =>
    cases reader with
    | nil =>
      obtain ⟨h1, h2, h3⟩ := ih (offset + 1) []
      simp only [tagAndPad, List.length_cons, h3, h2]
      refine ⟨?_, by simp, trivial⟩
      rw [reals_cons_dummy (isDummy_setDummy it), h1, List.take_nil, List.take_nil]
    | cons p reader =>
      obtain ⟨r, data⟩ := p
      by_cases ho : offset < n
      · obtain ⟨h1, h2, h3⟩ := ih (offset + 1) reader
        have hmin : min (n - offset) (its.length + 1) = min (n - (offset + 1)) its.length + 1 := by
          omega
        simp only [tagAndPad, ho, if_true, List.length_cons, h3, h2, hmin, List.drop_succ_cons,
          List.take_succ_cons, List.map_cons, and_true]
        exact (reals_cons_real (isDummy_tagged (r, data)) _).trans (congrArg _ h1)
      · obtain ⟨h1, h2, h3⟩ := ih (offset + 1) ((r, data) :: reader)
        have hmin : min (n - offset) (its.length + 1) = 0 := by omega
        have hmin' : min (n - (offset + 1)) its.length = 0 := by omega
        rw [hmin'] at h1 h2
        simp only [tagAndPad, ho, if_false, List.length_cons, h3, h2, hmin, List.drop_zero,
          List.take_zero, List.map_nil, and_true]
        rw [reals_cons_dummy (isDummy_setDummy it)]
        exact h1

/-- The buckets all have their size. -/
def Sized (S : ButterflySorter) (s : State α σ) : Prop := ∀ p, (s.batch p).length = S.Z

/-- Nothing has been written out. -/
structure SameOutput (s s' : State α σ) : Prop where
  written : s'.written = s.written
  mergeSortRanges : s'.mergeSortRanges = s.mergeSortRanges
  lastBuckets : s'.lastBuckets = s.lastBuckets
  handed : s'.handed = s.handed

theorem SameOutput.refl (s : State α σ) : SameOutput s s := ⟨rfl, rfl, rfl, rfl⟩

theorem SameOutput.trans {s s' s'' : State α σ} (h : SameOutput s s') (h' : SameOutput s' s'') :
    SameOutput s s'' :=
  ⟨h'.written.trans h.written, h'.mergeSortRanges.trans h.mergeSortRanges,
    h'.lastBuckets.trans h.lastBuckets, h'.handed.trans h.handed⟩

/-- Only the buffer and the reader differ. -/
structure SameRest (s s' : State α σ) : Prop extends SameOutput s s' where
  vec : s'.vec = s.vec

theorem SameRest.refl (s : State α σ) : SameRest s s := ⟨.refl s, rfl⟩

theorem SameRest.trans {s s' s'' : State α σ} (h : SameRest s s') (h' : SameRest s' s'') :
    SameRest s s'' :=
  ⟨h.toSameOutput.trans h'.toSameOutput, h'.vec.trans h.vec⟩

theorem SameRest.set {s s' : State α σ} (h : SameRest s s') (reader : List (BitVec 64 × α))
    (batch : Nat → List (TaggedT α)) : SameRest s { s' with reader, batch } :=
  ⟨⟨h.written, h.mergeSortRanges, h.lastBuckets, h.handed⟩, h.vec⟩

/-- The buckets of the buffer have changed from `s` to `s'` as `R` says, and the reader is as
given. -/
structure Step (S : ButterflySorter)
    (R : (Nat → List (TaggedT α)) → (Nat → List (TaggedT α)) → Prop)
    (reader : List (BitVec 64 × α)) (s s' : State α σ) : Prop where
  batch : R s.batch s'.batch
  sized : S.Sized s'
  reader : s'.reader = reader
  rest : SameRest s s'

theorem mergeSplitLayer_spec (hZ : ∃ m, 1 ≤ m ∧ S.Z = 2 ^ m) {begin way wb : Nat} (h2 : 2 ≤ way)
    (h8 : way ≤ 8) (hlane : way = 2 ∨ (way - 1) * S.Z ≤ 2 ^ 31) {s : State α σ} (hs : S.Sized s) :
    Ends (S.Step (LayerUpTo begin way wb wb) s.reader s)
      (fun e => e.1 = .mergeSplit ∧ ∃ i < way, ∃ j < wb,
        S.Z ≤ (part way i (gather way fun i => reals (s.batch (begin + i * wb + j)))).length)
      (S.mergeSplitLayer begin way wb s) := by
  obtain ⟨m, hm, hZm⟩ := hZ
  refine forRange_ends (fun n => S.Step (LayerUpTo begin way wb n) s.reader s)
    ⟨.zero, hs, rfl, .refl s⟩ fun j hj s₁ h₁ => ?_
  obtain ⟨hnone, hsome⟩ := mergeSplitKWay_part h2 h8 hm (by rwa [← hZm])
    (show ∀ i < way, (s₁.batch (begin + i * wb + j)).length = 2 ^ m from
      fun i _ => (h₁.sized _).trans hZm)
  have hgather : (gather way fun i => reals (s₁.batch (begin + i * wb + j))) =
      gather way fun i => reals (s.batch (begin + i * wb + j)) :=
    gather_congr fun i _ => by rw [h₁.batch.old hj]
  rw [hgather, ← hZm] at hnone
  rw [hgather, ← hZm] at hsome
  rw [mergeSplitAt]
  cases hcall : mergeSplitKWay way S.Z ((List.range way).map fun i =>
      s₁.batch (begin + i * wb + j)) with
  | none =>
    obtain ⟨i, hi, hle⟩ := hnone hcall
    exact ⟨rfl, i, hi, j, hj, hle⟩
  | some out =>
    refine ⟨h₁.batch.next hj fun i hi => (hsome out hcall i hi).2, fun p => ?_, h₁.reader,
      h₁.rest.set _ _⟩
    exact putAll_forall (P := fun b : List (TaggedT α) => b.length = S.Z) h₁.sized
      (fun i hi => (hsome out hcall i hi).1) p

/-- What enters bucket `q` of the range at `begin`: the next piece of the input in the first layer
of pages, what the bucket holds in the others. -/
def source (S : ButterflySorter) (ioLayer : Nat) (s : State α σ) (begin q : Nat) :
    List (TaggedT α) :=
  if ioLayer = 0 then
    ((s.reader.drop (q * S.numRealPerBucket)).take S.numRealPerBucket).map tagged
  else reals (s.batch (begin + q))

/-- The reader after `n` buckets. -/
def readerAfter (S : ButterflySorter) (ioLayer n : Nat) (s : State α σ) : List (BitVec 64 × α) :=
  if ioLayer = 0 then s.reader.drop (n * S.numRealPerBucket) else s.reader

/-- What is left to enter after `n` buckets is what enters the later ones. -/
theorem source_shift {ioLayer begin n : Nat} {s s' : State α σ}
    (hreader : s'.reader = S.readerAfter ioLayer n s)
    (hframe : ioLayer ≠ 0 → ∀ p, begin + n ≤ p → s'.batch p = s.batch p) :
    S.source ioLayer s' (begin + n) = fun q => S.source ioLayer s begin (n + q) := by
  funext q
  rw [source, source]
  by_cases h0 : ioLayer = 0
  · rw [if_pos h0, if_pos h0, hreader, readerAfter, if_pos h0, List.drop_drop, Nat.add_mul]
  · rw [if_neg h0, if_neg h0, hframe h0 _ (by omega), Nat.add_assoc]

theorem readerAfter_shift {ioLayer n : Nat} {s s' : State α σ}
    (hreader : s'.reader = S.readerAfter ioLayer n s) (k : Nat) :
    S.readerAfter ioLayer k s' = S.readerAfter ioLayer (n + k) s := by
  simp only [readerAfter] at hreader ⊢
  by_cases h0 : ioLayer = 0
  · rw [if_pos h0] at hreader ⊢
    rw [if_pos h0, hreader, List.drop_drop, ← Nat.add_mul]
  · rw [if_neg h0] at hreader ⊢
    rw [if_neg h0, hreader]

/-- The first `i` parts of `F` buckets are routed, each on its own. -/
def Fed (S : ButterflySorter) (ioLayer begin F : Nat) (s : State α σ) (i : Nat) :
    State α σ → Prop :=
  S.Step (PartsRouted (S.source ioLayer s begin) begin F i) (S.readerAfter ioLayer (i * F) s) s

theorem Fed.start {ioLayer begin F : Nat} {s : State α σ} (hs : S.Sized s) :
    S.Fed ioLayer begin F s 0 s :=
  ⟨.zero, hs, by simp [readerAfter], .refl s⟩

/-- A range of `n` buckets is routed. -/
def RoutesRange (S : ButterflySorter) (ioLayer begin n : Nat) (s : State α σ) :
    State α σ → Prop :=
  S.Step (RangeRouted (S.source ioLayer s begin) begin n) (S.readerAfter ioLayer n s) s

theorem Fed.source_eq {ioLayer begin F i : Nat} {s s' : State α σ}
    (h : S.Fed ioLayer begin F s i s') :
    S.source ioLayer s' (begin + i * F) = fun q => S.source ioLayer s begin (i * F + q) :=
  source_shift h.reader fun _ p hp => h.batch.frame p (.inr hp)

/-- One part more. -/
theorem Fed.next {ioLayer begin F i : Nat} {s s₁ s₂ : State α σ}
    (h : S.Fed ioLayer begin F s i s₁) (h' : S.RoutesRange ioLayer (begin + i * F) F s₁ s₂) :
    S.Fed ioLayer begin F s (i + 1) s₂ where
  batch := h.batch.next (by rw [← h.source_eq]; exact h'.batch)
  sized := h'.sized
  reader := by rw [h'.reader, readerAfter_shift h.reader, Nat.succ_mul]
  rest := h.rest.trans h'.rest

/-- A layer of merge-splits on top of routed parts. -/
theorem Fed.merge (hZ : ∃ m, 1 ≤ m ∧ S.Z = 2 ^ m) {ioLayer begin way F : Nat} (h2 : 2 ≤ way)
    (h8 : way ≤ 8) (hlane : way = 2 ∨ (way - 1) * S.Z ≤ 2 ^ 31) (hF : 0 < F) {s s₁ : State α σ}
    (h : S.Fed ioLayer begin F s way s₁) :
    Ends (S.RoutesRange ioLayer begin (F * way) s) (fun e => e.1 = .mergeSplit ∧
        Overfull S.Z (gather (F * way) (S.source ioLayer s begin)))
      (S.mergeSplitLayer begin way F s₁) := by
  refine (mergeSplitLayer_spec hZ h2 h8 hlane h.sized).mono (fun s₂ h₂ => ?_) fun e he => ?_
  · refine ⟨h.batch.merge hF h₂.batch, h₂.sized, ?_, h.rest.trans h₂.rest⟩
    rw [h₂.reader, h.reader, Nat.mul_comm]
  · obtain ⟨he, i, -, j, hj, hle⟩ := he
    refine ⟨he, F * way, h2.trans (Nat.le_mul_of_pos_left way hF), j + F * i, ?_⟩
    exact hle.trans (h.batch.combine hj (List.Perm.refl _)).length_eq.le

theorem padBucket_batch (p : Nat) (s : State α σ) : (S.padBucket p s).batch =
    Function.update s.batch p (tagAndPad S.numRealPerBucket 0 (s.batch p) s.reader).1 := rfl

/-- Padding the buckets of a range. -/
theorem padBucket_fed (hreal : S.numRealPerBucket ≤ S.Z) {begin i : Nat} {s s₁ : State α σ}
    (h : S.Fed 0 begin 1 s i s₁) : S.Fed 0 begin 1 s (i + 1) (S.padBucket (begin + i * 1) s₁) := by
  obtain ⟨h1, h2, h3⟩ := tagAndPad_spec S.numRealPerBucket 0 (s₁.batch (begin + i * 1)) s₁.reader
  rw [Nat.sub_zero, h.sized, Nat.min_eq_left hreal] at h1 h2
  refine h.next ⟨⟨fun j hj => ?_, fun p hp => ?_⟩, fun p => ?_, ?_, (SameRest.refl s₁).set _ _⟩
  · obtain rfl : j = 0 := by omega
    rw [gather_one, part_one, padBucket_batch, Nat.add_zero, Function.update_self, h1]
    simp [source]
  · rw [padBucket_batch, Function.update_of_ne (by omega)]
  · rw [padBucket_batch]
    by_cases hp : p = begin + i * 1
    · subst hp
      rw [Function.update_self, h3, h.sized]
    · rw [Function.update_of_ne hp, h.sized]
  · rw [padBucket, h2]
    simp [readerAfter]

section Basic

variable (hv : S.Valid) (hl : S.KWayParams.LanesFit) {ioLayer : Nat}

theorem waysOf_mem (hio : ioLayer < S.KWayParams.ways.length) :
    S.waysOf ioLayer ∈ S.KWayParams.ways := by
  rw [waysOf, List.getD_eq_getElem _ _ hio]
  exact List.getElem_mem hio

include hv hl in
/-- **The layers in memory** route the range they are given. -/
theorem KWayButterflySortBasic_spec (hio : ioLayer < S.KWayParams.ways.length) {innerLayer : Nat}
    (hin : innerLayer < (S.waysOf ioLayer).length) (begin : Nat) {s : State α σ}
    (hs : S.Sized s) :
    Ends (S.RoutesRange ioLayer begin ((S.waysOf ioLayer).take (innerLayer + 1)).prod s)
      (fun e => e.1 = .mergeSplit ∧
        Overfull S.Z (gather ((S.waysOf ioLayer).take (innerLayer + 1)).prod
          (S.source ioLayer s begin)))
      (S.KWayButterflySortBasic ioLayer innerLayer begin
        ((S.waysOf ioLayer).take (innerLayer + 1)).prod s) := by
  have hmem := waysOf_mem hio
  induction innerLayer generalizing begin s with
  | zero =>
    obtain ⟨h2, h8⟩ := hv.way_range _ hmem _ (List.getElem_mem hin)
    have hlane := hl _ hmem _ (List.getElem_mem hin)
    have hprod : ((S.waysOf ioLayer).take (0 + 1)).prod = 1 * (S.waysOf ioLayer)[0] := by
      rw [List.prod_take_succ _ _ hin]
      rfl
    rw [KWayButterflySortBasic, List.getD_eq_getElem _ _ hin, hprod]
    generalize (S.waysOf ioLayer)[0] = way at h2 h8 hlane
    rw [Nat.mul_div_cancel _ (by omega)]
    refine Ends.bind (Q := S.Fed ioLayer begin 1 s way) ?_ fun s₁ h₁ =>
      h₁.merge hv.Z h2 h8 hlane (by omega)
    rw [padBuckets]
    split
    · subst ioLayer
      exact forRange_ends _ (.start hs) fun i _ s₁ h₁ => padBucket_fed hv.numReal h₁
    · rename_i h0
      refine ⟨⟨fun i _ j hj => ?_, fun _ _ => rfl⟩, hs, by simp [readerAfter, h0], .refl s⟩
      obtain rfl : j = 0 := by omega
      simp [source, h0]
  | succ innerLayer ih =>
    obtain ⟨h2, h8⟩ := hv.way_range _ hmem _ (List.getElem_mem hin)
    have hlane := hl _ hmem _ (List.getElem_mem hin)
    have hprod := List.prod_take_succ _ _ hin
    have hpos : 0 < ((S.waysOf ioLayer).take (innerLayer + 1)).prod :=
      prod_pos_of_ways fun w hw => hv.way_range _ hmem w (List.mem_of_mem_take hw)
    rw [KWayButterflySortBasic, List.getD_eq_getElem _ _ hin, hprod]
    specialize ih (by omega)
    generalize ((S.waysOf ioLayer).take (innerLayer + 1)).prod = F at ih hpos
    generalize (S.waysOf ioLayer)[innerLayer + 1] = way at h2 h8 hlane
    rw [Nat.mul_div_cancel _ (by omega)]
    refine Ends.bind (Q := S.Fed ioLayer begin F s way) ?_ fun s₁ h₁ =>
      h₁.merge hv.Z h2 h8 hlane hpos
    refine forRange_ends _ (.start hs) fun i hi s₁ h₁ => ?_
    refine (ih (begin + i * F) h₁.sized).mono (fun s₂ h₂ => h₁.next h₂) fun e he => ⟨he.1, ?_⟩
    refine he.2.of_sublist ?_
    rw [h₁.source_eq, Nat.mul_comm F way, gather_mul]
    exact sublist_gather hi fun i => gather F fun j => S.source ioLayer s begin (i * F + j)

end Basic

end ButterflySorter

end EM.Algorithm
