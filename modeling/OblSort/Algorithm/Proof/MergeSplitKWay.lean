import OblSort.Algorithm.Proof.MergeSplit
import Mathlib.Data.Nat.Bitwise

/-!
# Merge-split routes every element to its mark

The two paths of `MergeSplitKWay` on tagged elements and on blocks. `Routed` says what a call
promises, and `mergeSplitKWay_routes` that the tag version and the pivot version keep it, whichever
path they take.
-/

namespace EM.Algorithm

/-! ## Tags -/

namespace TaggedT

variable {α : Type}

/-- A dummy has the top bit of its tag set. -/
theorem isDummy_eq (x : TaggedT α) : x.isDummy = decide (2 ^ 63 ≤ x.tag.toNat) := by
  have hshift : x.isDummy = true ↔ ¬ x.tag.toNat / 2 ^ 63 = 0 := by
    rw [isDummy, bne_iff_ne, ne_eq, ← BitVec.toNat_inj, BitVec.toNat_ushiftRight,
      Nat.shiftRight_eq_div_pow]
    rfl
  rw [Bool.eq_iff_iff, hshift, decide_eq_true_iff]
  omega

theorem isDummy_eq_msb (x : TaggedT α) : x.isDummy = x.tag.msb := by
  rw [isDummy_eq, BitVec.msb_eq_decide]

/-- An element with an even tag is marked. -/
theorem isMarked_one (x : TaggedT α) : isMarked 1#64 x = decide (x.tag.toNat % 2 = 0) := by
  rw [isMarked, Bool.eq_iff_iff, beq_iff_eq, decide_eq_true_iff, ← BitVec.toNat_inj,
    BitVec.toNat_and, BitVec.toNat_ofNat, BitVec.ofNat_eq_ofNat, BitVec.toNat_ofNat]
  simp only [Nat.reducePow, Nat.one_mod, Nat.and_one_is_mod, Nat.zero_mod]

/-- A mask with one bit below the dummy bit. -/
theorem lawfulMark_twoPow {i : Nat} (hi : i < 63) :
    LawfulMark (TaggedT α) (BitVec.twoPow 64 i) where
  set_marked _ := rfl
  set_dummy _ := rfl
  change_marked x := by
    change isMarked (BitVec.twoPow 64 i) (condChangeMark true (BitVec.twoPow 64 i) x) =
      !isMarked (BitVec.twoPow 64 i) x
    have hpow : BitVec.twoPow 64 i ≠ 0#64 := by
      rw [ne_eq, ← BitVec.toNat_inj, BitVec.toNat_twoPow_of_lt (by omega)]
      exact (Nat.two_pow_pos i).ne'
    have hbit : (BitVec.twoPow 64 i).getLsbD i = true := by
      rw [BitVec.getLsbD_twoPow, decide_eq_true (show i < 64 by omega), decide_eq_true rfl]
      rfl
    rw [isMarked, isMarked, condChangeMark, if_pos rfl, BitVec.and_twoPow, BitVec.and_twoPow,
      BitVec.getLsbD_xor, hbit]
    cases x.tag.getLsbD i <;> simp [hpow]
  change_dummy x := by
    change isDummy (condChangeMark true (BitVec.twoPow 64 i) x) = isDummy x
    rw [isDummy_eq_msb, isDummy_eq_msb, condChangeMark, if_pos rfl, BitVec.msb_xor,
      BitVec.msb_twoPow,
      decide_eq_false (show ¬ i = 64 - 1 by omega), Bool.and_false, Bool.xor_false]
  change_false _ := rfl

theorem lawfulMark : LawfulMark (TaggedT α) 1#64 := lawfulMark_twoPow (show 0 < 63 by decide)

/-- The 63-bit tag below the dummy bit. -/
def realTag (x : TaggedT α) : Nat := x.tag.toNat % 2 ^ 63

theorem realTag_eq {x : TaggedT α} (hx : x.isDummy = false) : x.realTag = x.tag.toNat := by
  rw [isDummy_eq, decide_eq_false_iff_not] at hx
  exact Nat.mod_eq_of_lt (by omega)

/-- An element whose 63-bit tag is divided by `k`. -/
def divTag (k : Nat) (x : TaggedT α) : TaggedT α :=
  { x with tag := BitVec.ofNat 64 (2 ^ 63 * (x.tag.toNat / 2 ^ 63) + x.realTag / k) }

theorem toNat_divTag (k : Nat) (x : TaggedT α) :
    (x.divTag k).tag.toNat = 2 ^ 63 * (x.tag.toNat / 2 ^ 63) + x.realTag / k := by
  have hlt := x.tag.isLt
  have hdiv : x.realTag / k ≤ x.tag.toNat % 2 ^ 63 := Nat.div_le_self ..
  rw [divTag, BitVec.toNat_ofNat]
  generalize x.realTag / k = d at hdiv
  omega

theorem isDummy_divTag (k : Nat) (x : TaggedT α) : (x.divTag k).isDummy = x.isDummy := by
  have hdiv : x.realTag / k ≤ x.tag.toNat % 2 ^ 63 := Nat.div_le_self ..
  rw [isDummy_eq, isDummy_eq, toNat_divTag, decide_eq_decide]
  generalize x.realTag / k = d at hdiv
  omega

theorem realTag_divTag (k : Nat) (x : TaggedT α) : (x.divTag k).realTag = x.realTag / k := by
  have hdiv : x.realTag / k ≤ x.tag.toNat % 2 ^ 63 := Nat.div_le_self ..
  rw [realTag, toNat_divTag, Nat.mul_add_mod]
  exact Nat.mod_eq_of_lt (by omega)

/-- The tag of a real element is divided by `k`. -/
theorem toNat_divTag_real {k : Nat} {x : TaggedT α} (hx : x.isDummy = false) :
    (x.divTag k).tag.toNat = x.tag.toNat / k := by
  rw [toNat_divTag, realTag_eq hx]
  rw [isDummy_eq, decide_eq_false_iff_not] at hx
  omega

theorem getMarkAndUpdate_eq {k : Nat} (hk : 1 ≤ k) (h8 : k ≤ 8) :
    getMarkAndUpdate (α := α) k = fun x => (x.realTag % k, x.divTag k) := by
  funext x
  have hreal : (x.tag &&& 0x7fffffffffffffff#64).toNat = x.realTag := by
    rw [BitVec.toNat_and]
    exact Nat.and_two_pow_sub_one_eq_mod _ 63
  have hkk : (BitVec.ofNat 64 k).toNat = k := by
    rw [BitVec.toNat_ofNat, Nat.mod_eq_of_lt (by omega)]
  have htop : (x.tag &&& 0x8000000000000000#64).toNat = 2 ^ 63 * (x.tag.toNat / 2 ^ 63) := by
    have hbit : (x.tag.toNat.testBit 63).toNat = x.tag.toNat / 2 ^ 63 := by
      have hlt := x.tag.isLt
      rw [Nat.toNat_testBit]
      omega
    rw [BitVec.toNat_and, ← hbit, Nat.mul_comm]
    exact Nat.and_two_pow _ 63
  refine Prod.ext ?_ ?_
  · have := Nat.mod_lt x.realTag hk
    rw [getMarkAndUpdate, BitVec.toNat_umod, hreal, hkk]
    exact Nat.mod_eq_of_lt (by omega)
  · have hlt : x.realTag / k < 2 ^ 63 :=
      (Nat.div_le_self _ _).trans_lt (Nat.mod_lt _ (Nat.two_pow_pos 63))
    have htag : x.tag &&& 0x8000000000000000#64 |||
        (x.tag &&& 0x7fffffffffffffff#64) / BitVec.ofNat 64 k = (x.divTag k).tag :=
      BitVec.eq_of_toNat_eq <| by
        rw [BitVec.toNat_or, BitVec.toNat_udiv, hreal, hkk, htop, toNat_divTag,
          Nat.two_pow_add_eq_or_of_lt hlt]
    rw [getMarkAndUpdate]
    exact congrArg (fun tag => ({ x with tag := tag } : TaggedT α)) htag

/-- The arithmetic shift divides the 63-bit tag of a real element by two. -/
theorem shiftTag_eq {x : TaggedT α} (hx : x.isDummy = false) : x.shiftTag = x.divTag 2 := by
  have htag : x.tag.sshiftRight 1 = (x.divTag 2).tag := by
    apply BitVec.eq_of_toNat_eq
    rw [toNat_divTag_real hx]
    rw [isDummy_eq_msb] at hx
    rw [BitVec.sshiftRight_eq_of_msb_false hx, BitVec.toNat_ushiftRight, Nat.shiftRight_eq_div_pow]
  exact congrArg (fun tag => ({ x with tag := tag } : TaggedT α)) htag

theorem isDummy_shiftTag (x : TaggedT α) : x.shiftTag.isDummy = x.isDummy := by
  rw [isDummy_eq_msb, isDummy_eq_msb]
  exact BitVec.msb_sshiftRight

end TaggedT

/-! ## Blocks -/

theorem Block.lawfulMark {α : Type} [SortKey α] (pivot : Block α) :
    LawfulMark (Block α) pivot where
  set_marked _ := rfl
  set_dummy _ := rfl
  change_marked x := by simp [Markable.isMarked, Markable.condChangeMark]
  change_dummy _ := rfl
  change_false x := by simp [Markable.condChangeMark]

/-! ## Routing -/

section Routing

variable {E V : Type} {isDummy : E → Bool} {mark : E → Nat} {old new : E → V} {k Z : Nat}
  {buckets : List (List E)} {result : Option (List (List E))}

/-- The `result` of a merge-split on `buckets`: the call aborts when a bucket would overflow, and
otherwise the real elements with mark `j` are in bucket `j`. `old` and `new` are what is said of an
element before and after. -/
structure Routed (isDummy : E → Bool) (mark : E → Nat) (old new : E → V) (k Z : Nat)
    (buckets : List (List E)) (result : Option (List (List E))) : Prop where
  abort : result = none ↔ ∃ j < k, if k = 2 then Z < realMarkCount isDummy mark j buckets.flatten
    else Z ≤ realMarkCount isDummy mark j buckets.flatten
  length : ∀ out, result = some out → out.length = k ∧ ∀ j < k, (out.getD j []).length = Z
  reals : ∀ out, result = some out → ∀ j < k,
    List.Perm (((out.getD j []).filter fun x => !isDummy x).map new)
      ((buckets.flatten.filter fun x => !isDummy x && decide (mark x = j)).map old)
  dummies : ∀ out, result = some out → out.flatten.countP isDummy = buckets.flatten.countP isDummy

theorem countP_flatten_getD (p : E → Bool) (out : List (List E)) :
    out.flatten.countP p = ∑ j ∈ Finset.range out.length, (out.getD j []).countP p := by
  induction out with
  | nil => rfl
  | cons b out ih =>
    rw [List.flatten_cons, List.countP_append, ih, List.length_cons,
      Finset.sum_range_succ', Nat.add_comm]
    rfl

/-- The real elements being routed, the dummies keep their number. -/
theorem routed_of (hmark : ∀ x, mark x < k) (hb : buckets.length = k)
    (hz : ∀ b ∈ buckets, b.length = Z)
    (abort : result = none ↔ ∃ j < k, if k = 2 then Z < realMarkCount isDummy mark j buckets.flatten
      else Z ≤ realMarkCount isDummy mark j buckets.flatten)
    (hout : ∀ out, result = some out → out.length = k ∧ ∀ j < k, (out.getD j []).length = Z ∧
      List.Perm (((out.getD j []).filter fun x => !isDummy x).map new)
        ((buckets.flatten.filter fun x => !isDummy x && decide (mark x = j)).map old)) :
    Routed isDummy mark old new k Z buckets result where
  abort := abort
  length out h := ⟨(hout out h).1, fun j hj => ((hout out h).2 j hj).1⟩
  reals out h j hj := ((hout out h).2 j hj).2
  dummies out h := by
    obtain ⟨hlen, hall⟩ := hout out h
    have hin : buckets.flatten.length = k * Z := length_flatten_buckets hb hz
    have hreal : out.flatten.countP (fun x => !isDummy x) =
        buckets.flatten.countP fun x => !isDummy x := by
      rw [countP_flatten_getD, hlen, ← sum_realMarkCount hmark]
      refine Finset.sum_congr rfl fun j hj => ?_
      have hp := (hall j (Finset.mem_range.1 hj)).2.length_eq
      rwa [List.length_map, List.length_map, ← List.countP_eq_length_filter,
        ← List.countP_eq_length_filter] at hp
    have htotal : out.flatten.length = k * Z := by
      rw [← List.countP_true, countP_flatten_getD, hlen, Finset.sum_congr rfl fun j hj => by
        rw [List.countP_true, (hall j (Finset.mem_range.1 hj)).1]]
      simp
    have h1 : out.flatten.length = _ := List.length_eq_countP_add_countP isDummy
    have h2 : buckets.flatten.length = _ := List.length_eq_countP_add_countP isDummy
    simp only [Bool.not_eq_true, Bool.decide_eq_false] at h1 h2
    omega

theorem flatten_eq_flatMap_getD (out : List (List E)) :
    out.flatten = (List.range out.length).flatMap fun j => out.getD j [] := by
  rw [List.flatMap_def]
  congr 1
  refine List.ext_getElem (by simp) fun j h1 h2 => ?_
  simp only [List.getElem_map, List.getElem_range]
  exact (List.getD_eq_getElem out [] h1).symm

/-- Together the buckets have the real elements they had. -/
theorem Routed.perm (h : Routed isDummy mark old new k Z buckets result)
    (hmark : ∀ x, mark x < k) {out : List (List E)} (hout : result = some out) :
    List.Perm ((out.flatten.filter fun x => !isDummy x).map new)
      ((buckets.flatten.filter fun x => !isDummy x).map old) := by
  have hbelow : ∀ x ∈ buckets.flatten.filter fun x => !isDummy x, mark x < k := fun x _ => hmark x
  have hclass := (flatMap_filter_perm mark hbelow).map old
  refine List.Perm.trans ?_ hclass
  rw [flatten_eq_flatMap_getD, (h.length out hout).1, List.filter_flatMap, List.map_flatMap,
    List.map_flatMap]
  refine List.Perm.flatMap_left _ fun j hj => ?_
  refine (h.reals out hout j (List.mem_range.1 hj)).trans (List.Perm.of_eq ?_)
  rw [List.filter_filter]
  congr 2
  funext x
  exact Bool.and_comm _ _

end Routing

section TwoWayRouting

variable {E Indicator : Type} [Markable E Indicator] {ind : Indicator} {mark : E → Nat}

/-- The two-way path in terms of marks: 0 for a marked element, 1 for another. -/
theorem mergeSplitTwoWay_marks (h : LawfulMark E ind)
    (hmark : ∀ x, mark x = if (Markable.setAndGetMarked ind x).1 then 0 else 1) {Z : Nat}
    (h2 : 2 ≤ Z) (heven : Z % 2 = 0) {left right : List E} (hl : left.length = Z)
    (hr : right.length = Z) :
    (mergeSplitTwoWay Z ind left right = none ↔
      ∃ j < 2, Z < realMarkCount Markable.isDummy mark j (left ++ right)) ∧
    ∀ out, mergeSplitTwoWay Z ind left right = some out → ∀ j < 2,
      ([out.1, out.2].getD j []).length = Z ∧
      List.Perm (reals ([out.1, out.2].getD j []))
        (setMarks ind ((left ++ right).filter fun x => !Markable.isDummy x &&
          decide (mark x = j))) := by
  have hfilter : ∀ p : Bool → Bool, (reals (setMarks ind (left ++ right))).filter
      (fun x => p (Markable.isMarked ind x)) = setMarks ind ((left ++ right).filter fun x =>
        !Markable.isDummy x && p (Markable.setAndGetMarked ind x).1) := fun p => by
    rw [reals, setMarks, List.filter_filter, List.filter_map]
    refine congrArg _ (List.filter_congr fun x _ => ?_)
    simp only [Function.comp_apply, h.set_dummy, h.set_marked, Bool.and_comm]
  have h0 : ∀ x : E, decide (mark x = 0) = (Markable.setAndGetMarked ind x).1 := fun x => by
    rw [hmark]
    split <;> simp [*]
  have h1 : ∀ x : E, decide (mark x = 1) = !(Markable.setAndGetMarked ind x).1 := fun x => by
    rw [hmark]
    split <;> simp [*]
  obtain ⟨habort, hout⟩ := mergeSplitTwoWay_spec h h2 heven hl hr
  have f0 := hfilter id
  have f1 := hfilter not
  simp only [id_eq, ← h0] at f0
  simp only [← h1] at f1
  rw [List.countP_eq_length_filter, List.countP_eq_length_filter, f0, f1, setMarks, setMarks,
    List.length_map, List.length_map, ← List.countP_eq_length_filter,
    ← List.countP_eq_length_filter] at habort
  refine ⟨habort.trans ⟨?_, ?_⟩, fun out ho j hj => ?_⟩
  · rintro (hz | hz)
    · exact ⟨0, by omega, hz⟩
    · exact ⟨1, by omega, hz⟩
  · rintro ⟨j, hj, hz⟩
    obtain rfl | rfl : j = 0 ∨ j = 1 := by omega
    · exact .inl hz
    · exact .inr hz
  · obtain ⟨l1, l2, p1, p2⟩ := hout out ho
    rw [f0] at p1
    rw [f1] at p2
    obtain rfl | rfl : j = 0 ∨ j = 1 := by omega
    · exact ⟨l1, p1⟩
    · exact ⟨l2, p2⟩

end TwoWayRouting

section KWay

variable {α : Type} {k m : Nat}

theorem two_le_pow (hm : 1 ≤ m) : 2 ≤ 2 ^ m := by
  calc 2 = 2 ^ 1 := rfl
    _ ≤ 2 ^ m := Nat.pow_le_pow_right (by omega) hm

theorem pow_mod_two (hm : 1 ≤ m) : 2 ^ m % 2 = 0 :=
  Nat.mod_eq_zero_of_dvd (dvd_pow_self 2 (Nat.ne_of_gt hm))

/-- **The tag version** of the merge-split. -/
theorem mergeSplitKWay_routed (h2 : 2 ≤ k) (h8 : k ≤ 8) (hm : 1 ≤ m)
    (hlane : k = 2 ∨ (k - 1) * 2 ^ m ≤ 2 ^ 31) {buckets : List (List (TaggedT α))}
    (hb : buckets.length = k) (hz : ∀ b ∈ buckets, b.length = 2 ^ m) :
    Routed TaggedT.isDummy (fun x => x.realTag % k) (TaggedT.divTag k) id k (2 ^ m) buckets
      (mergeSplitKWay k (2 ^ m) buckets) := by
  have hmark : ∀ x : TaggedT α, x.realTag % k < k := fun x => Nat.mod_lt _ (by omega)
  by_cases hk : k = 2
  · subst hk
    obtain ⟨l, r, rfl⟩ := List.length_eq_two.1 hb
    have hparity : ∀ x : TaggedT α, x.realTag % 2 =
        if (Markable.setAndGetMarked (1#64) x).1 then 0 else 1 := fun x => by
      change _ = if TaggedT.isMarked 1#64 x then 0 else 1
      rw [TaggedT.isMarked_one, TaggedT.realTag]
      simp only [decide_eq_true_eq]
      split <;> omega
    obtain ⟨habort, hout⟩ := mergeSplitTwoWay_marks TaggedT.lawfulMark hparity
      (two_le_pow hm) (pow_mod_two hm) (hz l (by simp)) (hz r (by simp))
    have hflat : [l, r].flatten = l ++ r := by simp
    refine routed_of hmark rfl hz ?_ fun out ho => ?_
    · rw [mergeSplitKWay, if_pos rfl, Option.map_eq_none_iff, hflat]
      simp only [if_true, List.getD_cons_zero, List.getD_cons_succ]
      exact habort
    · rw [mergeSplitKWay, if_pos rfl] at ho
      obtain ⟨p, hp, rfl⟩ := Option.map_eq_some_iff.1 ho
      refine ⟨rfl, fun j hj => ?_⟩
      obtain ⟨hlen, hperm⟩ := hout p hp j hj
      have hget : [p.1.map TaggedT.shiftTag, p.2.map TaggedT.shiftTag].getD j [] =
          ([p.1, p.2].getD j []).map TaggedT.shiftTag := by
        obtain rfl | rfl : j = 0 ∨ j = 1 := by omega
        · rfl
        · rfl
      rw [hget, hflat]
      refine ⟨by rw [List.length_map, hlen], ?_⟩
      have hshift : (((l ++ r).filter fun x => !x.isDummy && decide (x.realTag % 2 = j)).map
          TaggedT.shiftTag) = _ := List.map_congr_left fun x hx => TaggedT.shiftTag_eq (by
        have := List.of_mem_filter hx
        simp only [Bool.and_eq_true, Bool.not_eq_true'] at this
        exact this.1)
      have hset : ∀ xs : List (TaggedT α), setMarks 1#64 xs = xs := fun xs => List.map_id xs
      rw [List.map_id, List.filter_map, ← hshift]
      rw [hset] at hperm
      have hcomp : ((fun x : TaggedT α => !x.isDummy) ∘ TaggedT.shiftTag) =
          fun x => !x.isDummy := by
        funext x
        rw [Function.comp_apply, TaggedT.isDummy_shiftTag]
      rw [hcomp]
      exact hperm.map _
  · rw [mergeSplitKWay, if_neg hk, TaggedT.getMarkAndUpdate_eq (by omega) h8]
    obtain ⟨habort, hout⟩ := mergeSplitMulti_spec (show 3 ≤ k by omega) h8
      (hlane.resolve_left hk) hmark (TaggedT.isDummy_divTag k) hb hz
    refine routed_of hmark hb hz ?_ fun out ho => ?_
    · simpa only [hk, if_false] using habort
    · simpa only [List.map_id_fun, id_eq] using hout out ho

/-- What the real elements carry. -/
def realData (xs : List (TaggedT α)) : List α := (xs.filter fun x => !x.isDummy).map TaggedT.v

/-- **A merge-split keeps the real elements**, however large the buckets are. -/
theorem mergeSplitKWay_perm (h2 : 2 ≤ k) (h8 : k ≤ 8) (hm : 1 ≤ m)
    {buckets out : List (List (TaggedT α))} (hb : buckets.length = k)
    (hz : ∀ b ∈ buckets, b.length = 2 ^ m) (hout : mergeSplitKWay k (2 ^ m) buckets = some out) :
    out.length = k ∧ (∀ b ∈ out, b.length = 2 ^ m) ∧
      List.Perm (realData out.flatten) (realData buckets.flatten) := by
  by_cases hk : k = 2
  · have hr := mergeSplitKWay_routed h2 h8 hm (.inl hk) hb hz
    obtain ⟨hlen, hz'⟩ := hr.length out hout
    refine ⟨hlen, fun b hbm => ?_, ?_⟩
    · obtain ⟨j, hj, rfl⟩ := List.mem_iff_getElem.1 hbm
      rw [← hz' j (by omega), List.getD_eq_getElem _ _ hj]
    · have := (hr.perm (fun x => Nat.mod_lt _ (by omega)) hout).map TaggedT.v
      rwa [List.map_id, List.map_map] at this
  · rw [mergeSplitKWay, if_neg hk, TaggedT.getMarkAndUpdate_eq (by omega) h8] at hout
    obtain ⟨hlen, hz', hp⟩ := mergeSplitMulti_perm (show 3 ≤ k by omega) h8 hb hz hout
    refine ⟨hlen, hz', ?_⟩
    have := (hp.filter fun x => !x.isDummy).map TaggedT.v
    rw [List.filter_map, List.map_map] at this
    refine this.trans (List.Perm.of_eq ?_)
    rw [realData]
    congr 1
    exact List.filter_congr fun x _ => by rw [Function.comp_apply, TaggedT.isDummy_divTag]

/-- **The pivot version** of the merge-split. -/
theorem mergeSplitKWayPivot_routed [SortKey α] (h2 : 2 ≤ k) (h8 : k ≤ 8) (hm : 1 ≤ m)
    (hlane : k = 2 ∨ (k - 1) * 2 ^ m ≤ 2 ^ 31) {pivots : List (Block α)}
    (hpiv : pivots.length = k - 1) {buckets : List (List (Block α))}
    (hb : buckets.length = k) (hz : ∀ b ∈ buckets, b.length = 2 ^ m) :
    Routed Block.dummyFlag (pivotMark pivots) (fun x => (x.data, x.tag)) (fun x => (x.data, x.tag))
      k (2 ^ m) buckets (mergeSplitKWayPivot k (2 ^ m) pivots buckets) := by
  have hmark : ∀ x : Block α, pivotMark pivots x < k := fun x => by
    have : pivotMark pivots x ≤ pivots.length := List.countP_le_length
    omega
  by_cases hk : k = 2
  · subst hk
    obtain ⟨l, r, rfl⟩ := List.length_eq_two.1 hb
    obtain ⟨pivot, rfl⟩ := List.length_eq_one_iff.1 hpiv
    have hpivot : ∀ x : Block α, pivotMark [pivot] x =
        if (Markable.setAndGetMarked pivot x).1 then 0 else 1 := fun x => by
      change _ = if !pivot.lt x then 0 else 1
      rw [pivotMark, List.countP_singleton]
      cases pivot.lt x <;> rfl
    obtain ⟨habort, hout⟩ := mergeSplitTwoWay_marks (Block.lawfulMark pivot) hpivot
      (two_le_pow hm) (pow_mod_two hm) (hz l (by simp)) (hz r (by simp))
    have hflat : [l, r].flatten = l ++ r := by simp
    have hcall : mergeSplitKWayPivot 2 (2 ^ m) [pivot] [l, r] =
        (mergeSplitTwoWay (2 ^ m) pivot l r).map fun p => [p.1, p.2] := by
      rw [mergeSplitKWayPivot, if_pos rfl]
      change (mergeSplitTwoWay (2 ^ m) pivot l r).bind (fun p => some [p.1, p.2]) = _
      rw [Option.map_eq_bind]
      rfl
    rw [hcall]
    refine routed_of hmark rfl hz ?_ fun out ho => ?_
    · rw [Option.map_eq_none_iff, hflat]
      simp only [if_true]
      exact habort
    · obtain ⟨p, hp, rfl⟩ := Option.map_eq_some_iff.1 ho
      refine ⟨rfl, fun j hj => ?_⟩
      obtain ⟨hlen, hperm⟩ := hout p hp j hj
      refine ⟨hlen, ?_⟩
      have := hperm.map fun x : Block α => (x.data, x.tag)
      rwa [setMarks, List.map_map, ← hflat] at this
  · have htake : pivots.take (k - 1) = pivots := List.take_of_length_le (by omega)
    rw [mergeSplitKWayPivot, if_neg hk, htake]
    obtain ⟨habort, hout⟩ := mergeSplitMulti_spec (show 3 ≤ k by omega) h8
      (hlane.resolve_left hk) hmark (fun _ => rfl) hb hz
    refine routed_of hmark hb hz ?_ fun out ho => ?_
    · simpa only [hk, if_false] using habort
    · obtain ⟨hlen, hall⟩ := hout out ho
      refine ⟨hlen, fun j hj => ⟨(hall j hj).1, ?_⟩⟩
      have := (hall j hj).2.map fun x : Block α => (x.data, x.tag)
      rwa [List.map_id'] at this

/-- **`MergeSplitKWay`**, by tags and by pivots: it aborts exactly when a bucket would overflow, and
otherwise the real elements of mark `j` are in bucket `j`, with their tags divided by `k` or
unchanged. -/
theorem mergeSplitKWay_routes {β : Type} [SortKey β] (h2 : 2 ≤ k) (h8 : k ≤ 8) (hm : 1 ≤ m)
    (hlane : k = 2 ∨ (k - 1) * 2 ^ m ≤ 2 ^ 31) :
    (∀ buckets : List (List (TaggedT α)), buckets.length = k → (∀ b ∈ buckets, b.length = 2 ^ m) →
      Routed TaggedT.isDummy (fun x => x.realTag % k) (fun x => (x.realTag / k, x.v))
        (fun x => (x.realTag, x.v)) k (2 ^ m) buckets (mergeSplitKWay k (2 ^ m) buckets)) ∧
    ∀ (pivots : List (Block β)) (buckets : List (List (Block β))), pivots.length = k - 1 →
      buckets.length = k → (∀ b ∈ buckets, b.length = 2 ^ m) →
      Routed Block.dummyFlag (pivotMark pivots) (fun x => (x.data, x.tag))
        (fun x => (x.data, x.tag)) k (2 ^ m) buckets
        (mergeSplitKWayPivot k (2 ^ m) pivots buckets) := by
  refine ⟨fun buckets hb hz => ?_, fun pivots buckets hp hb hz =>
    mergeSplitKWayPivot_routed h2 h8 hm hlane hp hb hz⟩
  obtain ⟨abort, length, hreals, dummies⟩ := mergeSplitKWay_routed h2 h8 hm hlane hb hz
  refine ⟨abort, length, fun out ho j hj => ?_, dummies⟩
  have := (hreals out ho j hj).map fun x : TaggedT α => (x.realTag, x.v)
  rw [List.map_id, List.map_map] at this
  refine this.trans (List.Perm.of_eq (List.map_congr_left fun x _ => ?_))
  exact Prod.ext (TaggedT.realTag_divTag k x) rfl

/-- Three buckets of two by tags, and two of two by a pivot. -/
theorem mergeSplitKWay_routes_three :
    Routed TaggedT.isDummy (fun x => x.realTag % 3) (fun x => (x.realTag / 3, x.v))
      (fun x => (x.realTag, x.v)) 3 (2 ^ 1) [[⟨5, 'a'⟩, ⟨1 <<< 63, 'b'⟩],
        [⟨4, 'c'⟩, ⟨1 <<< 63, 'd'⟩], [⟨1 <<< 63, 'e'⟩, ⟨1 <<< 63, 'f'⟩]]
      (mergeSplitKWay 3 (2 ^ 1) [[⟨5, 'a'⟩, ⟨1 <<< 63, 'b'⟩], [⟨4, 'c'⟩, ⟨1 <<< 63, 'd'⟩],
        [⟨1 <<< 63, 'e'⟩, ⟨1 <<< 63, 'f'⟩]]) ∧
    Routed Block.dummyFlag (pivotMark [⟨⟨7, []⟩, 0, false, false⟩]) (fun x => (x.data, x.tag))
      (fun x => (x.data, x.tag)) 2 (2 ^ 1)
      [[⟨⟨9, []⟩, 0, false, false⟩, ⟨⟨9, []⟩, 1, true, false⟩],
        [⟨⟨7, []⟩, 0, false, false⟩, ⟨⟨7, []⟩, 1, false, false⟩]]
      (mergeSplitKWayPivot 2 (2 ^ 1) [(⟨⟨7, []⟩, 0, false, false⟩ : Block SortElement)]
        [[⟨⟨9, []⟩, 0, false, false⟩, ⟨⟨9, []⟩, 1, true, false⟩],
          [⟨⟨7, []⟩, 0, false, false⟩, ⟨⟨7, []⟩, 1, false, false⟩]]) :=
  ⟨(@mergeSplitKWay_routes Char 3 1 SortElement _ (by decide) (by decide) (by decide)
      (by decide)).1 _ rfl (by decide),
    (@mergeSplitKWay_routes Char 2 1 SortElement _ (by decide) (by decide) (by decide)
      (by decide)).2 _ _ rfl rfl (by decide)⟩

/-- The lanes of `Z = 2 ^ 31` are negative before any element is counted. -/
theorem mergeSplitMulti_dummies {E : Type} {isDummy : E → Bool} {getMark : E → Nat × E}
    {buckets : List (List E)} (hd : ∀ x ∈ buckets.flatten, isDummy x = true) :
    mergeSplitMulti isDummy getMark k (2 ^ 31) buckets = none := by
  obtain ⟨-, hlanes⟩ := markElements_eq isDummy getMark buckets.flatten (Lanes.set1 (2 ^ 31))
  have hzero : realMarkCount isDummy (fun x => (getMark x).1) 0 buckets.flatten = 0 :=
    List.countP_eq_zero.2 fun x hx => by simp [hd x hx]
  have hle : (markElements isDummy getMark buckets.flatten (Lanes.set1 (2 ^ 31))).2.containLeZero =
      true := by
    refine decide_eq_true ⟨0, ?_⟩
    rw [hlanes 0]
    simp only [Fin.val_zero, hzero]
    decide
  rw [mergeSplitMulti]
  dsimp only
  rw [if_pos hle]

/-- Three buckets of `2 ^ 31` dummies abort although no mark has any real element. -/
theorem mergeSplitKWay_lanes_negative :
    ¬ Routed TaggedT.isDummy (fun x => x.realTag % 3) (fun x => (x.realTag / 3, x.v))
      (fun x => (x.realTag, x.v)) 3 (2 ^ 31)
      (List.replicate 3 (List.replicate (2 ^ 31) ⟨1 <<< 63, ()⟩))
      (mergeSplitKWay 3 (2 ^ 31) (List.replicate 3 (List.replicate (2 ^ 31) ⟨1 <<< 63, ()⟩))) := by
  intro h
  have hd :
    ∀ x ∈ (List.replicate 3 (List.replicate (2 ^ 31) (⟨1 <<< 63, ()⟩ : TaggedT Unit))).flatten,
      x.isDummy = true := fun x hx => by
    obtain ⟨b, hb, hx⟩ := List.mem_flatten.1 hx
    rw [List.eq_of_mem_replicate hb] at hx
    rw [List.eq_of_mem_replicate hx]
    decide
  obtain ⟨j, -, hj⟩ :=
    h.abort.1 (by rw [mergeSplitKWay, if_neg (by decide), mergeSplitMulti_dummies hd])
  rw [if_neg (by decide), realMarkCount, List.countP_eq_zero.2 fun x hx => by simp [hd x hx]] at hj
  omega

end KWay

end EM.Algorithm
