import OblSort.Algorithm.Proof.BucketRouting
import OblSort.Algorithm.Proof.MergeSplit
import OblSort.Algorithm.Proof.PagePermReader
import OblSort.Proof.ReaderWriter

/-!
# What the bucket shuffles output

`CABucketShuffle_ordered`: when no bin packing overflows, both shuffles write exactly the input
elements in the order of their tags. In memory the vectors are lists (`stdVectors_lawful`); the
vectors in external memory are read and written in whole pages (`extVectors_lawful`), so a routing
that splits there needs buckets of whole pages: `CABucketShuffle_clobbered` is a run with four
buckets in a page.
-/

namespace EM.Algorithm.CABucketSort

open Store Loop Paged NonCachedVector

variable {α : Type}

/-! ## Vectors in memory -/

section InMemory

variable [Inhabited α]

theorem stdVectors_lawful :
    Lawful (stdVectors (α := α)) 1 List.length fun v i => v[i]? where
  new _ size := List.length_replicate
  copyIn {v b xs} _ _ hle hview := by
    refine ⟨v, ?_, rfl, rfl⟩
    have heq : (v.drop b).take xs.length = xs := by
      refine List.ext_getElem? fun i => ?_
      by_cases hi : i < xs.length
      · rw [List.getElem?_take_of_lt hi, List.getElem?_drop, hview i hi]
      · rw [List.getElem?_eq_none (by rw [List.length_take]; omega),
          List.getElem?_eq_none (by omega)]
    simp only [stdVectors]
    rw [if_pos hle, Nat.add_sub_cancel_left, heq]
  copyOut {v a src} _ _ hle :=
    ⟨splice v a src, if_pos hle, length_splice hle, getElem?_splice hle⟩

/-- Where the recursion in memory splits four buckets at least. -/
def SplitsInMemory (Z gamma : Nat) (L : Nat) : Prop :=
  Splits (fun size => size / Z ≤ gamma) (fun _ => True) Z L

theorem butterflyRouting_routes {Z gamma o L : Nat} (hZ : 0 < Z)
    (hsplits : SplitsInMemory Z gamma L) (hL : L < 64) :
    Routes List.length (fun v i => v[i]?) o L Z (butterflyRouting (α := α) Z gamma) :=
  routing_routed stdVectors_lawful (one_dvd Z) hZ
    (fun _ _ _ _ => leaf_routes stdVectors_lawful (one_dvd Z) (f := fun _ => binPacking Z)
      fun _ hbits hlen hhalf _ => binPacking_ends hbits hZ hlen hhalf) hsplits hL

/-- **A whole vector** routed in place. -/
theorem routeInPlace_ends {Z gamma o L : Nat} (hZ : 0 < Z) (hsplits : SplitsInMemory Z gamma L)
    {xs : List (TaggedT α)} (hbits : o + L ≤ 63) (hlen : xs.length = 2 ^ L * Z)
    (hhalf : 2 * (2 ^ L * Z) ≤ 2 ^ 63) (hproduct : 2 ^ L * Z * 2 ^ (L / 2) ≤ 2 ^ 64) :
    Ends (Routed o L Z xs) (fun e => e = .overflow) (routeInPlace Z gamma (maskAt o) xs) := by
  have hends := butterflyRouting_routes hZ hsplits (by omega) (o := o) ⟨1, fun _ => xs⟩
    ⟨0, 0⟩ ⟨0, 0⟩ xs
    ⟨hbits, hlen, hhalf, hproduct, ⟨Nat.one_pos, (Nat.zero_add _).le, fun i _ =>
      by rw [Nat.zero_add]⟩,
      Nat.dvd_zero _, Nat.one_pos, by rw [← hlen]; exact (Nat.zero_add _).le, Nat.dvd_zero _⟩
  rw [← hlen] at hends
  rw [routeInPlace]
  cases hrun : butterflyRouting Z gamma ⟨0, 0⟩ xs.length ⟨0, 0⟩ (maskAt o) ⟨1, fun _ => xs⟩ with
  | error e =>
    rw [hrun] at hends
    exact hends
  | ok h =>
    rw [hrun] at hends
    obtain ⟨ys, hy, hholds, hf⟩ := hends
    have hvec : h.vecs 0 = ys := by
      have hsize : (h.vecs 0).length = xs.length := hf.size 0 Nat.one_pos
      refine List.ext_getElem? fun i => ?_
      by_cases hi : i < ys.length
      · have := hholds.elements i hi
        rwa [Nat.zero_add] at this
      · rw [List.getElem?_eq_none (by rw [hsize, hlen, ← hy.size]; omega),
          List.getElem?_eq_none (by omega)]
    change Routed o L Z xs (h.vecs 0)
    rwa [hvec]

end InMemory

/-! ## Vectors in external memory -/

section External

variable {n : Nat} [NeZero n]

/-- What can be read at a position. -/
def view (v : NonCachedVector.Vector n α) (i : Nat) : Option α :=
  if i < v.N then (v.read (i / n) 0).map fun page => page (Fin.ofNat n i) else none

omit [NeZero n] in
theorem read_write (v : NonCachedVector.Vector n α) (p q : Nat) (page : Page n α) :
    (v.write q page 0).read p 0 = if p = q then some page else v.read p 0 := by
  by_cases hpq : p = q
  · subst hpq
    rw [if_pos rfl, (has_write v p 0 page).read]
  · rw [if_neg hpq]
    cases hl : v.lateInit <;>
      simp [Vector.read, Vector.write, Frontend.read, Frontend.write, hl, hpq]

theorem view_write {v : NonCachedVector.Vector n α} {q i : Nat} (page : Page n α)
    (hq : q * n + n ≤ v.N) :
    view (v.write q page 0) i = if q * n ≤ i ∧ i < q * n + n then some (page (Fin.ofNat n i))
      else view v i := by
  have hn := pos_itemPerPage n
  have hdiv := Nat.div_add_mod i n
  have hmod := Nat.mod_lt i hn
  have hiff : i / n = q ↔ q * n ≤ i ∧ i < q * n + n := by
    rw [Nat.div_eq_iff hn]
    omega
  rw [view, view, read_write, show (v.write q page 0).N = v.N from rfl]
  by_cases hi : i / n = q
  · rw [if_pos hi, if_pos (hiff.1 hi), if_pos (by have := hiff.1 hi; omega), Option.map_some]
  · rw [if_neg hi, if_neg fun h => hi (hiff.2 h)]

/-- Whole pages are read as they can be read by position. -/
theorem copyInPages_view {v : NonCachedVector.Vector n α} {m p : Nat} {xs : List α}
    (hlen : xs.length = m * n) (hview : ∀ i < xs.length, view v (p * n + i) = xs[i]?) :
    copyInPages 0 m p v = some xs := by
  have hn := pos_itemPerPage n
  induction m generalizing p xs with
  | zero =>
    rw [Nat.zero_mul, List.length_eq_zero_iff] at hlen
    rw [copyInPages, hlen]
  | succ m ih =>
    rw [Nat.succ_mul] at hlen
    have hpage : ∀ o < n, (v.read p 0).map (fun page => page (Fin.ofNat n o)) = xs[o]? := by
      intro o ho
      have hv := hview o (by omega)
      have hlt : p * n + o < v.N := by
        by_contra hnot
        rw [view, if_neg hnot, List.getElem?_eq_getElem (show o < xs.length by omega)] at hv
        cases hv
      rw [view, if_pos hlt, (div_mod_of_lt ho).1] at hv
      rw [← hv]
      congr 1
      funext page
      congr 1
      apply Fin.ext
      rw [Fin.val_ofNat, Fin.val_ofNat, (div_mod_of_lt ho).2, Nat.mod_eq_of_lt ho]
    obtain ⟨page, hread⟩ : ∃ page, v.read p 0 = some page := by
      have h0 := hpage 0 hn
      rw [List.getElem?_eq_getElem (show 0 < xs.length by omega)] at h0
      cases hr : v.read p 0 with
      | none =>
        rw [hr] at h0
        cases h0
      | some page => exact ⟨page, rfl⟩
    have hslice : slice 0 n page = xs.take n := by
      refine List.ext_getElem? fun o => ?_
      by_cases ho : o < n
      · rw [getElem?_slice (by omega), Nat.zero_add, List.getElem?_take_of_lt ho,
          ← hpage o ho, hread, Option.map_some]
      · rw [List.getElem?_eq_none (by rw [length_slice]; omega),
          List.getElem?_eq_none (by rw [List.length_take]; omega)]
    have hrest := @ih (p + 1) (xs.drop n) (by rw [List.length_drop]; omega) fun i hi => by
      rw [List.length_drop] at hi
      rw [List.getElem?_drop, ← hview (n + i) (by omega), Nat.succ_mul, Nat.add_assoc]
    rw [copyInPages, hread, Option.bind_some, hrest, Option.bind_some, hslice,
      List.take_append_drop]

/-- Whole pages are written. -/
theorem copyOutPages_view {v : NonCachedVector.Vector n α} {m p : Nat} {src : List α}
    (hlen : src.length = m * n) (hle : p * n + src.length ≤ v.N) :
    ∃ v', copyOutPages 0 m p src v = some v' ∧ v'.N = v.N ∧
      ∀ i, view v' i = if p * n ≤ i ∧ i < p * n + src.length then src[i - p * n]?
        else view v i := by
  have hn := pos_itemPerPage n
  induction m generalizing p src v with
  | zero =>
    refine ⟨v, rfl, rfl, fun i => ?_⟩
    rw [if_neg (by omega)]
  | succ m ih =>
    rw [Nat.succ_mul] at hlen
    obtain ⟨page, hpage, hget⟩ := ofList_eq (show n ≤ src.length by omega)
    obtain ⟨v', hrun, hN, hview⟩ := @ih (v.write p page 0) (p + 1) (src.drop n)
      (by rw [List.length_drop]; omega) (by
        rw [List.length_drop, Nat.succ_mul]
        change p * n + n + (src.length - n) ≤ v.N
        omega)
    refine ⟨v', by rw [copyOutPages, hpage, Option.bind_some, hrun], hN, fun i => ?_⟩
    rw [hview, view_write page (by omega), List.length_drop, Nat.succ_mul, List.getElem?_drop]
    by_cases hfirst : p * n ≤ i ∧ i < p * n + n
    · have hval : (Fin.ofNat n i).val = i - p * n := by
        rw [Fin.val_ofNat]
        have := (div_mod_of_lt (n := n) (p := p) (show i - p * n < n by omega)).2
        rwa [show p * n + (i - p * n) = i by omega] at this
      rw [if_neg (by omega), if_pos hfirst, if_pos (by omega), ← hget, hval]
    · by_cases hrest : p * n ≤ i ∧ i < p * n + src.length
      · rw [if_pos (by omega), if_pos hrest]
        congr 1
        omega
      · rw [if_neg (by omega), if_neg hfirst, if_neg hrest]

/-- **Whole pages**: the vectors in external memory are read and written as lists are. -/
theorem extVectors_lawful [Inhabited α] (U : Uninit n α) :
    Lawful (extVectors U) n NonCachedVector.Vector.N view where
  new _ _ := rfl
  copyIn {v b xs} hb hlen hle hview := by
    have hn := pos_itemPerPage n
    obtain ⟨p, rfl⟩ := hb
    obtain ⟨m, hm⟩ := hlen
    refine ⟨v, ?_, rfl, rfl⟩
    rw [Nat.mul_comm] at hm hview
    have hdiv : (p * n + xs.length) / n = p + m := by
      rw [hm, ← Nat.add_mul, Nat.mul_div_cancel _ hn]
    have hmod : (p * n + xs.length) % n = 0 := by rw [hm, ← Nat.add_mul, Nat.mul_mod_left]
    change NonCachedVector.copyIn _ _ 0 v = _
    rw [Nat.mul_comm n p, NonCachedVector.copyIn, Nat.mul_mod_left, Nat.mul_div_cancel _ hn]
    rw [if_neg (by simp), copyInAligned, hdiv, hmod, Nat.add_sub_cancel_left,
      copyInPages_view hm hview, Option.bind_some, if_neg (by simp)]
  copyOut {v a src} ha hlen hle := by
    have hn := pos_itemPerPage n
    obtain ⟨p, rfl⟩ := ha
    obtain ⟨m, hm⟩ := hlen
    rw [Nat.mul_comm] at hm
    rw [Nat.mul_comm n p] at hle ⊢
    have hdiv : (p * n + src.length) / n = p + m := by
      rw [hm, ← Nat.add_mul, Nat.mul_div_cancel _ hn]
    have hmod : (p * n + src.length) % n = 0 := by rw [hm, ← Nat.add_mul, Nat.mul_mod_left]
    obtain ⟨v', hrun, hN, hview⟩ := copyOutPages_view hm hle
    refine ⟨v', ?_, hN, hview⟩
    change NonCachedVector.copyOut _ _ 0 v = _
    rw [NonCachedVector.copyOut]
    dsimp only
    rw [Nat.mul_mod_left, Nat.mul_div_cancel _ hn, hdiv, hmod]
    by_cases hzero : m = 0
    · subst hzero
      rw [Nat.zero_mul] at hm
      rw [if_pos (Nat.add_zero p).symm, if_neg (by simp [hm])]
      exact hrun
    · rw [if_neg (by omega), if_neg (by simp), if_neg (by simp), Option.bind_some, if_neg (by simp),
        List.drop_zero, Nat.add_sub_cancel_left, hrun, Option.bind_some]
      simp

/-- Where both recursions split four buckets at least. -/
def SplitsFour (Z sizeofTaggedT heapSize : Nat) (L : Nat) : Prop :=
  Splits (fitsInMemory Z sizeofTaggedT heapSize)
    (fun L => SplitsInMemory Z (getLogBaseTwo (2 ^ L * Z)) L) Z L

section

variable [Inhabited α] (U : Uninit n α) {Z sizeofTaggedT heapSize : Nat}

/-- Buckets of whole pages. -/
theorem externalButterflyRouting_routes {o L : Nat} (hZ : 0 < Z) (hn : n ∣ Z)
    (hsplits : SplitsFour Z sizeofTaggedT heapSize L) (hL : L < 64) :
    Routes NonCachedVector.Vector.N view o L Z
      (externalButterflyRouting U Z sizeofTaggedT heapSize) :=
  routing_routed (extVectors_lawful U) hn hZ
    (fun _ _ _ hmem => leaf_routes (extVectors_lawful U) hn
      (f := fun size => routeInPlace Z (getLogBaseTwo size))
      fun _ hbits hlen hhalf hproduct => routeInPlace_ends hZ hmem hbits hlen hhalf hproduct)
    hsplits hL

/-- The `m` buckets of `ys` can be read from the vector in any order. -/
def Reads (Z m : Nat) (ys : List (TaggedT α)) (v : NonCachedVector.Vector n (TaggedT α)) : Prop :=
  ∃ I : NonCachedVector.Vector n (TaggedT α) → Prop, I v ∧ ∀ v, I v → ∀ j < m,
    ∃ v', NonCachedVector.copyIn (j * Z) ((j + 1) * Z) 0 v = some (bucket Z j ys, v') ∧ I v'

omit [Inhabited α] in
theorem reads_of_stores {m : Nat} {ys : List (TaggedT α)} {v : NonCachedVector.Vector n (TaggedT α)}
    (hv : Stores v 0 ys) (hlen : ys.length = m * Z) : Reads Z m ys v := by
  refine ⟨fun v => Stores v 0 ys, hv, fun v hv j hj => ?_⟩
  have hle : (j + 1) * Z ≤ v.N := by
    rw [← hv.size, hlen]
    exact Nat.mul_le_mul_right Z hj
  obtain ⟨cachePage, hcopy⟩ := hv.copyIn (show j * Z ≤ (j + 1) * Z by rw [Nat.succ_mul]; omega) hle
  refine ⟨_, hcopy.trans ?_, hv.cache cachePage⟩
  rw [show (j + 1) * Z - j * Z = Z by rw [Nat.succ_mul]; omega]
  rfl

include U in
theorem reads_of_view {m : Nat} {ys : List (TaggedT α)} {v : NonCachedVector.Vector n (TaggedT α)}
    (hn : n ∣ Z) (hlen : ys.length = m * Z) (hN : ys.length ≤ v.N)
    (hv : ∀ i < ys.length, view v i = ys[i]?) : Reads Z m ys v := by
  refine ⟨fun v => ys.length ≤ v.N ∧ ∀ i < ys.length, view v i = ys[i]?, ⟨hN, hv⟩, ?_⟩
  rintro v ⟨hN, hv⟩ j hj
  have hle : j * Z + Z ≤ ys.length := by
    rw [hlen, ← Nat.succ_mul]
    exact Nat.mul_le_mul_right Z hj
  have hbucket := length_bucket hlen hj
  obtain ⟨v', hcopy, hN', hview⟩ : ∃ v', (extVectors U).copyIn (j * Z)
      (j * Z + (bucket Z j ys).length) v = some (bucket Z j ys, v') ∧ v'.N = v.N ∧
      view v' = view v := by
    refine (extVectors_lawful U).copyIn (hn.trans (Nat.dvd_mul_left Z j)) (by rwa [hbucket])
      (by rw [hbucket]; omega) fun i hi => ?_
    rw [hbucket] at hi
    rw [bucket, List.getElem?_take_of_lt hi, List.getElem?_drop, hv _ (by omega)]
  rw [hbucket, ← Nat.succ_mul] at hcopy
  exact ⟨v', hcopy, by rwa [hN'], by rwa [hview]⟩

omit [Inhabited α] in
theorem view_of_stores {xs : List (TaggedT α)} {v : NonCachedVector.Vector n (TaggedT α)}
    (hv : Stores v 0 xs) {i : Nat} (hi : i < xs.length) : view v i = xs[i]? := by
  have hdiv := Nat.div_add_mod i n
  rw [Nat.mul_comm] at hdiv
  have hlt : i < v.N := by rwa [← hv.size]
  obtain ⟨page, hhas, hagrees⟩ := hv.pages (i / n) (by omega)
  have hval : (Fin.ofNat n i).val = i % n := rfl
  have hget := hagrees (Fin.ofNat n i) (Nat.zero_le _) (by rw [hval]; omega)
  rw [hval, hdiv] at hget
  rw [view, if_pos hlt, hhas.read, hget, Option.map_some]

/-- **A whole vector** in external memory: it fits in memory, or the buckets are whole pages. -/
theorem externalButterflyRouting_ends {L : Nat} (hZ : 0 < Z)
    (hpages : fitsInMemory Z sizeofTaggedT heapSize (2 ^ L * Z) = true ∨ n ∣ Z)
    (hsplits : SplitsFour Z sizeofTaggedT heapSize L) {xs : List (TaggedT α)}
    {tv : NonCachedVector.Vector n (TaggedT α)} (htv : Stores tv 0 xs) (hbits : L ≤ 63)
    (hlen : xs.length = 2 ^ L * Z) (hhalf : 2 * (2 ^ L * Z) ≤ 2 ^ 63)
    (hproduct : 2 ^ L * Z * 2 ^ (L / 2) ≤ 2 ^ 64) :
    Ends (fun h => ∃ ys, Routed 0 L Z xs ys ∧ Reads Z (2 ^ L) ys (h.vecs 0))
    (fun e => e = .overflow)
      (externalButterflyRouting U Z sizeofTaggedT heapSize ⟨0, 0⟩ tv.N ⟨0, 0⟩ (maskAt 0)
        ⟨1, fun _ => tv⟩) := by
  have hN : tv.N = 2 ^ L * Z := htv.size.symm.trans hlen
  by_cases hfits : fitsInMemory Z sizeofTaggedT heapSize (2 ^ L * Z) = true
  · -- the whole vector is copied in and out
    have hmem : SplitsInMemory Z (getLogBaseTwo (2 ^ L * Z)) L := by
      cases hsplits with
      | leaf _ hmem => exact hmem
      | split hno => rw [hno] at hfits; cases hfits
    obtain ⟨cachePage, hin⟩ := htv.copyIn_all
    rw [externalButterflyRouting, hN, show maxDepth = 63 + 1 from rfl, routing, hfits, if_pos rfl,
      routeInMemory, Heap.copyIn, show (extVectors U).copyIn 0 (0 + 2 ^ L * Z) tv =
        some (xs, { tv with cachePage }) by rw [Nat.zero_add, ← hN]; exact hin]
    refine (routeInPlace_ends hZ hmem (by omega) hlen hhalf hproduct).bind fun ys hy => ?_
    obtain ⟨tv', hout, hstored⟩ :=
      copyOut_all (v := { tv with cachePage }) (hy.size.trans hN.symm) 0
    rw [Heap.copyOut]
    dsimp only
    rw [Function.update_self,
      show (extVectors U).copyOut ys 0 { tv with cachePage } = some tv' from hout]
    refine ⟨ys, hy, ?_⟩
    dsimp only
    rw [Function.update_self]
    exact reads_of_stores hstored hy.size
  · have hn : n ∣ Z := hpages.resolve_left hfits
    have hcall : Call NonCachedVector.Vector.N view 0 L Z ⟨1, fun _ => tv⟩ ⟨0, 0⟩ ⟨0, 0⟩ xs :=
      ⟨by omega, hlen, hhalf, hproduct, ⟨Nat.one_pos, by rw [htv.size]; exact (Nat.zero_add _).le,
        fun i hi => by rw [Nat.zero_add]; exact view_of_stores htv hi⟩, Nat.dvd_zero _, Nat.one_pos,
        by rw [← hN]; exact (Nat.zero_add _).le, Nat.dvd_zero _⟩
    have hends := externalButterflyRouting_routes U hZ hn hsplits
      (show L < 64 by omega) _ _ _ _ hcall
    rw [← hN] at hends
    refine hends.mono ?_ fun _ => id
    rintro h ⟨ys, hy, hholds, hf⟩
    refine ⟨ys, hy, ?_⟩
    refine reads_of_view U hn hy.size ?_ fun i hi => ?_
    · have := hholds.size
      rwa [Nat.zero_add] at this
    · have := hholds.elements i hi
      rwa [Nat.zero_add] at this

end

end External

/-! ## Tag and pad -/

theorem dummyFlag_even (r : BitVec 64) (x : α) : dummyFlag (⟨r &&& -2, x⟩ : TaggedT α) = false := by
  rw [dummyFlag]
  change (r &&& -2 &&& 1 != 0) = false
  rw [BitVec.and_assoc, show (-2 : BitVec 64) &&& 1 = 0#64 by decide, BitVec.and_zero]
  rfl

theorem dummyFlag_odd (r : BitVec 64) (x : α) : dummyFlag (⟨r ||| 1, x⟩ : TaggedT α) = true := by
  rw [dummyFlag, bne_iff_ne]
  intro hzero
  have hbit := congrArg (fun t => BitVec.getLsbD t 0) hzero
  simp at hbit

section Tagging

variable (D : Draws α) (numReal : Nat)

theorem tagSlots_spec (count offset slot : Nat) (input : List α) :
    (tagSlots D numReal count offset slot input).1.length = count ∧
      (reals (tagSlots D numReal count offset slot input).1).map TaggedT.v =
        input.take (min count (numReal - offset)) ∧
      (tagSlots D numReal count offset slot input).2 = input.drop
        (min count (numReal - offset)) := by
  induction count generalizing offset slot input with
  | zero => exact ⟨rfl, by simp [tagSlots, reals], by simp [tagSlots]⟩
  | succ count ih =>
    by_cases hoff : offset < numReal
    · cases input with
      | nil =>
        obtain ⟨hlen, hreals, hrest⟩ := ih (offset + 1) (slot + 1) []
        simp only [tagSlots, if_pos hoff]
        refine ⟨by rw [List.length_cons, hlen], ?_, by rw [hrest, List.drop_nil, List.drop_nil]⟩
        rw [reals, List.filter_cons_of_neg (by rw [dummyFlag_odd]; simp), ← reals, hreals,
          List.take_nil, List.take_nil]
      | cons x input =>
        obtain ⟨hlen, hreals, hrest⟩ := ih (offset + 1) (slot + 1) input
        have hmin : min (count + 1) (numReal - offset) = min count
          (numReal - (offset + 1)) + 1 := by
          omega
        simp only [tagSlots, if_pos hoff]
        refine ⟨by rw [List.length_cons, hlen], ?_, by rw [hrest, hmin, List.drop_succ_cons]⟩
        rw [reals, List.filter_cons_of_pos (by rw [dummyFlag_even]; simp), ← reals, List.map_cons,
          hreals, hmin, List.take_succ_cons]
    · obtain ⟨hlen, hreals, hrest⟩ := ih (offset + 1) (slot + 1) input
      have hmin : min (count + 1) (numReal - offset) = min count
        (numReal - (offset + 1)) := by omega
      simp only [tagSlots, if_neg hoff]
      refine ⟨by rw [List.length_cons, hlen], ?_, by rw [hrest, hmin]⟩
      rw [reals, List.filter_cons_of_neg (by rw [dummyFlag_odd]; simp), ← reals, hreals, hmin]

theorem tagBuckets_spec (Z count slot : Nat) (input : List α) :
    (tagBuckets D Z numReal count slot input).length = count * Z ∧
      (reals (tagBuckets D Z numReal count slot input)).map TaggedT.v =
        input.take (count * min Z numReal) := by
  induction count generalizing slot input with
  | zero => exact ⟨by simp [tagBuckets], by simp [tagBuckets, reals]⟩
  | succ count ih =>
    obtain ⟨hlen, hreals, hrest⟩ := tagSlots_spec D numReal Z 0 slot input
    obtain ⟨hlens, hall⟩ := ih (slot + Z) (tagSlots D numReal Z 0 slot input).2
    rw [tagBuckets]
    refine ⟨?_, ?_⟩
    · rw [List.length_append, hlen, hlens, Nat.succ_mul, Nat.add_comm]
    · rw [reals_append, List.map_append, hreals, hall, hrest, Nat.sub_zero,
        Nat.succ_mul, Nat.add_comm, List.take_add]

end Tagging

/-- The number of layers of a shuffle. -/
def numLayer (Z inputSize : Nat) : Nat := Nat.log 2 (intermediateSize Z inputSize / Z)

/-- The sizes that 64-bit words hold: of the padded elements twice, and of the products with which
the routing computes positions. -/
structure SizesFit (Z inputSize : Nat) : Prop where
  input : 2 * inputSize ≤ 2 ^ 62
  bucket : Z ≤ 2 ^ 62
  product : intermediateSize Z inputSize * 2 ^ (numLayer Z inputSize / 2) ≤ 2 ^ 64

/-- The buckets of a shuffle are a power of two, and hold the input. -/
theorem SizesFit.layers {z N : Nat} (h : SizesFit (2 ^ z) N) :
    intermediateSize (2 ^ z) N = 2 ^ numLayer (2 ^ z) N * 2 ^ z ∧ numLayer (2 ^ z) N + z ≤ 62 ∧
      N ≤ 2 ^ numLayer (2 ^ z) N * 2 ^ z := by
  have hzpos : 0 < 2 ^ z := Nat.two_pow_pos z
  have hz : z ≤ 62 := (Nat.pow_le_pow_iff_right (by decide : 1 < 2)).1 h.bucket
  obtain ⟨L, hL, hL62, hN⟩ : ∃ L, intermediateSize (2 ^ z) N = 2 ^ L * 2 ^ z ∧ L + z ≤ 62 ∧
      N ≤ 2 ^ L * 2 ^ z := by
    rcases Nat.eq_zero_or_pos N with rfl | hpos
    · refine ⟨0, ?_, by omega, Nat.zero_le _⟩
      rw [intermediateSize,
        show getNextPowerOfTwo (2 * 0) = 0 by decide, Nat.zero_max, Nat.pow_zero,
        Nat.one_mul]
    · have hnext := getNextPowerOfTwo_eq (show 1 ≤ 2 * N by omega)
        (h.input.trans (Nat.pow_le_pow_right (by decide) (by decide)))
      have hclog : Nat.clog 2 (2 * N) ≤ 62 := Nat.clog_le_of_le_pow h.input
      have hle := Nat.le_pow_clog (show 1 < 2 by decide) (2 * N)
      rw [intermediateSize, hnext]
      rcases Nat.le_total z (Nat.clog 2 (2 * N)) with hc | hc
      · have hpow : 2 ^ (Nat.clog 2 (2 * N) - z) * 2 ^ z = 2 ^ Nat.clog 2 (2 * N) := by
          rw [← Nat.pow_add, Nat.sub_add_cancel hc]
        refine ⟨Nat.clog 2 (2 * N) - z, ?_, by omega, by omega⟩
        rw [hpow, Nat.max_eq_left (Nat.pow_le_pow_right (by decide) hc)]
      · have hle' := Nat.pow_le_pow_right (show 0 < 2 by decide) hc
        refine ⟨0, ?_, by omega, by omega⟩
        rw [Nat.max_eq_right hle', Nat.pow_zero, Nat.one_mul]
  have hlog : numLayer (2 ^ z) N = L := by
    rw [numLayer, hL, Nat.mul_div_cancel _ hzpos, Nat.log_pow (by decide)]
  rw [hlog]
  exact ⟨hL, hL62, hN⟩

/-- **Tag and pad** keeps the input, in order. -/
theorem tagAndPadInternal_spec (D : Draws α) {Z L : Nat} (hZ : 0 < Z) {input : List α}
    (hsize : intermediateSize Z input.length = 2 ^ L * Z) (hN : input.length ≤ 2 ^ L * Z) :
    (tagAndPadInternal D Z input).length = 2 ^ L * Z ∧
      (reals (tagAndPadInternal D Z input)).map TaggedT.v = input := by
  have hpos := Nat.two_pow_pos L
  have hdiv : intermediateSize Z input.length / Z = 2 ^ L := by rw [hsize, Nat.mul_div_cancel _ hZ]
  have hround : divRoundUp input.length (2 ^ L) ≤ Z := by
    rw [divRoundUp, Nat.div_le_iff_le_mul hpos, Nat.mul_comm Z]
    omega
  have hall : input.length ≤ 2 ^ L * divRoundUp input.length (2 ^ L) := by
    have hmod := Nat.div_add_mod (input.length + 2 ^ L - 1) (2 ^ L)
    have hlt := Nat.mod_lt (input.length + 2 ^ L - 1) hpos
    rw [divRoundUp]
    omega
  rw [tagAndPadInternal, hdiv]
  obtain ⟨hlen, hreals⟩ := tagBuckets_spec D (divRoundUp input.length (2 ^ L)) Z (2 ^ L) 0 input
  rw [Nat.min_eq_right hround, List.take_of_length_le hall] at hreals
  exact ⟨hlen, hreals⟩

/-- A new vector written from its begin to its end. -/
theorem writeTagged_stores {n : Nat} [NeZero n] (U : Uninit n α) {size : Nat}
    {data : List (TaggedT α)}
    (hsize : data.length = size) : ∃ tv, writeTagged U size data = some tv ∧ Stores tv 0 data := by
  subst hsize
  obtain ⟨hinit, hw⟩ := (written_new (U.nounce 0) (U.page 0) data.length data).init (Nat.zero_mod n)
    U.writerCache data.length
  have hfrom : From data 0 data := fun i _ => by rw [Nat.zero_add]
  obtain ⟨hit, hwriting⟩ := hw.writeMany hfrom
  have hend : _ = data.length := hit.trans (Nat.zero_add _)
  obtain ⟨tv, hflush, hwritten⟩ := hwriting.flush (.inr (.inl hend)) U.originalPage
  refine ⟨tv, ?_, hwritten.stores hend hend.symm⟩
  rw [writeTagged]
  dsimp only [newVector] at hinit hflush ⊢
  rw [hinit, Option.bind_some]
  exact hflush

/-! ## The output -/

/-- In the order of the tags. -/
def Increasing (xs : List (TaggedT α)) : Prop := xs.Pairwise fun x y => x.tag.toNat < y.tag.toNat

theorem writeBucket_eq {b : List (TaggedT α)} {prev : BitVec 64} {written : List α}
    (hprev : ∀ x ∈ reals b, prev.toNat ≤ x.tag.toNat) (hsorted : Increasing (reals b)) :
    writeBucket b prev written =
      .ok (if reals b = [] then prev else 1, written ++ (reals b).map TaggedT.v) := by
  induction b generalizing prev written with
  | nil => simp [writeBucket, reals]
  | cons x b ih =>
    rw [writeBucket]
    cases hd : dummyFlag x with
    | true =>
      have hreals : reals (x :: b) = reals b := List.filter_cons_of_neg (by simp [hd])
      rw [hreals] at hprev hsorted ⊢
      rw [if_pos rfl, ih hprev hsorted]
    | false =>
      have hreals : reals (x :: b) = x :: reals b := List.filter_cons_of_pos (by simp [hd])
      rw [hreals] at hprev hsorted ⊢
      obtain ⟨hx, hb⟩ := List.pairwise_cons.1 hsorted
      have hult : x.tag.ult prev = false := by
        rw [BitVec.ult_eq_decide, decide_eq_false_iff_not]
        exact Nat.not_lt.2 (hprev x List.mem_cons_self)
      have hrest : ∀ y ∈ reals b, (1 : BitVec 64).toNat ≤ y.tag.toNat := fun y hy =>
        Nat.succ_le_of_lt (Nat.zero_lt_of_lt (hx y hy))
      rw [if_neg Bool.false_ne_true, hult, if_neg Bool.false_ne_true, ih hrest hb, ite_self,
        if_neg (List.cons_ne_nil _ _), List.map_cons, List.append_assoc, List.singleton_append]

/-- The state of the output when `j` buckets have been written. -/
def outputState (srt : Nat → List (TaggedT α)) (j : Nat) : BitVec 64 × List α :=
  (if gather j (fun i => reals (srt i)) = [] then 0 else 1,
    (gather j fun i => reals (srt i)).map TaggedT.v)

section Output

variable {srt : Nat → List (TaggedT α)} {m : Nat}

/-- One bucket more. -/
theorem writeBucket_outputState (hsorted : Increasing (gather m fun i => reals (srt i))) {j : Nat}
    (hj : j < m) :
    writeBucket (srt j) (outputState srt j).1 (outputState srt j).2 =
      .ok (outputState srt (j + 1)) := by
  have hfront : Increasing (gather (j + 1) fun i => reals (srt i)) := by
    obtain ⟨d, rfl⟩ := Nat.exists_eq_add_of_le (show j + 1 ≤ m by omega)
    rw [gather_add] at hsorted
    exact (List.pairwise_append.1 hsorted).1
  rw [gather_succ] at hfront
  obtain ⟨-, hbucket, hlt⟩ := List.pairwise_append.1 hfront
  rw [writeBucket_eq (fun x hx => ?_) hbucket]
  · simp only [outputState, gather_succ, List.map_append, List.append_eq_nil_iff]
    by_cases hempty : gather j (fun i => reals (srt i)) = []
    · by_cases hnew : reals (srt j) = [] <;> simp [hempty, hnew]
    · by_cases hnew : reals (srt j) = [] <;> simp [hempty, hnew]
  · rw [outputState]
    by_cases hempty : gather j (fun i => reals (srt i)) = []
    · simp [hempty]
    · obtain ⟨y, hy⟩ := List.exists_mem_of_ne_nil _ hempty
      have hpos := hlt y hy x hx
      have hone : (1 : BitVec 64).toNat = 1 := rfl
      rw [if_neg hempty, hone]
      omega

end Output

theorem tagLess_decides :
    Net.Decides (fun x y : TaggedT α => x.tag.toNat ≤ y.tag.toNat) tagLess where
  trans _ _ _ := Nat.le_trans
  le_of_cmp a b h := by
    rw [tagLess, BitVec.ult_eq_decide, decide_eq_true_iff] at h
    exact h.le
  le_of_not a b h := by
    rw [tagLess, BitVec.ult_eq_decide, decide_eq_false_iff_not] at h
    exact Nat.not_lt.1 h

theorem increasing_of_nodup {xs : List (TaggedT α)}
    (hle : xs.Pairwise fun x y => x.tag.toNat ≤ y.tag.toNat) (hnodup : (xs.map TaggedT.tag).Nodup) :
    Increasing xs :=
  (hle.and (List.pairwise_map.1 hnodup)).imp fun h =>
    Nat.lt_of_le_of_ne h.1 fun heq => h.2 (BitVec.eq_of_toNat_eq heq)

/-- The elements of a routing in the order of the output: each bucket sorted by the tags. -/
def inOrder (L Z : Nat) (ys : List (TaggedT α)) : List (TaggedT α) :=
  gather (2 ^ L) fun j => reals (bitonicSortList tagLess (bucket Z j ys))

section InOrder

variable {L Z : Nat} {xs ys : List (TaggedT α)} (hr : Routed 0 L Z xs ys)

include hr

theorem inOrder_perm : List.Perm (inOrder L Z ys) (reals xs) := by
  have hperm : List.Perm (inOrder L Z ys) (gather (2 ^ L) fun j => ofDigit 0 L j (reals xs)) :=
    gather_perm fun j hj =>
      (reals_perm (bitonicSortList_perm _ _)).trans (hr.buckets j hj)
  exact hperm.trans (gather_ofDigit_perm 0 L _)

/-- **The buckets in order**: by the top bits of the tags, and in a bucket by the whole tags. -/
theorem inOrder_increasing (hL : L ≤ 63) (hZ : Z ≤ 2 ^ 63)
    (htags : ((reals xs).map TaggedT.tag).Nodup) : Increasing (inOrder L Z ys) := by
  have hnodup := ((inOrder_perm hr).map TaggedT.tag).nodup_iff.2 htags
  have hle : (inOrder L Z ys).Pairwise fun x y => x.tag.toNat ≤ y.tag.toNat := by
    refine pairwise_gather (fun j hj => ?_) fun i j hij hj x hx y hy => ?_
    · exact (bitonicSortList_sorted tagLess_decides
        (by rw [length_bucket hr.size hj]; exact hZ)).filter _
    · have hdigit : ∀ {j x}, j < 2 ^ L → x ∈ reals (bitonicSortList tagLess (bucket Z j ys)) →
          digit 0 L x = j := fun {j x} hj hx => by
        have hmem := ((reals_perm (bitonicSortList_perm _ _)).trans (hr.buckets j hj)).mem_iff.1 hx
        simpa using (List.mem_filter.1 hmem).2
      have hi := hdigit (hij.trans hj) hx
      have hj := hdigit hj hy
      -- a greater tag has a greater digit: the digit is all of the tag above its bit
      by_contra hgt
      have hmono : y.tag.toNat / 2 ^ (64 - 0 - L) ≤ x.tag.toNat / 2 ^ (64 - 0 - L) :=
        Nat.div_le_div_right (by omega)
      have hsmall : ∀ t : BitVec 64, t.toNat / 2 ^ (64 - 0 - L) % 2 ^ L =
        t.toNat / 2 ^ (64 - 0 - L) :=
        fun t => by
          refine Nat.mod_eq_of_lt ?_
          rw [Nat.div_lt_iff_lt_mul (Nat.two_pow_pos _), ← Nat.pow_add,
            show L + (64 - 0 - L) = 64 by omega]
          exact t.isLt
      rw [digit, hsmall] at hi hj
      omega
  exact increasing_of_nodup hle hnodup

end InOrder

/-! ## The shuffles -/

/-- With two layers in one bin packing the recursion in memory ends. -/
theorem splitsInMemory_of_two_le {Z gamma : Nat} (hZ : 0 < Z) (hgamma : 2 ≤ gamma) (L : Nat) :
    SplitsInMemory Z gamma L := by
  induction L using Nat.strongRecOn with
  | ind L ih =>
    have hdiv : 2 ^ L * Z / Z = 2 ^ L := Nat.mul_div_cancel _ hZ
    by_cases hleaf : 2 ^ L ≤ gamma
    · exact .leaf (by rw [hdiv]; simpa using hleaf) trivial
    · have hL : 2 ≤ L := by
        by_contra hlt
        have := Nat.pow_le_pow_right (show 0 < 2 by decide) (show L ≤ 1 by omega)
        omega
      exact .split (by rw [hdiv]; simpa using hleaf) hL (ih _ (by omega)) (ih _ (by omega))

theorem SplitsFour.inMemory {z L sizeofTaggedT heapSize : Nat} (hbits : L + z < 64)
    (h : SplitsFour (2 ^ z) sizeofTaggedT heapSize L) :
    SplitsInMemory (2 ^ z) (getLogBaseTwo (2 ^ L * 2 ^ z)) L := by
  cases h with
  | leaf _ hmem => exact hmem
  | split _ hL =>
    refine splitsInMemory_of_two_le (Nat.two_pow_pos z) ?_ L
    rw [← Nat.pow_add, getLogBaseTwo_two_pow _ hbits]
    omega

section Shuffles

variable [Inhabited α] {n : Nat} [NeZero n] (U : Uninit n α) (D : Draws α) {L Z : Nat}
  {input : List α}

theorem shuffleInternalOutput_ends {tv : List (TaggedT α)} (htv : tagAndPadInternal D Z input = tv)
    (hroute : Ends (Routed 0 L Z tv) (fun e => e = .overflow)
      (routeInPlace Z (getLogBaseTwo tv.length) (1#64 <<< 63) tv))
    (hL : L ≤ 63) (hZ : 0 < Z) (hZ' : Z ≤ 2 ^ 63) (htags : ((reals tv).map TaggedT.tag).Nodup) :
    Ends (fun out => ∃ l, List.Perm l (reals tv) ∧ Increasing l ∧ out = l.map TaggedT.v)
      (fun e => e = .overflow) (shuffleInternalOutput Z D input) := by
  rw [shuffleInternalOutput, htv]
  refine hroute.bind fun ys hy => ?_
  have hsorted := inOrder_increasing hy hL hZ' htags
  rw [hy.size, Nat.mul_div_cancel _ hZ,
    forRange_eq_ok (outputState fun j => bitonicSortList tagLess (bucket Z j ys)) ?_ ?_]
  · exact ⟨inOrder L Z ys, inOrder_perm hy, hsorted, rfl⟩
  · rfl
  · exact fun j hj => writeBucket_outputState hsorted hj

theorem routeAndOutput_ends {sizeofTaggedT heapSize : Nat} {data : List (TaggedT α)}
    {tv : NonCachedVector.Vector n (TaggedT α)} (hN : tv.N = 2 ^ L * Z)
    (hroute : Ends (fun h => ∃ ys, Routed 0 L Z data ys ∧ Reads Z (2 ^ L) ys (h.vecs 0))
      (fun e => e = .overflow) (externalButterflyRouting U Z sizeofTaggedT heapSize
        ⟨0, 0⟩ tv.N ⟨0, 0⟩ (1#64 <<< 63) ⟨1, fun _ => tv⟩))
    (hL : L ≤ 63) (hZ : 0 < Z) (hZ' : Z ≤ 2 ^ 63) (htags : ((reals data).map TaggedT.tag).Nodup) :
    Ends (fun out => ∃ l, List.Perm l (reals data) ∧ Increasing l ∧ out = l.map TaggedT.v)
      (fun e => e = .overflow) (routeAndOutput U Z sizeofTaggedT heapSize tv) := by
  rw [routeAndOutput]
  refine hroute.bind ?_
  rintro h ⟨ys, hy, I, hI, hreads⟩
  have hsorted := inOrder_increasing hy hL hZ' htags
  rw [hN, Nat.mul_div_cancel _ hZ]
  have hends : Ends (fun s : NonCachedVector.Vector n (TaggedT α) × BitVec 64 × List α => I s.1 ∧
      s.2 = outputState (fun j => bitonicSortList tagLess (bucket Z j ys)) (2 ^ L))
      (fun e => e = Abort.overflow) (forRange (2 ^ L) (outputBucket Z) (h.vecs 0, 0, [])) := by
    refine forRange_ends (fun j (s : NonCachedVector.Vector n (TaggedT α) × BitVec 64 × List α) =>
      I s.1 ∧
      s.2 = outputState (fun j => bitonicSortList tagLess (bucket Z j ys)) j) ⟨hI, rfl⟩ ?_
    rintro j hj ⟨v, state⟩ ⟨hv, rfl⟩
    obtain ⟨v', hcopy, hv'⟩ := hreads v hv j hj
    rw [outputBucket, hcopy]
    dsimp only
    rw [writeBucket_outputState hsorted hj]
    exact ⟨hv', rfl⟩
  cases hrun : forRange (2 ^ L) (outputBucket Z) (h.vecs 0, 0, []) with
  | error e =>
    rw [hrun] at hends
    exact hends
  | ok s =>
    rw [hrun] at hends
    refine ⟨inOrder L Z ys, inOrder_perm hy, hsorted, ?_⟩
    change s.2.2 = _
    rw [hends.2]
    rfl

omit [Inhabited α] in
/-- Two arrangements of one list in the order of the tags are the same. -/
theorem Increasing.unique {l l' : List (TaggedT α)} (h : Increasing l) (h' : Increasing l')
    (hperm : List.Perm l l') : l = l' :=
  hperm.eq_of_pairwise (fun _ _ _ _ h1 h2 => absurd h1 (Nat.lt_asymm h2)) h h'

variable {z sizeofTaggedT heapSize : Nat}

theorem shuffleOutput_eq {tv : NonCachedVector.Vector n (TaggedT α)}
    (htv : tagAndPad U D Z input = some tv) :
    shuffleOutput U Z sizeofTaggedT heapSize D input = routeAndOutput U Z sizeofTaggedT
      heapSize tv := by
  rw [shuffleOutput, htv]
  rfl

/-- The sizes and the tags of a shuffle: 64-bit words hold the sizes, the padded vector is routed in
memory or a bucket is a number of pages, a part that is split has four buckets at least, and no two
elements have the same tag. -/
structure Admissible (z sizeofTaggedT heapSize n : Nat) (D : Draws α) (input : List α) : Prop where
  sizes : SizesFit (2 ^ z) input.length
  pages : fitsInMemory (2 ^ z) sizeofTaggedT heapSize
    (intermediateSize (2 ^ z) input.length) = true ∨
    n ∣ 2 ^ z
  splits : SplitsFour (2 ^ z) sizeofTaggedT heapSize (numLayer (2 ^ z) input.length)
  tags : ((reals (tagAndPadInternal D (2 ^ z) input)).map TaggedT.tag).Nodup

/-- What the shuffles give their writers: unless a bin packing overflows, both recursions bring
every real element to the bucket that the top bits of its tag name, and both shuffles write exactly
the input elements, in the order of their tags. -/
theorem outputs_ordered (h : Admissible z sizeofTaggedT heapSize n D input) :
    Ends (Routed 0 (numLayer (2 ^ z) input.length) (2 ^ z)
        (tagAndPadInternal D (2 ^ z) input)) (fun e => e = .overflow)
      (routeInPlace (2 ^ z) (getLogBaseTwo (tagAndPadInternal D (2 ^ z) input).length) (1#64 <<< 63)
        (tagAndPadInternal D (2 ^ z) input)) ∧
    (∃ tv, tagAndPad U D (2 ^ z) input = some tv ∧ Stores tv 0 (tagAndPadInternal D (2 ^ z) input) ∧
      Ends (fun h => ∃ ys, Routed 0 (numLayer (2 ^ z) input.length) (2 ^ z)
          (tagAndPadInternal D (2 ^ z) input) ys ∧ Reads (2 ^ z)
          (2 ^ numLayer (2 ^ z) input.length) ys (h.vecs 0))
        (fun e => e = .overflow) (externalButterflyRouting U
          (2 ^ z) sizeofTaggedT heapSize ⟨0, 0⟩ tv.N ⟨0, 0⟩ (1#64 <<< 63) ⟨1, fun _ => tv⟩)) ∧
    (reals (tagAndPadInternal D (2 ^ z) input)).map TaggedT.v = input ∧
    ∃ l, List.Perm l (reals (tagAndPadInternal D (2 ^ z) input)) ∧ Increasing l ∧
      Ends (fun out => out = l.map TaggedT.v) (fun e => e = .overflow)
        (shuffleInternalOutput (2 ^ z) D input) ∧
      Ends (fun out => out = l.map TaggedT.v) (fun e => e = .overflow)
        (shuffleOutput U (2 ^ z) sizeofTaggedT heapSize D input) := by
  obtain ⟨hsize, hbits, hN⟩ := h.sizes.layers
  have hproduct := h.sizes.product
  have hpages := h.pages
  have hsplits := h.splits
  have hZ := Nat.two_pow_pos z
  have hZ' : 2 ^ z ≤ 2 ^ 63 := h.sizes.bucket.trans (Nat.pow_le_pow_right (by decide) (by decide))
  obtain ⟨hlen, hvals⟩ := tagAndPadInternal_spec D hZ hsize hN
  obtain ⟨tv, htv, hstores⟩ := writeTagged_stores U (hlen.trans hsize.symm)
  rw [hsize] at hproduct hpages
  have hshort : (reals (tagAndPadInternal D (2 ^ z) input)).length ≤ 2 ^ 63 := by
    have := congrArg List.length hvals
    have := h.sizes.input
    rw [List.length_map] at *
    omega
  generalize numLayer (2 ^ z) input.length = L at *
  have hhalf : 2 * (2 ^ L * 2 ^ z) ≤ 2 ^ 63 := by
    rw [← Nat.pow_add, ← Nat.pow_succ']
    exact Nat.pow_le_pow_right (by decide) (by omega)
  have hinternal := routeInPlace_ends hZ (hsplits.inMemory (by omega)) (o := 0)
    (by omega) hlen hhalf hproduct
  rw [← hlen] at hinternal
  have hexternal := externalButterflyRouting_ends U hZ hpages hsplits hstores (by omega) hlen hhalf
    hproduct
  have hout := shuffleInternalOutput_ends D rfl hinternal (by omega) hZ hZ' h.tags
  have hout' := routeAndOutput_ends U (hstores.size.symm.trans hlen) hexternal
    (by omega) hZ hZ' h.tags
  refine ⟨hinternal, ⟨tv, htv, hstores, hexternal⟩, hvals,
    bitonicSortList tagLess (reals (tagAndPadInternal D (2 ^ z) input)),
    bitonicSortList_perm _ _, ?_⟩
  have hperm := bitonicSortList_perm tagLess (reals (tagAndPadInternal D (2 ^ z) input))
  have hsorted := increasing_of_nodup (bitonicSortList_sorted tagLess_decides hshort)
    ((hperm.map TaggedT.tag).nodup_iff.2 h.tags)
  -- there is one list in the order of the tags
  have hone : ∀ out, (∃ l, List.Perm l (reals (tagAndPadInternal D (2 ^ z) input)) ∧ Increasing l ∧
      out = l.map TaggedT.v) →
      out = (bitonicSortList tagLess (reals (tagAndPadInternal D (2 ^ z) input))).map
        TaggedT.v := by
    rintro out ⟨l, hl, hincreasing, rfl⟩
    rw [hincreasing.unique hsorted (hl.trans hperm.symm)]
  refine ⟨hsorted, hout.mono hone fun _ => id, ?_⟩
  rw [shuffleOutput_eq U D htv]
  exact hout'.mono hone fun _ => id

end Shuffles

end EM.Algorithm.CABucketSort
