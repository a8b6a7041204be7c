import OblSort.Algorithm.Proof.DistriRouting

/-!
# The layers of pages of a distribution sorter

The strides of `KWayDistriSort` go through the pages of a range as long as positions fit into an
`int` (`sortStrides_eq`), and so each layer of pages routes the range it is given
(`KWayDistriSort_routed`).
-/

namespace EM.Algorithm.KWayDistriSorter

open EM.DynamicPageVector Loop Store Strided

variable {α σ ρ : Type} {S : KWayDistriSorter α}

/-! ## Positions -/

theorem addInt_eq {it n : Nat} (hit : it < 2 ^ 63) (hn : n < 2 ^ 31) : addInt it n = it + n := by
  have hmsb : (BitVec.ofNat 32 n).msb = false := by
    rw [BitVec.msb_eq_decide, BitVec.toNat_ofNat, Nat.mod_eq_of_lt (by omega)]
    simp only [decide_eq_false_iff_not, Nat.not_le]
    omega
  rw [addInt, BitVec.signExtend_eq_setWidth_of_msb_false hmsb, BitVec.toNat_add,
    BitVec.toNat_setWidth, BitVec.toNat_ofNat, BitVec.toNat_ofNat]
  omega

/-- Page `q` of a range with stride `st`, as an offset from the begin of a stride. -/
theorem page_eq {b st w k j Z T : Nat} (hZ : 0 < Z) (hT : T * Z < 2 ^ 31)
    (hlt : b + (k * w + j) * st < T) :
    ((b + k * (st * w)) * Z + j * st * Z) % 2 ^ 64 / Z = b + (k * w + j) * st := by
  have hmul : (b + k * (st * w)) * Z + j * st * Z = (b + (k * w + j) * st) * Z := by ring
  have hle := Nat.mul_le_mul_right Z (Nat.le_of_lt hlt)
  rw [hmul, Nat.mod_eq_of_lt (by omega), Nat.mul_div_cancel _ hZ]

/-- The begin of a column. -/
theorem begin_eq {b st i Z T : Nat} (hlt : b + i * st < T) (hT : T * Z < 2 ^ 31) :
    (b * Z + i * st * Z) % 2 ^ 64 = (b + i * st) * Z := by
  have hle := Nat.mul_le_mul_right Z (Nat.le_of_lt hlt)
  rw [← Nat.add_mul, Nat.mod_eq_of_lt (by omega)]

variable [SortKey α]

/-- The strides of a layer go through the rows of its range. -/
theorem sortStrides_eq (I : IOVector ρ α) (V : Vector σ (List (Block α)))
    (uninit : Nat → Nat → List (Block α)) {l b st F : Nat} (hb : b < st)
    (hw : 0 < S.numInternalWay l)
    (hZ : 0 < S.Z) (hT : st * (F * S.numInternalWay l) = S.numTotalBucket)
    (hsmall : S.numTotalBucket * S.Z < 2 ^ 31) (s : State α σ ρ) :
    S.sortStrides I V uninit (S.numTotalBucket * S.Z) l (b * S.Z) st s =
      forRange F (fun k => S.sortStride I V l st ((b + k * (st * S.numInternalWay l)) * S.Z) k)
        (allocate uninit s) >>= fun s => if S.isLastLayer l then flush I s else .ok s := by
  generalize hw' : S.numInternalWay l = w at hw hT
  have hrow : F * (st * w) = S.numTotalBucket := by
    rw [← hT]
    ring
  have hstride : ∀ k, (b + k * (st * w)) * S.Z + st * w * S.Z = (b + (k + 1) * (st * w)) * S.Z :=
    fun k => by ring
  have hF : F ≤ F * (st * w) := Nat.le_mul_of_pos_right F (Nat.mul_pos (by omega) hw)
  have hpages : S.numTotalBucket ≤ S.numTotalBucket * S.Z := Nat.le_mul_of_pos_right _ hZ
  have hle : st ≤ st * w := Nat.le_mul_of_pos_right st hw
  have hlt : ∀ k < F, b + k * (st * w) < S.numTotalBucket := fun k hk => by
    have hk' := Nat.mul_le_mul_right (st * w) (show k + 1 ≤ F from hk)
    rw [Nat.succ_mul] at hk'
    omega
  rw [sortStrides, hw']
  congr 1
  have hpos : forStride (fun it => addInt it (st * w * S.Z)) (S.numTotalBucket * S.Z)
      (fun s => (.noReturn, s)) (S.sortStride I V l st) (S.numTotalBucket * S.Z + 1)
      ((b + 0 * (st * w)) * S.Z) 0 (allocate uninit s) =
      forRange F (fun k => S.sortStride I V l st ((b + k * (st * w)) * S.Z) (0 + k))
        (allocate uninit s) := by
    refine forStride_eq_forRange (fun k => (b + k * (st * w)) * S.Z) (fun k hk => ?_)
      (fun k hk => ?_) ?_ (by omega) 0 _
    · exact Nat.mul_lt_mul_of_pos_right (hlt k hk) hZ
    · have h1 := Nat.mul_lt_mul_of_pos_right (hlt k hk) hZ
      have h2 : st * w * S.Z ≤ S.numTotalBucket * S.Z := by
        refine Nat.mul_le_mul_right _ ?_
        rw [← hrow]
        exact Nat.le_mul_of_pos_left _ (by omega)
      rw [addInt_eq (by omega) (by omega), hstride]
    · refine Nat.mul_le_mul_right _ ?_
      omega
  simpa using hpos

/-! ## Plain pages -/

/-- The state over plain pages. -/
abbrev PState (α : Type) := LState α (Nat → List (Block α))

/-- The pages all have their size. -/
def Paged (S : KWayDistriSorter α) (s : PState α) : Prop := ∀ p, (s.vec p).length = S.Z

section Copies

variable {b st l k : Nat} (hZ : 0 < S.Z) (hsmall : S.numTotalBucket * S.Z < 2 ^ 31)
  (hlt : ∀ j < S.numInternalWay l, b + (k * S.numInternalWay l + j) * st < S.numTotalBucket)

include hZ hsmall hlt

omit [SortKey α] in
theorem fetchStride_eq (h0 : l ≠ 0) (s : PState α) :
    S.fetchStride (Vector.plain _) l st ((b + k * (st * S.numInternalWay l)) * S.Z) s = .ok { s with
      batch := putAll id (fun j => s.vec (b + (k * S.numInternalWay l + j) * st))
        (S.numInternalWay l) s.batch } := by
  rw [fetchStride, if_neg h0]
  refine forRange_eq_ok (fun n => { s with
    batch := putAll id (fun j => s.vec (b + (k * S.numInternalWay l + j) * st)) n s.batch }) rfl
    fun j hj => ?_
  rw [copyIn, page_eq hZ hsmall (hlt j hj)]
  rfl

omit [SortKey α] in
theorem writeStride_eq (s : PState α) :
    S.writeStride (Vector.plain _) l st ((b + k * (st * S.numInternalWay l)) * S.Z) s = .ok { s with
      vec := putAll (fun j => b + (k * S.numInternalWay l + j) * st) s.batch (S.numInternalWay l)
        s.vec } := by
  rw [writeStride]
  refine forRange_eq_ok (fun n => { s with
    vec := putAll (fun j => b + (k * S.numInternalWay l + j) * st) s.batch n s.vec }) rfl
    fun j hj => ?_
  rw [copyOut, page_eq hZ hsmall (hlt j hj)]
  rfl

end Copies

/-! ## One stride -/

omit [SortKey α] in
theorem isLastLayer_eq_false {l : Nat} (h : l < S.distriParams.ways.length) :
    S.isLastLayer l = false :=
  beq_false_of_ne (Nat.ne_of_lt h)

omit [SortKey α] in
theorem numInternalWay_eq {l : Nat} (h : l < S.distriParams.ways.length) :
    S.numInternalWay l = (S.waysOf l).prod := by
  rw [numInternalWay, isLastLayer_eq_false h, if_neg Bool.false_ne_true, getVecProduct_eq]

theorem Valid.numInternalWay_pos (hS : S.Valid) {l : Nat} (hl : l < S.distriParams.ways.length) :
    0 < S.numInternalWay l := by
  rw [numInternalWay_eq hl]
  exact prod_pos_of_ways (hS.way_range _ (waysOf_mem hl))

variable [IsStrictWeakOrder α SortKey.Lt] (heq : SortKey.EqIsIncomp α) (hS : S.Valid)

/-- What is in the buckets of a row before a layer: nothing in the first one. -/
def rowHeld (S : KWayDistriSorter α) (l b st k : Nat) (s : PState α) : Multiset (α × BitVec 32) :=
  if l = 0 then 0
  else ∑ j ∈ Finset.range (S.numInternalWay l),
  contents (s.vec (b + (k * S.numInternalWay l + j) * st))

/-- What a stride of a layer does: the elements `ents` of row `k`, which it held or read, are split
into units of `v`. -/
structure RowRouted (S : KWayDistriSorter α) (l v b st k : Nat) (s s' : PState α) : Prop where
  row : ∃ ents vals, ents + givenKeys s = S.rowHeld l b st k s + givenKeys s' ∧
    s'.vec = putAll (fun j => b + (k * S.numInternalWay l + j) * st) vals
      (S.numInternalWay l) s.vec ∧
    ∀ i < S.numInternalWay l, (vals i).length = S.Z ∧
      contents (vals i) = unit (dest S.allPivots) v (k * S.numInternalWay l + i) ents
  given : l ≠ 0 → s'.given = s.given
  sized : S.Sized s'
  rest : s'.io.rest = s.io.rest.drop (S.reads l (S.numInternalWay l))
  partitions : s'.partitions = s.partitions
  written : s'.io.written = s.io.written

omit [SortKey α] [IsStrictWeakOrder α SortKey.Lt] in
/-- The pages of a row are in the buffer, except in the first layer. -/
theorem fetchStride_spec {l b st k : Nat} (hZ : 0 < S.Z) (hsmall : S.numTotalBucket * S.Z < 2 ^ 31)
    (hlt : ∀ j < S.numInternalWay l, b + (k * S.numInternalWay l + j) * st < S.numTotalBucket)
    {s : PState α} (hs : S.Sized s) (hp : S.Paged s) :
    ∃ batch, S.fetchStride (Vector.plain _) l st ((b + k * (st * S.numInternalWay l)) * S.Z) s =
        .ok { s with batch } ∧ S.Sized { s with batch } ∧
      ∑ j ∈ Finset.range (S.numInternalWay l), source l { s with batch } (0 + j * 1) =
        S.rowHeld l b st k s := by
  by_cases h0 : l = 0
  · refine ⟨s.batch, by rw [fetchStride, if_pos h0], hs, ?_⟩
    rw [rowHeld, if_pos h0]
    exact Finset.sum_eq_zero fun j _ => by rw [source, if_pos h0]
  · refine ⟨_, fetchStride_eq hZ hsmall hlt h0 s, putAll_forall
      (P := fun b : List (Block α) => b.length = S.Z) hs fun j _ => hp _, ?_⟩
    rw [rowHeld, if_neg h0]
    refine Finset.sum_congr rfl fun j hj => ?_
    rw [source, if_neg h0, Nat.zero_add, Nat.mul_one]
    exact congrArg contents (putAll_idx (fun _ _ _ _ h => h) (Finset.mem_range.1 hj))

include hS in
omit [IsStrictWeakOrder α SortKey.Lt] in
theorem Valid.Z_pos : 0 < S.Z := by
  obtain ⟨m, -, hZ⟩ := hS.Z
  rw [hZ]
  exact Nat.two_pow_pos m

include heq hS in
/-- **One stride** of a layer splits one row. -/
theorem sortStride_spec {l v b st k F : Nat} (hl : l < S.distriParams.ways.length) (hv : 0 < v)
    (hst : st = S.partitionSize * v) (hk : k < F)
    (hF : F * S.numInternalWay l * v = S.distriParams.totalPartition) (hb : b < st)
    (hfirst : l = 0 → F = 1) {s : PState α} (hs : S.Sized s) (hp : S.Paged s)
    (hunit : l ≠ 0 → ∀ y ∈ S.rowHeld l b st k s, dest S.allPivots y /
      (v * S.numInternalWay l) = k) :
    Ends (S.RowRouted l v b st k s) (S.StopsOn (S.rowHeld l b st k s) s)
      (S.sortStride InOut.vector (Vector.plain _) l st ((b + k * (st * S.numInternalWay l)) * S.Z) k
        s) := by
  have hlen : 0 < (S.waysOf l).length := List.length_pos_iff.2 (hS.inner_ne_nil _ (waysOf_mem hl))
  have hT : st * (F * S.numInternalWay l) = S.numTotalBucket := by
    rw [hS.totalBucket, ← hF, hst]
    ring
  have hlt : ∀ j < S.numInternalWay l, b + (k * S.numInternalWay l + j) * st < S.numTotalBucket :=
    fun j hj => by
      rw [← hT]
      exact column_lt hb (grid_lt hk hj)
  have hprod := numInternalWay_eq hl
  obtain ⟨batch, hfetch, hsized, hheld⟩ := fetchStride_spec hS.Z_pos hS.small hlt hs hp
  rw [sortStride, hfetch, ok_bind, isLastLayer_eq_false hl, if_neg Bool.false_ne_true]
  have hps : st / S.partitionSize = v := by rw [hst, Nat.mul_div_cancel_left _ hS.partitionSize_pos]
  have hbasic := KWayDistriSortBasic_spec heq hS hl hv (c := k) ?_ ?_
    (show (S.waysOf l).length - 1 < (S.waysOf l).length by omega) Nat.one_pos
    (F := (S.waysOf l).prod) ?_ (Nat.one_mul _) hsized ?_
  · rw [← hprod, hheld] at hbasic
    rw [hps]
    refine Ends.bind hbasic ?_
    rintro s₂ ⟨ents, h₂, hr⟩
    have hents := h₂.ents
    rw [hheld] at hents
    rw [writeStride_eq hS.Z_pos hS.small hlt, h₂.same.vec]
    refine ⟨⟨ents, s₂.batch, hents, rfl, fun i hi => ⟨h₂.sized i, ?_⟩⟩, h₂.given, h₂.sized, h₂.rest,
      h₂.same.partitions, h₂.same.written⟩
    have := hr i hi
    rwa [Nat.zero_add, Nat.mul_one, Nat.mul_one] at this
  · rw [← hprod, ← hF]
    calc (k * S.numInternalWay l + S.numInternalWay l) * v =
      (k + 1) * S.numInternalWay l * v := by ring
      _ ≤ F * S.numInternalWay l * v := Nat.mul_le_mul_right _ (Nat.mul_le_mul_right _ hk)
  · intro h0
    obtain rfl := hfirst h0
    exact ⟨by omega, by rw [← hprod, ← hF, Nat.one_mul, Nat.mul_comm]⟩
  · rw [Nat.sub_add_cancel hlen, List.take_length]
  · intro j hj y hy
    rw [← hprod] at hj ⊢
    by_cases h0 : l = 0
    · simp [source, h0] at hy
    · refine hunit h0 y ?_
      rw [← hheld]
      exact Multiset.mem_sum.2 ⟨j, Finset.mem_range.2 hj, hy⟩

/-! ## Layers -/

/-- The number of pages in a range of the layers up to `l`. -/
def rangePages (S : KWayDistriSorter α) (l : Nat) : Nat :=
  ((S.distriParams.ways.take (l + 1)).map List.prod).prod

omit [SortKey α] [IsStrictWeakOrder α SortKey.Lt] in
theorem rangePages_zero (h : 0 < S.distriParams.ways.length) :
    S.rangePages 0 = S.numInternalWay 0 := by
  rw [numInternalWay_eq h, rangePages, waysOf, List.getD_eq_getElem _ _ h, List.map_take,
    List.prod_take_succ _ _ (by simpa using h)]
  simp

omit [SortKey α] [IsStrictWeakOrder α SortKey.Lt] in
theorem rangePages_succ {l : Nat} (h : l + 1 < S.distriParams.ways.length) :
    S.rangePages (l + 1) = S.rangePages l * S.numInternalWay (l + 1) := by
  rw [numInternalWay_eq h, rangePages, rangePages, waysOf, List.getD_eq_getElem _ _ h,
    List.map_take, List.map_take, List.prod_take_succ _ _ (by simpa using h), List.getElem_map]

/-- What the layers up to one do to the pages `b`, `b + st`, …: `ents` has been read. -/
structure PageStep (S : KWayDistriSorter α) (b st reads : Nat) (ents : Multiset (α × BitVec 32))
    (s s' : PState α) : Prop where
  ents : ents + givenKeys s = givenKeys s'
  frame : ∀ p, p % st ≠ b → s'.vec p = s.vec p
  paged : S.Paged s'
  rest : s'.io.rest = s.io.rest.drop reads
  partitions : s'.partitions = s.partitions
  written : s'.io.written = s.io.written

omit [SortKey α] [IsStrictWeakOrder α SortKey.Lt] in
theorem PageStep.refl {b st : Nat} {s : PState α} (hp : S.Paged s) : S.PageStep b st 0 0 s s :=
  ⟨by simp, fun _ _ => rfl, hp, by simp, rfl, rfl⟩

omit [SortKey α] [IsStrictWeakOrder α SortKey.Lt] in
/-- One column more. -/
theorem PageStep.next {b st w i reads reads' : Nat} {ents ents' : Multiset (α × BitVec 32)}
    {s s₁ s₂ : PState α} (h : S.PageStep b st reads ents s s₁) (hb : b < st)
    (h' : S.PageStep (b + i * st) (st * w) reads' ents' s₁ s₂) :
    S.PageStep b st (reads + reads') (ents + ents') s s₂ where
  ents := by
    rw [add_comm ents, add_assoc, h.ents, h'.ents]
  frame p hp := by rw [h'.frame p (ne_column hb hp i), h.frame p hp]
  paged := h'.paged
  rest := by rw [h'.rest, h.rest, List.drop_drop]
  partitions := h'.partitions.trans h.partitions
  written := h'.written.trans h.written

omit [SortKey α] [IsStrictWeakOrder α SortKey.Lt] in
theorem PageStep.stops {b st reads : Nat} {ents held : Multiset (α × BitVec 32)} {s s₁ : PState α}
    (h : S.PageStep b st reads ents s s₁) (hle : held ≤ ents) {e : Stop α _ (InOut α)}
    (he : S.StopsOn held s₁ e) : S.StopsOn 0 s e := by
  have hcard := congrArg Multiset.card h.ents
  have hstop := he.2
  have hheld := Multiset.card_le_card hle
  simp only [Multiset.card_add, card_givenKeys] at hcard
  refine ⟨he.1, ?_⟩
  rw [Multiset.card_zero]
  omega

/-- A range of `F` pages is routed in units of `v`. -/
def RoutesPages (S : KWayDistriSorter α) (v b st F : Nat) (s s' : PState α) : Prop :=
  ∃ ents, S.PageStep b st (F * S.numRealPerBucket) ents s s' ∧
    Strided.RangeRouted contents (dest S.allPivots) v 0 b st F ents s'.vec

variable {uninit : Nat → Nat → List (Block α)} (huninit : ∀ n p, (uninit n p).length = S.Z)

include heq hS huninit in
/-- The first layer. -/
theorem sortStrides_first {v b st : Nat} (hl : 0 < S.distriParams.ways.length) (hv : 0 < v)
    (hst : st = S.partitionSize * v) (hF : S.rangePages 0 * v = S.distriParams.totalPartition)
    (hb : b < st) {s : PState α} (hp : S.Paged s) :
    Ends (S.RoutesPages v b st (S.rangePages 0) s) (S.StopsOn 0 s)
      (S.sortStrides InOut.vector (Vector.plain _) uninit (S.numTotalBucket * S.Z) 0
        (b * S.Z) st s) := by
  rw [rangePages_zero hl] at hF ⊢
  have hT : st * (1 * S.numInternalWay 0) = S.numTotalBucket := by
    rw [hS.totalBucket, ← hF, hst]
    ring
  rw [sortStrides_eq _ _ _ hb (hS.numInternalWay_pos hl) hS.Z_pos hT hS.small,
    isLastLayer_eq_false hl, forRange_succ, forRange_zero, ok_bind]
  refine Ends.bind (sortStride_spec heq hS hl hv hst Nat.one_pos (by rw [Nat.one_mul, hF]) hb
    (fun _ => rfl) (s := allocate uninit s) (fun p => huninit _ p) hp fun h0 => absurd rfl h0) ?_
  intro s' h'
  obtain ⟨ents, vals, hents, hvec, hvals⟩ := h'.row
  rw [rowHeld, if_pos rfl, zero_add] at hents
  refine ⟨ents, ⟨hents, fun p hp' => ?_, fun p => ?_, ?_, h'.partitions, h'.written⟩,
    fun k hk => ?_⟩
  · rw [hvec, putAll_row hb hp']
    rfl
  · rw [hvec]
    exact putAll_forall (P := fun b : List (Block α) => b.length = S.Z) hp
      (fun i hi => (hvals i hi).1) p
  · rw [h'.rest, reads, if_pos rfl]
    rfl
  · have hrow := (hvals k hk).2
    rw [Nat.zero_mul] at hrow
    rw [hvec, ← hrow]
    simp only [Nat.zero_mul, Nat.zero_add]
    rw [putAll_idx (fun i _ j _ h => row_inj hb h) hk]

include heq hS huninit in
/-- A further layer on top of its columns. -/
theorem sortStrides_next {l v b st F : Nat} (hl : l + 1 < S.distriParams.ways.length) (hv : 0 < v)
    (hst : st = S.partitionSize * v)
    (hF : F * S.numInternalWay (l + 1) * v = S.distriParams.totalPartition) (hb : b < st)
    {reads : Nat} {ents : Multiset (α × BitVec 32)} {s s₁ : PState α}
    (h₁ : S.PageStep b st reads ents s s₁)
    (hcol : ColumnsRouted contents (dest S.allPivots) (v * S.numInternalWay (l + 1)) 0 b st
      (S.numInternalWay (l + 1)) F (S.numInternalWay (l + 1)) ents s₁.vec) :
    Ends (fun s' => S.PageStep b st reads ents s s' ∧
        Strided.RangeRouted contents (dest S.allPivots) v 0 b st (F * S.numInternalWay (l + 1)) ents
          s'.vec)
      (S.StopsOn 0 s)
      (S.sortStrides InOut.vector (Vector.plain _) uninit (S.numTotalBucket * S.Z) (l + 1) (b * S.Z)
        st s₁) := by
  have hT : st * (F * S.numInternalWay (l + 1)) = S.numTotalBucket := by
    rw [hS.totalBucket, ← hF, hst]
    ring
  rw [sortStrides_eq _ _ _ hb (hS.numInternalWay_pos hl) hS.Z_pos hT hS.small,
    isLastLayer_eq_false hl]
  refine Ends.bind (Q := fun s' => S.PageStep b st reads ents s s' ∧ Strided.LayerUpTo contents
    (dest S.allPivots) v 0 b st (S.numInternalWay (l + 1)) F F ents s'.vec) ?_ ?_
  · refine (forRange_ends (s := allocate uninit s₁) (fun k s' => S.Sized s' ∧
      S.PageStep b st reads ents s s' ∧
      Strided.LayerUpTo contents (dest S.allPivots) v 0 b st
        (S.numInternalWay (l + 1)) F k ents s'.vec)
      ⟨fun p => huninit _ p, ⟨h₁.ents, h₁.frame, h₁.paged, h₁.rest, h₁.partitions, h₁.written⟩,
        hcol.layer⟩ ?_).mono (fun _ h => h.2) fun _ he => he
    rintro k hk s₂ ⟨hs₂, h₂, hr⟩
    have hrow : S.rowHeld (l + 1) b st k s₂ =
        unit (dest S.allPivots) (v * S.numInternalWay (l + 1)) (0 + k) ents := by
      rw [rowHeld, if_neg (by omega)]
      exact hr.ahead k hk (Nat.le_refl k)
    refine (sortStride_spec heq hS hl hv hst hk hF hb (fun h => by omega) hs₂ h₂.paged
      fun _ y hy => ?_).mono (fun s₃ h₃ => ?_) fun e he => h₂.stops (hrow ▸ unit_le) he
    · rw [hrow] at hy
      simpa using (mem_unit.1 hy).2
    · obtain ⟨ents', vals, hents, hvec, hvals⟩ := h₃.row
      have hgiven := h₃.given (by omega)
      have hents' : ents' = S.rowHeld (l + 1) b st k s₂ := by
        rw [givenKeys, givenKeys, hgiven] at hents
        exact add_right_cancel hents
      refine ⟨h₃.sized, ⟨?_, fun p hp => ?_, fun p => ?_, ?_, h₃.partitions.trans h₂.partitions,
        h₃.written.trans h₂.written⟩, ?_⟩
      · rw [h₂.ents, givenKeys, givenKeys, hgiven]
      · rw [hvec, putAll_row hb hp, h₂.frame p hp]
      · rw [hvec]
        exact putAll_forall (P := fun b : List (Block α) => b.length = S.Z) h₂.paged
          (fun i hi => (hvals i hi).1) p
      · rw [h₃.rest, h₂.rest, KWayDistriSorter.reads, if_neg (by omega), List.drop_zero]
      · rw [hvec]
        refine hr.next hb hk fun i hi => ?_
        rw [(hvals i hi).2, hents', rowHeld, if_neg (by omega), Nat.zero_add]
  · rintro s' ⟨h', hr⟩
    have := hr.routed
    rw [Nat.zero_mul] at this
    exact ⟨h', this⟩

/-- The first `i` of `w` columns of pages are routed. -/
def ColumnPages (S : KWayDistriSorter α) (u b st w F i : Nat) (s s' : PState α) : Prop :=
  ∃ ents, S.PageStep b st (i * F * S.numRealPerBucket) ents s s' ∧
    ColumnsRouted contents (dest S.allPivots) u 0 b st w F i ents s'.vec

omit [IsStrictWeakOrder α SortKey.Lt] in
/-- The calls for the columns, one after the other. -/
theorem columns_spec {u b st w F : Nat} (hb : b < st)
    {call : Nat → PState α → Except (Stop α _ _) (PState α)} (hcall : ∀ i < w, ∀ s, S.Paged s →
      Ends (S.RoutesPages u (b + i * st) (st * w) F s) (S.StopsOn 0 s) (call i s))
    {s : PState α} (hp : S.Paged s) :
    Ends (S.ColumnPages u b st w F w s) (S.StopsOn 0 s) (forRange w call s) := by
  refine forRange_ends (S.ColumnPages u b st w F · s) ⟨0, ?_, .zero⟩ ?_
  · rw [Nat.zero_mul, Nat.zero_mul]
    exact .refl hp
  · rintro i hi s₁ ⟨ents, h₁, hcol⟩
    refine (hcall i hi s₁ h₁.paged).mono ?_ fun e he => h₁.stops (Multiset.zero_le _) he
    rintro s₂ ⟨ents', h₂, hr⟩
    refine ⟨ents + ents', ?_, hcol.next hb hi hr h₂.frame⟩
    have := h₁.next hb h₂
    rwa [← Nat.add_mul, ← Nat.succ_mul] at this

include heq hS huninit in
/-- **The layers of pages** route the range they are given. -/
theorem KWayDistriSort_routed {l v b st : Nat} (hl : l < S.distriParams.ways.length) (hv : 0 < v)
    (hst : st = S.partitionSize * v) (hF : S.rangePages l * v = S.distriParams.totalPartition)
    (hb : b < st) {s : PState α} (hp : S.Paged s) :
    Ends (S.RoutesPages v b st (S.rangePages l) s) (S.StopsOn 0 s)
      (S.KWayDistriSort InOut.vector (Vector.plain _) uninit (S.numTotalBucket * S.Z) l (b * S.Z) st
        s) := by
  induction l generalizing v b st s with
  | zero => exact sortStrides_first heq hS huninit hl hv hst hF hb hp
  | succ l ih =>
    rw [rangePages_succ hl] at hF ⊢
    rw [KWayDistriSort]
    have hall : 0 < S.rangePages l * S.numInternalWay (l + 1) * v := hF ▸ hS.totalPartition_pos
    have hpos : 0 < S.rangePages l := Nat.pos_of_mul_pos_right (Nat.pos_of_mul_pos_right hall)
    have hw := hS.numInternalWay_pos hl
    have hT : S.numTotalBucket = st * (S.rangePages l * S.numInternalWay (l + 1)) := by
      rw [hS.totalBucket, ← hF, hst]
      ring
    refine Ends.bind (columns_spec (u := v * S.numInternalWay (l + 1)) (F := S.rangePages l) hb
      (fun i hi s hp => ?_) hp) ?_
    · have hlt : b + i * st < S.numTotalBucket := by
        rw [hT]
        exact column_lt hb (hi.trans_le (Nat.le_mul_of_pos_left _ hpos))
      rw [begin_eq hlt hS.small]
      refine ih (by omega) (Nat.mul_pos hv hw) ?_ ?_ (column_lt hb hi) hp
      · rw [hst, Nat.mul_assoc]
      · rw [← hF]
        ring
    · rintro s₁ ⟨ents, h₁, hcol⟩
      refine (sortStrides_next heq hS huninit hl hv hst hF hb h₁ hcol).mono ?_ fun _ he => he
      rintro s' ⟨h', hr⟩
      rw [Nat.mul_comm (S.numInternalWay (l + 1))] at h'
      exact ⟨ents, h', hr⟩

end EM.Algorithm.KWayDistriSorter
