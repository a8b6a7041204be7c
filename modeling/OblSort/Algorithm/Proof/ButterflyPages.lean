import OblSort.Algorithm.Proof.ButterflyBuffer

/-!
# The layers of pages

`KWayButterflySort` below the last layer, on pages that authenticate: the pages of the range it is
given are routed (`KWayButterflySort_routed`). One batch of a layer is one column of the grid
that `LayerUpTo` describes.
-/

namespace EM.Algorithm.ButterflySorter

open EM.DynamicPageVector Loop Store

variable {α σ : Type} {S : ButterflySorter}

/-- The state over plain pages. -/
abbrev PState (α : Type) := State α (Nat → List (TaggedT α))

/-! ## Copying a batch -/

theorem fetchBatch_eq {ioLayer : Nat} (h0 : ioLayer ≠ 0) (begin batchIdx batchBegin : Nat)
    (s : PState α) :
    S.fetchBatch (Vector.plain _) ioLayer begin batchIdx batchBegin s = .ok { s with
      batch := putAll (fun u => batchBegin + u)
        (fun u => s.vec (begin + (batchIdx + S.fetchInterval ioLayer * u)))
        (S.waysOf ioLayer).prod s.batch } := by
  rw [fetchBatch, if_neg h0, getVecProduct_eq]
  refine forRange_eq_ok (fun n => { s with
    batch := putAll (fun u => batchBegin + u)
      (fun u => s.vec (begin + (batchIdx + S.fetchInterval ioLayer * u))) n s.batch })
    rfl fun i _ => ?_
  rfl

theorem writeBatch_eq (ioLayer begin batchIdx : Nat) (s : PState α) :
    S.writeBatch (Vector.plain _) ioLayer begin batchIdx s = .ok { s with
      vec := putAll (fun u => begin + (batchIdx + S.fetchInterval ioLayer * u))
        s.batch (S.waysOf ioLayer).prod s.vec } := by
  rw [writeBatch, getVecProduct_eq]
  refine forRange_eq_ok (fun n => { s with
    vec := putAll (fun u => begin + (batchIdx + S.fetchInterval ioLayer * u)) s.batch n s.vec })
    rfl fun i _ => ?_
  rfl

theorem fetchBatch_zero (V : Vector σ (List (TaggedT α))) (begin batchIdx batchBegin : Nat)
    (s : State α σ) : S.fetchBatch V 0 begin batchIdx batchBegin s = .ok s := by
  rw [fetchBatch, if_pos rfl]

/-- The batch `n` of the layer `ioLayer` on the range at `begin` has been fetched to
`batchBegin`. -/
structure Fetched (S : ButterflySorter) (ioLayer begin n batchBegin : Nat) (s s' : PState α) :
    Prop where
  batch : ∀ u < (S.waysOf ioLayer).prod,
    s'.batch (batchBegin + u) = s.vec (begin + u * S.fetchInterval ioLayer + n)
  frame : ∀ p, (p < batchBegin ∨ batchBegin + (S.waysOf ioLayer).prod ≤ p) → s'.batch p = s.batch p
  sized : S.Sized s'
  reader : s'.reader = s.reader
  rest : SameRest s s'

theorem page_eq (begin F u b : Nat) : begin + (b + F * u) = begin + u * F + b := by
  rw [Nat.mul_comm]
  omega

theorem fetchBatch_fetched {ioLayer : Nat} (h0 : ioLayer ≠ 0) (begin n batchBegin : Nat)
    {s : PState α} (hs : S.Sized s) (hp : ∀ p, (s.vec p).length = S.Z)
    {E : Stop α (Nat → List (TaggedT α)) → Prop} :
    Ends (S.Fetched ioLayer begin n batchBegin s) E
      (S.fetchBatch (Vector.plain _) ioLayer begin n batchBegin s) := by
  rw [fetchBatch_eq h0]
  refine ⟨fun u hu => ?_, fun p hp => putAll_of_ne fun u hu h => by omega, ?_, rfl,
    (SameRest.refl s).set _ _⟩
  · dsimp only
    rw [putAll_idx (fun u _ u' _ h => by omega) hu, page_eq]
  · exact putAll_forall (P := fun b : List (TaggedT α) => b.length = S.Z) hs fun u _ => hp _

/-- What enters a batch that has been fetched. -/
theorem Fetched.source {ioLayer begin n batchBegin : Nat} (h0 : ioLayer ≠ 0) {s s' : PState α}
    (h : S.Fetched ioLayer begin n batchBegin s s') :
    gather (S.waysOf ioLayer).prod (S.source ioLayer s' batchBegin) =
      gather (S.waysOf ioLayer).prod fun u =>
        reals (s.vec (begin + u * S.fetchInterval ioLayer + n)) :=
  gather_congr fun u hu => by rw [ButterflySorter.source, if_neg h0, h.batch u hu]

/-! ## Layers -/

/-- The pages have changed from `s` to `s'` as `R` says, the reader is as given and nothing has been
written. -/
structure PageStep (S : ButterflySorter)
    (R : (Nat → List (TaggedT α)) → (Nat → List (TaggedT α)) → Prop)
    (reader : List (BitVec 64 × α)) (s s' : PState α) : Prop where
  vec : R s.vec s'.vec
  pages : ∀ p, (s'.vec p).length = S.Z
  sized : S.Sized s'
  reader : s'.reader = reader
  output : SameOutput s s'

/-- What a run that stops says about the elements that entered. -/
def StopsOn (S : ButterflySorter) (xs : List (TaggedT α)) (e : Stop α (Nat → List (TaggedT α))) :
    Prop :=
  e.1 = .mergeSplit ∧ Overfull S.Z xs

/-- The buckets of a batch after routing. -/
theorem routeBatch_spec (hv : S.Valid) (hl : S.KWayParams.LanesFit) {ioLayer : Nat}
    (hio : ioLayer < S.KWayParams.ways.length) (batchBegin : Nat) {s : PState α}
    (hs : S.Sized s) :
    Ends (S.RoutesRange ioLayer batchBegin (S.waysOf ioLayer).prod s)
      (S.StopsOn (gather (S.waysOf ioLayer).prod (S.source ioLayer s batchBegin)))
      (S.KWayButterflySortBasic ioLayer ((S.waysOf ioLayer).length - 1) batchBegin
        (getVecProduct (S.waysOf ioLayer)) s) := by
  have hne := hv.inner_ne_nil _ (waysOf_mem hio)
  have hlen : 0 < (S.waysOf ioLayer).length := List.length_pos_iff.2 hne
  have := KWayButterflySortBasic_spec hv hl hio
    (show (S.waysOf ioLayer).length - 1 < (S.waysOf ioLayer).length by omega) batchBegin hs
  rw [Nat.sub_add_cancel hlen, List.take_length] at this
  rw [getVecProduct_eq]
  exact this

theorem batchPerEnclave_eq_one {ioLayer : Nat} (h : S.isLastLayer ioLayer = false) :
    S.batchPerEnclave ioLayer = 1 := by
  simp [batchPerEnclave, h]

theorem isLastLayer_eq_false {ioLayer : Nat} (h : ioLayer + 1 < S.KWayParams.ways.length) :
    S.isLastLayer ioLayer = false := by
  rw [isLastLayer, beq_eq_false_iff_ne]
  omega

/-- Below the last layer a batch is fetched to the start of the buffer. -/
theorem sortBatch_inner {ioLayer : Nat} (h : ioLayer + 1 < S.KWayParams.ways.length)
    (V : Vector σ (List (TaggedT α))) (stdSort : List (TaggedT α) → List (TaggedT α))
    (begin batchCount : Nat) {batchIdx : Nat} (hin : S.InBuffer ioLayer batchIdx) (s : State α σ) :
    S.sortBatch V stdSort ioLayer begin batchCount batchIdx s =
      (do
        let s ← S.fetchBatch V ioLayer begin batchIdx 0 s >>=
          S.KWayButterflySortBasic ioLayer ((S.waysOf ioLayer).length - 1) 0
            (getVecProduct (S.waysOf ioLayer))
        S.writeBatch V ioLayer begin batchIdx s) := by
  rw [sortBatch, bind_assoc, batchPerEnclave_eq_one (isLastLayer_eq_false h),
    isLastLayer_eq_false h]
  rw [enterBatch_eq hin, ok_bind]
  simp only [Nat.mod_one, Nat.zero_mul, Bool.false_eq_true, if_false]

/-- The pages after a batch is written back have their size. -/
theorem writeBatch_sized {begin batchIdx F W : Nat} {s : PState α} (hs : S.Sized s)
    {vec : Nat → List (TaggedT α)} (hp : ∀ p, (vec p).length = S.Z) (p : Nat) :
    (putAll (fun u => begin + (batchIdx + F * u)) s.batch W vec p).length = S.Z :=
  putAll_forall (P := fun b : List (TaggedT α) => b.length = S.Z) hp (fun u _ => hs u) p

section Layers

variable (hv : S.Valid) (hl : S.KWayParams.LanesFit) (hf : S.Fits)
  (stdSort : List (TaggedT α) → List (TaggedT α))

include hv hl

include hf in
/-- The first layer reads the input. -/
theorem sortBatch_first (h : 0 + 1 < S.KWayParams.ways.length) (begin batchCount : Nat)
    {s : PState α} (hs : S.Sized s) (hp : ∀ p, (s.vec p).length = S.Z) :
    Ends (S.PageStep (RangeRouted (S.source 0 s 0) begin (S.waysOf 0).prod)
        (S.readerAfter 0 (S.waysOf 0).prod s) s)
      (S.StopsOn (gather (S.waysOf 0).prod (S.source 0 s 0)))
      (S.sortBatch (Vector.plain _) stdSort 0 begin batchCount 0 s) := by
  rw [sortBatch_inner h _ _ _ _ (hf 0 (by omega) 0 Nat.one_pos), fetchBatch_zero, ok_bind]
  refine Ends.bind (routeBatch_spec hv hl (by omega) 0 hs) fun s₂ h₂ => ?_
  rw [writeBatch_eq, fetchInterval_zero, h₂.rest.vec]
  refine ⟨?_, writeBatch_sized h₂.sized hp, h₂.sized, h₂.reader, ⟨h₂.rest.written,
    h₂.rest.mergeSortRanges, h₂.rest.lastBuckets, h₂.rest.handed⟩⟩
  simp only [Nat.zero_add, Nat.one_mul]
  refine ⟨fun q hq => ?_, fun p hp => putAll_of_ne fun u hu h => by omega⟩
  rw [putAll_idx (fun u _ u' _ h => by omega) hq]
  simpa using h₂.batch.routed q hq

/-- A batch of a further layer after fetching and routing: one column of the grid of its pages, in
the buffer at `batchBegin`. -/
structure RoutedBatch (S : ButterflySorter) (ioLayer begin n batchBegin : Nat) (s s' : PState α) :
    Prop where
  routed : ∀ u < (S.waysOf ioLayer).prod, List.Perm (reals (s'.batch (batchBegin + u)))
    (part (S.waysOf ioLayer).prod u (gather (S.waysOf ioLayer).prod fun u =>
      reals (s.vec (begin + u * S.fetchInterval ioLayer + n))))
  frame : ∀ p, (p < batchBegin ∨ batchBegin + (S.waysOf ioLayer).prod ≤ p) → s'.batch p = s.batch p
  sized : S.Sized s'
  reader : s'.reader = s.reader
  rest : SameRest s s'

theorem fetchRoute_ends {ioLayer : Nat} (h0 : ioLayer ≠ 0) (h : ioLayer < S.KWayParams.ways.length)
    (begin n batchBegin : Nat) {s : PState α} (hs : S.Sized s) (hp : ∀ p, (s.vec p).length = S.Z) :
    Ends (S.RoutedBatch ioLayer begin n batchBegin s)
      (S.StopsOn (gather (S.waysOf ioLayer).prod fun u =>
        reals (s.vec (begin + u * S.fetchInterval ioLayer + n))))
      (S.fetchBatch (Vector.plain _) ioLayer begin n batchBegin s >>=
        S.KWayButterflySortBasic ioLayer ((S.waysOf ioLayer).length - 1) batchBegin
          (getVecProduct (S.waysOf ioLayer))) := by
  refine (fetchBatch_fetched h0 begin n batchBegin hs hp).bind fun s₁ h₁ => ?_
  rw [← h₁.source h0]
  refine (routeBatch_spec hv hl h batchBegin h₁.sized).mono (fun s₂ h₂ => ?_) fun _ he => he
  refine ⟨fun u hu => ?_, fun p hp => (h₂.batch.frame p hp).trans (h₁.frame p hp), h₂.sized, ?_,
    h₁.rest.trans h₂.rest⟩
  · rw [← h₁.source h0]
    exact h₂.batch.routed u hu
  · rw [h₂.reader, readerAfter, if_neg h0, h₁.reader]

include hf in
/-- A batch of a further layer is written back to its column. -/
theorem sortBatch_next {ioLayer : Nat} (h : ioLayer + 1 + 1 < S.KWayParams.ways.length)
    (begin batchCount : Nat) {n : Nat} (hn : n < S.fetchInterval (ioLayer + 1)) {s s₁ : PState α}
    (h₁ : S.PageStep (LayerUpTo begin (S.waysOf (ioLayer + 1)).prod
      (S.fetchInterval (ioLayer + 1)) n) s.reader s s₁) :
    Ends (S.PageStep (LayerUpTo begin (S.waysOf (ioLayer + 1)).prod
        (S.fetchInterval (ioLayer + 1)) (n + 1)) s.reader s)
      (S.StopsOn (gather (S.waysOf (ioLayer + 1)).prod fun u =>
        reals (s.vec (begin + u * S.fetchInterval (ioLayer + 1) + n))))
      (S.sortBatch (Vector.plain _) stdSort (ioLayer + 1) begin batchCount n s₁) := by
  have hcol : (gather (S.waysOf (ioLayer + 1)).prod fun u =>
      reals (s₁.vec (begin + u * S.fetchInterval (ioLayer + 1) + n))) =
      gather (S.waysOf (ioLayer + 1)).prod fun u =>
        reals (s.vec (begin + u * S.fetchInterval (ioLayer + 1) + n)) :=
    gather_congr fun u _ => by rw [h₁.vec.old hn]
  rw [sortBatch_inner h _ _ _ _ (hf _ (by omega) n hn), ← hcol]
  refine (fetchRoute_ends hv hl (by omega) (by omega) begin n 0 h₁.sized h₁.pages).bind
    fun s₂ h₂ => ?_
  have hrouted := h₂.routed
  rw [hcol] at hrouted
  simp only [Nat.zero_add] at hrouted
  rw [writeBatch_eq, h₂.rest.vec]
  refine ⟨?_, writeBatch_sized h₂.sized h₁.pages, h₂.sized, h₂.reader.trans h₁.reader, ?_⟩
  · simp only [page_eq]
    exact h₁.vec.next hn hrouted
  · exact h₁.output.trans ⟨h₂.rest.written, h₂.rest.mergeSortRanges, h₂.rest.lastBuckets,
      h₂.rest.handed⟩

/-- What a layer does to its range: route what enters it. -/
def RoutesPages (S : ButterflySorter) (begin n : Nat) (s : PState α) : PState α → Prop :=
  S.PageStep (RangeRouted (S.source 0 s 0) begin n) (S.readerAfter 0 n s) s

omit hv hl in
theorem source_drop {s s₁ : PState α} {n : Nat} (h : s₁.reader = S.readerAfter 0 n s) :
    S.source 0 s₁ 0 = fun q => S.source 0 s 0 (n + q) :=
  source_shift h fun h0 => absurd rfl h0

omit hv hl in
/-- The layers below, on each of `W` parts of `F` buckets. -/
theorem subLayers_routed (F W begin : Nat) {call : Nat → PState α → Except (Stop α _) (PState α)}
    (hcall : ∀ i (s : PState α), S.Sized s → (∀ p, (s.vec p).length = S.Z) →
      Ends (S.RoutesPages (begin + i * F) F s) (S.StopsOn (gather F (S.source 0 s 0))) (call i s))
    {s : PState α} (hs : S.Sized s) (hp : ∀ p, (s.vec p).length = S.Z) :
    Ends (S.PageStep (PartsRouted (S.source 0 s 0) begin F W) (S.readerAfter 0 (W * F) s) s)
      (S.StopsOn (gather (W * F) (S.source 0 s 0))) (forRange W call s) := by
  refine forRange_ends (fun i => S.PageStep (PartsRouted (S.source 0 s 0) begin F i)
    (S.readerAfter 0 (i * F) s) s) ⟨.zero, hp, hs, by simp [readerAfter], .refl s⟩
    fun i hi s₁ h₁ => ?_
  refine (hcall i s₁ h₁.sized h₁.pages).mono (fun s₂ h₂ => ?_) fun e he => ⟨he.1, ?_⟩
  · refine ⟨h₁.vec.next ?_, h₂.pages, h₂.sized, ?_, h₁.output.trans h₂.output⟩
    · rw [← source_drop h₁.reader]
      exact h₂.vec
    · rw [h₂.reader, readerAfter_shift h₁.reader, Nat.succ_mul]
  · refine he.2.of_sublist ?_
    rw [source_drop h₁.reader, gather_mul]
    exact sublist_gather hi fun i => gather F fun j => S.source 0 s 0 (i * F + j)

include hf in
/-- **Below the last layer** the pages of a range are routed. -/
theorem KWayButterflySort_routed {ioLayer : Nat} (h : ioLayer + 1 < S.KWayParams.ways.length)
    (begin : Nat) {s : PState α} (hs : S.Sized s) (hp : ∀ p, (s.vec p).length = S.Z) :
    Ends (S.RoutesPages begin (S.fetchInterval (ioLayer + 1)) s)
      (S.StopsOn (gather (S.fetchInterval (ioLayer + 1)) (S.source 0 s 0)))
      (S.KWayButterflySort (Vector.plain _) stdSort ioLayer begin
        (S.fetchInterval (ioLayer + 1)) s) := by
  induction ioLayer generalizing begin s with
  | zero =>
    rw [fetchInterval_succ, KWayButterflySort_first _ _ (hv.prod_pos (by omega)),
      fetchInterval_zero, Nat.one_mul]
    exact sortBatch_first hv hl hf stdSort h begin 1 hs hp
  | succ ioLayer ih =>
    have hW := hv.prod_pos (show ioLayer + 1 < S.KWayParams.ways.length by omega)
    have hF := hv.fetchInterval_pos (show ioLayer + 1 ≤ S.KWayParams.ways.length by omega)
    rw [fetchInterval_succ (ioLayer + 1), KWayButterflySort_next _ _ hW]
    have hsub := subLayers_routed _ (S.waysOf (ioLayer + 1)).prod begin (fun i s hs hp =>
      ih (by omega) (begin + i * S.fetchInterval (ioLayer + 1)) hs hp) hs hp
    rw [Nat.mul_comm] at hsub
    refine hsub.bind fun s₁ h₁ => ?_
    refine Ends.mono (forRange_ends (fun n => S.PageStep (LayerUpTo begin
      (S.waysOf (ioLayer + 1)).prod (S.fetchInterval (ioLayer + 1)) n) s₁.reader s₁)
      ⟨.zero, h₁.pages, h₁.sized, rfl, .refl s₁⟩ fun n hn s₂ h₂ =>
        (sortBatch_next hv hl hf stdSort h begin _ hn h₂).mono (fun _ h => h) fun e he => ?_)
      (fun s₂ h₂ => ?_) fun _ he => he
    · exact ⟨he.1, (he.2.of_perm (h₁.vec.column hn)).of_part hn⟩
    · exact ⟨h₁.vec.merge hF h₂.vec, h₂.pages, h₂.sized, h₂.reader.trans h₁.reader,
        h₁.output.trans h₂.output⟩

include hf in
/-- The layers below a layer route the pages of its parts. -/
theorem partsBelow_routed {ioLayer : Nat} (h : ioLayer + 1 < S.KWayParams.ways.length)
    {s : PState α} (hs : S.Sized s) (hp : ∀ p, (s.vec p).length = S.Z) :
    Ends (S.PageStep (PartsRouted (S.source 0 s 0) 0 (S.fetchInterval (ioLayer + 1))
        (S.waysOf (ioLayer + 1)).prod)
        (S.readerAfter 0 (S.fetchInterval (ioLayer + 1) * (S.waysOf (ioLayer + 1)).prod) s) s)
      (S.StopsOn (gather (S.fetchInterval (ioLayer + 1) * (S.waysOf (ioLayer + 1)).prod)
        (S.source 0 s 0)))
      (forRange (S.waysOf (ioLayer + 1)).prod (fun i => S.KWayButterflySort (Vector.plain _) stdSort
        ioLayer (0 + i * S.fetchInterval (ioLayer + 1)) (S.fetchInterval (ioLayer + 1))) s) := by
  rw [Nat.mul_comm]
  exact subLayers_routed _ _ 0 (fun i s hs hp =>
    KWayButterflySort_routed hv hl hf stdSort h (0 + i * S.fetchInterval (ioLayer + 1)) hs hp) hs hp

end Layers

end EM.Algorithm.ButterflySorter
