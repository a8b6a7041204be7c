import OblSort.Algorithm.Proof.ButterflyPages

/-!
# The butterfly network keeps the elements

Whatever the tags and however large the buckets, the layers of a butterfly sorter only move the
elements that entered. The statements follow those of the routing, with the elements of a whole
range in place of the classes of its buckets.
-/

namespace EM.Algorithm

open EM.DynamicPageVector Loop Store

/-! ## Ranges of a store of buckets -/

section Ranges

variable {α : Type} {begin way wb F i n : Nat} {m m₁ m₂ : Nat → List (TaggedT α)}

/-- What the real elements of `n` buckets carry. -/
def rangeData (begin n : Nat) (m : Nat → List (TaggedT α)) : List α :=
  gather n fun q => realData (m (begin + q))

theorem rangeData_add (begin n k : Nat) (m : Nat → List (TaggedT α)) :
    rangeData begin (n + k) m = rangeData begin n m ++ rangeData (begin + n) k m := by
  rw [rangeData, gather_add]
  simp only [rangeData, Nat.add_assoc]

theorem rangeData_congr (h : ∀ q < n, m₁ (begin + q) = m (begin + q)) :
    rangeData begin n m₁ = rangeData begin n m :=
  gather_congr fun q hq => by rw [h q hq]

theorem realData_gather (n : Nat) (f : Nat → List (TaggedT α)) :
    realData (gather n f) = gather n fun q => realData (f q) := by
  rw [realData, gather_filter, gather_map]
  rfl

/-- A range of a grid of buckets, column by column. -/
theorem rangeData_columns (begin way wb : Nat) (m : Nat → List (TaggedT α)) :
    List.Perm (rangeData begin (way * wb) m)
      (gather wb fun j => gather way fun i => realData (m (begin + i * wb + j))) := by
  rw [rangeData, gather_mul]
  simp only [← Nat.add_assoc]
  exact gather_comm way wb fun i j => realData (m (begin + i * wb + j))

/-- A column of a grid of buckets is exchanged for one with the same elements. -/
theorem rangeData_column {j : Nat} (hj : j < wb)
    (hcol : List.Perm (gather way fun i => realData (m₁ (begin + i * wb + j)))
      (gather way fun i => realData (m (begin + i * wb + j))))
    (hother : ∀ p, (∀ i < way, p ≠ begin + i * wb + j) → m₁ p = m p) :
    List.Perm (rangeData begin (way * wb) m₁) (rangeData begin (way * wb) m) := by
  refine (rangeData_columns begin way wb m₁).trans
    (List.Perm.trans (gather_perm fun j' hj' => ?_) (rangeData_columns begin way wb m).symm)
  by_cases hjj : j' = j
  · subst hjj
    exact hcol
  · refine List.Perm.of_eq (gather_congr fun i _ => ?_)
    rw [hother _ fun i' _ heq => hjj (grid_inj hj' hj heq).2]

/-- The elements `xs` are now in the range of `n` buckets; the rest of the store is as it was. -/
structure Holds (xs : List α) (begin n : Nat) (m m' : Nat → List (TaggedT α)) : Prop where
  data : List.Perm (rangeData begin n m') xs
  frame : ∀ p, (p < begin ∨ begin + n ≤ p) → m' p = m p

theorem Holds.refl (begin n : Nat) (m : Nat → List (TaggedT α)) :
    Holds (rangeData begin n m) begin n m m :=
  ⟨List.Perm.refl _, fun _ _ => rfl⟩

/-- The next part of a range. -/
theorem Holds.next {xs ys : List α} (h : Holds xs begin (i * F) m m₁)
    (h' : Holds ys (begin + i * F) F m₁ m₂) : Holds (xs ++ ys) begin ((i + 1) * F) m m₂ where
  data := by
    rw [Nat.succ_mul, rangeData_add, rangeData_congr fun q hq => h'.frame _ (by omega)]
    exact h.data.append h'.data
  frame p hp := by
    rw [Nat.succ_mul] at hp
    rw [h'.frame p (by omega), h.frame p (by omega)]

theorem Holds.trans {xs : List α} (h : Holds xs begin n m m₁)
    (h' : Holds (rangeData begin n m₁) begin n m₁ m₂) : Holds xs begin n m m₂ :=
  ⟨h'.data.trans h.data, fun p hp => (h'.frame p hp).trans (h.frame p hp)⟩

/-- New contents for a column. -/
theorem Holds.column {xs : List α} (h : Holds xs begin (way * wb) m m₁) {j : Nat} (hj : j < wb)
    {vals : Nat → List (TaggedT α)}
    (hvals : List.Perm (gather way fun i => realData (vals i))
      (gather way fun i => realData (m₁ (begin + i * wb + j)))) :
    Holds xs begin (way * wb) m (putAll (fun i => begin + i * wb + j) vals way m₁) where
  data := by
    refine (rangeData_column hj ?_ fun p hp => putAll_of_ne fun i hi h => hp i hi h.symm).trans
      h.data
    rwa [gather_congr fun i hi => by
      rw [putAll_idx (fun i _ i' _ heq => (grid_inj hj hj heq).1) hi]]
  frame p hp := by
    rw [putAll_of_ne fun i hi heq => by have := grid_lt hi hj; omega, h.frame p hp]

end Ranges

/-! ## In memory -/

namespace ButterflySorter

variable {α σ : Type} {S : ButterflySorter}

/-- The elements `xs` are now in the range of `n` buckets of the buffer. -/
abbrev KeepsRange (S : ButterflySorter) (xs : List α) (begin n : Nat)
    (reader : List (BitVec 64 × α)) (s : State α σ) : State α σ → Prop :=
  S.Step (Holds xs begin n) reader s

theorem mergeSplitLayer_keeps (hZ : ∃ m, 1 ≤ m ∧ S.Z = 2 ^ m) {begin way wb : Nat} (h2 : 2 ≤ way)
    (h8 : way ≤ 8) {s : State α σ} (hs : S.Sized s) :
    Ends (S.KeepsRange (rangeData begin (way * wb) s.batch) begin (way * wb) s.reader s)
      (fun e => e.1 = .mergeSplit) (S.mergeSplitLayer begin way wb s) := by
  obtain ⟨m, hm, hZm⟩ := hZ
  refine forRange_ends (fun _ => S.KeepsRange (rangeData begin (way * wb) s.batch) begin (way * wb)
    s.reader s) ⟨.refl _ _ _, hs, rfl, .refl s⟩ fun j hj s₁ h₁ => ?_
  rw [mergeSplitAt]
  cases hcall : mergeSplitKWay way S.Z ((List.range way).map fun i =>
      s₁.batch (begin + i * wb + j)) with
  | none => exact rfl
  | some out =>
    rw [hZm] at hcall
    obtain ⟨hlen, hsized, hperm⟩ := mergeSplitKWay_perm h2 h8 hm (by simp)
      (fun b hb => by
        obtain ⟨i, -, rfl⟩ := List.mem_map.1 hb
        exact (h₁.sized _).trans hZm) hcall
    have hout : out.flatten = gather way fun i => out.getD i [] := by
      rw [flatten_eq_flatMap_getD, hlen]
      rfl
    rw [hout, ← List.flatMap_def] at hperm
    change List.Perm (realData (gather way _)) (realData (gather way _)) at hperm
    rw [realData_gather, realData_gather] at hperm
    refine ⟨h₁.batch.column hj hperm, fun p => ?_, h₁.reader, h₁.rest.set _ _⟩
    refine putAll_forall (P := fun b : List (TaggedT α) => b.length = S.Z) h₁.sized
      (fun i hi => ?_) p
    rw [hZm, List.getD_eq_getElem _ _ (by omega)]
    exact hsized _ (List.getElem_mem _)

/-- What the elements that enter carry. -/
def entering (S : ButterflySorter) (ioLayer n : Nat) (s : State α σ) (begin : Nat) : List α :=
  (gather n (S.source ioLayer s begin)).map TaggedT.v

theorem entering_add {ioLayer begin n k : Nat} {s s' : State α σ}
    (hreader : s'.reader = S.readerAfter ioLayer n s)
    (hframe : ioLayer ≠ 0 → ∀ p, begin + n ≤ p → s'.batch p = s.batch p) :
    S.entering ioLayer n s begin ++ S.entering ioLayer k s' (begin + n) =
      S.entering ioLayer (n + k) s begin := by
  rw [entering, entering, entering, gather_add, List.map_append, source_shift hreader hframe]

/-- What enters `n` buckets is now in them. -/
abbrev Keeps (S : ButterflySorter) (ioLayer begin n : Nat) (s : State α σ) : State α σ → Prop :=
  S.KeepsRange (S.entering ioLayer n s begin) begin n (S.readerAfter ioLayer n s) s

theorem Keeps.start {ioLayer begin F : Nat} {s : State α σ} (hs : S.Sized s) :
    S.Keeps ioLayer begin (0 * F) s s := by
  rw [Nat.zero_mul]
  exact ⟨⟨.refl _, fun _ _ => rfl⟩, hs, by simp [readerAfter], .refl s⟩

/-- One part more. -/
theorem Keeps.next {ioLayer begin F i : Nat} {s s₁ s₂ : State α σ}
    (h : S.Keeps ioLayer begin (i * F) s s₁) (h' : S.Keeps ioLayer (begin + i * F) F s₁ s₂) :
    S.Keeps ioLayer begin ((i + 1) * F) s s₂ where
  batch := by
    have := h.batch.next h'.batch
    rwa [entering_add h.reader fun _ p hp => h.batch.frame p (.inr hp), ← Nat.succ_mul] at this
  sized := h'.sized
  reader := by rw [h'.reader, readerAfter_shift h.reader, Nat.succ_mul]
  rest := h.rest.trans h'.rest

theorem padBucket_keeps (hreal : S.numRealPerBucket ≤ S.Z) {p : Nat} {s : State α σ}
    (hs : S.Sized s) : S.Keeps 0 p 1 s (S.padBucket p s) := by
  obtain ⟨h1, h2, h3⟩ := tagAndPad_spec S.numRealPerBucket 0 (s.batch p) s.reader
  rw [Nat.sub_zero, hs, Nat.min_eq_left hreal] at h1 h2
  refine ⟨⟨List.Perm.of_eq ?_, fun p' hp => ?_⟩, fun p' => ?_, ?_, (SameRest.refl s).set _ _⟩
  · rw [rangeData, gather_one, padBucket_batch, Nat.add_zero, Function.update_self, entering,
      gather_one]
    change (reals _).map TaggedT.v = _
    rw [h1]
    simp [source]
  · rw [padBucket_batch, Function.update_of_ne (by omega)]
  · rw [padBucket_batch]
    by_cases hp : p' = p
    · subst hp
      rw [Function.update_self, h3, hs]
    · rw [Function.update_of_ne hp, hs]
  · rw [padBucket, h2]
    simp [readerAfter]

/-- **The layers in memory** keep what enters the range they are given. -/
theorem KWayButterflySortBasic_keeps (hv : S.Valid) {ioLayer : Nat}
    (hio : ioLayer < S.KWayParams.ways.length) {innerLayer : Nat}
    (hin : innerLayer < (S.waysOf ioLayer).length) (begin : Nat) {s : State α σ}
    (hs : S.Sized s) :
    Ends (S.Keeps ioLayer begin ((S.waysOf ioLayer).take (innerLayer + 1)).prod s)
      (fun e => e.1 = .mergeSplit)
      (S.KWayButterflySortBasic ioLayer innerLayer begin
        ((S.waysOf ioLayer).take (innerLayer + 1)).prod s) := by
  have hmem := waysOf_mem hio
  -- a layer of merge-splits on top of what its parts hold
  have hmerge : ∀ way F, 2 ≤ way → way ≤ 8 → ∀ begin, ∀ s s₁ : State α σ,
      S.Keeps ioLayer begin (way * F) s s₁ →
      Ends (S.Keeps ioLayer begin (F * way) s) (fun e => e.1 = .mergeSplit)
        (S.mergeSplitLayer begin way F s₁) := fun way F h2 h8 begin s s₁ h₁ => by
    rw [Nat.mul_comm F]
    exact (mergeSplitLayer_keeps hv.Z h2 h8 h₁.sized).mono (fun s₂ h₂ =>
      ⟨h₁.batch.trans h₂.batch, h₂.sized, h₂.reader.trans h₁.reader, h₁.rest.trans h₂.rest⟩)
      fun _ he => he
  induction innerLayer generalizing begin s with
  | zero =>
    obtain ⟨h2, h8⟩ := hv.way_range _ hmem _ (List.getElem_mem hin)
    have hprod : ((S.waysOf ioLayer).take (0 + 1)).prod = 1 * (S.waysOf ioLayer)[0] := by
      rw [List.prod_take_succ _ _ hin]
      rfl
    rw [KWayButterflySortBasic, List.getD_eq_getElem _ _ hin, hprod]
    generalize (S.waysOf ioLayer)[0] = way at h2 h8
    rw [Nat.mul_div_cancel _ (by omega)]
    refine Ends.bind (Q := S.Keeps ioLayer begin (way * 1) s) ?_ fun s₁ h₁ =>
      hmerge way 1 h2 h8 begin s s₁ h₁
    rw [padBuckets]
    split
    · subst ioLayer
      exact forRange_ends (fun i => S.Keeps 0 begin (i * 1) s) (.start hs) fun i _ s₁ h₁ =>
        h₁.next (padBucket_keeps hv.numReal h₁.sized)
    · rename_i h0
      refine ⟨⟨List.Perm.of_eq ?_, fun _ _ => rfl⟩, hs, by simp [readerAfter, h0], .refl s⟩
      rw [entering, gather_map]
      refine gather_congr fun q _ => ?_
      rw [source, if_neg h0]
      rfl
  | succ innerLayer ih =>
    obtain ⟨h2, h8⟩ := hv.way_range _ hmem _ (List.getElem_mem hin)
    rw [KWayButterflySortBasic, List.getD_eq_getElem _ _ hin, List.prod_take_succ _ _ hin]
    specialize ih (by omega)
    generalize ((S.waysOf ioLayer).take (innerLayer + 1)).prod = F at ih
    generalize (S.waysOf ioLayer)[innerLayer + 1] = way at h2 h8
    rw [Nat.mul_div_cancel _ (by omega)]
    refine Ends.bind (Q := S.Keeps ioLayer begin (way * F) s) ?_ fun s₁ h₁ =>
      hmerge way F h2 h8 begin s s₁ h₁
    exact forRange_ends (fun i => S.Keeps ioLayer begin (i * F) s) (.start hs) fun i _ s₁ h₁ =>
      (ih (begin + i * F) h₁.sized).mono (fun s₂ h₂ => h₁.next h₂) fun _ he => he

/-- The buckets of a batch after routing. -/
theorem routeBatch_keeps (hv : S.Valid) {ioLayer : Nat}
    (hio : ioLayer < S.KWayParams.ways.length) (batchBegin : Nat) {s : State α σ}
    (hs : S.Sized s) :
    Ends (S.Keeps ioLayer batchBegin (S.waysOf ioLayer).prod s) (fun e => e.1 = .mergeSplit)
      (S.KWayButterflySortBasic ioLayer ((S.waysOf ioLayer).length - 1) batchBegin
        (getVecProduct (S.waysOf ioLayer)) s) := by
  have hne := hv.inner_ne_nil _ (waysOf_mem hio)
  have hlen : 0 < (S.waysOf ioLayer).length := List.length_pos_iff.2 hne
  have := KWayButterflySortBasic_keeps hv hio
    (show (S.waysOf ioLayer).length - 1 < (S.waysOf ioLayer).length by omega) batchBegin hs
  rw [Nat.sub_add_cancel hlen, List.take_length] at this
  rw [getVecProduct_eq]
  exact this

/-! ## Pages -/

/-- What the real elements of column `n` of the pages from `begin` carry. -/
def pageColumn (S : ButterflySorter) (ioLayer begin n : Nat) (m : Nat → List (TaggedT α)) :
    List α :=
  gather (S.waysOf ioLayer).prod fun u => realData (m (begin + u * S.fetchInterval ioLayer + n))

/-- The elements `col` are now in the `n` buckets of the buffer at `batchBegin`; the other buckets
and what is not in the buffer are as they were. -/
structure Batched (S : ButterflySorter) (col : List α) (batchBegin n : Nat) (s s' : State α σ) :
    Prop where
  data : List.Perm (rangeData batchBegin n s'.batch) col
  frame : ∀ p, (p < batchBegin ∨ batchBegin + n ≤ p) → s'.batch p = s.batch p
  sized : S.Sized s'
  rest : SameRest s s'

/-- A batch of a further layer after fetching and routing. -/
structure KeptBatch (S : ButterflySorter) (ioLayer begin n batchBegin : Nat) (s s' : PState α) :
    Prop extends S.Batched (S.pageColumn ioLayer begin n s.vec) batchBegin (S.waysOf ioLayer).prod
      s s' where
  reader : s'.reader = s.reader

section Pages

variable (hv : S.Valid) (hf : S.Fits) (stdSort : List (TaggedT α) → List (TaggedT α))

include hv

theorem fetchRoute_keeps {ioLayer : Nat} (h0 : ioLayer ≠ 0) (h : ioLayer < S.KWayParams.ways.length)
    (begin n batchBegin : Nat) {s : PState α} (hs : S.Sized s) (hp : ∀ p, (s.vec p).length = S.Z) :
    Ends (S.KeptBatch ioLayer begin n batchBegin s) (fun e => e.1 = .mergeSplit)
      (S.fetchBatch (Vector.plain _) ioLayer begin n batchBegin s >>=
        S.KWayButterflySortBasic ioLayer ((S.waysOf ioLayer).length - 1) batchBegin
          (getVecProduct (S.waysOf ioLayer))) := by
  refine (fetchBatch_fetched h0 begin n batchBegin hs hp).bind fun s₁ h₁ => ?_
  refine (routeBatch_keeps hv h batchBegin h₁.sized).mono (fun s₂ h₂ => ?_) fun _ he => he
  refine ⟨⟨h₂.batch.data.trans (List.Perm.of_eq ?_),
    fun p hp => (h₂.batch.frame p hp).trans (h₁.frame p hp), h₂.sized, h₁.rest.trans h₂.rest⟩, ?_⟩
  · rw [entering, h₁.source h0, gather_map]
    rfl
  · rw [h₂.reader, readerAfter, if_neg h0, h₁.reader]

include hf in
theorem sortBatch_first_keeps (h : 0 + 1 < S.KWayParams.ways.length) (begin batchCount : Nat)
    {s : PState α} (hs : S.Sized s) (hp : ∀ p, (s.vec p).length = S.Z) :
    Ends (S.PageStep (Holds (S.entering 0 (S.waysOf 0).prod s 0) begin (S.waysOf 0).prod)
        (S.readerAfter 0 (S.waysOf 0).prod s) s) (fun e => e.1 = .mergeSplit)
      (S.sortBatch (Vector.plain _) stdSort 0 begin batchCount 0 s) := by
  rw [sortBatch_inner h _ _ _ _ (hf 0 (by omega) 0 Nat.one_pos), fetchBatch_zero, ok_bind]
  refine Ends.bind (routeBatch_keeps hv (by omega) 0 hs) fun s₂ h₂ => ?_
  rw [writeBatch_eq, fetchInterval_zero, h₂.rest.vec]
  refine ⟨?_, writeBatch_sized h₂.sized hp, h₂.sized, h₂.reader, ⟨h₂.rest.written,
    h₂.rest.mergeSortRanges, h₂.rest.lastBuckets, h₂.rest.handed⟩⟩
  simp only [Nat.zero_add, Nat.one_mul]
  refine ⟨(List.Perm.of_eq ?_).trans h₂.batch.data, fun p hp => putAll_of_ne fun u hu h => by omega⟩
  refine gather_congr fun q hq => ?_
  rw [putAll_idx (fun u _ u' _ h => by omega) hq, Nat.zero_add]

include hf in
theorem sortBatch_next_keeps {ioLayer : Nat} (h : ioLayer + 1 + 1 < S.KWayParams.ways.length)
    (begin batchCount : Nat) {n : Nat} (hn : n < S.fetchInterval (ioLayer + 1)) {xs : List α}
    {reader : List (BitVec 64 × α)} {s s₁ : PState α}
    (h₁ : S.PageStep (Holds xs begin ((S.waysOf (ioLayer + 1)).prod *
      S.fetchInterval (ioLayer + 1))) reader s s₁) :
    Ends (S.PageStep (Holds xs begin
        ((S.waysOf (ioLayer + 1)).prod * S.fetchInterval (ioLayer + 1))) reader s)
      (fun e => e.1 = .mergeSplit)
      (S.sortBatch (Vector.plain _) stdSort (ioLayer + 1) begin batchCount n s₁) := by
  rw [sortBatch_inner h _ _ _ _ (hf _ (by omega) n hn)]
  refine (fetchRoute_keeps hv (by omega) (by omega) begin n 0 h₁.sized h₁.pages).bind
    fun s₂ h₂ => ?_
  rw [writeBatch_eq, h₂.rest.vec]
  refine ⟨?_, writeBatch_sized h₂.sized h₁.pages, h₂.sized, h₂.reader.trans h₁.reader, ?_⟩
  · simp only [page_eq]
    refine h₁.vec.column hn ((List.Perm.of_eq ?_).trans h₂.data)
    simp only [rangeData, Nat.zero_add]
  · exact h₁.output.trans ⟨h₂.rest.written, h₂.rest.mergeSortRanges, h₂.rest.lastBuckets,
      h₂.rest.handed⟩

/-- What a layer does to its range: keep what enters it. -/
def KeepsPages (S : ButterflySorter) (begin n : Nat) (s : PState α) : PState α → Prop :=
  S.PageStep (Holds (S.entering 0 n s 0) begin n) (S.readerAfter 0 n s) s

omit hv in
/-- The layers below, on each of `W` parts of `F` buckets. -/
theorem subLayers_keeps (F W begin : Nat)
    {call : Nat → PState α → Except (Stop α (Nat → List (TaggedT α))) (PState α)}
    (hcall : ∀ i (s : PState α), S.Sized s → (∀ p, (s.vec p).length = S.Z) →
      Ends (S.KeepsPages (begin + i * F) F s) (fun e => e.1 = .mergeSplit) (call i s))
    {s : PState α} (hs : S.Sized s) (hp : ∀ p, (s.vec p).length = S.Z) :
    Ends (S.KeepsPages begin (W * F) s) (fun e => e.1 = .mergeSplit) (forRange W call s) := by
  refine forRange_ends (fun i => S.KeepsPages begin (i * F) s) ?_ fun i hi s₁ h₁ => ?_
  · rw [Nat.zero_mul]
    exact ⟨⟨.refl _, fun _ _ => rfl⟩, hp, hs, by simp [readerAfter], .refl s⟩
  · refine (hcall i s₁ h₁.sized h₁.pages).mono (fun s₂ h₂ => ?_) fun _ he => he
    refine ⟨?_, h₂.pages, h₂.sized, ?_, h₁.output.trans h₂.output⟩
    · have hnext := h₁.vec.next h₂.vec
      rwa [entering, entering, source_drop h₁.reader, ← List.map_append, ← gather_add,
        ← Nat.succ_mul] at hnext
    · rw [h₂.reader, readerAfter_shift h₁.reader, Nat.succ_mul]

include hf in
/-- **Below the last layer** the pages of a range keep what enters it. -/
theorem KWayButterflySort_keeps {ioLayer : Nat} (h : ioLayer + 1 < S.KWayParams.ways.length)
    (begin : Nat) {s : PState α} (hs : S.Sized s) (hp : ∀ p, (s.vec p).length = S.Z) :
    Ends (S.KeepsPages begin (S.fetchInterval (ioLayer + 1)) s) (fun e => e.1 = .mergeSplit)
      (S.KWayButterflySort (Vector.plain _) stdSort ioLayer begin
        (S.fetchInterval (ioLayer + 1)) s) := by
  induction ioLayer generalizing begin s with
  | zero =>
    rw [fetchInterval_succ, KWayButterflySort_first _ _ (hv.prod_pos (by omega)),
      fetchInterval_zero, Nat.one_mul]
    exact sortBatch_first_keeps hv hf stdSort h begin 1 hs hp
  | succ ioLayer ih =>
    have hW := hv.prod_pos (show ioLayer + 1 < S.KWayParams.ways.length by omega)
    rw [fetchInterval_succ (ioLayer + 1), KWayButterflySort_next _ _ hW,
      Nat.mul_comm _ (S.waysOf (ioLayer + 1)).prod]
    refine (subLayers_keeps _ (S.waysOf (ioLayer + 1)).prod begin (fun i s hs hp =>
      ih (by omega) (begin + i * S.fetchInterval (ioLayer + 1)) hs hp) hs hp).bind fun s₁ h₁ => ?_
    exact forRange_ends (fun _ => S.KeepsPages begin ((S.waysOf (ioLayer + 1)).prod *
      S.fetchInterval (ioLayer + 1)) s) h₁ fun n hn s₂ h₂ =>
        sortBatch_next_keeps hv hf stdSort h begin _ hn h₂

end Pages

end ButterflySorter

end EM.Algorithm
