import OblSort.Algorithm.PagePermReader
import OblSort.Algorithm.Proof.ButterflySort
import OblSort.Proof.ReaderWriter

/-!
# Every element once, with its position

`makePerm` builds a permutation of the pages that leaves the last one in place (`IsPagePerm`), both
in memory and by tags, unless there is nothing to shuffle in memory or no room for a batch. A page
number is then translated to the entry of the permutation at it (`Translating`), so a range must
begin at the begin of the vector. `getLastIdx` is about the page that was asked for last: it is the
page of the element just read only when pages are fetched one at a time (`InOrder`).
-/

namespace EM.Algorithm

open Paged NonCachedVector

/-! ## The permutation in memory -/

/-- A permutation of `pageCount` pages that leaves the last one in place. -/
def IsPagePerm (pageCount : Nat) (σ : List Nat) : Prop :=
  ∃ τ, List.Perm τ (List.range (pageCount - 1)) ∧ σ = τ ++ [pageCount - 1]

theorem shufflePages_spec (rand64 : Nat → BitVec 64) {pageCount : Nat} (h : 2 ≤ pageCount) :
    ∃ σ, shufflePages rand64 pageCount = some σ ∧ IsPagePerm pageCount σ := by
  obtain ⟨k, rfl⟩ : ∃ k, pageCount = k + 1 := ⟨pageCount - 1, by omega⟩
  have htake : (List.range (k + 1)).take k = List.range k := by
    rw [List.take_range, Nat.min_eq_left (Nat.le_succ k)]
  have hdrop : (List.range (k + 1)).drop k = [k] := by
    rw [List.range_succ, List.drop_left' List.length_range]
  have hne : List.range k ≠ [] := by
    rw [Ne, List.range_eq_nil]
    omega
  obtain ⟨τ, hτ, hperm⟩ := fisherYatesShuffle_perm rand64 hne
  refine ⟨τ ++ [k], ?_, τ, hperm, rfl⟩
  rw [shufflePages, Nat.add_sub_cancel, htake, hdrop, hτ, Option.map_some]

theorem shufflePages_none (rand64 : Nat → BitVec 64) {pageCount : Nat} (h : pageCount < 2) :
    shufflePages rand64 pageCount = none := by
  have : pageCount - 1 = 0 := by omega
  rw [shufflePages, this, List.take_zero]
  rfl

theorem IsPagePerm.length {pageCount : Nat} {σ : List Nat} (h : IsPagePerm pageCount σ)
    (hpos : 0 < pageCount) : σ.length = pageCount := by
  obtain ⟨τ, hτ, rfl⟩ := h
  rw [List.length_append, hτ.length_eq, List.length_range, List.length_singleton]
  omega

/-! ## The permutation by tags -/

/-- The library sorts and keeps heaps by tag. -/
structure TagOrder.Correct (L : TagOrder) (IsHeap : List (HeapEntry (TaggedT Nat)) → Prop) :
    Prop where
  perm : ∀ xs, List.Perm (L.sort xs) xs
  sorted : ∀ xs, (L.sort xs).Pairwise fun a b => cmpTag b a = false
  heap : L.heap.Correct cmpMergeTag IsHeap

section

variable {m m' : Nat} [NeZero m] [NeZero m'] {L : TagOrder}
  {IsHeap : List (HeapEntry (TaggedT Nat)) → Prop} (hL : L.Correct IsHeap)
  (rand64 : Nat → BitVec 64)

/-- The page numbers from `i` on with their tags. -/
def tagged64 (i count : Nat) : List (TaggedT Nat) :=
  (List.range' i count).map fun j => ⟨rand64 j, j⟩

/-- The batches from page `i` on, each in order. -/
def sortedBatches (L : TagOrder) (batchSize permSize : Nat) :
    (fuel i : Nat) → List (List (TaggedT Nat))
  | 0, _ => []
  | fuel + 1, i =>
    if i < permSize then
      L.sort (tagged64 rand64 i (min (i + batchSize) permSize - i)) ::
        sortedBatches L batchSize permSize fuel (i + batchSize)
    else []

theorem sortedBatches_end {batchSize permSize fuel i : Nat} (hi : permSize ≤ i) :
    sortedBatches rand64 L batchSize permSize fuel i = [] := by
  cases fuel with
  | zero => rfl
  | succ fuel => rw [sortedBatches, if_neg (by omega)]

include hL in
theorem length_sort_tagged64 (i count : Nat) :
    (L.sort (tagged64 rand64 i count)).length = count := by
  rw [(hL.perm _).length_eq, tagged64, List.length_map, List.length_range']

include hL in
/-- The loop copies the batches out one after the other. -/
theorem tagBatches_eq {batchSize permSize fuel i : Nat} (hb : 0 < batchSize)
    (hfuel : permSize - i < fuel) (v : NonCachedVector.Vector m' (TaggedT Nat)) :
    tagBatches L rand64 batchSize permSize fuel i v =
      (copyOutChunks 0 (sortedBatches rand64 L batchSize permSize fuel i) i v).map
        ((segments i (sortedBatches rand64 L batchSize permSize fuel i), ·)) := by
  induction fuel generalizing i v with
  | zero => omega
  | succ fuel ih =>
    rw [tagBatches, sortedBatches]
    by_cases hi : i < permSize
    · rw [if_pos hi, if_pos hi]
      dsimp only
      rw [← tagged64, copyOutChunks, segments, length_sort_tagged64 hL]
      have hend : i + (min (i + batchSize) permSize - i) = min (i + batchSize) permSize := by omega
      rw [hend]
      cases copyOut (L.sort (tagged64 rand64 i (min (i + batchSize) permSize - i))) i 0 v with
      | none => rfl
      | some v' =>
        rw [Option.bind_some, Option.bind_some, ih (by omega)]
        by_cases hlast : i + batchSize ≤ permSize
        · rw [Nat.min_eq_left hlast, Option.map_map]
          rfl
        · rw [sortedBatches_end rand64 (show permSize ≤ i + batchSize by omega)]
          rfl
    · rw [if_neg hi, if_neg hi]
      rfl

include hL in
theorem sortedBatches_perm {batchSize permSize fuel i : Nat} (hb : 0 < batchSize)
    (hfuel : permSize - i < fuel) :
    List.Perm (sortedBatches rand64 L batchSize permSize fuel i).flatten
      (tagged64 rand64 i (permSize - i)) := by
  induction fuel generalizing i with
  | zero => omega
  | succ fuel ih =>
    rw [sortedBatches]
    by_cases hi : i < permSize
    · rw [if_pos hi, List.flatten_cons]
      have hsplit : tagged64 rand64 i (permSize - i) =
          tagged64 rand64 i (min (i + batchSize) permSize - i) ++
            tagged64 rand64 (i + batchSize) (permSize - (i + batchSize)) := by
        rw [tagged64, tagged64, tagged64, ← List.map_append]
        by_cases hlast : i + batchSize ≤ permSize
        · rw [Nat.min_eq_left hlast, Nat.add_sub_cancel_left, List.range'_append_1]
          congr 2
          omega
        · rw [Nat.min_eq_right (by omega), Nat.sub_eq_zero_of_le
            (show permSize ≤ i + batchSize by omega), List.range'_zero, List.append_nil]
      rw [hsplit]
      exact (hL.perm _).append (ih (by omega))
    · rw [if_neg hi, Nat.sub_eq_zero_of_le (Nat.le_of_not_lt hi)]
      exact .refl _

include hL in
theorem sortedBatches_ne {batchSize permSize fuel i : Nat} (hb : 0 < batchSize) :
    ∀ g ∈ sortedBatches rand64 L batchSize permSize fuel i, g ≠ [] := by
  induction fuel generalizing i with
  | zero => exact fun g hg => by cases hg
  | succ fuel ih =>
    rw [sortedBatches]
    by_cases hi : i < permSize
    · rw [if_pos hi]
      intro g hg
      rcases List.mem_cons.1 hg with rfl | hg
      · rw [← List.length_pos_iff, length_sort_tagged64 hL]
        omega
      · exact ih g hg
    · rw [if_neg hi]
      exact fun g hg => by cases hg

/-- The readers of ranges that were written one after the other. -/
theorem readMergeRanges {v : NonCachedVector.Vector m' (TaggedT Nat)} {data : List (TaggedT Nat)}
    (hv : Stores v 0 data) (cache : Page m' (TaggedT Nat)) {chunks : List (List (TaggedT Nat))}
    {b : Nat} (hb : b ≤ data.length) (hdata : data.drop b = chunks.flatten) :
    (segments b chunks).mapM (readMergeRange cache v) = some chunks := by
  induction chunks generalizing b with
  | nil => rfl
  | cons g gs ih =>
    rw [List.flatten_cons] at hdata
    have hend := end_of_drop hdata hb
    have hle : (Reader.new cache b (b + g.length) 0).it + g.length ≤ v.N := by
      rw [← hv.size]
      exact hend
    obtain ⟨r, hread, -⟩ := (reading_new cache b (b + g.length)).readMany hv hle
    have hfirst : readMergeRange cache v (b, b + g.length) = some g := by
      rw [readMergeRange]
      dsimp only
      rw [Nat.add_sub_cancel_left, hread, Option.map_some]
      dsimp only
      rw [show (Reader.new cache b (b + g.length) 0).it = b from rfl, hdata, List.take_left]
    rw [segments, List.mapM_cons, hfirst, ih hend (drop_of_drop hdata)]
    rfl

include hL in
theorem mergeTagged_spec {gs : List (List (TaggedT Nat))} (hne : ∀ g ∈ gs, g ≠ []) :
    ∃ out, mergeTagged L gs = some out ∧ List.Perm out gs.flatten := by
  obtain ⟨heap, hheap, hmap⟩ := heapEntries_eq hne
  have hflat : heapElements heap = gs.flatten := by
    rw [← hmap, heapElements, List.flatMap_def]
  have hmake := hL.heap.make heap
  have hperm := heapElements_perm hmake.1
  have hfuel : (heapElements (L.heap.makeHeap heap)).length < gs.flatten.length + 1 := by
    rw [hperm.length_eq, hflat]
    omega
  obtain ⟨out, hrun, hout⟩ := mergeLoop_perm hL.heap hmake.2 hfuel
  refine ⟨out, ?_, hout.trans (hflat ▸ hperm)⟩
  rw [mergeTagged, hheap]
  show (mergeLoop L.heap (gs.flatten.length + 1) (L.heap.makeHeap heap)).toOption = some out
  rw [hrun]
  rfl

/-- A batch of no pages is followed by the same batch. -/
theorem tagBatches_endless {permSize : Nat} (hpos : 0 < permSize) (fuel : Nat)
    (v : NonCachedVector.Vector m' (TaggedT Nat)) :
    tagBatches L rand64 0 permSize fuel 0 v = none := by
  induction fuel generalizing v with
  | zero => rfl
  | succ fuel ih =>
    rw [tagBatches, if_pos hpos]
    dsimp only
    cases copyOut
        (L.sort ((List.range' 0 (min (0 + 0) permSize - 0)).map fun j => ⟨rand64 j, j⟩)) 0 0 v with
    | none => rfl
    | some v' =>
      rw [Option.bind_some, ih]
      rfl

variable (U : Uninit m m') {heapSize pageCount : Nat}

/-- Nothing has been written to a new vector. -/
theorem written_new {k : Nat} [NeZero k] {β : Type} (nounce : Nounce) (page : Page k β) (N : Nat)
    (data : List β) : Written data 0 (newVector nounce page N) 0 (newVector nounce page N) :=
  ⟨rfl, rfl, fun _ hp => absurd hp (Nat.not_lt_zero _), fun _ _ => rfl⟩

theorem progress_new {k : Nat} [NeZero k] {β : Type} (nounce : Nounce) (page : Page k β)
    (data : List β) : Progress data 0 0 (newVector nounce page data.length) where
  size := rfl
  done _ hp := by
    have := pos_itemPerPage k
    rw [Nat.succ_mul] at hp
    omega
  part h := absurd (Nat.zero_mod k) h
  scratch h := absurd (Nat.zero_mod k) h
  rest h := absurd h (Nat.lt_irrefl 0)

omit [NeZero m] in
include hL in
/-- The page numbers, sorted batch by batch and merged, when batches are not empty. -/
theorem mergedPages (hpos : 0 < heapSize / 16 ∨ pageCount = 1) :
    ∃ ranges v readers out,
      tagBatches L rand64 (heapSize / 16) (pageCount - 1) (pageCount - 1 + 1) 0
        (newVector U.taggedNounce U.taggedPage (pageCount - 1)) = some (ranges, v) ∧
      ranges.mapM (readMergeRange U.taggedPage v) = some readers ∧
      mergeTagged L readers = some out ∧
      List.Perm (out.map TaggedT.v) (List.range (pageCount - 1)) := by
  rcases Nat.eq_zero_or_pos (pageCount - 1) with h0 | h0
  · have hnil : ∀ g ∈ ([] : List (List (TaggedT Nat))), g ≠ [] := fun g hg => by cases hg
    obtain ⟨out, hout, hperm⟩ := mergeTagged_spec hL hnil
    refine ⟨[], newVector U.taggedNounce U.taggedPage (pageCount - 1), [], out, ?_, rfl, hout, ?_⟩
    · rw [tagBatches, if_neg (by omega)]
    · rw [h0]
      exact hperm.map TaggedT.v
  · have hb : 0 < heapSize / 16 := hpos.resolve_right (by omega)
    have hfuel : pageCount - 1 - 0 < pageCount - 1 + 1 := by omega
    have hperm := sortedBatches_perm hL rand64 (i := 0) hb hfuel
    have hlen : (sortedBatches rand64 L (heapSize / 16) (pageCount - 1)
      (pageCount - 1 + 1) 0).flatten.length =
        pageCount - 1 := by
      rw [hperm.length_eq, tagged64, List.length_map, List.length_range', Nat.sub_zero]
    have hstart := progress_new U.taggedNounce U.taggedPage
      (sortedBatches rand64 L (heapSize / 16) (pageCount - 1) (pageCount - 1 + 1) 0).flatten
    rw [hlen] at hstart
    obtain ⟨v, hrun, hv⟩ := hstart.copyOutChunks (Nat.zero_le _) List.drop_zero (.inl rfl)
    obtain ⟨out, hout, houtperm⟩ := mergeTagged_spec hL (sortedBatches_ne hL rand64 hb)
    refine ⟨_, v, _, out, ?_,
      readMergeRanges hv.stores U.taggedPage (Nat.zero_le _) List.drop_zero, hout, ?_⟩
    · rw [tagBatches_eq hL rand64 hb hfuel, hrun]
      rfl
    · refine ((houtperm.trans hperm).map TaggedT.v).trans ?_
      rw [tagged64, List.map_map, Nat.sub_zero, ← List.range_eq_range']
      exact .of_eq (List.map_id _)

include hL in
theorem permByTags_spec (hpos : 0 < heapSize / 16 ∨ pageCount = 1) (h1 : 0 < pageCount) :
    ∃ perm σ, permByTags L rand64 U heapSize (newVector U.permNounce U.permPage pageCount) =
      some perm ∧ Stores perm 0 σ ∧ IsPagePerm pageCount σ := by
  obtain ⟨ranges, v, readers, out, hbatches, hreaders, hmerge, hperm⟩ :=
    mergedPages hL rand64 U hpos
  have hσ : IsPagePerm pageCount (out.map TaggedT.v ++ [pageCount - 1]) := ⟨_, hperm, rfl⟩
  have hstart := written_new U.permNounce U.permPage pageCount
    (out.map TaggedT.v ++ [pageCount - 1])
  obtain ⟨hinit, hwriting⟩ := hstart.init (Nat.zero_mod m) U.permPage pageCount
  obtain ⟨hit, hwriting⟩ := hwriting.writeMany fun i _ => by rw [Nat.zero_add]
  rw [hσ.length h1, Nat.zero_add] at hit
  obtain ⟨perm, hflush, hwritten⟩ := hwriting.flush (.inr (.inl hit)) U.permPage
  refine ⟨perm, _, ?_, hwritten.stores hit ((hσ.length h1).trans hit.symm), hσ⟩
  rw [permByTags]
  dsimp only [newVector] at hinit hbatches ⊢
  rw [hinit, Option.bind_some, hbatches, Option.bind_some]
  dsimp only
  rw [hreaders, Option.bind_some, hmerge, Option.bind_some]
  exact hflush

/-- The permutation can be built. -/
def PermBuilt (heapSize pageCount : Nat) : Prop :=
  if 8 * pageCount < heapSize then 2 ≤ pageCount else pageCount = 1 ∨ 16 ≤ heapSize

instance (heapSize pageCount : Nat) : Decidable (PermBuilt heapSize pageCount) :=
  inferInstanceAs (Decidable
    (if 8 * pageCount < heapSize then 2 ≤ pageCount else pageCount = 1 ∨ 16 ≤ heapSize))

include hL in
theorem makePerm_spec (hbuilt : PermBuilt heapSize pageCount) (h1 : 0 < pageCount) :
    ∃ perm σ, makePerm L rand64 U heapSize pageCount = some perm ∧ Stores perm 0 σ ∧
      IsPagePerm pageCount σ := by
  rw [PermBuilt] at hbuilt
  rw [makePerm]
  by_cases hmem : 8 * pageCount < heapSize
  · rw [if_pos hmem] at hbuilt
    obtain ⟨σ, hσ, hperm⟩ := shufflePages_spec rand64 hbuilt
    have hstart := progress_new U.permNounce U.permPage σ
    rw [hperm.length h1] at hstart
    have hfrom : From σ 0 σ := fun i _ => by rw [Nat.zero_add]
    obtain ⟨perm, hcopy, hprogress⟩ := hstart.copyOut hfrom
      (by rw [Nat.zero_add, hperm.length h1]; rfl) (.inl rfl)
    rw [Nat.zero_add] at hprogress
    refine ⟨perm, σ, ?_, hprogress.stores, hperm⟩
    rw [if_pos (show 8 * (newVector U.permNounce U.permPage pageCount).N < heapSize from hmem)]
    rw [show (newVector U.permNounce U.permPage pageCount).N = pageCount from rfl, hσ,
      Option.bind_some, hcopy]
  · rw [if_neg hmem] at hbuilt
    rw [if_neg (show ¬ 8 * (newVector U.permNounce U.permPage pageCount).N < heapSize from hmem)]
    exact permByTags_spec hL rand64 U (hbuilt.symm.imp_left fun h => by omega) h1

theorem makePerm_none (hbuilt : ¬ PermBuilt heapSize pageCount) (h1 : 0 < pageCount) :
    makePerm L rand64 U heapSize pageCount = none := by
  rw [PermBuilt] at hbuilt
  rw [makePerm]
  by_cases hmem : 8 * pageCount < heapSize
  · rw [if_pos hmem] at hbuilt
    rw [if_pos (show 8 * (newVector U.permNounce U.permPage pageCount).N < heapSize from hmem),
      show (newVector U.permNounce U.permPage pageCount).N = pageCount from rfl,
      shufflePages_none rand64 (Nat.lt_of_not_le hbuilt)]
    rfl
  · rw [if_neg hmem, not_or] at hbuilt
    have hzero : heapSize / 16 = 0 := Nat.div_eq_of_lt (Nat.lt_of_not_le hbuilt.2)
    have hpos : 0 < pageCount - 1 := by omega
    rw [if_neg (show ¬ 8 * (newVector U.permNounce U.permPage pageCount).N < heapSize from hmem),
      permByTags]
    dsimp only
    rw [show (newVector U.permNounce U.permPage pageCount).N = pageCount from rfl, hzero,
      tagBatches_endless rand64 hpos]
    cases Writer.init U.permPage 0 pageCount 0 (newVector U.permNounce U.permPage pageCount) <;> rfl

include hL in
theorem makePerm_some (h1 : 0 < pageCount) {perm : NonCachedVector.Vector m Nat}
    (h : makePerm L rand64 U heapSize pageCount = some perm) :
    PermBuilt heapSize pageCount ∧ ∃ σ, Stores perm 0 σ ∧ IsPagePerm pageCount σ := by
  have hbuilt : PermBuilt heapSize pageCount := by
    by_contra hbuilt
    rw [makePerm_none rand64 U hbuilt h1] at h
    cases h
  obtain ⟨perm', σ, hmake, hperm, hσ⟩ := makePerm_spec hL rand64 U hbuilt h1
  obtain rfl : perm' = perm := Option.some.inj (hmake.symm.trans h)
  exact ⟨hbuilt, σ, hperm, hσ⟩

end

/-! ## Translating page numbers -/

namespace PagePermReader

variable {n m m' : Nat} [NeZero n] [NeZero m] [NeZero m'] {α : Type} {σ : List Nat}

/-- The reader of the permutation `σ` is at the entry after the last one that was asked for. -/
structure Translating (σ : List Nat) (r : PagePermReader n m α) : Prop where
  stores : Stores r.perm 0 σ
  reading : Reading σ 0 r.permReader
  endPtr : r.permReader.endPtr = σ.length
  next : r.permReader.it = r.nextPageIdx

omit [NeZero n] [NeZero m] in
theorem Translating.congr {r r' : PagePermReader n m α} (h : Translating σ r)
    (hperm : r'.perm = r.perm)
    (hreader : r'.permReader = r.permReader) (hnext : r'.nextPageIdx = r.nextPageIdx) :
    Translating σ r' :=
  ⟨hperm ▸ h.stores, hreader ▸ h.reading, hreader ▸ h.endPtr, by rw [hreader, hnext, h.next]⟩

omit [NeZero n] [NeZero m] in
/-- The reader of the permutation once it is at the entry `q`. -/
theorem Translating.atPage {r : PagePermReader n m α} (h : Translating σ r) (q : Nat) :
    ∃ p, (if q = r.nextPageIdx then r.permReader else r.jumpTo q) = p ∧ Reading σ 0 p ∧
      p.it = q ∧ p.endPtr = σ.length := by
  by_cases hq : q = r.nextPageIdx
  · exact ⟨_, if_pos hq, h.reading, h.next.trans hq.symm, h.endPtr⟩
  · refine ⟨_, if_neg hq, ⟨h.reading.counter, fun k hk => by cases hk⟩, ?_, h.endPtr⟩
    rw [jumpTo, h.next]
    exact Nat.add_sub_cancel_left ..

omit [NeZero n] in
/-- Page `q` is translated to the entry `q` of the permutation. -/
theorem Translating.translate {r : PagePermReader n m α} (h : Translating σ r) {q p : Nat}
    (hq : σ[q]? = some p) :
    ∃ permReader, r.translatePageIdx q =
        some { r with permReader, nextPageIdx := q + 1, translatedPageIdx := p } ∧
      Translating σ { r with permReader, nextPageIdx := q + 1, translatedPageIdx := p } := by
  obtain ⟨p', hp', hreading, hit, hend⟩ := h.atPage q
  have hlt : q < σ.length := (List.getElem?_eq_some_iff.1 hq).1
  obtain ⟨x, permReader, hread, hx, hit', hend', hreading'⟩ := hreading.read h.stores
    (by rw [hit, ← h.stores.size]; exact hlt)
  rw [hit, hq] at hx
  obtain rfl : p = x := Option.some.inj hx
  refine ⟨permReader, ?_, h.stores, hreading', hend'.trans hend, by rw [hit', hit]⟩
  have heof : p'.eof = false := by
    rw [Reader.eof, hend, hit, decide_eq_false_iff_not]
    omega
  rw [translatePageIdx, hp']
  dsimp only
  rw [heof, if_neg Bool.false_ne_true, hread]
  rfl

omit [NeZero n] in
/-- There is no entry past the end of the permutation. -/
theorem Translating.translate_none {r : PagePermReader n m α} (h : Translating σ r) {q : Nat}
    (hq : σ.length ≤ q) : r.translatePageIdx q = none := by
  obtain ⟨p', hp', -, hit, hend⟩ := h.atPage q
  have heof : p'.eof = true := by
    rw [Reader.eof, hend, hit, decide_eq_true hq]
  rw [translatePageIdx, hp']
  dsimp only
  rw [heof, if_pos rfl]

/-! ## Fetching pages -/

/-- What a fetch does not change. -/
structure SameRange (r r' : PagePermReader n m α) : Prop where
  it : r'.it = r.it
  endPtr : r'.endPtr = r.endPtr
  endPageIdx : r'.endPageIdx = r.endPageIdx
  counter : r'.counter = r.counter

omit [NeZero n] in
theorem translatePageIdx_same {q : Nat} {r r' : PagePermReader n m α}
    (h : r.translatePageIdx q = some r') : SameRange r r' := by
  rw [translatePageIdx] at h
  generalize (if q = r.nextPageIdx then r.permReader else r.jumpTo q) = permReader at h
  dsimp only at h
  split at h
  · cases h
  · obtain ⟨x, -, rfl⟩ := Option.map_eq_some_iff.1 h
    exact ⟨rfl, rfl, rfl, rfl⟩

omit [NeZero n] in
theorem loadPages_same {v : NonCachedVector.Vector n α} {count cacheIdx q : Nat}
    {r r' : PagePermReader n m α} (hload : r.loadPages v count cacheIdx q = some r') :
    SameRange r r' := by
  induction count generalizing cacheIdx q r with
  | zero =>
    obtain rfl := Option.some.inj hload
    exact ⟨rfl, rfl, rfl, rfl⟩
  | succ count ih =>
    rw [loadPages] at hload
    obtain ⟨r₁, htranslate, hload⟩ := Option.bind_eq_some_iff.1 hload
    obtain ⟨page, -, hload⟩ := Option.bind_eq_some_iff.1 hload
    have h₁ := translatePageIdx_same htranslate
    have h₂ := ih hload
    exact ⟨h₂.it.trans h₁.it, h₂.endPtr.trans h₁.endPtr, h₂.endPageIdx.trans h₁.endPageIdx,
      h₂.counter.trans h₁.counter⟩

omit [NeZero n] in
/-- A fetch asks for entries of the permutation only. -/
theorem Translating.loadPages_some {v : NonCachedVector.Vector n α} {count cacheIdx q : Nat}
    {r r' : PagePermReader n m α} (h : Translating σ r)
    (hload : r.loadPages v count cacheIdx q = some r') :
    Translating σ r' ∧ (count ≠ 0 → q + count ≤ σ.length) := by
  induction count generalizing cacheIdx q r with
  | zero =>
    obtain rfl := Option.some.inj hload
    exact ⟨h, fun h0 => absurd rfl h0⟩
  | succ count ih =>
    rw [loadPages] at hload
    by_cases hq : q < σ.length
    · obtain ⟨permReader, htranslate, h'⟩ := h.translate (List.getElem?_eq_getElem hq)
      rw [htranslate, Option.bind_some] at hload
      obtain ⟨page, -, hload⟩ := Option.bind_eq_some_iff.1 hload
      have hrest := fun hr => ih hr hload
      obtain ⟨h'', hlen⟩ := hrest (h'.congr rfl rfl rfl)
      refine ⟨h'', fun _ => ?_⟩
      by_cases h0 : count = 0
      · omega
      · have := hlen h0
        omega
    · rw [h.translate_none (Nat.le_of_not_lt hq)] at hload
      cases hload

omit [NeZero n] in
/-- One page. -/
theorem Translating.loadPage {v : NonCachedVector.Vector n α} {c q p : Nat} {data : List α}
    {r : PagePermReader n m α} (h : Translating σ r) (hv : Stores v c data) (hc : r.counter = c)
    (hq : σ[q]? = some p) (hp : p * n < v.N) :
    ∃ r', r.loadPages v 1 0 q = some r' ∧ Translating σ r' ∧ SameRange r r' ∧
      r'.translatedPageIdx = p ∧ Agrees data p (r'.cache 0) 0 (v.N - p * n) := by
  obtain ⟨permReader, htranslate, h'⟩ := h.translate hq
  obtain ⟨page, hhas, hagrees⟩ := hv.pages p hp
  refine ⟨{ r with
      cache := Function.update r.cache 0 page
      permReader
      nextPageIdx := q + 1
      translatedPageIdx := p }, ?_, h'.congr rfl rfl rfl, ⟨rfl, rfl, rfl, rfl⟩, rfl, ?_⟩
  · rw [loadPages, htranslate, Option.bind_some]
    dsimp only
    rw [hc, hhas.read]
    rfl
  · dsimp only
    rwa [Function.update_self]

/-! ## Ranges that do not begin at the vector's begin -/

/-- The pages from `s` on have been asked for, as many as there are buffers, and `it` is `k`
elements past the begin of page `s`. -/
structure Loaded (σ : List Nat) (onDisk : Bool) (r : PagePermReader n m α) (s k : Nat) : Prop where
  curr : r.curr = some k
  le : k ≤ cacheCapacity onDisk * n
  it : r.it = s * n + k
  fetched : min (s + cacheCapacity onDisk) r.endPageIdx ≤ σ.length

/-- The first page of the range, or pages that have been asked for. -/
def AtPages (σ : List Nat) (onDisk : Bool) (r : PagePermReader n m α) : Prop :=
  (r.curr = none ∧ r.it % n = 0) ∨ ∃ s k, Loaded σ onDisk r s k

theorem cacheCapacity_pos (onDisk : Bool) : 0 < cacheCapacity onDisk := by
  cases onDisk <;> decide

omit [NeZero n] [NeZero m] in
theorem cachePageEndIdx_eq (onDisk : Bool) {r : PagePermReader n m α} {q : Nat}
    (hq : q < r.endPageIdx) :
    r.cachePageEndIdx onDisk q = min (q + cacheCapacity onDisk) r.endPageIdx := by
  cases onDisk with
  | true => rfl
  | false =>
    rw [cachePageEndIdx, cacheCapacity, if_neg Bool.false_ne_true, if_neg Bool.false_ne_true]
    omega

/-- A fetch leaves only pages that the permutation has an entry for. -/
theorem AtPages.get {onDisk : Bool} {v : NonCachedVector.Vector n α} {r r' : PagePermReader n m α}
    (h : Translating σ r) (hr : AtPages σ onDisk r) (hq : r.it / n < r.endPageIdx)
    (hget : r.get onDisk v = some r') :
    Translating σ r' ∧ SameRange r r' ∧
      ∃ s k, Loaded σ onDisk r' s k ∧ k < cacheCapacity onDisk * n := by
  have hn := pos_itemPerPage n
  have hcap := Nat.mul_pos (cacheCapacity_pos onDisk) hn
  have hdiv := Nat.div_add_mod r.it n
  rw [Nat.mul_comm] at hdiv
  rw [PagePermReader.get] at hget
  by_cases hout : r.curr.all (cacheCapacity onDisk * n ≤ ·) = true
  · -- a fetch begins at a page, so `curr` is 0 after it
    have hmod : r.it % n = 0 := by
      rcases hr with hr | ⟨s, k, hr⟩
      · exact hr.2
      · rw [hr.curr] at hout
        have hk : k = cacheCapacity onDisk * n :=
          Nat.le_antisymm hr.le (of_decide_eq_true hout)
        rw [hr.it, hk, ← Nat.add_mul, Nat.mul_mod_left]
    rw [if_pos hout] at hget
    dsimp only at hget
    rw [hmod, ite_self] at hget
    obtain ⟨r₁, hload, rfl⟩ := Option.map_eq_some_iff.1 hget
    obtain ⟨h₁, hlen⟩ := h.loadPages_some hload
    have hsame := loadPages_same hload
    refine ⟨h₁.congr rfl rfl rfl, ⟨hsame.it, hsame.endPtr, hsame.endPageIdx, hsame.counter⟩,
      r.it / n, 0, ⟨rfl, Nat.zero_le _, ?_, ?_⟩, hcap⟩
    · exact hsame.it.trans (by omega)
    · have := cacheCapacity_pos onDisk
      rw [cachePageEndIdx_eq onDisk hq] at hlen
      have hfetched := hlen (by omega)
      dsimp only
      rw [hsame.endPageIdx]
      omega
  · rw [if_neg hout] at hget
    obtain rfl := Option.some.inj hget
    rcases hr with hr | ⟨s, k, hr⟩
    · rw [hr.1] at hout
      exact absurd rfl hout
    · refine ⟨h, ⟨rfl, rfl, rfl, rfl⟩, s, k, hr, ?_⟩
      rw [hr.curr] at hout
      exact Nat.lt_of_not_le fun hle => hout (decide_eq_true hle)

/-- **The permutation has an entry for every page** up to the last one that a run reads. -/
theorem readAll_endPageIdx {onDisk : Bool} {v : NonCachedVector.Vector n α} {fuel : Nat}
    {r : PagePermReader n m α} {out : List (α × Nat)} (h : Translating σ r)
    (hr : AtPages σ onDisk r) (hend : r.endPageIdx = (r.endPtr - 1) / n + 1) (hlt : r.it < r.endPtr)
    (hrun : r.readAll onDisk v fuel = some out) : r.endPageIdx ≤ σ.length := by
  have hn := pos_itemPerPage n
  induction fuel generalizing r out with
  | zero => cases hrun
  | succ fuel ih =>
    have heof : r.eof = false := by
      rw [eof, decide_eq_false_iff_not]
      omega
    rw [readAll, heof, if_neg Bool.false_ne_true] at hrun
    obtain ⟨⟨x, r₂⟩, hread, hrun⟩ := Option.bind_eq_some_iff.1 hrun
    obtain ⟨out', hrest, -⟩ := Option.map_eq_some_iff.1 hrun
    obtain ⟨r₁, hget, hnext⟩ := Option.map_eq_some_iff.1 hread
    have hq : r.it / n < r.endPageIdx := by
      have := Nat.div_le_div_right (c := n) (show r.it ≤ r.endPtr - 1 by omega)
      omega
    obtain ⟨h₁, hsame, s, k, hloaded, hk⟩ := hr.get h hq hget
    by_cases hlast : r.it + 1 = r.endPtr
    · have hpage : r.it / n < s + cacheCapacity onDisk := by
        rw [Nat.div_lt_iff_lt_mul hn, ← hsame.it, hloaded.it, Nat.add_mul]
        omega
      have hfetched := hloaded.fetched
      rw [hsame.endPageIdx] at hfetched
      have hdiv : (r.endPtr - 1) / n = r.it / n := by rw [← hlast, Nat.add_sub_cancel]
      omega
    · obtain rfl : r₁.next.2 = r₂ := congrArg Prod.snd hnext
      have hcurr : r₁.next.2.curr = some (k + 1) := by rw [next, hloaded.curr]; rfl
      have hit : r₁.next.2.it = r.it + 1 := congrArg (· + 1) hsame.it
      have hfin : r₁.next.2.endPageIdx = r.endPageIdx := hsame.endPageIdx
      have hptr : r₁.next.2.endPtr = r.endPtr := hsame.endPtr
      rw [← hfin]
      refine ih (h₁.congr rfl rfl rfl) (.inr ⟨s, k + 1, hcurr, hk, ?_, hloaded.fetched⟩)
        (by rw [hfin, hptr, hend]) (by omega) hrest
      rw [hit, ← hsame.it, hloaded.it, Nat.add_assoc]

/-! ## Fetches of several pages -/

theorem readAll_cons {onDisk : Bool} {v : NonCachedVector.Vector n α}
    {fuel : Nat} {r : PagePermReader n m α} {out : List (α × Nat)}
    (hrun : r.readAll onDisk v (fuel + 1) = some out) (hne : out ≠ []) :
    ∃ r₁ out', r.get onDisk v = some r₁ ∧ r₁.next.2.readAll onDisk v fuel = some out' ∧
      out = (r₁.next.1, r₁.next.2.getLastIdx) :: out' := by
  rw [readAll] at hrun
  cases heof : r.eof with
  | true =>
    rw [heof, if_pos rfl] at hrun
    exact absurd (Option.some.inj hrun).symm hne
  | false =>
    rw [heof, if_neg Bool.false_ne_true] at hrun
    obtain ⟨⟨x, r₂⟩, hread, hrun⟩ := Option.bind_eq_some_iff.1 hrun
    obtain ⟨out', hrest, rfl⟩ := Option.map_eq_some_iff.1 hrun
    obtain ⟨r₁, hget, hnext⟩ := Option.map_eq_some_iff.1 hread
    have hx : r₁.next.1 = x := congrArg Prod.fst hnext
    have hr : r₁.next.2 = r₂ := congrArg Prod.snd hnext
    exact ⟨r₁, out', hget, by rw [hr, hrest], by rw [hx, hr]⟩

/-- While elements come from the buffers, `getLastIdx` names the page that was asked for last. -/
theorem readAll_lastIdx {onDisk : Bool} {v : NonCachedVector.Vector n α} {fuel j k : Nat}
    {r : PagePermReader n m α} {out : List (α × Nat)} (hcurr : r.curr = some k)
    (hk : k + j < cacheCapacity onDisk * n) (hrun : r.readAll onDisk v fuel = some out)
    (hj : j < out.length) :
    (out.map Prod.snd)[j]? = some (r.translatedPageIdx * n + (r.it + j) % n) := by
  induction j generalizing fuel r out k with
  | zero =>
    cases fuel with
    | zero => cases hrun
    | succ fuel =>
      obtain ⟨r₁, out', hget, -, rfl⟩ := readAll_cons hrun (List.length_pos_iff.1 hj)
      rw [get, hcurr, if_neg (by simpa using hk)] at hget
      obtain rfl := Option.some.inj hget
      rfl
  | succ j ih =>
    cases fuel with
    | zero => cases hrun
    | succ fuel =>
      obtain ⟨r₁, out', hget, hrest, rfl⟩ := readAll_cons hrun (List.length_pos_iff.1 (by omega))
      rw [get, hcurr, if_neg (by simp; omega)] at hget
      obtain rfl := Option.some.inj hget
      rw [List.map_cons, List.getElem?_cons_succ]
      have hnext : r.next.2.curr = some (k + 1) := by rw [next, hcurr]; rfl
      rw [ih hnext (by omega) hrest (Nat.lt_of_succ_lt_succ hj)]
      show some (r.translatedPageIdx * n + (r.it + 1 + j) % n) = _
      rw [Nat.add_assoc, Nat.add_comm 1 j]

/-- **Two positions for one page**: after a fetch of several pages the first elements of the first
two have the same position. -/
theorem readAll_onDisk {v : NonCachedVector.Vector n α} {fuel : Nat} {r : PagePermReader n m α}
    {out : List (α × Nat)} (hcurr : r.curr = none) (hmod : r.it % n = 0)
    (hrun : r.readAll true v fuel = some out) (hlen : n < out.length) :
    ¬ (out.map Prod.snd).Nodup := by
  have hn := pos_itemPerPage n
  cases fuel with
  | zero => cases hrun
  | succ fuel =>
    obtain ⟨r₁, out', hget, hrest, rfl⟩ := readAll_cons hrun (List.length_pos_iff.1 (by omega))
    rw [List.length_cons] at hlen
    rw [get, if_pos (by rw [hcurr]; rfl)] at hget
    dsimp only at hget
    rw [hmod, ite_self] at hget
    obtain ⟨r₀, hload, rfl⟩ := Option.map_eq_some_iff.1 hget
    have hit := (loadPages_same hload).it
    have hsecond := readAll_lastIdx (j := n - 1) (k := 1) rfl (by
      show 1 + (n - 1) < 16 * n
      omega) hrest (by omega)
    have hfirst : ({ r₀ with curr := some 0 } : PagePermReader n m α).next.2.getLastIdx =
        r₀.translatedPageIdx * n := by
      show r₀.translatedPageIdx * n + (r₀.it + 1 - 1) % n = _
      rw [Nat.add_sub_cancel, hit, hmod, Nat.add_zero]
    have hsame : r₀.translatedPageIdx * n + (r₀.it + 1 + (n - 1)) % n =
      r₀.translatedPageIdx * n := by
      rw [show r₀.it + 1 + (n - 1) = r₀.it + n by omega, Nat.add_mod_right, hit, hmod, Nat.add_zero]
    intro hnodup
    rw [List.map_cons, List.nodup_cons, hfirst] at hnodup
    exact hnodup.1 (hsame ▸ List.mem_of_getElem? hsecond)

/-! ## One page at a time -/

/-- The position of the `i`-th element that is read. -/
def position (n : Nat) (σ : List Nat) (i : Nat) : Nat := σ.getD (i / n) 0 * n + i % n

omit [NeZero n] in
theorem position_lt {N i : Nat} (hσ : IsPagePerm (divRoundUp N n) σ) (hi : i < N) (hn : 0 < n) :
    i / n < σ.length ∧ position n σ i < N := by
  have hpos := divRoundUp_pos (by omega : 0 < N) hn
  have hle := (divRoundUp_le_iff (z := divRoundUp N n) hn).1 (Nat.le_refl _)
  have hlt : (divRoundUp N n - 1) * n < N := by
    have := (divRoundUp_le_iff (x := N) (y := n) (z := divRoundUp N n - 1) hn).not.1 (by omega)
    rw [Nat.mul_comm]
    omega
  have hpage : i / n < divRoundUp N n := by
    rw [Nat.div_lt_iff_lt_mul hn, Nat.mul_comm]
    omega
  have hmod := Nat.mod_lt i hn
  have hdiv := Nat.div_add_mod i n
  rw [Nat.mul_comm] at hdiv
  refine ⟨by rw [hσ.length hpos]; exact hpage, ?_⟩
  obtain ⟨τ, hτ, rfl⟩ := hσ
  have hlen : τ.length = divRoundUp N n - 1 := by rw [hτ.length_eq, List.length_range]
  rw [position, List.getD_eq_getElem?_getD]
  by_cases hlast : i / n < divRoundUp N n - 1
  · obtain ⟨p, hp⟩ : ∃ p, τ[i / n]? = some p := ⟨_, List.getElem?_eq_getElem (by omega)⟩
    rw [List.getElem?_append_left (by omega), hp, Option.getD_some]
    have hmem := List.mem_range.1 (hτ.mem_iff.1 (List.mem_of_getElem? hp))
    have := Nat.mul_le_mul_right n (show p + 1 ≤ divRoundUp N n - 1 from hmem)
    rw [Nat.succ_mul] at this
    omega
  · have heq : i / n = divRoundUp N n - 1 := by omega
    rw [List.getElem?_append_right (by omega), hlen, heq, Nat.sub_self]
    show (divRoundUp N n - 1) * n + i % n < N
    rw [← heq]
    omega

omit [NeZero n] in
/-- Two elements do not have the same position. -/
theorem position_inj {N i j : Nat} (hσ : IsPagePerm (divRoundUp N n) σ) (hn : 0 < n) (hi : i < N)
    (hj : j < N) (heq : position n σ i = position n σ j) : i = j := by
  obtain ⟨hi, -⟩ := position_lt hσ hi hn
  obtain ⟨hj, -⟩ := position_lt hσ hj hn
  have hnodup : σ.Nodup := by
    obtain ⟨τ, hτ, rfl⟩ := hσ
    refine List.nodup_append.2 ⟨hτ.nodup_iff.2 List.nodup_range, List.nodup_singleton _, ?_⟩
    rintro a ha b hb rfl
    rw [List.mem_singleton.1 hb] at ha
    exact absurd (List.mem_range.1 (hτ.mem_iff.1 ha)) (Nat.lt_irrefl _)
  obtain ⟨hdi, hmi⟩ := div_mod_of_lt (p := σ.getD (i / n) 0) (Nat.mod_lt i hn)
  obtain ⟨hdj, hmj⟩ := div_mod_of_lt (p := σ.getD (j / n) 0) (Nat.mod_lt j hn)
  rw [position, position] at heq
  have hpage : σ[i / n] = σ[j / n] := by
    rw [← List.getD_eq_getElem σ 0 hi, ← List.getD_eq_getElem σ 0 hj, ← hdi, heq, hdj]
  have hdiv := (hnodup.getElem_inj_iff).1 hpage
  have hmod : i % n = j % n := by rw [← hmi, heq, hmj]
  rw [← Nat.div_add_mod i n, hdiv, hmod, Nat.div_add_mod]

omit [NeZero n] in
/-- The positions are those of the range. -/
theorem positions_perm {N : Nat} (hσ : IsPagePerm (divRoundUp N n) σ) (hn : 0 < n) :
    List.Perm ((List.range N).map (position n σ)) (List.range N) := by
  have hinj : ∀ i ∈ List.range N, ∀ j ∈ List.range N, position n σ i = position n σ j → i = j :=
    fun i hi j hj => position_inj hσ hn (List.mem_range.1 hi) (List.mem_range.1 hj)
  have hsub : (List.range N).map (position n σ) ⊆ List.range N := by
    intro p hp
    obtain ⟨i, hi, rfl⟩ := List.mem_map.1 hp
    exact List.mem_range.2 (position_lt hσ (List.mem_range.1 hi) hn).2
  exact (List.subperm_of_subset (List.Nodup.map_on hinj List.nodup_range) hsub).perm_of_length_le
    (by rw [List.length_map])

/-- The page of the position is in the buffer that `curr` points to, and it was asked for last. -/
structure AtPage (σ : List Nat) (data : List α) (r : PagePermReader n m α) : Prop where
  curr : r.curr = some (r.it % n)
  translated : r.translatedPageIdx = σ.getD (r.it / n) 0
  cache : Agrees data r.translatedPageIdx (r.cache 0) 0 (data.length - r.translatedPageIdx * n)

/-- A reader of the first `N` elements, of which every fetch brings one page. -/
structure InOrder (σ : List Nat) (data : List α) (onDisk : Bool) (c N : Nat)
    (r : PagePermReader n m α) : Prop where
  translating : Translating σ r
  counter : r.counter = c
  endPtr : r.endPtr = N
  endPageIdx : r.endPageIdx = (N - 1) / n + 1
  /-- With several buffers there is only one page. -/
  single : onDisk = true → N ≤ n
  page : ∀ k, r.curr = some k → k ≤ cacheCapacity onDisk * n ∧ k % n = r.it % n ∧
    (k < cacheCapacity onDisk * n → r.it < N → AtPage σ data r)

section InOrder

variable {onDisk : Bool} {c N : Nat} {data : List α} {v : NonCachedVector.Vector n α}
  {r : PagePermReader n m α}

/-- `get` makes sure that the page of the position is in a buffer. -/
theorem InOrder.get (h : InOrder σ data onDisk c N r) (hσ : IsPagePerm (divRoundUp N n) σ)
    (hv : Stores v c data) (hN : N ≤ v.N) (hit : r.it < N) :
    ∃ r', r.get onDisk v = some r' ∧ r'.it = r.it ∧ InOrder σ data onDisk c N r' ∧
      AtPage σ data r' := by
  have hn := pos_itemPerPage n
  have hcap := Nat.le_mul_of_pos_left n (cacheCapacity_pos onDisk)
  have hmod := Nat.mod_lt r.it hn
  rw [PagePermReader.get]
  by_cases hout : r.curr.all (cacheCapacity onDisk * n ≤ ·) = true
  · -- `curr` is at the end of the buffers only when a page begins
    have hcurr : (if r.curr ≠ some (cacheCapacity onDisk * n) then r.it % n else 0) = r.it % n := by
      by_cases hend : r.curr = some (cacheCapacity onDisk * n)
      · rw [if_neg (not_not.2 hend), ← (h.page _ hend).2.1, Nat.mul_mod_left]
      · rw [if_pos hend]
    have hpage : r.it / n < r.endPageIdx := by
      have := Nat.div_le_div_right (c := n) (show r.it ≤ N - 1 by omega)
      rw [h.endPageIdx]
      omega
    have hone : r.cachePageEndIdx onDisk (r.it / n) - r.it / n = 1 := by
      rw [cachePageEndIdx_eq onDisk hpage]
      cases onDisk with
      | false =>
        rw [show cacheCapacity false = 1 from rfl]
        omega
      | true =>
        have h1 : (N - 1) / n = 0 := Nat.div_eq_of_lt (by have := h.single rfl; omega)
        rw [h.endPageIdx, h1] at hpage ⊢
        rw [Nat.lt_one_iff.1 hpage]
        decide
    obtain ⟨hlt, hpos⟩ := position_lt hσ hit hn
    have hq : σ[r.it / n]? = some (σ.getD (r.it / n) 0) := by
      rw [List.getElem?_eq_getElem hlt, List.getD_eq_getElem σ 0 hlt]
    rw [position] at hpos
    obtain ⟨r₁, hload, htr, hsame, htrans, hagrees⟩ :=
      h.translating.loadPage hv h.counter hq (by omega)
    rw [if_pos hout]
    dsimp only
    rw [hcurr, hone, hload, Option.map_some]
    have hat : AtPage σ data { r₁ with curr := some (r.it % n) } := by
      refine ⟨by rw [hsame.it], by rw [hsame.it, htrans], ?_⟩
      dsimp only
      rwa [htrans, hv.size]
    refine ⟨_, rfl, hsame.it, ⟨htr.congr rfl rfl rfl, hsame.counter.trans h.counter,
      hsame.endPtr.trans h.endPtr, hsame.endPageIdx.trans h.endPageIdx, h.single,
      fun k hk => ?_⟩, hat⟩
    obtain rfl := Option.some.inj hk
    refine ⟨by omega, ?_, fun _ _ => hat⟩
    dsimp only
    rw [Nat.mod_mod, hsame.it]
  · rw [if_neg hout]
    cases hcurr : r.curr with
    | none => exact absurd (by rw [hcurr]; rfl) hout
    | some k =>
      rw [hcurr] at hout
      exact ⟨r, rfl, rfl, h, (h.page k hcurr).2.2
        (Nat.lt_of_not_le fun hle => hout (decide_eq_true hle)) hit⟩

/-- One `read`. -/
theorem InOrder.read (h : InOrder σ data onDisk c N r) (hσ : IsPagePerm (divRoundUp N n) σ)
    (hv : Stores v c data) (hN : N ≤ v.N) (hit : r.it < N) :
    ∃ x r', r.read onDisk v = some (x, r') ∧ r'.it = r.it + 1 ∧ InOrder σ data onDisk c N r' ∧
      r'.getLastIdx = position n σ r.it ∧ data[position n σ r.it]? = some x := by
  have hn := pos_itemPerPage n
  obtain ⟨r₁, hget, hit₁, h₁, hat⟩ := h.get hσ hv hN hit
  have hmod := Nat.mod_lt r.it hn
  have hpos := (position_lt hσ hit hn).2
  have hcurr : r₁.curr.getD 0 = r.it % n := by rw [hat.curr, hit₁]; rfl
  have htrans : r₁.translatedPageIdx = σ.getD (r.it / n) 0 := by rw [hat.translated, hit₁]
  refine ⟨r₁.next.1, r₁.next.2,
    by rw [PagePermReader.read, hget]; rfl, congrArg (· + 1) hit₁, ?_, ?_, ?_⟩
  · refine ⟨h₁.translating.congr rfl rfl rfl, h₁.counter, h₁.endPtr, h₁.endPageIdx, h₁.single,
      fun k hk => ?_⟩
    obtain rfl : r.it % n + 1 = k := Option.some.inj (by rw [← hk, next, hcurr])
    have hnext : r₁.next.2.it = r.it + 1 := congrArg (· + 1) hit₁
    have hcap := Nat.le_mul_of_pos_left n (cacheCapacity_pos onDisk)
    rw [hnext]
    refine ⟨by omega, by rw [Nat.mod_add_mod], fun hlt hN' => ?_⟩
    -- the next position is on the same page
    have hsame : r.it % n + 1 < n := by
      cases onDisk with
      | false => rwa [show cacheCapacity false = 1 from rfl, Nat.one_mul] at hlt
      | true =>
        have := h.single rfl
        rw [Nat.mod_eq_of_lt (show r.it < n by omega)]
        omega
    rcases next_position (n := n) r.it with ⟨-, hdiv, hmod'⟩ | ⟨habs, -, -⟩
    · refine ⟨?_, ?_, hat.cache⟩
      · rw [hnext, hmod', ← hcurr]
        rfl
      · rw [hnext, hdiv]
        exact htrans
    · omega
  · show r₁.translatedPageIdx * n + (r₁.it + 1 - 1) % n = _
    rw [htrans, Nat.add_sub_cancel, hit₁, position]
  · have hx := hat.cache ⟨r.it % n, hmod⟩ (Nat.zero_le _) (by
      show r.it % n < _
      have := hv.size
      rw [htrans]
      rw [position] at hpos
      omega)
    rw [htrans] at hx
    rw [position]
    refine hx.trans ?_
    show some (r₁.cache 0 ⟨r.it % n, hmod⟩) =
      some (r₁.cache (r₁.curr.getD 0 / n) (Fin.ofNat n (r₁.curr.getD 0)))
    rw [hcurr, Nat.div_eq_of_lt hmod]
    congr 2
    exact Fin.ext (Nat.mod_mod r.it n).symm

/-- **Reading until the end**: the elements of the range in the order of the permutation. -/
theorem InOrder.readAll (h : InOrder σ data onDisk c N r) (hσ : IsPagePerm (divRoundUp N n) σ)
    (hv : Stores v c data) (hN : N ≤ v.N) (hit : r.it ≤ N) {fuel : Nat} (hfuel : N - r.it < fuel) :
    ∃ out, r.readAll onDisk v fuel = some out ∧
      out.map Prod.snd = (List.range' r.it (N - r.it)).map (position n σ) ∧
      ∀ p ∈ out, data[p.2]? = some p.1 := by
  induction fuel generalizing r with
  | zero => omega
  | succ fuel ih =>
    rw [PagePermReader.readAll]
    rcases Nat.lt_or_ge r.it N with hlt | hge
    · have heof : r.eof = false := by
        rw [eof, h.endPtr, decide_eq_false_iff_not]
        omega
      obtain ⟨x, r', hread, hit', h', hidx, hx⟩ := h.read hσ hv hN hlt
      obtain ⟨out, hrest, hmap, hdata⟩ := ih h' (by omega) (by omega)
      refine ⟨(x, r'.getLastIdx) :: out, ?_, ?_, fun p hp => ?_⟩
      · rw [heof, if_neg Bool.false_ne_true, hread, Option.bind_some]
        dsimp only
        rw [hrest, Option.map_some]
      · rw [List.map_cons, hmap, hidx, hit', show N - r.it = N - (r.it + 1) + 1 by omega,
          List.range'_succ, List.map_cons]
      · rcases List.mem_cons.1 hp with rfl | hp
        · rw [hidx]
          exact hx
        · exact hdata p hp
    · have heof : r.eof = true := by
        rw [eof, h.endPtr, decide_eq_true hge]
      rw [heof, if_pos rfl, Nat.sub_eq_zero_of_le hge]
      exact ⟨[], rfl, rfl, fun p hp => by cases hp⟩

end InOrder

omit [NeZero n] [NeZero m] in
/-- A reader that has asked for nothing yet. -/
theorem translating_new (cache : Nat → Page n α) {perm : NonCachedVector.Vector m Nat}
    (hperm : Stores perm 0 σ) (beginPtr endPtr counter : Nat) (permPage : Page m Nat) :
    Translating σ (⟨cache, beginPtr, endPtr, none, (endPtr - 1) / n + 1, counter, perm,
      Reader.new permPage 0 perm.N 0, 0, 0⟩ : PagePermReader n m α) :=
  ⟨hperm, reading_new permPage 0 perm.N, hperm.size.symm, rfl⟩

/-! ## Every element once, with its position -/

/-- When pages come one at a time. -/
def OnePageFetches (onDisk : Bool) (pageCount : Nat) : Prop := onDisk = true → pageCount = 1

variable {L : TagOrder} {IsHeap : List (HeapEntry (TaggedT Nat)) → Prop}

/-- A new reader of the first `N` elements. -/
theorem inOrder_new (hL : L.Correct IsHeap) {rand64 : Nat → BitVec 64} {U : Uninit m m'}
    {cache : Nat → Page n α} {onDisk : Bool} {N counter heapSize : Nat} (data : List α) (hN : 1 ≤ N)
    (hone : OnePageFetches onDisk (divRoundUp N n)) {r : PagePermReader n m α}
    (h : new L rand64 U cache 0 N counter heapSize = some r) :
    ∃ σ, IsPagePerm (divRoundUp N n) σ ∧ InOrder σ data onDisk counter N r ∧ r.it = 0 := by
  have hn := pos_itemPerPage n
  rw [new, Nat.sub_zero] at h
  obtain ⟨perm, hmake, rfl⟩ := Option.map_eq_some_iff.1 h
  obtain ⟨-, σ, hperm, hσ⟩ := makePerm_some hL rand64 U (divRoundUp_pos hN hn) hmake
  refine ⟨σ, hσ, ⟨translating_new cache hperm 0 N counter U.permPage, rfl, rfl, rfl,
    fun hdisk => ?_, fun k hk => by cases hk⟩, rfl⟩
  have := (divRoundUp_le_iff (x := N) hn).1 (hone hdisk).le
  omega

/-- **`PagePermReader`** returns every element of a range once, each with its position, exactly when
the range begins at the begin of the vector, the permutation can be built, and with `DISK_IO` there
is only one page. -/
theorem pagePermReader_delivers_iff (hL : L.Correct IsHeap) (rand64 : Nat → BitVec 64)
    (U : Uninit m m')
    (cache : Nat → Page n α) (onDisk : Bool) {v : NonCachedVector.Vector n α} {data : List α}
    {beginPage N counter : Nat} (heapSize : Nat) (hv : Stores v counter data)
    (hN : 1 ≤ N) (hend : beginPage * n + N ≤ v.N) :
    (∃ r fuel out,
      new L rand64 U cache (beginPage * n) (beginPage * n + N) counter heapSize = some r ∧
      r.readAll onDisk v fuel = some out ∧
      List.Perm (out.map Prod.snd) (List.range' (beginPage * n) N) ∧
      ∀ p ∈ out, data[p.2]? = some p.1) ↔
    beginPage = 0 ∧ PermBuilt heapSize (divRoundUp N n) ∧ OnePageFetches onDisk
      (divRoundUp N n) := by
  have hn := pos_itemPerPage n
  have hpages := divRoundUp_pos (show 0 < N by omega) hn
  rw [new, Nat.add_sub_cancel_left]
  constructor
  · rintro ⟨r, fuel, out, hnew, hrun, hperm, -⟩
    obtain ⟨perm, hmake, rfl⟩ := Option.map_eq_some_iff.1 hnew
    obtain ⟨hbuilt, σ, hperm', hσ⟩ := makePerm_some hL rand64 U hpages hmake
    refine ⟨?_, hbuilt, ?_⟩
    · have hle := readAll_endPageIdx
        (translating_new cache hperm' (beginPage * n) (beginPage * n + N) counter U.permPage)
        (.inl ⟨rfl, Nat.mul_mod_left _ _⟩) rfl (by dsimp only; omega) hrun
      rw [hσ.length hpages] at hle
      dsimp only at hle
      rw [show beginPage * n + N - 1 = n * beginPage + (N - 1) by rw [Nat.mul_comm]; omega,
        Nat.mul_add_div hn] at hle
      have hcount : divRoundUp N n = (N - 1) / n + 1 := by
        rw [divRoundUp, show N + n - 1 = N - 1 + n by omega, Nat.add_div_right _ hn]
      omega
    · rintro rfl
      by_contra hmany
      have hlen : out.length = N := by
        rw [← List.length_map (f := Prod.snd), hperm.length_eq, List.length_range']
      have hN' : n < N := by
        have := (divRoundUp_le_iff (x := N) (z := 1) hn).not.1 (by omega)
        omega
      exact readAll_onDisk rfl (Nat.mul_mod_left _ _) hrun (by omega)
        (hperm.nodup_iff.2 List.nodup_range')
  · rintro ⟨rfl, hbuilt, hone⟩
    obtain ⟨perm, -, hmake, -, -⟩ := makePerm_spec hL rand64 U hbuilt hpages
    rw [Nat.zero_mul, Nat.zero_add] at hend ⊢
    obtain ⟨σ, hσ, hstart, hit⟩ := inOrder_new hL data hN hone
      (show new L rand64 U cache 0 N counter heapSize = some _
        by rw [new, Nat.sub_zero, hmake]; rfl)
    obtain ⟨out, hrun, hmap, hdata⟩ :=
      hstart.readAll hσ hv hend (Nat.zero_le _) (Nat.lt_succ_self _)
    refine ⟨_, _, out, by rw [hmake]; rfl, hrun, ?_, hdata⟩
    rw [hmap, hit, Nat.sub_zero, ← List.range_eq_range']
    exact positions_perm hσ hn

/-! ### Three elements in two pages -/

instance : SortKey (TaggedT Nat) where
  lt := cmpTag
  eq a b := a.tag == b.tag

theorem cmpTag_iff {a b : TaggedT Nat} : cmpTag a b = true ↔ a.tag.toNat < b.tag.toNat :=
  BitVec.ult_iff_lt.trans BitVec.lt_def

instance : IsStrictWeakOrder (TaggedT Nat) SortKey.Lt where
  irrefl a h := Nat.lt_irrefl _ (cmpTag_iff.1 h)
  trans a b c hab hbc := cmpTag_iff.2 ((cmpTag_iff.1 hab).trans (cmpTag_iff.1 hbc))
  incomp_trans a b c hab hbc := by
    have hiff : ∀ a b : TaggedT Nat, SortKey.Lt a b ↔ a.tag.toNat < b.tag.toNat :=
      fun _ _ => cmpTag_iff
    rw [hiff, hiff] at *
    omega

/-- Sorting by tag, and a heap that is kept in order. -/
def tagOrder : TagOrder where
  sort xs := xs.mergeSort fun a b => !cmpTag b a
  heap := sortedHeap

theorem tagOrder_correct :
    tagOrder.Correct fun h => h.Pairwise fun a b => cmpMergeTag a b = false where
  perm xs := List.mergeSort_perm xs _
  sorted xs := by
    refine (List.pairwise_mergeSort ?_ ?_ xs).imp fun {a b} hab => ?_
    · intro a b c hab hbc
      rw [Bool.not_eq_true', Bool.eq_false_iff, Ne, cmpTag_iff] at *
      omega
    · intro a b
      rw [Bool.or_eq_true, Bool.not_eq_true', Bool.not_eq_true', Bool.eq_false_iff,
        Bool.eq_false_iff, Ne, Ne, cmpTag_iff, cmpTag_iff]
      omega
    · rwa [Bool.not_eq_true'] at hab
  heap := sortedHeap_correct

/-- Memory of zeros. -/
def zeroUninit : Uninit 4 4 := ⟨fun _ => 0, fun _ => ⟨0, 0⟩, ⟨0, 0⟩, ⟨0, 0⟩⟩

/-- The elements 5, 6 and 7, written with the counter `c`. -/
def threeElements (c : Nat) : NonCachedVector.Vector 2 Nat :=
  ((newVector ⟨0, 0⟩ (fun _ => 0) 3).write 0 (fun o => 5 + o.val) c).write 1 (fun o => 7 + o.val) c

theorem threeElements_stores (c : Nat) : Stores (threeElements c) c [5, 6, 7] where
  size := rfl
  pages p hp := by
    have hp : p * 2 < 3 := hp
    obtain rfl | rfl : p = 0 ∨ p = 1 := by omega
    · refine ⟨fun o => 5 + o.val, (has_write _ 0 c _).write_ne _ (by decide), ?_⟩
      show ∀ o : Fin 2, 0 ≤ o.val → o.val < 3 - 0 * 2 → [5, 6, 7][0 * 2 + o.val]? = some (5 + o.val)
      decide
    · refine ⟨fun o => 7 + o.val, has_write _ 1 c _, ?_⟩
      show ∀ o : Fin 2, 0 ≤ o.val → o.val < 3 - 1 * 2 → [5, 6, 7][1 * 2 + o.val]? = some (7 + o.val)
      decide

/-- Two pages, fetched one at a time. -/
theorem pagePermReader_delivers_three :
    ∃ r fuel out,
      new tagOrder (fun _ => 0) zeroUninit (fun _ _ => 0) (0 * 2) (0 * 2 + 3) 0 100 = some r ∧
      r.readAll false (threeElements 0) fuel = some out ∧
      List.Perm (out.map Prod.snd) (List.range' (0 * 2) 3) ∧
      ∀ p ∈ out, [5, 6, 7][p.2]? = some p.1 :=
  (pagePermReader_delivers_iff tagOrder_correct (fun _ => 0) zeroUninit (fun _ _ => 0) false 100
    (threeElements_stores 0) (show 1 ≤ 3 by decide) (show 0 * 2 + 3 ≤ 3 by decide)).2
    ⟨rfl, by decide, fun h => by cases h⟩

/-- A range of one page: `fisherYatesShuffle` of nothing divides by zero. -/
theorem pagePermReader_one_page :
    ¬ ∃ r fuel out,
      new tagOrder (fun _ => 0) zeroUninit (fun _ _ => 0) (0 * 2) (0 * 2 + 1) 0 100 = some r ∧
      r.readAll false (threeElements 0) fuel = some out ∧
      List.Perm (out.map Prod.snd) (List.range' (0 * 2) 1) ∧
      ∀ p ∈ out, [5, 6, 7][p.2]? = some p.1 := by
  rintro ⟨r, fuel, out, hnew, -⟩
  cases hnew

end PagePermReader

end EM.Algorithm
