import OblSort.Algorithm.MergeVector
import OblSort.Algorithm.Proof.MergePasses
import OblSort.Lib.Store
import OblSort.Proof.ReaderWriter

/-!
# Merge sort sorts a vector in place

`ExtMergeSort(vec, heapSize, inAuth)` on a vector whose pages were all last written with `inAuth`:
it reads no page with a counter other than the one it was last written with, and leaves the elements
in order, written with `outAuth`, exactly when the batches can be merged in one pass
(`sortVec_sorts_iff`).

A reader has a rest of the data in front of it (`MergeReader.rest`). The loop that empties the heap
writes the elements that its readers have in front of them, in order, whatever the output is
(`mergeLoop_spec`); the writer then stores them (`Writing.writeMany`).
-/

namespace EM.Algorithm.MergeVector

open NonCachedVector Paged Loop Store

variable {n m : Nat} [NeZero n] [NeZero m] {α : Type}

/-! ## Readers -/

/-- The vector `vec` has `data`, written with the counter 0. -/
def Holds (mem : Memory n α) (vec : Nat) (data : List α) : Prop :=
  ∃ v, mem[vec]? = some v ∧ Stores v 0 data

/-- The reader is one of the vector `vec`, which has `data`. -/
structure Within (vec : Nat) (data : List α) (r : MergeReader n α) : Prop where
  vec : r.vec = vec
  reading : Reading data 0 r.reader
  le : r.reader.endPtr ≤ data.length

/-- What the reader has in front of it. -/
def MergeReader.rest (data : List α) (r : MergeReader n α) : List α :=
    (data.drop r.reader.it).take r.size

variable {vec : Nat} {data : List α} {mem : Memory n α} {r : MergeReader n α}

omit [NeZero n] in
theorem Within.length_rest (h : Within vec data r) : (r.rest data).length = r.size := by
  have := h.le
  rw [MergeReader.rest, List.length_take, List.length_drop, MergeReader.size]
  omega

omit [NeZero n] in
theorem Within.eof_iff (h : Within vec data r) : r.reader.eof = true ↔ r.rest data = [] := by
  rw [← List.length_eq_zero_iff, h.length_rest, MergeReader.size, Reader.eof, decide_eq_true_iff]
  omega

/-- An entry of a reader: its element is the next one of the reader. -/
structure Ready (vec : Nat) (data : List α) (e : Entry n α) : Prop where
  within : Within vec data e.1
  next : (e.1.rest data).head? = some e.2

/-- The element of an entry is the one that its reader reads. -/
theorem Within.get (h : Within vec data r) (hmem : Holds mem vec data) (hrest : r.rest data ≠ []) :
    ∃ e, r.get mem = .ok e ∧ Ready vec data e ∧ e.1.rest data = r.rest data := by
  obtain ⟨v, hv, hstores⟩ := hmem
  have heof : ¬ r.reader.eof = true := fun heof => hrest (h.eof_iff.1 heof)
  have hlt : r.reader.it < r.reader.endPtr := by
    rw [Reader.eof, decide_eq_true_iff] at heof
    omega
  have hle := h.le
  obtain ⟨cache, hget, hagrees⟩ := h.reading.get hstores (by rw [← hstores.size]; omega)
  have hmod := Nat.mod_lt r.reader.it (pos_itemPerPage n)
  have hdiv := Nat.div_add_mod r.reader.it n
  rw [Nat.mul_comm] at hdiv
  have hx := agrees_getElem? hagrees (show r.reader.it % n < _ by omega)
  refine ⟨(⟨r.vec, { r.reader with cache, curr := some (r.reader.it % n) }⟩,
    cache (Fin.ofNat n (r.reader.it % n))), ?_, ⟨⟨h.vec, ?_, hle⟩, ?_⟩, rfl⟩
  · rw [MergeReader.get, if_neg heof, h.vec, hv]
    dsimp only
    rw [hget]
    rfl
  · refine ⟨h.reading.counter, fun k hk => ?_⟩
    obtain rfl : r.reader.it % n = k := Option.some.inj hk
    exact ⟨hmod.le, Nat.mod_mod _ _, fun _ => hagrees⟩
  · rw [MergeReader.rest, List.head?_take, if_neg, List.head?_drop]
    · exact hx
    · rw [MergeReader.size]
      dsimp only
      omega

theorem Within.read (h : Within vec data r) (hmem : Holds mem vec data) (hrest : r.rest data ≠ []) :
    ∃ x r', r.read mem = .ok (x, r') ∧ r.rest data = x :: r'.rest data ∧ Within vec data r' := by
  obtain ⟨v, hv, hstores⟩ := hmem
  have hlen := h.length_rest
  have hpos := List.length_pos_iff.2 hrest
  have hle := h.le
  rw [MergeReader.size] at hlen
  obtain ⟨x, r', hread, hx, hit, hend, hreading⟩ :=
    h.reading.read hstores (by rw [← hstores.size]; omega)
  obtain ⟨hlt, hget⟩ := List.getElem?_eq_some_iff.1 hx
  refine ⟨x, ⟨r.vec, r'⟩, ?_, ?_, h.vec, hreading, by rw [hend]; exact hle⟩
  · rw [MergeReader.read, h.vec, hv]
    dsimp only
    rw [hread]
    rfl
  · rw [MergeReader.rest, MergeReader.rest, MergeReader.size, MergeReader.size, hit, hend,
      List.drop_eq_getElem_cons hlt, hget,
      show r.reader.endPtr - r.reader.it = r.reader.endPtr - (r.reader.it + 1) + 1 by
        omega, List.take_succ_cons]

theorem Ready.read {e : Entry n α} (h : Ready vec data e) (hmem : Holds mem vec data) :
    ∃ r', e.1.read mem = .ok (e.2, r') ∧ e.1.rest data = e.2 :: r'.rest data ∧
    Within vec data r' := by
  have hrest : e.1.rest data ≠ [] := fun hnil => by
    have hnext := h.next
    rw [hnil] at hnext
    cases hnext
  obtain ⟨x, r', hread, hcons, hr'⟩ := h.within.read hmem hrest
  have hnext := h.next
  rw [hcons] at hnext
  cases hnext
  exact ⟨r', hread, hcons, hr'⟩

/-! ## The output -/

/-- `write` of the elements of a list. -/
def Output.writeMany (xs : List α) (o : Output m α) : Output m α :=
  ⟨(Writer.writeMany xs o.writer o.vec).1, (Writer.writeMany xs o.writer o.vec).2, o.originalPage⟩

theorem Output.writeMany_cons (x : α) (xs : List α) (o : Output m α) :
    o.writeMany (x :: xs) = (o.write x).writeMany xs := rfl

theorem Output.flush_eq {o : Output m α} {vec : NonCachedVector.Vector m α}
    (h : o.writer.flush o.originalPage o.vec = some vec) : o.flush = .ok { o with vec } := by
  rw [Output.flush, h]
  rfl

omit [NeZero m] in
/-- A writer of the whole vector. -/
theorem init_all (cache : Page m α) (endPtr c : Nat) (v : NonCachedVector.Vector m α) :
    Writer.init cache 0 endPtr c v = some ⟨cache, 0, endPtr, 0 % m, c⟩ := by
  rw [Writer.init, if_neg (by simp)]
  rfl

/-- It has written a list. -/
theorem writeMany_writing (out : List α) (cache : Page m α) (endPtr c : Nat)
    (v : NonCachedVector.Vector m α) :
    (Writer.writeMany out ⟨cache, 0, endPtr, 0 % m, c⟩ v).1.it = out.length ∧
      Writing out c v (Writer.writeMany out ⟨cache, 0, endPtr, 0 % m, c⟩ v).1
        (Writer.writeMany out ⟨cache, 0, endPtr, 0 % m, c⟩ v).2 := by
  have hstart : Written out c v 0 v :=
    ⟨rfl, rfl, fun p hp => absurd hp (Nat.not_lt_zero _), fun _ _ => rfl⟩
  obtain ⟨-, hwriting⟩ := hstart.init (Nat.zero_mod m) cache endPtr
  obtain ⟨hit, hwritten⟩ := hwriting.writeMany
    (show From out 0 out from fun i _ => by rw [Nat.zero_add])
  exact ⟨hit.trans (Nat.zero_add _), hwritten⟩

/-- It has written all. -/
theorem writeMany_flush {v : NonCachedVector.Vector m α} {out : List α} (hlen : out.length = v.N)
    (cache originalPage : Page m α) (endPtr c : Nat) :
    ∃ v', (Writer.writeMany out ⟨cache, 0, endPtr, 0 % m, c⟩ v).1.flush originalPage
      (Writer.writeMany out ⟨cache, 0, endPtr, 0 % m, c⟩ v).2 = some v' ∧ Stores v' c out := by
  obtain ⟨hit, hwriting⟩ := writeMany_writing out cache endPtr c v
  obtain ⟨v', hflush, hv'⟩ := hwriting.flush (.inr (.inl (hit.trans hlen))) originalPage
  rw [hit] at hv'
  exact ⟨v', hflush, hv'.stores hlen rfl⟩

theorem flush_writeMany {v : NonCachedVector.Vector m α} {out : List α} (hlen : out.length = v.N)
    (cache originalPage : Page m α) (endPtr c : Nat) :
    ∃ o, (Output.writeMany out ⟨⟨cache, 0, endPtr, 0 % m, c⟩, v, originalPage⟩).flush = .ok o ∧
      Stores o.vec c out := by
  obtain ⟨v', hflush, hv'⟩ := writeMany_flush hlen cache originalPage endPtr c
  exact ⟨_, Output.flush_eq hflush, hv'⟩

/-! ## The heap -/

/-- The elements that the readers of a heap have in front of them. -/
def heapElements (data : List α) (heap : List (Entry n α)) : List α :=
    heap.flatMap fun e => e.1.rest data

section

variable {H : StdHeap (Entry n α)} {cmp : Entry n α → Entry n α → Bool}
  {IsHeap : List (Entry n α) → Prop}

/-- The heap after its front has given its element. -/
theorem mergeLoop_next (hH : H.Correct cmp IsHeap) (hmem : Holds mem vec data) {top : Entry n α}
    {heap : List (Entry n α)} (hheap : IsHeap (top :: heap))
    (hready : ∀ e ∈ top :: heap, Ready vec data e) :
    ∃ next, (∀ fuel (o : Output m α), mergeLoop H mem (fuel + 1) (top :: heap) o =
        mergeLoop H mem fuel next (o.write top.2)) ∧ IsHeap next ∧ (∀ e ∈ next, Ready vec data e) ∧
      List.Perm (heapElements data (top :: heap)) (top.2 :: heapElements data next) ∧
      ∀ e ∈ next, e ∈ heap ∨ top.1.rest data = top.2 :: e.1.rest data := by
  obtain ⟨r', hread, hrest, hr'⟩ := (hready top List.mem_cons_self).read hmem
  have hothers : ∀ e ∈ heap, Ready vec data e := fun e he => hready e (List.mem_cons_of_mem _ he)
  have helements : heapElements data (top :: heap) = top.2 ::
    (r'.rest data ++ heapElements data heap) := by
    rw [heapElements, List.flatMap_cons, hrest]
    rfl
  cases heof : r'.reader.eof with
  | true =>
    obtain ⟨next, hpop, hperm, hnext⟩ := hH.pop top heap hheap
    refine ⟨next, fun fuel o => ?_, hnext, fun e he => hothers e (hperm.mem_iff.1 he), ?_,
      fun e he => .inl (hperm.mem_iff.1 he)⟩
    · rw [mergeLoop, hread, ok_bind]
      dsimp only
      rw [heof, if_pos rfl, ok_bind, List.append_nil, hpop, List.dropLast_concat]
    · rw [helements, hr'.eof_iff.1 heof, List.nil_append]
      exact (hperm.symm.flatMap_right _).cons _
  | false =>
    have hne : r'.rest data ≠ [] := fun hnil => by
      rw [hr'.eof_iff.2 hnil] at heof
      cases heof
    obtain ⟨e', hget, he', hrest'⟩ := hr'.get hmem hne
    obtain ⟨next, hpop, hperm, hnext⟩ := hH.replace top heap e' hheap
    have hcases : ∀ e ∈ next, e ∈ heap ∨ e = e' := fun e he => by
      rcases List.mem_append.1 (hperm.mem_iff.1 he) with he | he
      · exact .inl he
      · exact .inr (List.mem_singleton.1 he)
    refine ⟨next, fun fuel o => ?_, hnext, fun e he => ?_, ?_, fun e he => ?_⟩
    · rw [mergeLoop, hread, ok_bind]
      dsimp only
      rw [heof, if_neg Bool.false_ne_true, hget]
      change mergeLoop H mem fuel (H.popHeap (top :: heap ++ [e'])).dropLast _ = _
      rw [hpop, List.dropLast_concat]
    · rcases hcases e he with he | rfl
      · exact hothers e he
      · exact he'
    · rw [helements]
      refine List.Perm.cons _ (List.perm_append_comm.trans ?_)
      have hall := (hperm.flatMap_right fun e => e.1.rest data).symm
      rwa [List.flatMap_append, List.flatMap_singleton, hrest'] at hall
    · rcases hcases e he with he | rfl
      · exact .inl he
      · exact .inr (hrest'.symm ▸ hrest)

end

section Merge

variable [SortKey α] [IsStrictWeakOrder α SortKey.Lt] {H : StdHeap (Entry n α)}
  {IsHeap : List (Entry n α) → Prop} (hH : H.Correct cmpMerge IsHeap) (hmem : Holds mem vec data)

include hH

omit [NeZero n] in
/-- The front of a heap of sorted readers has the least element. -/
theorem heap_front_le {top : Entry n α} {heap : List (Entry n α)} (hheap : IsHeap (top :: heap))
    (hready : ∀ e ∈ top :: heap, Ready vec data e)
    (hsorted : ∀ e ∈ top :: heap, (e.1.rest data).Pairwise SortKey.Le) :
    ∀ y ∈ heapElements data (top :: heap), SortKey.Le top.2 y := by
  intro y hy
  obtain ⟨e, he, hy⟩ := List.mem_flatMap.1 hy
  have hle : SortKey.Le top.2 e.2 := by
    rcases List.mem_cons.1 he with rfl | he
    · exact SortKey.decides.refl _
    · exact hH.top top heap hheap e he
  obtain ⟨xs, hxs⟩ := List.head?_eq_some_iff.1 (hready e he).next
  have hs := hsorted e he
  rw [hxs] at hs hy
  rcases List.mem_cons.1 hy with rfl | hy
  · exact hle
  · exact hle.trans (List.rel_of_pairwise_cons hs hy)

include hmem

/-- **The loop that empties the heap** writes what its readers have in front of them, in order. -/
theorem mergeLoop_spec {fuel : Nat} {heap : List (Entry n α)} (o : Output m α) (hheap : IsHeap heap)
    (hready : ∀ e ∈ heap, Ready vec data e) (hsorted : ∀ e ∈ heap,
      (e.1.rest data).Pairwise SortKey.Le)
    (hfuel : (heapElements data heap).length < fuel) :
    ∃ out, mergeLoop H mem fuel heap o = .ok (o.writeMany out) ∧
    List.Perm out (heapElements data heap) ∧
      out.Pairwise SortKey.Le := by
  induction fuel generalizing heap o with
  | zero => omega
  | succ fuel ih =>
    cases heap with
    | nil => exact ⟨[], rfl, .refl _, .nil⟩
    | cons top heap =>
      obtain ⟨next, hstep, hnext, hready', hperm, hmem'⟩ :=
        mergeLoop_next (m := m) hH hmem hheap hready
      have hlen := hperm.length_eq
      rw [List.length_cons] at hlen
      obtain ⟨out, hrun, hout, hs⟩ := ih (o.write top.2) hnext hready' (fun e he => by
        rcases hmem' e he with he | he
        · exact hsorted e (List.mem_cons_of_mem _ he)
        · have htop := hsorted top List.mem_cons_self
          rw [he] at htop
          exact htop.tail) (by omega)
      have hall : List.Perm (top.2 :: out) (heapElements data (top :: heap)) :=
        (hout.cons top.2).trans hperm.symm
      refine ⟨top.2 :: out, ?_, hall, List.pairwise_cons.2 ⟨fun y hy => ?_, hs⟩⟩
      · rw [hstep, hrun, Output.writeMany_cons]
      · exact heap_front_le hH hheap hready hsorted y (hall.mem_iff.1 (List.mem_cons_of_mem _ hy))

end Merge

/-! ## One pass -/

/-- The loop over one reader writes what it has in front of it. -/
theorem copyReader_spec (hmem : Holds mem vec data) {fuel : Nat} (h : Within vec data r)
    (o : Output m α)
    (hfuel : r.size < fuel) : copyReader mem fuel r o = .ok (o.writeMany (r.rest data)) := by
  induction fuel generalizing r o with
  | zero => omega
  | succ fuel ih =>
    rw [copyReader]
    cases heof : r.reader.eof with
    | true =>
      rw [if_pos rfl, h.eof_iff.1 heof]
      rfl
    | false =>
      have hne : r.rest data ≠ [] := fun hnil => by
        rw [h.eof_iff.2 hnil] at heof
        cases heof
      obtain ⟨x, r', hread, hrest, hr'⟩ := h.read hmem hne
      have hlen := h.length_rest
      rw [hrest, List.length_cons, hr'.length_rest] at hlen
      rw [if_neg Bool.false_ne_true, hread, ok_bind]
      dsimp only
      rw [ih hr' (o.write x) (by omega), hrest, Output.writeMany_cons]

omit [NeZero n] in
/-- The readers of ranges one after the other. -/
theorem readers_segments (U : Uninit n α) {start : Nat} {gs : List (List α)} {rest : List α}
    (hstart : start ≤ data.length) (hdata : data.drop start = gs.flatten ++ rest) :
    List.Forall₂ (fun g r => Within vec data r ∧ r.rest data = g) gs
      ((rangesAt vec (segments start gs)).map (MergeReader.new U)) := by
  induction gs generalizing start with
  | nil => exact .nil
  | cons g gs ih =>
    rw [List.flatten_cons, List.append_assoc] at hdata
    have hend := end_of_drop hdata hstart
    refine .cons ⟨⟨rfl, reading_new U.readerCache start (start + g.length), hend⟩, ?_⟩
      (ih hend (drop_of_drop hdata))
    change (data.drop start).take (start + g.length - start) = g
    rw [hdata, Nat.add_sub_cancel_left, List.take_left]

theorem readers_open {gs : List (List α)} {readers : List (MergeReader n α)}
    (hmem : Holds mem vec data)
    (h : List.Forall₂ (fun g r => Within vec data r ∧ r.rest data = g) gs readers)
    (hne : ∀ g ∈ gs, g ≠ []) :
    ∃ heap, readers.mapM (·.get mem) = .ok heap ∧ (∀ e ∈ heap, Ready vec data e) ∧
      heap.map (fun e => e.1.rest data) = gs := by
  induction h with
  | nil => exact ⟨[], rfl, List.forall_mem_nil _, rfl⟩
  | @cons g r gs readers hr _ ih =>
    obtain ⟨heap, hheap, hready, hmap⟩ := ih fun g hg => hne g (List.mem_cons_of_mem _ hg)
    obtain ⟨e, hget, he, hrest⟩ := hr.1.get hmem (by rw [hr.2]; exact hne g List.mem_cons_self)
    refine ⟨e :: heap, ?_, List.forall_mem_cons.2 ⟨he, hready⟩,
      by rw [List.map_cons, hmap, hrest, hr.2]⟩
    rw [List.mapM_cons, hget, hheap]
    rfl

omit [NeZero n] in
theorem readers_size {gs : List (List α)} {readers : List (MergeReader n α)}
    (h : List.Forall₂ (fun g r => Within vec data r ∧ r.rest data = g) gs readers) :
    (readers.map MergeReader.size).sum = gs.flatten.length := by
  induction h with
  | nil => rfl
  | cons hr _ ih =>
    rw [List.map_cons, List.sum_cons, ih, List.flatten_cons, List.length_append, ← hr.2,
      hr.1.length_rest]

section Pass

variable [SortKey α] [IsStrictWeakOrder α SortKey.Lt] {H : StdHeap (Entry n α)}
  {IsHeap : List (Entry n α) → Prop} (hH : H.Correct cmpMerge IsHeap)

include hH

/-- **One pass** over sorted ranges of a vector that were written one after the other. -/
theorem mergeReaders_spec (U : Uninit n α) (o : Output m α) {gs : List (List α)}
    (hmem : Holds mem vec gs.flatten) (hne : ∀ g ∈ gs, g ≠ [])
    (hsorted : ∀ g ∈ gs, g.Pairwise SortKey.Le) :
    ∃ out, mergeReaders H U mem gs.length (rangesAt vec (segments 0 gs)) o =
      (o.writeMany out).flush ∧
      List.Perm out gs.flatten ∧ out.Pairwise SortKey.Le := by
  have hreaders : List.Forall₂ (fun g r => Within vec gs.flatten r ∧ r.rest gs.flatten = g) gs
      ((rangesAt vec (segments 0 gs)).map (MergeReader.new U)) :=
    readers_segments U (Nat.zero_le _) (show gs.flatten.drop 0 = gs.flatten ++ [] by
      rw [List.drop_zero, List.append_nil])
  have hsize := readers_size hreaders
  rw [mergeReaders, hsize]
  generalize (rangesAt vec (segments 0 gs)).map (MergeReader.new U) = readers at hreaders
  by_cases h1 : gs.length = 1
  · obtain ⟨g, rfl⟩ := List.length_eq_one_iff.1 h1
    cases hreaders with
    | cons hr hnil =>
      cases hnil
      have hlen := hr.1.length_rest
      rw [hr.2] at hlen
      refine ⟨g, ?_, by simp, hsorted g List.mem_cons_self⟩
      rw [if_pos h1]
      dsimp only
      rw [copyReader_spec hmem hr.1 o (by rw [← hlen]; simp), hr.2]
      rfl
  · obtain ⟨heap, hheap, hready, hmap⟩ := readers_open hmem hreaders hne
    obtain ⟨hperm, hheap'⟩ := hH.make heap
    have hall : List.Perm (heapElements gs.flatten (H.makeHeap heap)) gs.flatten := by
      refine (hperm.flatMap_right _).trans (List.Perm.of_eq ?_)
      rw [List.flatMap_def, hmap]
    obtain ⟨out, hrun, hout, hs⟩ := mergeLoop_spec hH hmem o hheap'
      (fun e he => hready e (hperm.mem_iff.1 he))
      (fun e he => by
        have hin := List.mem_map_of_mem (f := fun e => e.1.rest gs.flatten) (hperm.mem_iff.1 he)
        rw [hmap] at hin
        exact hsorted _ hin)
      (show _ < gs.flatten.length + 1 by rw [hall.length_eq]; exact Nat.lt_succ_self _)
    refine ⟨out, ?_, hout.trans hall, hs⟩
    rw [if_neg h1, hheap, ok_bind, hrun]
    rfl

end Pass

/-! ## Sub-merges -/

section MultiPass

variable {H : StdHeap (Entry n α)} {U : Uninit n α} {passWay : Nat → Nat → Nat} {maxWay : Nat}

theorem ExtMergeSort_onePass {mergeRanges : List MergeRange} (hfew : mergeRanges.length ≤ maxWay)
    (fuel : Nat) (o : Output m α) : ExtMergeSort H U passWay maxWay (fuel + 1) mem o mergeRanges =
      mergeReaders H U mem mergeRanges.length mergeRanges o := by
  rw [ExtMergeSort, if_neg (Nat.not_lt.2 hfew)]

omit [NeZero n] in
/-- The first of the new ranges is one of the temporary vector. -/
theorem subMerges_head {call : Memory n α → Output n α → List MergeRange →
      Except Abort (Output n α)}
    {subRangeCount way subBegin : Nat} {temp : NonCachedVector.Vector n α}
    {ranges new : List MergeRange}
    (h : subMerges call U mem subRangeCount (way + 1) subBegin temp ranges = .ok new) :
    ∃ first rest, new = first :: rest ∧ first.1.vec = mem.length := by
  rw [subMerges] at h
  dsimp only at h
  split at h
  · rename_i first last _ _
    obtain ⟨writer, -, h⟩ := bind_eq_ok h
    obtain ⟨o, -, h⟩ := bind_eq_ok h
    split at h
    · cases h
      exact ⟨_, _, rfl, rfl⟩
    · obtain ⟨rest, -, h⟩ := bind_eq_ok h
      cases h
      exact ⟨_, _, rfl, rfl⟩
  · cases h

/-- **Sub-merges are lost**: a merge of more than `maxWay` ranges, two at least, never succeeds. -/
theorem ExtMergeSort_multiPass {mergeRanges : List MergeRange} (hmany : maxWay < mergeRanges.length)
    (htwo : 1 < mergeRanges.length) (fuel : Nat) (o o' : Output m α) :
    ExtMergeSort H U passWay maxWay fuel mem o mergeRanges ≠ .ok o' := by
  intro h
  cases fuel with
  | zero => cases h
  | succ fuel =>
    rw [ExtMergeSort, if_pos hmany] at h
    dsimp only at h
    split at h
    · cases h
    · rename_i hway
      have hlen : 0 < mergeRanges.length := by omega
      obtain ⟨way, hway'⟩ := Nat.exists_eq_succ_of_ne_zero (Nat.ne_of_gt
        (divRoundUp_pos hlen (divRoundUp_pos hlen (Nat.pos_of_ne_zero hway))))
      rw [hway'] at h
      obtain ⟨new, hnew, h⟩ := bind_eq_ok h
      obtain ⟨first, rest, rfl, hvec⟩ := subMerges_head hnew
      have hget : ∃ e, (MergeReader.new U first).get mem = .error e := by
        rw [MergeReader.get]
        split
        · exact ⟨_, rfl⟩
        · rw [show (MergeReader.new U first).vec = mem.length from hvec,
            List.getElem?_eq_none (Nat.le_refl _)]
          exact ⟨_, rfl⟩
      obtain ⟨e, hget⟩ := hget
      rw [mergeReaders, if_neg htwo.ne', List.map_cons, List.mapM_cons, hget] at h
      cases h

end MultiPass

/-! ## The sort -/

/-- The standard library sorts, and its heap functions keep `IsHeap`. -/
structure Surroundings.Correct [SortKey α] (A : Surroundings n m α)
    (IsHeap : List (Entry n α) → Prop) :
    Prop where
  sort_perm : ∀ xs, List.Perm (A.stdSort xs) xs
  sort_sorted : ∀ xs, (A.stdSort xs).Pairwise SortKey.Le
  heap : A.heap.Correct cmpMerge IsHeap

namespace Surroundings

variable (A : Surroundings n m α) {batchSize : Nat}

/-- A batch is not empty. -/
theorem batch_begins {size k : Nat} (hpos : 0 < batchSize) (hk : k < divRoundUp size batchSize) :
    k * batchSize < size := by
  by_contra hge
  rw [Nat.mul_comm, Nat.not_lt, ← divRoundUp_le_iff hpos] at hge
  omega

/-- A batch, sorted. -/
def sortedBatch (data : List α) (batchSize i : Nat) : List α :=
  A.stdSort ((data.drop (i * batchSize)).take batchSize)

/-- The batches that have been sorted. -/
def sortedBatches (data : List α) (batchSize k : Nat) : List (List α) :=
  (List.range k).map (A.sortedBatch data batchSize)

omit [NeZero n] [NeZero m] in
theorem sortedBatches_succ (data : List α) (batchSize k : Nat) :
    A.sortedBatches data batchSize (k + 1) = A.sortedBatches data batchSize k ++
      [A.sortedBatch data batchSize k] := by
  rw [sortedBatches, List.range_succ, List.map_append]
  rfl

section Sorts

variable [SortKey α] {A} {IsHeap : List (Entry n α) → Prop} (hA : A.Correct IsHeap)

include hA

omit [NeZero n] [NeZero m] in
theorem sortedBatches_perm (data : List α) (batchSize k : Nat) :
    List.Perm (A.sortedBatches data batchSize k).flatten (data.take (k * batchSize)) := by
  rw [← gather_take_drop batchSize k data, sortedBatches, ← List.flatMap_def]
  exact gather_perm fun i _ => hA.sort_perm _

omit [NeZero n] [NeZero m] in
theorem length_sortedBatches (data : List α) (batchSize k : Nat) :
    (A.sortedBatches data batchSize k).flatten.length = min (k * batchSize) data.length := by
  rw [(sortedBatches_perm hA data batchSize k).length_eq, List.length_take]

/-- Before the batch `k`: the input is as it was, the batches before are sorted one after the
other. -/
structure Batches (data : List α) (inAuth batchSize k : Nat)
    (s : NonCachedVector.Vector m α × NonCachedVector.Vector n α × List MergeRange) : Prop where
  input : Stores s.1 inAuth data
  sorted : Progress (A.sortedBatches data batchSize (divRoundUp data.length batchSize)).flatten 0
    (A.sortedBatches data batchSize k).flatten.length s.2.1
  ranges : s.2.2 = rangesAt 0 (segments 0 (A.sortedBatches data batchSize k))

theorem sortBatch_batches {data : List α} {inAuth k : Nat} (hpos : 0 < batchSize)
    (hk : k < divRoundUp data.length batchSize)
    {s : NonCachedVector.Vector m α × NonCachedVector.Vector n α × List MergeRange}
    (h : Batches (A := A) data inAuth batchSize k s) :
    ∃ s', A.sortBatch 0 data.length inAuth batchSize k s = .ok s' ∧
      Batches (A := A) data inAuth batchSize (k + 1) s' := by
  obtain ⟨v, batchSorted, ranges⟩ := s
  have hbegin := batch_begins hpos hk
  have hlen := length_sortedBatches hA data batchSize k
  have hlen' := length_sortedBatches hA data batchSize (k + 1)
  rw [Nat.succ_mul] at hlen'
  have hsize : (A.sortedBatch data batchSize k).length = min batchSize
    (data.length - k * batchSize) := by
    rw [sortedBatch, (hA.sort_perm _).length_eq, List.length_take, List.length_drop]
  obtain ⟨cachePage, hcopy⟩ := h.input.copyIn (Nat.le_add_right (k * batchSize) _)
    (show k * batchSize + min batchSize (data.length - k * batchSize) ≤
      v.N by rw [← h.input.size]; omega)
  rw [Nat.add_sub_cancel_left, ← List.length_drop, ← List.take_eq_take_min] at hcopy
  -- the batches from `k` on
  have hdrop : (A.sortedBatches data batchSize (divRoundUp data.length batchSize)).flatten.drop
      (A.sortedBatches data batchSize k).flatten.length = A.sortedBatch data batchSize k ++
        (gather (divRoundUp data.length batchSize - (k + 1)) fun i =>
          A.sortedBatch data batchSize (k + 1 + i)) := by
    have hsplit := gather_add (k + 1) (divRoundUp data.length batchSize - (k + 1))
      (A.sortedBatch data batchSize)
    rw [Nat.add_sub_cancel' hk, gather_succ, List.append_assoc] at hsplit
    rw [sortedBatches, sortedBatches, ← List.flatMap_def, ← List.flatMap_def]
    change (gather _ _).drop (gather k _).length = _
    rw [hsplit, List.drop_left]
  obtain ⟨batchSorted', hout, hprogress⟩ := h.sorted.copyOut (from_of_drop hdrop) (by
    rw [← h.sorted.size, hlen, hsize, length_sortedBatches hA]
    have hall := (divRoundUp_le_iff hpos).1 (Nat.le_refl (divRoundUp data.length batchSize))
    rw [Nat.mul_comm] at hall
    omega) (.inl rfl)
  refine ⟨({ v with cachePage }, batchSorted', ranges ++ [(⟨0, k * batchSize⟩, ⟨0, k * batchSize +
    min batchSize (data.length - k * batchSize)⟩)]), ?_, h.input.cache cachePage, ?_, ?_⟩
  · rw [sortBatch]
    dsimp only
    rw [Nat.zero_add, ← List.length_drop, hcopy]
    change orAbort (copyOut (A.sortedBatch data batchSize k) _ _ _) >>= _ = _
    rw [show copyOut _ (k * batchSize) 0 batchSorted = some batchSorted' by
      rw [← hout, hlen, Nat.min_eq_left hbegin.le]]
    rfl
  · rw [sortedBatches_succ, List.flatten_append, List.length_append, List.flatten_singleton]
    exact hprogress
  · dsimp only
    rw [show ranges = _ from h.ranges, sortedBatches_succ, segments_append, rangesAt, rangesAt,
      List.map_append, Nat.zero_add, hlen, Nat.min_eq_left hbegin.le]
    rw [segments, segments, hsize]
    rfl

/-- **The batches** are sorted one after the other, and the input stays as it is. -/
theorem batches_spec {data : List α} {inAuth : Nat} (hpos : 0 < batchSize)
    {v : NonCachedVector.Vector m α} (hv : Stores v inAuth data) :
    ∃ s, forRange (divRoundUp data.length batchSize) (A.sortBatch 0 data.length inAuth batchSize)
        (v, newVector A.uninit.nounce A.uninit.vecPage data.length, []) = .ok s ∧
      Batches (A := A) data inAuth batchSize (divRoundUp data.length batchSize) s := by
  have hall := (divRoundUp_le_iff hpos).1 (Nat.le_refl (divRoundUp data.length batchSize))
  rw [Nat.mul_comm] at hall
  have hstart : Batches (A := A) data inAuth batchSize 0
      (v, newVector A.uninit.nounce A.uninit.vecPage data.length, []) := by
    refine ⟨hv, ⟨?_, fun p hp => ?_, fun hpart => absurd (Nat.zero_mod n) hpart,
      fun hpart => absurd (Nat.zero_mod n) hpart, fun h0 => absurd h0 (Nat.lt_irrefl 0)⟩, rfl⟩
    · rw [length_sortedBatches hA, Nat.min_eq_right hall]
      rfl
    · exact absurd (Nat.mul_pos (Nat.succ_pos p) (pos_itemPerPage n)) (Nat.not_lt.2 hp)
  have hloop : Ends (Batches (A := A) data inAuth batchSize (divRoundUp data.length batchSize))
    (fun _ => False)
      (forRange (divRoundUp data.length batchSize) (A.sortBatch 0 data.length inAuth batchSize)
        (v, newVector A.uninit.nounce A.uninit.vecPage data.length, [])) :=
    forRange_ends _ hstart fun k hk s hs => by
      obtain ⟨s', hstep, hs'⟩ := sortBatch_batches hA hpos hk hs
      rw [hstep]
      exact hs'
  cases hrun : forRange (divRoundUp data.length batchSize)
    (A.sortBatch 0 data.length inAuth batchSize)
      (v, newVector A.uninit.nounce A.uninit.vecPage data.length, []) with
  | ok s => exact ⟨s, rfl, hloop.of_ok hrun⟩
  | error e =>
    rw [hrun] at hloop
    exact hloop.elim

/-- One batch is sorted in memory. -/
theorem sortVec_oneBatch (incAuth : Bool) {heapSize inAuth : Nat} {v : NonCachedVector.Vector m α}
    {data : List α} (hv : Stores v inAuth data) (hpos : 0 < heapSize / A.sizeofT)
    (hone : divRoundUp data.length (heapSize / A.sizeofT) = 1) :
    ∃ v', A.sortVec incAuth heapSize inAuth v = .ok v' ∧
      Stores v' (outAuth incAuth inAuth) (A.stdSort data) := by
  obtain ⟨cachePage, hcopy⟩ := hv.copyIn_all
  obtain ⟨v', hout, hv'⟩ := copyOut_all (v := { v with cachePage })
    ((hA.sort_perm data).length_eq.trans hv.size) (outAuth incAuth inAuth)
  rw [hv.size] at hone
  refine ⟨v', ?_, hv'⟩
  rw [sortVec, ExtMergeSort]
  dsimp only
  rw [Nat.sub_zero, if_neg hpos.ne', if_pos hone, hcopy]
  change orAbort (copyOut _ _ _ _) = _
  rw [hout]
  rfl

/-- Several batches are sorted, and then merged. -/
theorem sortVec_batches (incAuth : Bool) {heapSize inAuth : Nat} {v : NonCachedVector.Vector m α}
    {data : List α} (hv : Stores v inAuth data) (hpos : 0 < heapSize / A.sizeofT)
    (hone : divRoundUp data.length (heapSize / A.sizeofT) ≠ 1) :
    ∃ s, Batches (A := A) data inAuth (heapSize / A.sizeofT)
        (divRoundUp data.length (heapSize / A.sizeofT)) s ∧
      A.sortVec incAuth heapSize inAuth v = (MergeVector.ExtMergeSort A.heap A.uninit A.passWay
        (heapSize / A.sizeofT / (2 * n)) (s.2.2.length + 1) [s.2.1]
        ⟨⟨A.writerCache, 0, data.length, 0 % m, outAuth incAuth inAuth⟩, s.1, A.originalPage⟩
          s.2.2).map
        Output.vec := by
  obtain ⟨s, hloop, hs⟩ := batches_spec hA hpos hv
  refine ⟨s, hs, ?_⟩
  rw [hv.size] at hone hloop ⊢
  rw [sortVec, ExtMergeSort]
  dsimp only
  rw [Nat.sub_zero, if_neg hpos.ne', if_neg hone, hloop, ok_bind, init_all]
  change MergeVector.ExtMergeSort _ _ _ _ _ _ _ _ >>= _ = _
  cases MergeVector.ExtMergeSort A.heap A.uninit A.passWay (heapSize / A.sizeofT / (2 * n))
    (s.2.2.length + 1)
    [s.2.1] ⟨⟨A.writerCache, 0, v.N, 0 % m, outAuth incAuth inAuth⟩, s.1, A.originalPage⟩
      s.2.2 <;> rfl

omit [NeZero n] [NeZero m] [SortKey α] hA in
theorem length_rangesAt_sortedBatches (data : List α) (batchSize k : Nat) :
    (rangesAt 0 (segments 0 (A.sortedBatches data batchSize k))).length = k := by
  rw [rangesAt, List.length_map, length_segments, sortedBatches, List.length_map, List.length_range]

variable [IsStrictWeakOrder α SortKey.Lt]

/-- Batches that are merged in one pass. -/
theorem sortVec_onePass (incAuth : Bool) {heapSize inAuth : Nat} {v : NonCachedVector.Vector m α}
    {data : List α} (hv : Stores v inAuth data) (hpos : 0 < heapSize / A.sizeofT)
    (hpass : divRoundUp data.length (heapSize / A.sizeofT) ≤
      max 1 (heapSize / A.sizeofT / (2 * n))) :
    ∃ v' out, A.sortVec incAuth heapSize inAuth v = .ok v' ∧ List.Perm out data ∧
      out.Pairwise SortKey.Le ∧ Stores v' (outAuth incAuth inAuth) out := by
  by_cases hone : divRoundUp data.length (heapSize / A.sizeofT) = 1
  · obtain ⟨v', hrun, hv'⟩ := sortVec_oneBatch hA incAuth hv hpos hone
    exact ⟨v', _, hrun, hA.sort_perm data, hA.sort_sorted data, hv'⟩
  obtain ⟨⟨v₁, batchSorted, ranges⟩, hs, hrun⟩ := sortVec_batches hA incAuth hv hpos hone
  obtain rfl : ranges = _ := hs.ranges
  have hlen := length_rangesAt_sortedBatches (A := A) data (heapSize / A.sizeofT)
    (divRoundUp data.length (heapSize / A.sizeofT))
  dsimp only at hrun
  have hmem : Holds [batchSorted] 0 (A.sortedBatches data (heapSize / A.sizeofT)
      (divRoundUp data.length (heapSize / A.sizeofT))).flatten :=
        ⟨batchSorted, rfl, hs.sorted.stores⟩
  generalize heapSize / A.sizeofT / (2 * n) = maxWay at hpass hrun
  have hsize : data.length = v₁.N := hs.input.size
  have hperm := sortedBatches_perm hA data (heapSize / A.sizeofT)
    (divRoundUp data.length (heapSize / A.sizeofT))
  have hall :=
    (divRoundUp_le_iff hpos).1 (Nat.le_refl (divRoundUp data.length (heapSize / A.sizeofT)))
  rw [Nat.mul_comm] at hall
  rw [List.take_of_length_le hall] at hperm
  have hbatch : ∀ g ∈ A.sortedBatches data (heapSize / A.sizeofT)
      (divRoundUp data.length (heapSize / A.sizeofT)), g ≠ [] ∧ g.Pairwise SortKey.Le :=
        fun g hg => by
    obtain ⟨i, hi, rfl⟩ := List.mem_map.1 hg
    have hbegin := batch_begins hpos (List.mem_range.1 hi)
    refine ⟨List.ne_nil_of_length_pos ?_, hA.sort_sorted _⟩
    rw [sortedBatch, (hA.sort_perm _).length_eq, List.length_take, List.length_drop]
    omega
  obtain ⟨out, hmerge, hout, hsorted⟩ := mergeReaders_spec hA.heap A.uninit
    (⟨⟨A.writerCache, 0, data.length, 0 % m, outAuth incAuth inAuth⟩, v₁, A.originalPage⟩ :
      Output m α) hmem
    (fun g hg => (hbatch g hg).1) fun g hg => (hbatch g hg).2
  obtain ⟨o, hflush, ho⟩ := flush_writeMany ((hout.trans hperm).length_eq.trans hsize) A.writerCache
    A.originalPage data.length (outAuth incAuth inAuth)
  refine ⟨o.vec, out, ?_, hout.trans hperm, hsorted, ho⟩
  rw [sortedBatches, List.length_map, List.length_range, ← sortedBatches] at hmerge
  rw [hrun, ExtMergeSort_onePass (by rw [hlen]; omega), hlen, hmerge, hflush]
  rfl

/-- **The sort of a vector** leaves its elements in order, written with `outAuth`, and it reads no
page with another counter than the page was last written with. It does so exactly when the batches
are merged in one pass. -/
theorem sortVec_sorts_iff (incAuth : Bool) {heapSize inAuth : Nat} {v : NonCachedVector.Vector m α}
    {data : List α} (hv : Stores v inAuth data) :
    (∃ v' out, A.sortVec incAuth heapSize inAuth v = .ok v' ∧ List.Perm out data ∧
        out.Pairwise SortKey.Le ∧ Stores v' (outAuth incAuth inAuth) out) ↔
      0 < heapSize / A.sizeofT ∧
        divRoundUp data.length (heapSize / A.sizeofT) ≤ max 1 (heapSize / A.sizeofT / (2 * n)) := by
  refine ⟨?_, fun h => sortVec_onePass hA incAuth hv h.1 h.2⟩
  rintro ⟨v', out, hrun, -⟩
  have hpos : 0 < heapSize / A.sizeofT := by
    refine Nat.pos_of_ne_zero fun hzero => ?_
    rw [sortVec, ExtMergeSort, hzero, if_pos rfl] at hrun
    cases hrun
  refine ⟨hpos, ?_⟩
  by_contra hmany
  -- with more ranges than are merged at once the sub-merges are lost
  obtain ⟨⟨v₁, batchSorted, ranges⟩, hs, heq⟩ := sortVec_batches hA incAuth hv hpos (by omega)
  obtain rfl : ranges = _ := hs.ranges
  have hlen := length_rangesAt_sortedBatches (A := A) data (heapSize / A.sizeofT)
    (divRoundUp data.length (heapSize / A.sizeofT))
  rw [heq] at hrun
  generalize heapSize / A.sizeofT / (2 * n) = maxWay at hmany hrun
  obtain ⟨o, hmerge, -⟩ := bind_eq_ok hrun
  exact ExtMergeSort_multiPass (by rw [hlen]; omega) (by rw [hlen]; omega) _ _ _ hmerge

end Sorts

/-- Heaps that are kept in order by the elements of their entries. -/
def sortedHeap [SortKey α] : StdHeap (Entry n α) where
  makeHeap h := h.mergeSort fun a b => SortKey.lt b.2 a.2 == false
  popHeap
    | [] => []
    | x :: h => (h.mergeSort fun a b => SortKey.lt b.2 a.2 == false) ++ [x]

/-- Entries in the order of their keys. -/
theorem pairwise_mergeSort_key [SortKey α] [IsStrictWeakOrder α SortKey.Lt] {E : Type} (key : E → α)
    (xs : List E) :
    (xs.mergeSort fun a b => SortKey.lt (key b) (key a) == false).Pairwise
      fun a b => SortKey.Le (key a) (key b) := by
  refine (List.pairwise_mergeSort ?_ ?_ xs).imp fun hab => beq_iff_eq.1 hab
  · intro a b c hab hbc
    rw [beq_iff_eq] at hab hbc ⊢
    exact SortKey.Le.trans hab hbc
  · intro a b
    rw [Bool.or_eq_true, beq_iff_eq, beq_iff_eq]
    cases hab : SortKey.lt (key b) (key a) with
    | false => exact .inl rfl
    | true => exact .inr (SortKey.Lt.le hab)

omit [NeZero n] in
theorem sortedHeap_correct [SortKey α] [IsStrictWeakOrder α SortKey.Lt] :
    (sortedHeap (n := n) (α := α)).Correct cmpMerge fun h => h.Pairwise fun a b =>
      SortKey.Le a.2 b.2 where
  top _ _ hh _ hy := List.rel_of_pairwise_cons hh hy
  make h := ⟨List.mergeSort_perm h _, pairwise_mergeSort_key Prod.snd h⟩
  pop _ h _ := ⟨_, rfl, List.mergeSort_perm h _, pairwise_mergeSort_key Prod.snd h⟩
  replace _ h y _ :=
    ⟨_, rfl, List.mergeSort_perm (h ++ [y]) _, pairwise_mergeSort_key Prod.snd (h ++ [y])⟩

/-- Elements of one byte, pages of one element in the intermediate vectors. -/
def keySurroundings : Surroundings 1 2 SortElement where
  sizeofT := 1
  stdSort xs := xs.mergeSort fun a b => SortKey.lt b a == false
  heap := sortedHeap
  passWay := exactPassWay
  uninit := ⟨fun _ => ⟨0, []⟩, fun _ => ⟨0, []⟩, fun _ => ⟨0, []⟩, fun _ => ⟨0, []⟩, ⟨0, 0⟩⟩
  writerCache _ := ⟨0, []⟩
  originalPage _ := ⟨0, []⟩

theorem keySurroundings_correct : keySurroundings.Correct fun h => h.Pairwise fun a b =>
    SortKey.Le a.2 b.2 where
  sort_perm xs := List.mergeSort_perm xs _
  sort_sorted xs := pairwise_mergeSort_key id xs
  heap := sortedHeap_correct

/-- Two batches of at most four elements, read with the counter 5. -/
theorem sortVec_sorts_seven : ∃ v v' out, Stores v 5 (singleKeys 7).flatten ∧
    keySurroundings.sortVec true 4 5 v = .ok v' ∧ List.Perm out (singleKeys 7).flatten ∧
      out.Pairwise SortKey.Le ∧ Stores v' 6 out := by
  have hlen : (singleKeys 7).flatten.length =
      (newVector ⟨0, 0⟩ (fun _ => ⟨0, []⟩ : Page 2 SortElement) 7).N := by decide
  obtain ⟨v, -, hv⟩ := copyOut_all hlen 5
  obtain ⟨v', out, h⟩ := (sortVec_sorts_iff keySurroundings_correct true hv).2
    (show 0 < 4 / 1 ∧ divRoundUp 7 (4 / 1) ≤ max 1 (4 / 1 / (2 * 1)) by decide)
  exact ⟨v, v', out, hv, h⟩

end Surroundings

end EM.Algorithm.MergeVector
