import OblSort.Algorithm.ExtMergeSort
import OblSort.Algorithm.Proof.SortDef
import OblSort.Common.Proof.Utils
import OblSort.Lib.Loop
import Mathlib.Data.List.Perm.Basic

/-!
# Merging

One pass over sorted ranges writes a sorted permutation of them (`mergeReaders_spec`), given heap
functions that keep an entry with the least element at the front. A merge with sub-merges never
succeeds: what they wrote is gone when it is read (`ExtMergeSort_multiPass`).
-/

namespace EM.Algorithm

open Loop

variable {α : Type}

/-! ## The heap -/

/-- The heap functions keep `IsHeap`, under which no entry comes before the front one. `popHeap`
moves the front to the back; the entry before the back may have been added without regard to the
heap. -/
structure StdHeap.Correct {E : Type} (H : StdHeap E) (cmp : E → E → Bool)
    (IsHeap : List E → Prop) : Prop where
  top : ∀ x h, IsHeap (x :: h) → ∀ y ∈ h, cmp x y = false
  make : ∀ h, List.Perm (H.makeHeap h) h ∧ IsHeap (H.makeHeap h)
  pop : ∀ x h, IsHeap (x :: h) → ∃ h', H.popHeap (x :: h) = h' ++ [x] ∧ List.Perm h' h ∧ IsHeap h'
  replace : ∀ x h y, IsHeap (x :: h) →
    ∃ h', H.popHeap (x :: h ++ [y]) = h' ++ [x] ∧ List.Perm h' (h ++ [y]) ∧ IsHeap h'

/-- The elements of an entry. -/
def HeapEntry.toList (e : HeapEntry α) : List α := e.1 :: e.2

/-- The elements in a heap. -/
def heapElements (heap : List (HeapEntry α)) : List α := heap.flatMap HeapEntry.toList

theorem heapElements_perm {h h' : List (HeapEntry α)} (hp : List.Perm h h') :
    List.Perm (heapElements h) (heapElements h') :=
  hp.flatMap_right _

/-- The heap after its front has given its element. -/
theorem mergeLoop_next {H : StdHeap (HeapEntry α)} {cmp : HeapEntry α → HeapEntry α → Bool}
    {IsHeap : List (HeapEntry α) → Prop} (hH : H.Correct cmp IsHeap) {top : HeapEntry α}
    {heap : List (HeapEntry α)} (hheap : IsHeap (top :: heap)) :
    ∃ next, (H.popHeap (pushNext top heap)).dropLast = next ∧ IsHeap next ∧
      List.Perm (heapElements next) (top.2 ++ heapElements heap) ∧
      ∀ e ∈ next, e ∈ heap ∨ e.toList = top.2 := by
  cases htop : top.2 with
  | nil =>
    obtain ⟨h', hpop, hperm, hh'⟩ := hH.pop top heap hheap
    refine ⟨h', ?_, hh', heapElements_perm hperm, fun e he => .inl (hperm.mem_iff.1 he)⟩
    rw [pushNext, htop]
    dsimp only
    rw [hpop, List.dropLast_concat]
  | cons x xs =>
    obtain ⟨h', hpop, hperm, hh'⟩ := hH.replace top heap (x, xs) hheap
    refine ⟨h', ?_, hh', (heapElements_perm hperm).trans ?_, fun e he => ?_⟩
    · rw [pushNext, htop]
      dsimp only
      rw [hpop, List.dropLast_concat]
    · rw [heapElements, List.flatMap_append, ← heapElements]
      exact List.perm_append_comm.trans (by simp [HeapEntry.toList])
    · rcases List.mem_append.1 (hperm.mem_iff.1 he) with he | he
      · exact .inl he
      · rw [List.mem_singleton.1 he]
        exact .inr rfl

theorem length_heapElements_cons {top : HeapEntry α} {heap next : List (HeapEntry α)}
    (hperm : List.Perm (heapElements next) (top.2 ++ heapElements heap)) :
    (heapElements (top :: heap)).length = (heapElements next).length + 1 := by
  rw [hperm.length_eq]
  simp only [heapElements, List.flatMap_cons, HeapEntry.toList, List.cons_append, List.length_cons,
    List.length_append]

/-- The loop that empties the heap writes its elements, whatever their order was. -/
theorem mergeLoop_perm {H : StdHeap (HeapEntry α)} {cmp : HeapEntry α → HeapEntry α → Bool}
    {IsHeap : List (HeapEntry α) → Prop} (hH : H.Correct cmp IsHeap) {fuel : Nat}
    {heap : List (HeapEntry α)} (hheap : IsHeap heap) (hfuel : (heapElements heap).length < fuel) :
    ∃ out, mergeLoop H fuel heap = .ok out ∧ List.Perm out (heapElements heap) := by
  induction fuel generalizing heap with
  | zero => omega
  | succ fuel ih =>
    cases heap with
    | nil => exact ⟨[], rfl, .refl _⟩
    | cons top heap =>
      obtain ⟨next, hnext, hh, hperm, -⟩ := mergeLoop_next hH hheap
      have hlen := length_heapElements_cons hperm
      obtain ⟨out, hrun, hout⟩ := ih hh (by omega)
      refine ⟨top.1 :: out, ?_, (hout.trans hperm).cons top.1⟩
      rw [mergeLoop, hnext, hrun]
      rfl

/-! ## Ranges -/

/-- The positions of lists written one after the other from `start`. -/
def segments : (start : Nat) → List (List α) → List (Nat × Nat)
  | _, [] => []
  | start, g :: gs => (start, start + g.length) :: segments (start + g.length) gs

theorem segments_append (start : Nat) (gs gs' : List (List α)) :
    segments start (gs ++ gs') = segments start gs ++ segments (start + gs.flatten.length) gs' := by
  induction gs generalizing start with
  | nil => rfl
  | cons g gs ih =>
    rw [List.cons_append, segments, segments, ih, List.flatten_cons, List.length_append,
      Nat.add_assoc]
    rfl

theorem length_segments (start : Nat) (gs : List (List α)) :
    (segments start gs).length = gs.length := by
  induction gs generalizing start with
  | nil => rfl
  | cons g gs ih => rw [segments, List.length_cons, List.length_cons, ih]

/-- The ranges of a vector at the given positions. -/
def rangesAt (vec : Nat) (positions : List (Nat × Nat)) : List MergeRange :=
  positions.map fun range => (⟨vec, range.1⟩, ⟨vec, range.2⟩)

/-- The readers of lists that were written one after the other. -/
theorem readRanges_segments {mem : Memory α} {vec : Nat} {xs : List α} (hmem : mem[vec]? = some xs)
    {start : Nat} {gs : List (List α)} {rest : List α} (hxs : xs.drop start = gs.flatten ++ rest) :
    (rangesAt vec (segments start gs)).mapM (readRange mem) = .ok gs := by
  induction gs generalizing start with
  | nil => rfl
  | cons g gs ih =>
    have hread : readRange mem (⟨vec, start⟩, ⟨vec, start + g.length⟩) = .ok g := by
      rw [readRange, hmem]
      dsimp only
      rw [hxs, Nat.add_sub_cancel_left, List.flatten_cons, List.append_assoc, List.take_left]
    have hdrop : xs.drop (start + g.length) = gs.flatten ++ rest := by
      rw [← List.drop_drop, hxs, List.flatten_cons, List.append_assoc, List.drop_left]
    have htail := ih hdrop
    rw [rangesAt] at htail
    rw [rangesAt, segments, List.map_cons, List.mapM_cons, hread, htail]
    rfl

theorem heapEntries_eq {gs : List (List α)} (hne : ∀ g ∈ gs, g ≠ []) :
    ∃ heap, gs.mapM heapEntry = .ok heap ∧ heap.map HeapEntry.toList = gs := by
  induction gs with
  | nil => exact ⟨[], rfl, rfl⟩
  | cons g gs ih =>
    obtain ⟨heap, hheap, hmap⟩ := ih fun g hg => hne g (List.mem_cons_of_mem _ hg)
    cases g with
    | nil => exact absurd rfl (hne [] List.mem_cons_self)
    | cons x xs =>
      refine ⟨(x, xs) :: heap, ?_, by rw [List.map_cons, hmap]; rfl⟩
      rw [List.mapM_cons, hheap]
      rfl

/-- A heap that is kept in order. -/
def sortedHeap [SortKey α] : StdHeap (HeapEntry α) where
  makeHeap h := h.mergeSort fun a b => !cmpMerge a b
  popHeap
    | [] => []
    | x :: h => (h.mergeSort fun a b => !cmpMerge a b) ++ [x]

theorem sortedHeap_correct [SortKey α] [IsStrictWeakOrder α SortKey.Lt] :
    (sortedHeap (α := α)).Correct cmpMerge fun h => h.Pairwise fun a b => cmpMerge a b = false := by
  have hsort : ∀ h : List (HeapEntry α), List.Perm (h.mergeSort fun a b => !cmpMerge a b) h ∧
      (h.mergeSort fun a b => !cmpMerge a b).Pairwise fun a b => cmpMerge a b = false := fun h => by
    refine ⟨List.mergeSort_perm h _, (List.pairwise_mergeSort ?_ ?_ h).imp fun {a b} hab => ?_⟩
    · intro a b c hab hbc
      rw [Bool.not_eq_true'] at hab hbc ⊢
      exact SortKey.Le.trans hab hbc
    · intro a b
      cases hab : cmpMerge a b with
      | false => rfl
      | true =>
        have : cmpMerge b a = false := SortKey.Lt.le hab
        rw [this]
        rfl
    · rwa [Bool.not_eq_true'] at hab
  refine ⟨fun x h hh y hy => List.rel_of_pairwise_cons hh hy, hsort, fun x h _ => ?_,
    fun x h y _ => ?_⟩
  · exact ⟨_, rfl, hsort h⟩
  · exact ⟨_, rfl, hsort (h ++ [y])⟩

section Merge

variable [SortKey α] [IsStrictWeakOrder α SortKey.Lt] {H : StdHeap (HeapEntry α)}
  {IsHeap : List (HeapEntry α) → Prop} (hH : H.Correct cmpMerge IsHeap)

include hH

/-- The front of a heap of sorted entries has the least element. -/
theorem heap_front_le {top : HeapEntry α} {heap : List (HeapEntry α)} (hheap : IsHeap (top :: heap))
    (hsorted : ∀ e ∈ top :: heap, e.toList.Pairwise SortKey.Le) :
    ∀ y ∈ top.2 ++ heapElements heap, SortKey.Le top.1 y := by
  intro y hy
  rcases List.mem_append.1 hy with hy | hy
  · exact List.rel_of_pairwise_cons (hsorted top List.mem_cons_self) hy
  · obtain ⟨e, he, hy⟩ := List.mem_flatMap.1 hy
    have hle : SortKey.Le top.1 e.1 := hH.top top heap hheap e he
    rcases List.mem_cons.1 hy with rfl | hy
    · exact hle
    · exact hle.trans (List.rel_of_pairwise_cons (hsorted e (List.mem_cons_of_mem _ he)) hy)

/-- **The loop that empties the heap** writes its elements in order. -/
theorem mergeLoop_spec {fuel : Nat} {heap : List (HeapEntry α)} (hheap : IsHeap heap)
    (hsorted : ∀ e ∈ heap, e.toList.Pairwise SortKey.Le)
    (hfuel : (heapElements heap).length < fuel) :
    ∃ out, mergeLoop H fuel heap = .ok out ∧ List.Perm out (heapElements heap) ∧
      out.Pairwise SortKey.Le := by
  induction fuel generalizing heap with
  | zero => omega
  | succ fuel ih =>
    cases heap with
    | nil => exact ⟨[], rfl, .refl _, .nil⟩
    | cons top heap =>
      obtain ⟨next, hnext, hh, hperm, hmem⟩ := mergeLoop_next hH hheap
      have hlen := length_heapElements_cons hperm
      obtain ⟨out, hrun, hout, hs⟩ := ih hh (fun e he => by
        rcases hmem e he with he | he
        · exact hsorted e (List.mem_cons_of_mem _ he)
        · rw [he]
          exact (hsorted top List.mem_cons_self).tail) (by omega)
      have hall := hout.trans hperm
      refine ⟨top.1 :: out, ?_, hall.cons top.1, List.pairwise_cons.2 ⟨fun y hy => ?_, hs⟩⟩
      · rw [mergeLoop, hnext, hrun]
        rfl
      · exact heap_front_le hH hheap hsorted y (hall.mem_iff.1 hy)

/-- **One pass** over sorted lists that were written one after the other. -/
theorem mergeReaders_spec {gs : List (List α)} (hne : ∀ g ∈ gs, g ≠ [])
    (hsorted : ∀ g ∈ gs, g.Pairwise SortKey.Le) :
    ∃ out, mergeReaders H [gs.flatten] gs.length (rangesAt 0 (segments 0 gs)) = .ok out ∧
      List.Perm out gs.flatten ∧ out.Pairwise SortKey.Le := by
  have hread : (rangesAt 0 (segments 0 gs)).mapM (readRange [gs.flatten]) = .ok gs :=
    readRanges_segments rfl (show gs.flatten.drop 0 = gs.flatten ++ [] by
      rw [List.drop_zero, List.append_nil])
  rw [mergeReaders, hread]
  by_cases h1 : gs.length = 1
  · obtain ⟨g, rfl⟩ := List.length_eq_one_iff.1 h1
    refine ⟨g, rfl, by simp, hsorted g List.mem_cons_self⟩
  · obtain ⟨heap, hheap, hmap⟩ := heapEntries_eq hne
    obtain ⟨hperm, hh⟩ := hH.make heap
    have hall : List.Perm (heapElements (H.makeHeap heap)) gs.flatten := by
      refine (heapElements_perm hperm).trans (List.Perm.of_eq ?_)
      rw [heapElements, List.flatMap_def, hmap]
    have hfuel : (heapElements (H.makeHeap heap)).length < gs.flatten.length + 1 := by
      rw [hall.length_eq]
      omega
    obtain ⟨out, hrun, hout, hs⟩ := mergeLoop_spec hH hh (fun e he => hsorted _ (by
      rw [← hmap]
      exact List.mem_map_of_mem (hperm.mem_iff.1 he))) hfuel
    refine ⟨out, ?_, hout.trans hall, hs⟩
    change (if gs.length = 1 then _ else _) = _
    rw [if_neg h1, hheap]
    exact hrun

end Merge

/-! ## Sub-merges -/

section MultiPass

variable {H : StdHeap (HeapEntry α)} {passWay : Nat → Nat → Nat} {maxWay : Nat}

/-- The first of the new ranges is one of the temporary vector. -/
theorem subMerges_head {call : Memory α → Nat → List MergeRange → Except MergeAbort (List α)}
    {mem : Memory α} {size subRangeCount way subBegin : Nat} {temp : List α}
    {ranges new : List MergeRange}
    (h : subMerges call mem size subRangeCount (way + 1) subBegin temp ranges = .ok new) :
    ∃ first rest, new = first :: rest ∧ first.1.vec = mem.length := by
  rw [subMerges] at h
  dsimp only at h
  split at h
  · rename_i first last _ _
    cases hcall : call (mem ++ [temp]) (subBegin + (last.2.m_ptr - first.1.m_ptr) - subBegin)
        (ranges.take subRangeCount) with
    | error e =>
      rw [hcall] at h
      cases h
    | ok out =>
      rw [hcall] at h
      change (if _ then _ else _) = _ at h
      split at h
      · cases h
        exact ⟨_, _, rfl, rfl⟩
      · cases hrest : subMerges call mem size subRangeCount way
            (subBegin + (last.2.m_ptr - first.1.m_ptr)) (temp ++ out)
            (ranges.drop subRangeCount) with
        | error e =>
          rw [hrest] at h
          cases h
        | ok rest =>
          rw [hrest] at h
          cases h
          exact ⟨_, _, rfl, rfl⟩
  · cases h

/-- **Sub-merges are lost**: a merge of more than `maxWay` ranges never succeeds. -/
theorem ExtMergeSort_multiPass {mem : Memory α} {mergeRanges : List MergeRange}
    (hmany : maxWay < mergeRanges.length) (fuel size : Nat) (out : List α) :
    ExtMergeSort H passWay maxWay fuel mem size mergeRanges ≠ .ok out := by
  intro h
  cases fuel with
  | zero => cases h
  | succ fuel =>
    rw [ExtMergeSort, if_pos hmany] at h
    dsimp only at h
    split at h
    · cases h
    · rename_i hway
      have hlen : 0 < mergeRanges.length := by omega
      obtain ⟨way, hway'⟩ := Nat.exists_eq_succ_of_ne_zero (Nat.ne_of_gt
        (divRoundUp_pos hlen (divRoundUp_pos hlen (Nat.pos_of_ne_zero hway))))
      rw [hway'] at h
      cases hnew : subMerges (ExtMergeSort H passWay maxWay fuel) mem size
          (divRoundUp mergeRanges.length (passWay mergeRanges.length maxWay)) (way + 1) 0 []
          mergeRanges with
      | error e =>
        rw [hnew] at h
        cases h
      | ok new =>
        obtain ⟨first, rest, rfl, hvec⟩ := subMerges_head hnew
        have hread : readRange mem first = .error .destroyed := by
          rw [readRange, hvec, List.getElem?_eq_none (Nat.le_refl _)]
        rw [hnew, ok_bind, mergeReaders, List.mapM_cons, hread] at h
        cases h

end MultiPass

end EM.Algorithm
