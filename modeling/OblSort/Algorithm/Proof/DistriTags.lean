import OblSort.Algorithm.Proof.DistriVector

/-!
# Tie-breakers of a distribution sort

`sampleForPivots` tags the element at position `i` of the input with `i`. The distribution numbers
the elements with `inputCount`, which no constructor sets, or with `getLastIdx`. `sort_tags_agree`:
both give the same tags when `inputCount` begins at a multiple of `2 ^ 32`, respectively when
`getLastIdx` is the position of the last element.
-/

namespace EM.Algorithm

open NonCachedVector Paged Loop KWayDistriSorter PagePermReader

variable {n m m' : Nat} [NeZero n] [NeZero m] [NeZero m'] {α : Type}

/-! ## The same tags -/

/-- The blocks that elements were put in carry the tags that `sampleForPivots` gives to these
elements, their positions. -/
def TagsAgree (input : List α) (given : List (Block α)) : Prop :=
  ∃ positions : List Nat, positions.Nodup ∧
    List.Forall₂ (fun pos block => block.tag = BitVec.ofNat 32 pos ∧
      ∃ sampled, (sampleBlocks input)[pos]? = some sampled ∧ block.data = sampled.data ∧
        block.tag = sampled.tag) positions given

/-- The `k`-th block has the element at position `pos k`, and this position as its tag. -/
def GivenAt (input : List α) (pos : Nat → Nat) (given : List (Block α)) : Prop :=
  ∀ k block, given[k]? = some block →
    input[pos k]? = some block.data ∧ block.tag = BitVec.ofNat 32 (pos k)

theorem sampleBlocks_getElem? {input : List α} {i : Nat} {x : α} (h : input[i]? = some x) :
    (sampleBlocks input)[i]? = some (Block.setData x (BitVec.ofNat 32 i) false) := by
  rw [sampleBlocks, List.getElem?_map, List.getElem?_zipIdx, h]
  simp

theorem GivenAt.push {input : List α} {pos : Nat → Nat} {given : List (Block α)} {block : Block α}
    (h : GivenAt input pos given) (hdata : input[pos given.length]? = some block.data)
    (htag : block.tag = BitVec.ofNat 32 (pos given.length)) :
    GivenAt input pos (given ++ [block]) := by
  intro k b hb
  rcases Nat.lt_trichotomy k given.length with hk | rfl | hk
  · rw [List.getElem?_append_left hk] at hb
    exact h k b hb
  · rw [List.getElem?_append_right (Nat.le_refl _), Nat.sub_self] at hb
    obtain rfl := Option.some.inj hb
    exact ⟨hdata, htag⟩
  · rw [List.getElem?_append_right (by omega), List.getElem?_eq_none (by simp; omega)] at hb
    cases hb

theorem GivenAt.tagsAgree {input : List α} {pos : Nat → Nat} {given : List (Block α)}
    (h : GivenAt input pos given)
    (hinj : ∀ i < given.length, ∀ j < given.length, pos i = pos j → i = j) :
    TagsAgree input given := by
  refine ⟨(List.range given.length).map pos, List.Nodup.map_on
    (fun i hi j hj => ?_) List.nodup_range, ?_⟩
  · exact hinj i (List.mem_range.1 hi) j (List.mem_range.1 hj)
  · refine List.forall₂_iff_get.2 ⟨by rw [List.length_map, List.length_range], fun k hk hk' => ?_⟩
    rw [List.length_map, List.length_range] at hk
    obtain ⟨hdata, htag⟩ := h k _ (List.getElem?_eq_getElem hk')
    have hget : ((List.range given.length).map pos).get ⟨k, by simpa using hk⟩ = pos k := by simp
    rw [hget]
    exact ⟨htag, _, sampleBlocks_getElem? hdata, rfl, htag⟩

/-! ## Readers -/

section

variable {σ : Type} {data : List α} {v : NonCachedVector.Vector n α}

/-- What the layers before the last one keep: the reader is past as many elements as were given. -/
structure Numbering (v : NonCachedVector.Vector n α) (input : List α) (pos : Nat → Nat)
    (R : InputReader n m α → BitVec 64 → Nat → Prop) (s : State α σ (SorterVector n m α)) :
    Prop where
  vec : s.io.vec = v
  reader : R s.io.inputReader s.inputCount s.given.length
  length : s.given.length ≤ input.length
  given : GivenAt input pos s.given

/-- What one read must do: it returns the element at position `pos k`, and `inputIdx` is this
position. -/
structure Numbers (S : KWayDistriSorter α) (onDisk : Bool) (v : NonCachedVector.Vector n α)
    (input : List α) (pos : Nat → Nat) (R : InputReader n m α → BitVec 64 → Nat → Prop) : Prop where
  read : ∀ r count k, R r count k → r.eof = false → k < input.length ∧
    ∃ x lastIdx r', r.read onDisk v = some ((x, lastIdx), r') ∧ input[pos k]? = some x ∧
      (if S.preshuffled then count else BitVec.ofNat 64 lastIdx).setWidth 32 =
        BitVec.ofNat 32 (pos k) ∧
      R r' (if S.preshuffled then count + 1 else count) (k + 1)
  inj : ∀ i < input.length, ∀ j < input.length, pos i = pos j → i = j

theorem Numbering.tagsAgree {S : KWayDistriSorter α} {onDisk : Bool} {input : List α}
    {pos : Nat → Nat}
    {R : InputReader n m α → BitVec 64 → Nat → Prop} (hR : Numbers S onDisk v input pos R)
    {s : State α σ (SorterVector n m α)} (h : Numbering v input pos R s) :
    TagsAgree input s.given :=
  h.given.tagsAgree fun i hi j hj => hR.inj i (hi.trans_le h.length) j (hj.trans_le h.length)

theorem Numbers.keeps {S : KWayDistriSorter α} {onDisk : Bool} {input : List α} {pos : Nat → Nat}
    {R : InputReader n m α → BitVec 64 → Nat → Prop} (hR : Numbers S onDisk v input pos R) :
    ReadKeeps (σ := σ) S (sorterVector onDisk) (Numbering v input pos R)
      fun e => TagsAgree input e.2.given where
  frame s s' hs hsame :=
    ⟨hsame.io ▸ hs.vec, by rw [hsame.io, hsame.inputCount, hsame.given]; exact hs.reader,
    hsame.given ▸ hs.length, hsame.given ▸ hs.given⟩
  read it s hs heof := by
    obtain ⟨hk, x, lastIdx, r', hread, hx, htag, hr'⟩ := hR.read _ _ _ hs.reader heof
    have hio : s.io.inputReader.read onDisk s.io.vec = some ((x, lastIdx), r') := by
      rw [hs.vec, hread]
    rw [readBlock, sorterVector_read hio]
    refine ⟨hs.vec, ?_, ?_, hs.given.push hx htag⟩
    · dsimp only
      rw [List.length_append, List.length_singleton]
      exact hr'
    · dsimp only
      rw [List.length_append, List.length_singleton]
      exact hk
  abort _ _ _ hs := hs.tagsAgree hR

/-- Writing gives nothing. -/
theorem tagsAgree_writes (onDisk : Bool) (input : List α) :
    WriteKeeps (σ := σ) (sorterVector (n := n) (m := m) (α := α) onDisk)
    (fun s => TagsAgree input s.given)
      fun e => TagsAgree input e.2.given where
  frame _ _ hs hsame := hsame.given ▸ hs
  write _ _ hs := hs
  flush s hs := by
    rw [KWayDistriSorter.flush]
    cases (sorterVector onDisk).flush s.io <;> exact hs
  abort _ _ _ hs := hs

/-- A sorter of preshuffled input numbers the elements in order, from `inputCount` on. -/
theorem numbers_prefetch {S : KWayDistriSorter α} (hS : S.preshuffled = true) (onDisk : Bool)
    {c b e : Nat} (hv : Stores v c data) (he : e ≤ v.N) {inputCount : BitVec 64}
    (hcount : inputCount.toNat % 2 ^ 32 = 0) :
    Numbers S onDisk v ((data.drop b).take (e - b)) id fun (r : InputReader n m α) count k =>
      ∃ rd, r = .prefetch rd ∧ Reading data c rd ∧ rd.endPtr = e ∧ rd.it = b + k ∧
        count = inputCount + BitVec.ofNat 64 k where
  read r count k hr heof := by
    obtain ⟨rd, rfl, hreading, hend, hit, rfl⟩ := hr
    have hlt : rd.it < e := by
      have heof : decide (rd.endPtr ≤ rd.it) = false := heof
      rw [decide_eq_false_iff_not, hend] at heof
      omega
    obtain ⟨x, rd', hread, hx, hit', hend', hreading'⟩ := hreading.read hv (by omega)
    simp only [hS, if_true]
    refine ⟨?_, x, 0, .prefetch rd', ?_, ?_, ?_, rd', rfl, hreading',
      hend'.trans hend, by omega, ?_⟩
    · rw [List.length_take, List.length_drop, hv.size]
      omega
    · rw [InputReader.read, hread]
      rfl
    · rw [id, List.getElem?_take_of_lt (by omega), List.getElem?_drop, ← hit, hx]
    · apply BitVec.eq_of_toNat_eq
      rw [BitVec.toNat_setWidth, BitVec.toNat_add, BitVec.toNat_ofNat, BitVec.toNat_ofNat, id]
      omega
    · rw [BitVec.add_assoc, BitVec.ofNat_add]
      rfl
  inj _ _ _ _ h := h

/-- A sorter of other input numbers the elements by `getLastIdx`. -/
theorem numbers_pagePerm {S : KWayDistriSorter α} (hS : S.preshuffled = false) (onDisk : Bool)
    {c e : Nat}
    (hv : Stores v c data) (he : e ≤ v.N) {perm : List Nat}
    (hperm : IsPagePerm (divRoundUp e n) perm) :
    Numbers S onDisk v ((data.drop 0).take (e - 0)) (position n perm)
      fun (r : InputReader n m α) _ k =>
        ∃ rd, r = .pagePerm rd ∧ InOrder perm data onDisk c e rd ∧ rd.it = k where
  read r count k hr heof := by
    obtain ⟨rd, rfl, horder, rfl⟩ := hr
    have hlt : rd.it < e := by
      have heof : decide (rd.endPtr ≤ rd.it) = false := heof
      rw [decide_eq_false_iff_not, horder.endPtr] at heof
      omega
    obtain ⟨x, rd', hread, hit', horder', hidx, hx⟩ := horder.read hperm hv he hlt
    have hpos := (position_lt hperm hlt (pos_itemPerPage n)).2
    simp only [hS, Bool.false_eq_true, if_false, List.drop_zero, Nat.sub_zero]
    refine ⟨?_, x, rd'.getLastIdx, .pagePerm rd', ?_, ?_, ?_, rd', rfl, horder', hit'⟩
    · rw [List.length_take, hv.size]
      omega
    · rw [InputReader.read, hread]
      rfl
    · rw [List.getElem?_take_of_lt hpos, hx]
    · rw [hidx]
      apply BitVec.eq_of_toNat_eq
      rw [BitVec.toNat_setWidth, BitVec.toNat_ofNat, BitVec.toNat_ofNat]
      omega
  inj i hi j hj h := by
    rw [List.drop_zero, Nat.sub_zero, List.length_take, hv.size, Nat.min_eq_left he] at hi hj
    exact position_inj hperm (pos_itemPerPage n) hi hj h

/-! ## A whole sort -/

variable [SortKey α]

/-- What a constructor that returns has done. -/
theorem construct_ok {A : Surroundings n m m' α} {preshuffled : Bool} {b e inAuth heapSize : Nat}
    {S : KWayDistriSorter α} {io : SorterVector n m α}
    (h : A.construct preshuffled v b e inAuth heapSize = .ok (S, io)) :
    S.preshuffled = preshuffled ∧ io.vec = v ∧
      A.inputReader preshuffled b e inAuth heapSize = some io.inputReader ∧
      ∃ log input, readInput v (e - b) (Reader.new (A.cache 0) b e 0) = (log, some input) ∧
        sampleForPivots A.sampleParams A.dummy A.Mem A.gammaSort A.sampleRand64 input
          A.distriParams.totalPartition = some S.allPivots := by
  rw [Surroundings.construct] at h
  cases hreader : A.inputReader preshuffled b e inAuth heapSize with
  | none =>
    rw [hreader] at h
    cases h
  | some r =>
    rw [hreader] at h
    dsimp only at h
    cases hread : readInput v (e - b) (Reader.new (A.cache 0) b e 0) with
    | mk log input =>
      rw [hread] at h
      cases input with
      | none => cases h
      | some input =>
        dsimp only at h
        cases hpivots : sampleForPivots A.sampleParams A.dummy A.Mem A.gammaSort
          A.sampleRand64 input
            A.distriParams.totalPartition with
        | none =>
          rw [hpivots] at h
          cases h
        | some allPivots =>
          rw [hpivots] at h
          dsimp only at h
          cases hwriter : Writer.init (A.cache 0) b e ((inAuth + 1) % 2 ^ 32) v with
          | none =>
            rw [hwriter] at h
            cases h
          | some w =>
            rw [hwriter] at h
            obtain ⟨rfl, rfl⟩ := Prod.mk.inj (Except.ok.inj h)
            exact ⟨rfl, rfl, rfl, log, input, rfl, hpivots⟩

omit [NeZero m] [NeZero m'] [SortKey α] in
/-- The elements that the samples are taken of. -/
theorem construct_input {A : Surroundings n m m' α} {b e inAuth : Nat} (hv : Stores v inAuth data)
    (hauth : inAuth < 2 ^ 32) (hlt : b < e) (hend : e ≤ v.N) {log : List PageOp} {input : List α}
    (h : readInput v (e - b) (Reader.new (A.cache 0) b e 0) = (log, some input)) :
    input = (data.drop b).take (e - b) := by
  obtain rfl : inAuth = 0 := by
    by_contra hne
    obtain ⟨count, hcount⟩ : ∃ count, e - b = count + 1 := ⟨e - b - 1, by omega⟩
    have hbad : (readInput v (count + 1) (Reader.new (A.cache 0) b e 0)).2 = none :=
      readInput_bad hv hauth (by decide) hne (A.cache 0) (by omega)
    rw [← hcount, h] at hbad
    cases hbad
  obtain ⟨log', input', h', rfl, -⟩ := readInput_samples A hv hlt hend
  rw [h] at h'
  exact Option.some.inj (Prod.mk.inj h').2

variable {IsHeap : List (HeapEntry (TaggedT Nat)) → Prop}

/-- **The tags of a distribution sort are those of its samples** in every run, when `inputCount`
begins at a multiple of `2 ^ 32`, respectively when pages are read in a random order from the begin
of the vector on, one at a time. -/
theorem sort_tags_agree {A : Surroundings n m m' α} (hL : A.tagOrder.Correct IsHeap)
    {preshuffled : Bool} {b e inAuth heapSize : Nat} (hv : Stores v inAuth data)
    (hauth : inAuth < 2 ^ 32) (hlt : b < e) (hend : e ≤ v.N)
    (hcond : if preshuffled then A.inputCount.toNat % 2 ^ 32 = 0
      else b = 0 ∧ OnePageFetches A.onDisk (divRoundUp e n))
    {S : KWayDistriSorter α} {io : SorterVector n m α}
    (hA : A.construct preshuffled v b e inAuth heapSize = .ok (S, io))
    (V : EM.DynamicPageVector.Vector σ (List (Block α))) (batchUninit : Nat → Nat → List (Block α))
    (vec : σ) :
    sampleForPivots A.sampleParams A.dummy A.Mem A.gammaSort A.sampleRand64
        ((data.drop b).take (e - b)) A.distriParams.totalPartition = some S.allPivots ∧
      Ends (fun s => TagsAgree ((data.drop b).take (e - b)) s.given)
        (fun e' => TagsAgree ((data.drop b).take (e - b)) e'.2.given)
        (S.sort (sorterVector A.onDisk) V batchUninit (.start io A.inputCount vec)) := by
  obtain ⟨hS, hvec, hreader, log, input, hread, hpivots⟩ := construct_ok hA
  obtain rfl := construct_input hv hauth hlt hend hread
  refine ⟨hpivots, ?_⟩
  cases preshuffled with
  | true =>
    have hR := numbers_prefetch (m := m) hS A.onDisk (b := b) hv hend hcond
    refine sort_keeps V batchUninit hR.keeps (tagsAgree_writes A.onDisk _)
      (fun s hs => hs.tagsAgree hR)
      ⟨hvec, ⟨_, (Option.some.inj hreader).symm, reading_new _ _ _, rfl, rfl, ?_⟩, Nat.zero_le _,
        fun k block hblock => by cases hblock⟩
    exact (BitVec.add_zero _).symm
  | false =>
    obtain ⟨rfl, hone⟩ := hcond
    obtain ⟨r, hnew, hr⟩ := Option.map_eq_some_iff.1 hreader
    obtain ⟨perm, hperm, horder, hit⟩ := inOrder_new hL data hlt hone hnew
    have hR := numbers_pagePerm (m := m) hS A.onDisk hv hend hperm
    exact sort_keeps V batchUninit hR.keeps (tagsAgree_writes A.onDisk _)
      (fun s hs => hs.tagsAgree hR)
      ⟨hvec, ⟨r, hr.symm, horder, hit⟩, Nat.zero_le _, fun k block hblock => by cases hblock⟩

end

/-! ### Three elements in two buckets -/

/-- Two buckets of two elements, all elements in the sample, and `inputCount` as it happens to
be. -/
def twoBuckets (inputCount : BitVec 64) : Surroundings 2 4 4 Nat where
  onDisk := false
  distriParams := ⟨[[2]], 2, 2, 2⟩
  sampleParams := ⟨4, 3, 4⟩
  dummy := ⟨0, 0, true, false⟩
  gammaSort := some
  tagOrder := tagOrder
  uninit := zeroUninit
  cache := fun _ _ => 0
  Mem := []
  inputCount := inputCount
  pageRand64 := fun _ => 0
  sampleRand64 := fun _ => 0

/-- Buckets of zeros. -/
def zeroBatch (_ _ : Nat) : List (Block Nat) := List.replicate 2 ⟨0, 0, false, false⟩

/-- The data and the tags that a sort has given when it ends. -/
def givenTags {α σ ρ : Type} : Except (Stop α σ ρ) (State α σ ρ) → List (α × BitVec 32)
  | .ok s => s.given.map fun block => (block.data, block.tag)
  | .error e => e.2.given.map fun block => (block.data, block.tag)

/-- What the run of a sorter with the parameters `A` has given. -/
def runTags (A : Surroundings 2 4 4 Nat) : Option (List (Nat × BitVec 32)) :=
  match A.construct true (threeElements 0) 0 3 0 0 with
  | .error _ => none
  | .ok (S, io) => some (givenTags
      (S.sort (sorterVector A.onDisk) plainPages zeroBatch (.start io A.inputCount fun _ => [])))

/-- `inputCount` happens to be 0. -/
theorem sort_tags_agree_three :
    ∃ S io, (twoBuckets 0).construct true (threeElements 0) 0 3 0 0 = .ok (S, io) ∧
      sampleForPivots ⟨4, 3, 4⟩ ⟨0, 0, true, false⟩ [] some (fun _ => 0)
      (([5, 6, 7].drop 0).take (3 - 0)) 2
        = some S.allPivots ∧
      Ends (fun s => TagsAgree (([5, 6, 7].drop 0).take (3 - 0)) s.given)
        (fun e => TagsAgree (([5, 6, 7].drop 0).take (3 - 0)) e.2.given)
        (S.sort (sorterVector false) plainPages zeroBatch (.start io 0 fun _ => [])) := by
  have hrun : runTags (twoBuckets 0) ≠ none := by decide +kernel
  cases hA : (twoBuckets 0).construct true (threeElements 0) 0 3 0 0 with
  | error e =>
    rw [runTags, hA] at hrun
    exact absurd rfl hrun
  | ok r =>
    exact ⟨r.1, r.2, rfl, sort_tags_agree (A := twoBuckets 0) tagOrder_correct
      (threeElements_stores 0)
      (by decide) (by decide) (by decide)
      (by exact (show (0 : BitVec 64).toNat % 2 ^ 32 = 0 from rfl)) hA
      plainPages zeroBatch fun _ => []⟩

/-- `inputCount` happens to be 1: the first element has the tag 1. -/
theorem sort_tags_uninitialised :
    ¬ ∀ S io, (twoBuckets 1).construct true (threeElements 0) 0 3 0 0 = .ok (S, io) →
      Ends (fun s => TagsAgree [5, 6, 7] s.given) (fun e => TagsAgree [5, 6, 7] e.2.given)
        (S.sort (sorterVector false) plainPages zeroBatch (.start io 1 fun _ => [])) := by
  intro h
  have hrun : runTags (twoBuckets 1) = some [(5, 1), (6, 2), (7, 3)] := by decide +kernel
  have hbad : ∀ given : List (Block Nat),
      given.map (fun block => (block.data, block.tag)) = [(5, 1), (6, 2), (7, 3)] →
      ¬ TagsAgree [5, 6, 7] given := by
    rintro given hgiven ⟨positions, -, hagree⟩
    cases hagree with
    | nil => cases hgiven
    | @cons pos block _ _ hfirst _ =>
      obtain ⟨htag, sampled, hsampled, hdata, -⟩ := hfirst
      obtain ⟨hdata₅, htag₁⟩ := Prod.mk.inj (List.cons.inj hgiven).1
      have hpos : pos < 3 := (List.getElem?_eq_some_iff.1 hsampled).1
      rw [htag₁] at htag
      rw [hdata₅] at hdata
      interval_cases pos
      · exact absurd htag (by decide)
      · obtain rfl := Option.some.inj hsampled
        exact absurd hdata (by decide)
      · exact absurd htag (by decide)
  cases hA : (twoBuckets 1).construct true (threeElements 0) 0 3 0 0 with
  | error e =>
    rw [runTags, hA] at hrun
    cases hrun
  | ok r =>
    rw [runTags, hA] at hrun
    have hends := h r.1 r.2 hA
    dsimp only at hrun
    change some (givenTags (r.1.sort (sorterVector false) plainPages zeroBatch
      (.start r.2 1 fun _ => []))) = _ at hrun
    cases hsort : r.1.sort (sorterVector false) plainPages zeroBatch (.start r.2 1 fun _ => []) with
    | ok s =>
      rw [hsort] at hrun hends
      exact hbad _ (Option.some.inj hrun) hends
    | error e =>
      rw [hsort] at hrun hends
      exact hbad _ (Option.some.inj hrun) hends

end EM.Algorithm
