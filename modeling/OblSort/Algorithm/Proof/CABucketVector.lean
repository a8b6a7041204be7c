import OblSort.Algorithm.CABucketVector
import OblSort.Algorithm.Proof.CABucketSort
import OblSort.Algorithm.Proof.MergeVector

/-!
# The bucket shuffles and the bucket sort of a vector

On a vector that was last written with the counter 0, unless a bin packing overflows, both shuffles
write its elements back in the order of their tags (`CABucketShuffle_ordered`), and
`CABucketSort(vec, heapSize)` leaves them in order, written with the counter 1
(`bucketSortVec_sorts`). `CABucketShuffleInternal` does not flush its writer: the vector has all
that is written when its length is a number of pages (`CABucketShuffleInternal_ends`).
-/

namespace EM.Algorithm.CABucketSort

open NonCachedVector Paged Loop MergeVector

variable {n m k : Nat} [NeZero n] [NeZero m] [NeZero k] {α : Type} [Inhabited α]

namespace Surroundings

variable {A : Surroundings n m k α} {D : Draws α} {z heapSize : Nat}
  {v : NonCachedVector.Vector m α} {data : List α}

omit [NeZero n] [NeZero k] in
/-- The shuffle in memory leaves what it writes in the vector, when no page of it is filled in
part. -/
theorem CABucketShuffleInternal_ends (hv : Stores v 0 data) {out : List α} {Z : Nat}
    (hlen : out.length = data.length) {E : Abort → Prop}
    (hout : Ends (fun shuffled => shuffled = out) E (shuffleInternalOutput Z D data)) :
    Ends (fun v' => Stores v' 1 out ↔ m ∣ data.length) E (A.CABucketShuffleInternal Z D v) := by
  obtain ⟨r, hread⟩ := hv.readMany_all A.readerCache
  rw [CABucketShuffleInternal, hread, CABucketSort.orAbort, Option.elim_some, ok_bind]
  dsimp only
  refine hout.bind fun shuffled hshuffled => ?_
  subst hshuffled
  rw [init_all, CABucketSort.orAbort, Option.elim_some, ok_bind]
  obtain ⟨hit, hwriting⟩ := writeMany_writing shuffled A.merge.writerCache v.N 1 v
  have hN := hlen.trans hv.size
  have hitN := hit.trans hN
  constructor
  · intro hstores
    by_contra hdvd
    refine hwriting.not_stores ?_ hitN hv (writeMany_nounce _ _ _) (by decide)
      (by decide) (by decide) hstores
    rwa [hit, hlen, Ne, ← Nat.dvd_iff_mod_eq_zero]
  · intro hdvd
    refine hwriting.stores ?_ hitN hN
    rwa [hit, hlen, ← Nat.dvd_iff_mod_eq_zero]

omit [NeZero k] in
/-- The shuffle in external memory leaves what it writes in the vector. -/
theorem CABucketShuffle_ends (hv : Stores v 0 data) {out : List α} {Z : Nat}
    (hlen : out.length = data.length) {E : Abort → Prop}
    (hout : Ends (fun shuffled => shuffled = out) E
      (shuffleOutput A.uninit Z A.sizeofTaggedT heapSize D data)) :
    Ends (fun v' => Stores v' 1 out) E (A.CABucketShuffle Z heapSize D v) := by
  obtain ⟨r, hread⟩ := hv.readMany_all A.readerCache
  rw [CABucketShuffle, hread, CABucketSort.orAbort, Option.elim_some, ok_bind]
  dsimp only
  refine hout.bind fun shuffled hshuffled => ?_
  subst hshuffled
  obtain ⟨v', hflush, hv'⟩ := writeMany_flush (hlen.trans hv.size) A.merge.writerCache
    A.merge.originalPage v.N 1
  rw [init_all, CABucketSort.orAbort, Option.elim_some, ok_bind, hflush]
  exact hv'

omit [NeZero k] in
/-- **The bucket shuffles**: unless a bin packing overflows, both recursions bring every real
element to the bucket that the top bits of its tag name, and both shuffles write the elements of the
vector in the order of their tags. They are in the vector at the end; without a flush, if they fill
its pages. -/
theorem CABucketShuffle_ordered (hv : Stores v 0 data)
    (h : Admissible z A.sizeofTaggedT heapSize n D data) :
    Ends (Routed 0 (numLayer (2 ^ z) data.length) (2 ^ z) (tagAndPadInternal D (2 ^ z) data))
      (fun e => e = .overflow)
      (routeInPlace (2 ^ z) (getLogBaseTwo (tagAndPadInternal D (2 ^ z) data).length) (1#64 <<< 63)
        (tagAndPadInternal D (2 ^ z) data)) ∧
    (∃ tv, tagAndPad A.uninit D (2 ^ z) data = some tv ∧
      Stores tv 0 (tagAndPadInternal D (2 ^ z) data) ∧
      Ends (fun h => ∃ ys, Routed 0 (numLayer (2 ^ z) data.length) (2 ^ z)
          (tagAndPadInternal D (2 ^ z) data) ys ∧ Reads (2 ^ z)
          (2 ^ numLayer (2 ^ z) data.length) ys (h.vecs 0))
        (fun e => e = .overflow) (externalButterflyRouting A.uninit (2 ^ z) A.sizeofTaggedT heapSize
          ⟨0, 0⟩ tv.N ⟨0, 0⟩ (1#64 <<< 63) ⟨1, fun _ => tv⟩)) ∧
    (reals (tagAndPadInternal D (2 ^ z) data)).map TaggedT.v = data ∧
    ∃ l, List.Perm l (reals (tagAndPadInternal D (2 ^ z) data)) ∧ Increasing l ∧
      Ends (fun out => out = l.map TaggedT.v) (fun e => e = .overflow)
        (shuffleInternalOutput (2 ^ z) D data) ∧
      (m ∣ data.length → Ends (fun v' => Stores v' 1 (l.map TaggedT.v)) (fun e => e = .overflow)
        (A.CABucketShuffleInternal (2 ^ z) D v)) ∧
      Ends (fun v' => Stores v' 1 (l.map TaggedT.v)) (fun e => e = .overflow)
        (A.CABucketShuffle (2 ^ z) heapSize D v) := by
  obtain ⟨hinternal, hexternal, hvals, l, hperm, hsorted, hout, hout'⟩ :=
    outputs_ordered A.uninit D h
  have hlen : (l.map TaggedT.v).length = data.length :=
    (hperm.map TaggedT.v).length_eq.trans (congrArg List.length hvals)
  refine ⟨hinternal, hexternal, hvals, l, hperm, hsorted, hout, ?_,
    CABucketShuffle_ends hv hlen hout'⟩
  intro hdvd
  exact (CABucketShuffleInternal_ends hv hlen hout).mono (fun _ hstores => hstores.2 hdvd)
    fun _ => id

omit [NeZero k] in
/-- The shuffle of a vector rearranges its elements. -/
theorem CABucketShuffle_stores (hv : Stores v 0 data)
    (h : Admissible z A.sizeofTaggedT heapSize n D data) :
    Ends (fun v' => ∃ out, List.Perm out data ∧ Stores v' 1 out) (fun e => e = .overflow)
      (A.CABucketShuffle (2 ^ z) heapSize D v) := by
  obtain ⟨-, -, hvals, l, hperm, -, -, hout⟩ := outputs_ordered A.uninit D h
  have hvperm := (hperm.map TaggedT.v).trans (List.Perm.of_eq hvals)
  exact (CABucketShuffle_ends hv hvperm.length_eq hout).mono
    (fun _ hv' => ⟨_, hvperm, hv'⟩) fun _ => id

variable [SortKey α] [IsStrictWeakOrder α SortKey.Lt] {IsHeap : List (Entry k α) → Prop}

/-- **The bucket sort of a vector**: unless a bin packing overflows, its elements are in order at
the end, written with the counter 1, if the merge sort needs one pass. -/
theorem bucketSortVec_sorts (hA : A.merge.Correct IsHeap) (hv : Stores v 0 data)
    (h : Admissible z A.sizeofTaggedT heapSize n D data) (hbatch : 0 < heapSize / A.merge.sizeofT)
    (hpass : divRoundUp data.length (heapSize / A.merge.sizeofT) ≤
      max 1 (heapSize / A.merge.sizeofT / (2 * k))) :
    Ends (fun v' => ∃ out, List.Perm out data ∧ out.Pairwise SortKey.Le ∧ Stores v' 1 out)
      (fun e => e = .shuffle .overflow) (A.sortVec (2 ^ z) heapSize D v) := by
  have hshuffle := CABucketShuffle_stores hv h
  rw [sortVec]
  cases hrun : A.CABucketShuffle (2 ^ z) heapSize D v with
  | error e =>
    rw [hrun] at hshuffle
    exact congrArg SortAbort.shuffle hshuffle
  | ok v₁ =>
    rw [hrun] at hshuffle
    obtain ⟨out₁, hperm, hv₁⟩ := hshuffle
    obtain ⟨v', out, hmerge, hout, hsorted, hv'⟩ :=
      MergeVector.Surroundings.sortVec_onePass hA false hv₁ hbatch (by rwa [hperm.length_eq])
    change Ends _ _ ((A.merge.sortVec false heapSize 1 v₁).mapError SortAbort.merge)
    rw [hmerge]
    exact ⟨out, hout.trans hperm, hsorted, hv'⟩

/-! ## Keys in buckets of one -/

instance : Inhabited SortElement := ⟨⟨0, []⟩⟩

/-- The first elements have tags with the top bits 0, 8, 4, 12 and 2. -/
def fiveDraws : Draws SortElement :=
  ⟨fun i => BitVec.ofNat 64 ([0, 8, 4, 12, 2].getD i 0) <<< 60, fun _ => default⟩

/-- Keys in pages of two, with `n` buckets of one element in a page of the intermediate vectors. -/
def keyShuffle (n : Nat) : Surroundings n 2 1 SortElement where
  uninit := ⟨fun _ _ => ⟨1, default⟩, fun number => ⟨0, BitVec.ofNat 32 number⟩,
    fun _ => ⟨1, default⟩, fun _ => ⟨1, default⟩⟩
  sizeofTaggedT := 16
  readerCache _ := default
  merge := MergeVector.Surroundings.keySurroundings

theorem splitsInMemory_bucket {L : Nat} (hgamma : 2 ≤ getLogBaseTwo (2 ^ L * 2 ^ 0)) :
    SplitsInMemory (2 ^ 0) (getLogBaseTwo (2 ^ L * 2 ^ 0)) L :=
  splitsInMemory_of_two_le (by decide) hgamma L

/-- The sixteen buckets are split in external memory, the four buckets of each part in memory. -/
theorem five_splits : SplitsFour (2 ^ 0) 16 310 (numLayer (2 ^ 0) 5) := by
  have hlayer : numLayer (2 ^ 0) 5 = 4 := by decide +kernel
  rw [hlayer]
  exact .split (by decide) (by decide) (.leaf (by decide) (splitsInMemory_bucket (by decide)))
    (.leaf (by decide) (splitsInMemory_bucket (by decide)))

/-- Four keys in eight buckets, which are routed in memory. -/
theorem four_admissible : Admissible 0 16 310 1 fiveDraws (singleKeys 4).flatten where
  sizes := ⟨by decide, by decide, by decide +kernel⟩
  pages := .inr (by decide)
  splits := by
    have hlayer : numLayer (2 ^ 0) (singleKeys 4).flatten.length = 3 := by decide +kernel
    rw [hlayer]
    exact .leaf (by decide) (splitsInMemory_bucket (by decide))
  tags := by decide +kernel

theorem five_admissible : Admissible 0 16 310 1 fiveDraws (singleKeys 5).flatten where
  sizes := ⟨by decide, by decide, by decide +kernel⟩
  pages := .inr (by decide)
  splits := five_splits
  tags := by decide +kernel

/-- Four keys fill their two pages. -/
theorem CABucketShuffle_ordered_four :
    ∃ v l, Stores v 0 (singleKeys 4).flatten ∧
      List.Perm l (reals (tagAndPadInternal fiveDraws (2 ^ 0) (singleKeys 4).flatten)) ∧
      Increasing l ∧
      Ends (fun v' => Stores v' 1 (l.map TaggedT.v)) (fun e => e = .overflow)
        ((keyShuffle 1).CABucketShuffleInternal (2 ^ 0) fiveDraws v) ∧
      Ends (fun v' => Stores v' 1 (l.map TaggedT.v)) (fun e => e = .overflow)
        ((keyShuffle 1).CABucketShuffle (2 ^ 0) 310 fiveDraws v) := by
  have hlen : (singleKeys 4).flatten.length =
      (newVector ⟨0, 0⟩ (fun _ => default : Page 2 SortElement) 4).N := by decide
  obtain ⟨v, -, hv⟩ := copyOut_all hlen 0
  obtain ⟨-, -, -, l, hperm, hsorted, -, hinternal, hexternal⟩ :=
    CABucketShuffle_ordered (A := keyShuffle 1) hv four_admissible
  exact ⟨v, l, hv, hperm, hsorted, hinternal (by decide), hexternal⟩

/-- The keys that a vector has, read with the counter 1. -/
def keysOf {m : Nat} [NeZero m] (v : NonCachedVector.Vector m SortElement) : Option (List Nat) :=
  (NonCachedVector.copyIn 0 v.N 1 v).map fun s => s.1.map fun x => x.key.toNat

/-- Five keys in pages of `m`. -/
def fiveVector (m : Nat) [NeZero m] : Option (NonCachedVector.Vector m SortElement) :=
  NonCachedVector.copyOut (singleKeys 5).flatten 0 0 (newVector ⟨0, 0⟩ (fun _ => default) 5)

/-- Two ways in which the shuffles of five keys differ. With four buckets in a page, the copies of
the buckets to the next layer overwrite each other: the shuffle in memory arranges the elements by
their tags, the one in external memory writes the fourth one four times. With a page for each bucket
both write the same, but the shuffle in memory leaves its last page unwritten. -/
theorem CABucketShuffle_clobbered :
    SplitsFour (2 ^ 0) 16 310 (numLayer (2 ^ 0) 5) ∧
    ((reals (tagAndPadInternal fiveDraws (2 ^ 0) (singleKeys 5).flatten)).map TaggedT.tag).Nodup ∧
    (shuffleInternalOutput (2 ^ 0) fiveDraws (singleKeys 5).flatten).map
      (List.map fun x => x.key.toNat) = .ok [0, 4, 2, 1, 3] ∧
    (shuffleOutput (keyShuffle 4).uninit (2 ^ 0) 16 310 fiveDraws (singleKeys 5).flatten).map
      (List.map fun x => x.key.toNat) = .ok [3, 3, 3, 3] ∧
    (fiveVector 2).map (fun v => ((keyShuffle 1).CABucketShuffle (2 ^ 0) 310 fiveDraws v).map
      keysOf) = some (.ok (some [0, 4, 2, 1, 3])) ∧
    (fiveVector 2).map (fun v => ((keyShuffle 1).CABucketShuffleInternal (2 ^ 0) fiveDraws v).map
      keysOf) = some (.ok none) :=
  ⟨five_splits, by decide +kernel, by decide +kernel, by decide +kernel, by decide +kernel,
    by decide +kernel⟩

theorem bucketSortVec_sorts_five : ∃ v, Stores v 0 (singleKeys 5).flatten ∧
    Ends (fun v' => ∃ out, List.Perm out (singleKeys 5).flatten ∧ out.Pairwise SortKey.Le ∧
      Stores v' 1 out)
      (fun e => e = .shuffle .overflow) ((keyShuffle 1).sortVec (2 ^ 0) 310 fiveDraws v) := by
  have hlen : (singleKeys 5).flatten.length =
      (newVector ⟨0, 0⟩ (fun _ => default : Page 2 SortElement) 5).N := by decide
  obtain ⟨v, -, hv⟩ := copyOut_all hlen 0
  exact ⟨v, hv, bucketSortVec_sorts (A := keyShuffle 1)
    MergeVector.Surroundings.keySurroundings_correct hv five_admissible (by decide) (by decide)⟩

end Surroundings

end EM.Algorithm.CABucketSort
