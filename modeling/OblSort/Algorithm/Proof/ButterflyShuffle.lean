import OblSort.Algorithm.Proof.ButterflyPages
import OblSort.Algorithm.Proof.Bitonic

/-!
# The shuffle of the butterfly sorter

At the last layer every element is in the bucket of its tag, and the buckets are written out one
after the other, sorted by what is left of the tags (`sort_shuffle_spec`). The tags being distinct,
the order of the output is that of their keys.
-/

namespace EM.Algorithm.ButterflySorter

open EM.DynamicPageVector Loop Store

variable {α σ : Type} {S : ButterflySorter}

/-! ## Writing out -/

theorem outputBuckets_eq (batchBegin W : Nat) (s : State α σ) :
    forRange W (fun i s => .ok (S.outputBucket (batchBegin + i) s)) s =
      (.ok { s with
        batch := putAll (batchBegin + ·) (fun i => tagSort (s.batch (batchBegin + i))) W s.batch
        written := s.written ++ gather W fun i => S.output (tagSort (s.batch (batchBegin + i))) } :
        Except (Stop α σ) (State α σ)) := by
  refine forRange_eq_ok (s := s) (fun n => { s with
    batch := putAll (batchBegin + ·) (fun i => tagSort (s.batch (batchBegin + i))) n s.batch
    written := s.written ++ gather n fun i => S.output (tagSort (s.batch (batchBegin + i))) })
    (by simp [putAll]) fun i _ => ?_
  have hold : putAll (batchBegin + ·) (fun i => tagSort (s.batch (batchBegin + i))) i s.batch
      (batchBegin + i) = s.batch (batchBegin + i) := putAll_of_ne fun j hj h => by omega
  simp only [outputBucket, hold, putAll, gather_succ, List.append_assoc]

/-- What a shuffle does with a batch at the last layer. -/
theorem outputBatch_shuffle (ht : S.task = .kWayButterflyOShuffle)
    (stdSort : List (TaggedT α) → List (TaggedT α)) (ioLayer batchCount batchIdx : Nat)
    (s : State α σ) :
    S.outputBatch stdSort ioLayer batchCount batchIdx 0 s = .ok { s with
      lastBuckets := putAll (fun i => batchIdx + S.fetchInterval ioLayer * i) s.batch
        (S.waysOf ioLayer).prod s.lastBuckets
      batch := putAll (fun i => i) (fun i => tagSort (s.batch i)) (S.waysOf ioLayer).prod s.batch
      written := s.written ++ gather (S.waysOf ioLayer).prod fun i =>
        S.output (tagSort (s.batch i)) } := by
  rw [outputBatch, getVecProduct_eq]
  dsimp only
  rw [outputBuckets_eq]
  simp only [ht, Nat.zero_add]
  rfl

theorem column_inj {F u j u' j' : Nat} (hj : j < F) (hj' : j' < F)
    (h : j + F * u = j' + F * u') : u = u' ∧ j = j' := by
  have h' : 0 + u * F + j = 0 + u' * F + j' := by
    rw [Nat.mul_comm u, Nat.mul_comm u']
    omega
  exact grid_inj hj hj' h'

/-- After `n` batches of the last layer, where `cols j` are the elements of batch `j`. -/
structure Shuffled (S : ButterflySorter) (F W n : Nat) (cols : Nat → List (TaggedT α))
    (s s' : State α σ) : Prop where
  last : ∀ u < W, ∀ j < n, (s'.lastBuckets (j + F * u)).length = S.Z ∧
    List.Perm (reals (s'.lastBuckets (j + F * u))) (part W u (cols j))
  written : s'.written = s.written ++ gather n fun j => gather W fun u =>
    S.output (tagSort (s'.lastBuckets (j + F * u)))
  vec : s'.vec = s.vec
  sized : S.Sized s'

theorem Shuffled.start {F W : Nat} {cols : Nat → List (TaggedT α)} {s : State α σ}
    (hs : S.Sized s) : S.Shuffled F W 0 cols s s :=
  ⟨fun _ _ _ h => absurd h (by omega), by simp, rfl, hs⟩

theorem length_tagSort (b : List (TaggedT α)) : (tagSort b).length = b.length :=
  (bitonicSortList_perm _ b).length_eq

/-- One batch more: routed to `s₂` and written out. -/
theorem Shuffled.next (ht : S.task = .kWayButterflyOShuffle)
    (stdSort : List (TaggedT α) → List (TaggedT α)) {ioLayer batchCount n : Nat}
    {cols : Nat → List (TaggedT α)} {s s₁ s₂ : State α σ}
    (h : S.Shuffled (S.fetchInterval ioLayer) (S.waysOf ioLayer).prod n cols s s₁)
    (hn : n < S.fetchInterval ioLayer) (hsized : S.Sized s₂) (hrest : SameRest s₁ s₂)
    (hcol : ∀ u < (S.waysOf ioLayer).prod, List.Perm (reals (s₂.batch u))
      (part (S.waysOf ioLayer).prod u (cols n))) {E : Stop α σ → Prop} :
    Ends (S.Shuffled (S.fetchInterval ioLayer) (S.waysOf ioLayer).prod (n + 1) cols s) E
      (S.outputBatch stdSort ioLayer batchCount n 0 s₂) := by
  rw [outputBatch_shuffle ht]
  have hnew : ∀ u < (S.waysOf ioLayer).prod, putAll (fun i => n + S.fetchInterval ioLayer * i)
      s₂.batch (S.waysOf ioLayer).prod s₂.lastBuckets (n + S.fetchInterval ioLayer * u) =
      s₂.batch u := fun u hu => putAll_idx (fun u _ u' _ h => (column_inj hn hn h).1) hu
  have hold : ∀ u, ∀ j < n, putAll (fun i => n + S.fetchInterval ioLayer * i)
      s₂.batch (S.waysOf ioLayer).prod s₂.lastBuckets (j + S.fetchInterval ioLayer * u) =
      s₁.lastBuckets (j + S.fetchInterval ioLayer * u) := fun u j hj => by
    rw [putAll_of_ne fun u' _ h => by have := (column_inj hn (by omega) h).2; omega,
      hrest.lastBuckets]
  refine ⟨fun u hu j hj => ?_, ?_, hrest.vec.trans h.vec, fun p => ?_⟩
  · by_cases hjn : j = n
    · subst hjn
      dsimp only
      rw [hnew u hu]
      exact ⟨hsized u, hcol u hu⟩
    · dsimp only
      rw [hold u j (by omega)]
      exact h.last u hu j (by omega)
  · dsimp only
    rw [hrest.written, h.written, gather_succ, List.append_assoc]
    congr 2
    · refine gather_congr fun j hj => gather_congr fun u _ => ?_
      rw [hold u j hj]
    · exact gather_congr fun u hu => by rw [hnew u hu]
  · exact putAll_forall (P := fun b : List (TaggedT α) => b.length = S.Z) hsized
      (fun i _ => (length_tagSort _).trans (hsized i)) p

section Shuffle

variable (hv : S.Valid) (hl : S.KWayParams.LanesFit) (hf : S.Fits)
  (ht : S.task = .kWayButterflyOShuffle) (stdSort : List (TaggedT α) → List (TaggedT α))

include ht in
/-- At the last layer a shuffle fetches a batch to the start of the buffer and writes it out. -/
theorem sortBatch_last {ioLayer : Nat} (h : ioLayer + 1 = S.KWayParams.ways.length)
    (V : Vector σ (List (TaggedT α))) (begin batchCount : Nat) {batchIdx : Nat}
    (hin : S.InBuffer ioLayer batchIdx) (s : State α σ) :
    S.sortBatch V stdSort ioLayer begin batchCount batchIdx s =
      (do
        let s ← S.fetchBatch V ioLayer begin batchIdx 0 s >>=
          S.KWayButterflySortBasic ioLayer ((S.waysOf ioLayer).length - 1) 0
            (getVecProduct (S.waysOf ioLayer))
        S.outputBatch stdSort ioLayer batchCount batchIdx 0 s) := by
  have hlast : S.isLastLayer ioLayer = true := by
    rw [isLastLayer, beq_iff_eq]
    omega
  rw [sortBatch, bind_assoc, batchPerEnclave_shuffle ht, hlast]
  rw [enterBatch_eq hin, ok_bind]
  simp only [Nat.mod_one, Nat.zero_mul, if_true]

/-- What entered is in its last buckets and they have been written out. -/
structure Shuffles (S : ButterflySorter) (F W : Nat) (s s' : PState α) : Prop where
  last : ∀ u < W, ∀ j < F, (s'.lastBuckets (j + F * u)).length = S.Z ∧
    List.Perm (reals (s'.lastBuckets (j + F * u)))
      (part (F * W) (j + F * u) (gather (F * W) (S.source 0 s 0)))
  written : s'.written = s.written ++ gather F fun j => gather W fun u =>
    S.output (tagSort (s'.lastBuckets (j + F * u)))

theorem Shuffled.shuffles {F W : Nat} {cols : Nat → List (TaggedT α)} {s s₁ s' : PState α}
    (h : S.Shuffled F W F cols s₁ s') (hw : s₁.written = s.written)
    (hcols : ∀ j < F, List.Perm (cols j) (part F j (gather (F * W) (S.source 0 s 0)))) :
    S.Shuffles F W s s' where
  last u hu j hj := by
    obtain ⟨hlen, hperm⟩ := h.last u hu j hj
    rw [← part_part hj]
    exact ⟨hlen, hperm.trans (part_perm (hcols j hj))⟩
  written := by rw [h.written, hw]

include hv hl hf ht in
/-- **The last layer** of a shuffle. -/
theorem KWayButterflySort_shuffles {ioLayer : Nat} (h : ioLayer + 1 = S.KWayParams.ways.length)
    {s : PState α} (hs : S.Sized s) (hp : ∀ p, (s.vec p).length = S.Z) :
    Ends (S.Shuffles (S.fetchInterval ioLayer) (S.waysOf ioLayer).prod s)
      (S.StopsOn (gather (S.fetchInterval ioLayer * (S.waysOf ioLayer).prod) (S.source 0 s 0)))
      (S.KWayButterflySort (Vector.plain _) stdSort ioLayer 0
        (S.fetchInterval ioLayer * (S.waysOf ioLayer).prod) s) := by
  have hW := hv.prod_pos (show ioLayer < S.KWayParams.ways.length by omega)
  cases ioLayer with
  | zero =>
    rw [KWayButterflySort_first _ _ hW, fetchInterval_zero]
    have hone : S.Shuffled (S.fetchInterval 0) (S.waysOf 0).prod 0
      (fun _ => gather (S.waysOf 0).prod (S.source 0 s 0)) s s := .start hs
    rw [forRange_succ, forRange_zero]
    refine Ends.bind (Q := fun s₁ => s₁ = s) rfl fun s₁ h₁ => ?_
    subst h₁
    rw [sortBatch_last ht stdSort h _ _ _ (hf 0 (by omega) 0 Nat.one_pos), fetchBatch_zero, ok_bind,
      Nat.one_mul]
    refine Ends.bind (routeBatch_spec hv hl (by omega) 0 hs) fun s₃ h₃ => ?_
    refine (hone.next ht stdSort (by simp) h₃.sized h₃.rest fun u hu => ?_).mono
      (fun s₄ h₄ => h₄.shuffles rfl fun j hj => ?_) fun e he => he
    · simpa using h₃.batch.routed u hu
    · rw [fetchInterval_zero] at hj ⊢
      obtain rfl : j = 0 := by omega
      rw [part_one, Nat.one_mul]
  | succ ioLayer =>
    have hF := hv.fetchInterval_pos (show ioLayer + 1 ≤ S.KWayParams.ways.length by omega)
    rw [KWayButterflySort_next _ _ hW]
    refine (partsBelow_routed hv hl hf stdSort (by omega) hs hp).bind fun s₁ h₁ => ?_
    refine Ends.mono (forRange_ends (fun n => S.Shuffled (S.fetchInterval (ioLayer + 1))
      (S.waysOf (ioLayer + 1)).prod n (fun j => gather (S.waysOf (ioLayer + 1)).prod fun u =>
        reals (s₁.vec (0 + u * S.fetchInterval (ioLayer + 1) + j))) s₁)
      (.start h₁.sized) fun n hn s₂ h₂ => ?_)
      (fun s₂ h₂ => h₂.shuffles h₁.output.written fun j hj => h₁.vec.column hj) fun _ he => he
    rw [sortBatch_last ht stdSort h _ _ _ (hf _ (by omega) n hn)]
    have hpages : ∀ p, (s₂.vec p).length = S.Z := fun p => by rw [h₂.vec, h₁.pages]
    refine Ends.mono ((fetchRoute_ends hv hl (by omega) (by omega) 0 n 0 h₂.sized hpages).bind
      fun s₃ h₃ => h₂.next ht stdSort hn h₃.sized h₃.rest fun u hu => ?_)
      (fun _ h => h) fun e he => ⟨he.1, ?_⟩
    · have := h₃.routed u hu
      rwa [Nat.zero_add, h₂.vec] at this
    · have he := he.2
      rw [h₂.vec] at he
      exact (he.of_perm (h₁.vec.column hn)).of_part hn

include hv hl hf ht in
/-- **A whole shuffle** whose buffer can be allocated. -/
theorem sort_shuffles (halloc : S.batchSize * S.sizeofWrappedT < 2 ^ 63) {s : PState α}
    (hs : S.Sized s) (hp : ∀ p, (s.vec p).length = S.Z) :
    Ends (S.Shuffles (S.fetchInterval (S.KWayParams.ways.length - 1))
        (S.waysOf (S.KWayParams.ways.length - 1)).prod s)
      (S.StopsOn (gather S.KWayParams.totalBucket (S.source 0 s 0)))
      (S.sort (Vector.plain _) stdSort s) := by
  have hspec := KWayButterflySort_shuffles hv hl hf ht stdSort hv.lastLayer hs hp
  rw [sort_eq halloc]
  rwa [← hv.totalBucket_last] at hspec

end Shuffle

/-! ## The order of the output -/

/-- The 63-bit tag that a draw gives to an element. -/
def tagOf (p : BitVec 64 × α) : Nat := p.1.toNat % 2 ^ 63

theorem realTag_tagged (p : BitVec 64 × α) : (tagged p).realTag = tagOf p := by
  have : (tagged p).tag.toNat = p.1.toNat % 2 ^ 63 := by
    rw [tagged, TaggedT.setData, BitVec.toNat_and]
    exact Nat.and_two_pow_sub_one_eq_mod _ 63
  rw [TaggedT.realTag, this, tagOf, Nat.mod_mod]

/-- The order of the keys `((t mod B) mod F, (t mod B) div F, t div B)`. -/
def KeyLt (B F t t' : Nat) : Prop :=
  t % B % F < t' % B % F ∨ (t % B % F = t' % B % F ∧
    (t % B / F < t' % B / F ∨ (t % B / F = t' % B / F ∧ t / B < t' / B)))

theorem KeyLt.asymm {B F t t' : Nat} (h : KeyLt B F t t') : ¬ KeyLt B F t' t := by
  unfold KeyLt at *
  omega

/-- The key of a tag put together from a bucket and what is left of the tag. -/
theorem key_eq {F W j u r : Nat} (hj : j < F) (hu : u < W) :
    (r * (F * W) + (j + F * u)) % (F * W) % F = j ∧
      (r * (F * W) + (j + F * u)) % (F * W) / F = u ∧
      (r * (F * W) + (j + F * u)) / (F * W) = r := by
  have hb : j + F * u < F * W := by
    have := grid_lt hu hj
    rw [Nat.mul_comm u, Nat.mul_comm W] at this
    omega
  rw [Nat.mul_comm r, Nat.mul_add_mod, Nat.mod_eq_of_lt hb, Nat.mul_add_div (by omega),
    Nat.div_eq_of_lt hb, Nat.add_mul_mod_self_left, Nat.mod_eq_of_lt hj,
    Nat.add_mul_div_left _ _ (by omega), Nat.div_eq_of_lt hj]
  omega

/-- Equal keys come from equal tags. -/
theorem keyLt_of_ne {B F t t' : Nat} (hne : t ≠ t')
    (hle : t % B % F < t' % B % F ∨ (t % B % F = t' % B % F ∧
      (t % B / F < t' % B / F ∨ (t % B / F = t' % B / F ∧ t / B ≤ t' / B)))) : KeyLt B F t t' := by
  have hkey : ¬ (t % B % F = t' % B % F ∧ t % B / F = t' % B / F ∧ t / B = t' / B) := by
    rintro ⟨h1, h2, h3⟩
    have hb : t % B = t' % B := by
      rw [← Nat.div_add_mod (t % B) F, ← Nat.div_add_mod (t' % B) F, h1, h2]
    exact hne (by rw [← Nat.div_add_mod t B, ← Nat.div_add_mod t' B, hb, h3])
  unfold KeyLt
  omega

/-- The real elements of a bucket in the order of their tags. -/
def sortedReals (b : List (TaggedT α)) : List (TaggedT α) := reals (tagSort b)

theorem sortedReals_perm (b : List (TaggedT α)) : List.Perm (sortedReals b) (reals b) :=
  perm_reals (bitonicSortList_perm _ b)

theorem sortedReals_sorted {b : List (TaggedT α)} (hb : b.length ≤ 2 ^ 63) :
    List.Pairwise (fun x y : TaggedT α => x.realTag ≤ y.realTag) (sortedReals b) := by
  have hcmp : Net.Decides (fun x y : TaggedT α => x.tag.toNat ≤ y.tag.toNat)
      fun x y => x.tag.ult y.tag := by
    refine ⟨fun x y z => Nat.le_trans, fun x y h => ?_, fun x y h => ?_⟩
    · rw [BitVec.ult_iff_lt, BitVec.lt_def] at h
      omega
    · rw [← Bool.not_eq_true, BitVec.ult_iff_lt, BitVec.lt_def] at h
      omega
  have hsorted : List.Pairwise _ (sortedReals b) :=
    List.Pairwise.filter (fun x => !Markable.isDummy x) (bitonicSortList_sorted hcmp hb)
  refine hsorted.imp_of_mem fun {x y} hx hy h => ?_
  rwa [TaggedT.realTag_eq (mem_reals.1 hx).2, TaggedT.realTag_eq (mem_reals.1 hy).2]

/-- The last buckets in the order they are written, with the tags the elements came with. -/
def arranged (F W : Nat) (last : Nat → List (TaggedT α)) : List (Nat × α) :=
  gather F fun j => gather W fun u => (sortedReals (last (j + F * u))).map fun x =>
    (x.realTag * (F * W) + (j + F * u), x.v)

section Arranged

variable {F W : Nat} {last : Nat → List (TaggedT α)} {src : List (TaggedT α)}

theorem arranged_perm (hpos : 0 < F * W) (hlast : ∀ u < W, ∀ j < F,
      List.Perm (reals (last (j + F * u))) (part (F * W) (j + F * u) src)) :
    List.Perm (arranged F W last) (src.map fun x => (x.realTag, x.v)) := by
  have hbucket : ∀ b, (part (F * W) b src).map (fun x => (x.realTag * (F * W) + b, x.v)) =
      (src.filter fun x => x.realTag % (F * W) == b).map fun x => (x.realTag, x.v) := fun b => by
    rw [part, List.map_map]
    refine List.map_congr_left fun x hx => ?_
    have hb : x.realTag % (F * W) = b := by simpa using (List.mem_filter.1 hx).2
    rw [Function.comp_apply, TaggedT.realTag_divTag, Nat.mul_comm, ← hb, Nat.div_add_mod]
    rfl
  have hall : List.Perm (arranged F W last) (gather F fun j => gather W fun u =>
      (src.filter fun x => x.realTag % (F * W) == u * F + j).map fun x => (x.realTag, x.v)) := by
    refine gather_perm fun j hj => gather_perm fun u hu => ?_
    rw [Nat.mul_comm u, Nat.add_comm _ j, ← hbucket]
    exact ((sortedReals_perm _).trans (hlast u hu j hj)).map _
  refine (hall.trans (gather_comm F W _)).trans ?_
  rw [← gather_mul W F fun b => (src.filter fun x => x.realTag % (F * W) == b).map fun x =>
    (x.realTag, x.v), ← gather_map, Nat.mul_comm W F]
  exact (flatMap_filter_perm _ fun x _ => Nat.mod_lt _ hpos).map _

theorem arranged_sorted (hlen : ∀ u < W, ∀ j < F, (last (j + F * u)).length ≤ 2 ^ 63)
    (hnodup : (arranged F W last).Pairwise fun p q => p.1 ≠ q.1) :
    (arranged F W last).Pairwise fun p q => KeyLt (F * W) F p.1 q.1 := by
  refine (List.Pairwise.and hnodup (S := fun p q => p.1 % (F * W) % F < q.1 % (F * W) % F ∨
    (p.1 % (F * W) % F = q.1 % (F * W) % F ∧ (p.1 % (F * W) / F < q.1 % (F * W) / F ∨
      (p.1 % (F * W) / F = q.1 % (F * W) / F ∧ p.1 / (F * W) ≤ q.1 / (F * W))))) ?_).imp
    fun h => keyLt_of_ne h.1 h.2
  have hkey : ∀ j < F, ∀ u < W, ∀ p ∈ (sortedReals (last (j + F * u))).map fun x =>
      (x.realTag * (F * W) + (j + F * u), x.v),
      p.1 % (F * W) % F = j ∧ p.1 % (F * W) / F = u := fun j hj u hu p hp => by
    obtain ⟨x, -, rfl⟩ := List.mem_map.1 hp
    obtain ⟨h1, h2, -⟩ := key_eq (r := x.realTag) hj hu
    exact ⟨h1, h2⟩
  refine pairwise_gather (fun j hj => pairwise_gather (fun u hu => ?_) ?_) ?_
  · rw [List.pairwise_map]
    refine (sortedReals_sorted (hlen u hu j hj)).imp fun {x y} h => ?_
    obtain ⟨h1, h2, h3⟩ := key_eq (r := x.realTag) hj hu
    obtain ⟨h4, h5, h6⟩ := key_eq (r := y.realTag) hj hu
    rw [h1, h2, h3, h4, h5, h6]
    omega
  · intro u u' huu hu' p hp q hq
    obtain ⟨h1, h2⟩ := hkey j hj u (by omega) p hp
    obtain ⟨h3, h4⟩ := hkey j hj u' hu' q hq
    omega
  · intro j j' hjj hj' p hp q hq
    obtain ⟨u, hu, hp⟩ := mem_gather.1 hp
    obtain ⟨u', hu', hq⟩ := mem_gather.1 hq
    obtain ⟨h1, -⟩ := hkey j (by omega) u hu p hp
    obtain ⟨h3, -⟩ := hkey j' hj' u' hu' q hq
    omega

end Arranged

/-! ## The shuffle -/

theorem prod_pos_of_valid {params : KWayButterflyParams} {N : Nat} (hv : params.Valid N) :
    0 < params.totalBucket := by
  rw [hv.totalBucket]
  exact prod_pos_of_nested_ways hv.way_range

theorem ceil_eq {N B : Nat} (hN : 0 < N) (hB : 0 < B) : divRoundUp N B = 1 + (N - 1) / B := by
  rw [divRoundUp, show N + B - 1 = (N - 1) + B by omega, Nat.add_div_right _ hB, Nat.add_comm]

/-- The sorter built for an input has what it relies on. -/
theorem valid_new {params : KWayButterflyParams} {N : Nat} (hN : 0 < N) (hv : params.Valid N)
    (task : SortMethod) (singleBatch : Bool) (heapSize sizeofWrappedT : Nat) :
    (new task singleBatch params heapSize sizeofWrappedT N).Valid where
  ways_ne_nil := hv.ways_ne_nil
  inner_ne_nil := hv.inner_ne_nil
  way_range := hv.way_range
  totalBucket := hv.totalBucket
  Z := by
    obtain ⟨m, hm, -, hZ⟩ := hv.Z
    exact ⟨m, hm, hZ⟩
  Z_le := by
    obtain ⟨m, -, hm, hZ⟩ := hv.Z
    change params.Z ≤ 2 ^ 63
    rw [hZ]
    exact Nat.pow_le_pow_right (by omega) (by omega)
  numReal := by
    change 1 + (N - 1) / params.totalBucket ≤ params.Z
    rw [← ceil_eq hN (prod_pos_of_valid hv)]
    exact hv.real_le

/-- All of the input enters. -/
theorem gather_source {params : KWayButterflyParams} {input : List (BitVec 64 × α)}
    (hne : 0 < input.length) (hB : 0 < params.totalBucket) (task : SortMethod) (singleBatch : Bool)
    (heapSize sizeofWrappedT : Nat) (batch : Nat → List (TaggedT α)) (vec : σ) :
    gather params.totalBucket ((new task singleBatch params heapSize sizeofWrappedT
      input.length).source 0 (.start input batch vec) 0) = input.map tagged := by
  have hcut : ∀ q, (new task singleBatch params heapSize sizeofWrappedT input.length).source 0
      (.start input batch vec) 0 q =
      ((input.drop (q * (1 + (input.length - 1) / params.totalBucket))).take
        (1 + (input.length - 1) / params.totalBucket)).map tagged := fun q => by
    rw [source, if_pos rfl]
    rfl
  have hall : input.length ≤ params.totalBucket *
    (1 + (input.length - 1) / params.totalBucket) := by
    have := Nat.lt_mul_div_succ (input.length - 1) hB
    rw [Nat.mul_add, Nat.mul_one]
    rw [Nat.mul_add, Nat.mul_one] at this
    omega
  rw [gather_congr fun q _ => hcut q, ← gather_map, gather_take_drop,
    List.take_of_length_le hall]

/-- The tag and the element. -/
def pair (p : BitVec 64 × α) : Nat × α := (tagOf p, p.2)

theorem map_tagged (input : List (BitVec 64 × α)) :
    (input.map tagged).map (fun x => (x.realTag, x.v)) = input.map pair := by
  rw [List.map_map]
  exact List.map_congr_left fun p _ => by rw [Function.comp_apply, realTag_tagged]; rfl

section Whole

variable {params : KWayButterflyParams} {input : List (BitVec 64 × α)}
  (hv : params.Valid input.length) (hl : params.LanesFit) (hne : input ≠ [])
  (singleBatch : Bool) (heapSize sizeofWrappedT : Nat)
  (stdSort : List (TaggedT α) → List (TaggedT α)) {batch vec : Nat → List (TaggedT α)}
  (hb : ∀ p, (batch p).length = params.Z) (hp : ∀ p, (vec p).length = params.Z)

include hv hl hne hb hp

/-- A shuffle whose buffer holds its batches comes to its end, or stops at a merge-split as some
class of tags has too many elements. -/
theorem sort_shuffle_ends (hholds : (new .kWayButterflyOShuffle singleBatch params heapSize
      sizeofWrappedT input.length).HoldsBatches) :
    Ends (fun _ => True) (fun e => e.1 = .mergeSplit ∧ Overfull params.Z (input.map tagged))
      ((new .kWayButterflyOShuffle singleBatch params heapSize sizeofWrappedT input.length).sort
        (Vector.plain _) stdSort (.start input batch vec)) := by
  have hN : 0 < input.length := List.length_pos_iff.2 hne
  have hvalid := valid_new hN hv .kWayButterflyOShuffle singleBatch heapSize sizeofWrappedT
  have hfits := hholds.fits_shuffle rfl
  have hends := sort_shuffles hvalid hl hfits rfl stdSort hholds.alloc
    (show Sized _ (.start input batch vec) from hb) hp
  refine hends.mono (fun _ _ => trivial) fun e he => ?_
  rw [← gather_source hN (prod_pos_of_valid hv) .kWayButterflyOShuffle singleBatch heapSize
    sizeofWrappedT batch vec]
  exact he

variable {s' : PState α}
  (hrun : (new .kWayButterflyOShuffle singleBatch params heapSize sizeofWrappedT
    input.length).sort (Vector.plain _) stdSort (.start input batch vec) = .ok s')

include hrun

theorem sort_shuffle_spec : ∃ F W, params.totalBucket = F * W ∧
    W = (params.ways.getLast hv.ways_ne_nil).prod ∧
    (∀ b < F * W, (s'.lastBuckets b).length = params.Z ∧
      List.Perm (reals (s'.lastBuckets b)) (part (F * W) b (input.map tagged))) ∧
    s'.written = (arranged F W s'.lastBuckets).map Prod.snd := by
  have hN : 0 < input.length := List.length_pos_iff.2 hne
  have hsrc := gather_source hN (prod_pos_of_valid hv) .kWayButterflyOShuffle singleBatch heapSize
    sizeofWrappedT batch vec
  have hvalid := valid_new hN hv .kWayButterflyOShuffle singleBatch heapSize sizeofWrappedT
  obtain ⟨halloc, hfits, -⟩ := sort_eq_ok hvalid hrun
  have h := (sort_shuffles hvalid hl hfits rfl stdSort halloc
    (show Sized _ (.start input batch vec) from hb) hp).of_ok hrun
  change Shuffles _ (fetchInterval _ (params.ways.length - 1))
    (waysOf _ (params.ways.length - 1)).prod _ _ at h
  have hlast : params.ways.getLast hv.ways_ne_nil =
      (new .kWayButterflyOShuffle singleBatch params heapSize sizeofWrappedT input.length).waysOf
        (params.ways.length - 1) := by
    rw [List.getLast_eq_getElem, waysOf, List.getD_eq_getElem]
    rfl
  have hB := hvalid.totalBucket_last
  change params.totalBucket = fetchInterval _ (params.ways.length - 1) *
    (waysOf _ (params.ways.length - 1)).prod at hB
  refine ⟨_, _, hB, congrArg List.prod hlast.symm, fun b hb => ?_, ?_⟩
  · have hF := hvalid.fetchInterval_pos (Nat.le_of_succ_le hvalid.lastLayer.le)
    change 0 < fetchInterval _ (params.ways.length - 1) at hF
    obtain ⟨h1, h2⟩ := h.last _ (Nat.div_lt_of_lt_mul hb) _ (Nat.mod_lt b hF)
    rw [Nat.mod_add_div] at h1 h2
    rw [← hB, hsrc] at h2
    rw [← hB]
    exact ⟨h1, h2⟩
  · rw [h.written, arranged, gather_map]
    change [] ++ _ = _
    rw [List.nil_append]
    refine gather_congr fun j _ => ?_
    rw [gather_map]
    refine gather_congr fun u _ => ?_
    rw [List.map_map]
    rfl

/-- What is written is the input in the order of the keys of the tags. -/
theorem sort_shuffle_arranged (htags : (input.map tagOf).Nodup) :
    ∃ out : List (Nat × α), List.Perm out (input.map pair) ∧
      (out.Pairwise fun p q => KeyLt params.totalBucket
        (params.totalBucket / (params.ways.getLast hv.ways_ne_nil).prod) p.1 q.1) ∧
      s'.written = out.map Prod.snd := by
  obtain ⟨F, W, hB, hW, hlast, hwritten⟩ := sort_shuffle_spec hv hl hne singleBatch heapSize
    sizeofWrappedT stdSort hb hp hrun
  have hpos : 0 < F * W := hB ▸ prod_pos_of_valid hv
  have hgrid : ∀ u < W, ∀ j < F, j + F * u < F * W := fun u hu j hj => by
    have := grid_lt hu hj
    rw [Nat.mul_comm u, Nat.mul_comm W] at this
    omega
  have hperm := arranged_perm hpos fun u hu j hj => (hlast _ (hgrid u hu j hj)).2
  rw [map_tagged] at hperm
  have hnodup : ((arranged F W s'.lastBuckets).map Prod.fst).Nodup := by
    refine (hperm.map Prod.fst).nodup_iff.2 ?_
    rw [List.map_map]
    exact htags
  have hsorted := arranged_sorted (fun u hu j hj => ?_) (List.pairwise_map.1 hnodup)
  · rw [← hW, hB, Nat.mul_div_cancel _ (Nat.pos_of_mul_pos_left hpos)]
    exact ⟨_, hperm, hsorted, hwritten⟩
  · rw [(hlast _ (hgrid u hu j hj)).1]
    exact (valid_new (List.length_pos_iff.2 hne) hv .kWayButterflyOShuffle singleBatch heapSize
      sizeofWrappedT).Z_le

/-- The last buckets hold their classes. -/
theorem sort_shuffle_buckets : ∀ b < params.totalBucket, List.Perm
    ((reals (s'.lastBuckets b)).map fun x => (x.realTag, x.v))
    ((input.filter fun p => tagOf p % params.totalBucket == b).map fun p =>
      (tagOf p / params.totalBucket, p.2)) := by
  obtain ⟨F, W, hB, hW, hlast, hwritten⟩ := sort_shuffle_spec hv hl hne singleBatch heapSize
    sizeofWrappedT stdSort hb hp hrun
  intro b hb
  rw [hB] at hb
  refine ((hlast b hb).2.map _).trans (List.Perm.of_eq ?_)
  rw [hB, part, List.map_map, List.filter_map, List.map_map]
  have hclass : (fun x : TaggedT α => decide (x.realTag % (F * W) = b)) ∘ tagged =
      fun p => tagOf p % (F * W) == b := by
    funext p
    rw [Function.comp_apply, realTag_tagged]
    rfl
  rw [hclass]
  refine List.map_congr_left fun p _ => ?_
  rw [Function.comp_apply, Function.comp_apply, TaggedT.realTag_divTag, realTag_tagged]
  rfl

omit hrun

/-- **Butterfly routing and shuffle**: a shuffle whose buffer holds its batches and which does not
stop at a merge-split comes to its end. The element with tag `t` is then in bucket `t mod B` with
tag `t div B`, and the output is the input in the order of the keys
`((t mod B) mod F, (t mod B) div F, t div B)`, whatever slots the elements were read into. -/
theorem sort_shuffle_ordered
    (hholds : (new .kWayButterflyOShuffle singleBatch params heapSize sizeofWrappedT
      input.length).HoldsBatches)
    (hno : ∀ e, (new .kWayButterflyOShuffle singleBatch params heapSize sizeofWrappedT
      input.length).sort (Vector.plain _) stdSort (.start input batch vec) = .error e →
        e.1 ≠ .mergeSplit)
    (htags : (input.map tagOf).Nodup) :
    ∃ s' : PState α, (new .kWayButterflyOShuffle singleBatch params heapSize sizeofWrappedT
      input.length).sort (Vector.plain _) stdSort (.start input batch vec) = .ok s' ∧
    (∀ b < params.totalBucket, List.Perm
      ((reals (s'.lastBuckets b)).map fun x => (x.realTag, x.v))
      ((input.filter fun p => tagOf p % params.totalBucket == b).map fun p =>
        (tagOf p / params.totalBucket, p.2))) ∧
    (∃ out : List (Nat × α), List.Perm out (input.map pair) ∧
      (out.Pairwise fun p q => KeyLt params.totalBucket
        (params.totalBucket / (params.ways.getLast hv.ways_ne_nil).prod) p.1 q.1) ∧
      s'.written = out.map Prod.snd) ∧
    List.Perm s'.written (input.map Prod.snd) ∧
    ∀ (input' : List (BitVec 64 × α)) (batch' vec' : Nat → List (TaggedT α)) (s'' : PState α),
      List.Perm (input'.map pair) (input.map pair) → (∀ p, (batch' p).length = params.Z) →
      (∀ p, (vec' p).length = params.Z) →
      (new .kWayButterflyOShuffle singleBatch params heapSize sizeofWrappedT input'.length).sort
        (Vector.plain _) stdSort (.start input' batch' vec') = .ok s'' →
      s''.written = s'.written := by
  have hends := sort_shuffle_ends hv hl hne singleBatch heapSize sizeofWrappedT stdSort hb hp hholds
  obtain ⟨s', hrun, -⟩ := hends.exists_ok fun e he hstop => hno e he hstop.1
  obtain ⟨out, hperm, hsorted, hout⟩ := sort_shuffle_arranged hv hl hne singleBatch heapSize
    sizeofWrappedT stdSort hb hp hrun htags
  refine ⟨s', hrun, sort_shuffle_buckets hv hl hne singleBatch heapSize sizeofWrappedT stdSort hb hp
    hrun, ⟨out, hperm, hsorted, hout⟩, ?_, ?_⟩
  · rw [hout]
    refine (hperm.map Prod.snd).trans (List.Perm.of_eq ?_)
    rw [List.map_map]
    rfl
  · intro input' batch' vec' s'' hsame hb' hp' hrun'
    have hlen : input'.length = input.length := by simpa using hsame.length_eq
    have hv' : params.Valid input'.length := hlen ▸ hv
    have hne' : input' ≠ [] := List.length_pos_iff.1 (hlen ▸ List.length_pos_iff.2 hne)
    have htags' : (input'.map tagOf).Nodup := by
      have := (hsame.map Prod.fst).nodup_iff
      rw [List.map_map, List.map_map] at this
      exact this.2 htags
    obtain ⟨out', hperm', hsorted', hout'⟩ := sort_shuffle_arranged hv' hl hne' singleBatch heapSize
      sizeofWrappedT stdSort hb' hp' hrun' htags'
    have heq : out' = out := List.Perm.eq_of_pairwise (fun p q _ _ h h' => absurd h' h.asymm)
      hsorted' hsorted ((hperm'.trans hsame).trans hperm.symm)
    rw [hout, hout', heq]

end Whole

/-- Four elements with their draws. -/
def fourElements : List (BitVec 64 × Char) := [(6, 'a'), (3, 'b'), (0, 'c'), (5, 'd')]

/-- Buckets of two places. -/
def twoPlaces (_ : Nat) : List (TaggedT Char) := [⟨0, 'x'⟩, ⟨0, 'x'⟩]

/-- Four elements through two layers of two ways. -/
theorem sort_shuffle_ordered_four : ∃ s' : PState Char,
    (new .kWayButterflyOShuffle false ⟨[[2], [2]], 2, 4⟩ 1024 16 4).sort (Vector.plain _) id
      (.start fourElements twoPlaces twoPlaces) = .ok s' ∧
    List.Perm s'.written ['a', 'b', 'c', 'd'] := by
  have hv : KWayButterflyParams.Valid ⟨[[2], [2]], 2, 4⟩ fourElements.length :=
    ⟨by decide, by decide, by decide, by decide, ⟨1, by decide, by decide, rfl⟩, by decide⟩
  have hl : KWayButterflyParams.LanesFit ⟨[[2], [2]], 2, 4⟩ := by
    unfold KWayButterflyParams.LanesFit
    decide
  have hholds : (new .kWayButterflyOShuffle false ⟨[[2], [2]], 2, 4⟩ 1024 16
      fourElements.length).HoldsBatches := ⟨by decide, by decide⟩
  have hsized : ∀ p, (twoPlaces p).length = 2 := fun _ => rfl
  have hok : ((new .kWayButterflyOShuffle false ⟨[[2], [2]], 2, 4⟩ 1024 16
      fourElements.length).sort (Vector.plain _) id
        (.start fourElements twoPlaces twoPlaces)).toBool = true := by
    decide +kernel
  have hno : ∀ e, (new .kWayButterflyOShuffle false ⟨[[2], [2]], 2, 4⟩ 1024 16
      fourElements.length).sort (Vector.plain _) id (.start fourElements twoPlaces twoPlaces) =
        .error e → e.1 ≠ .mergeSplit := by
    intro e he
    rw [he] at hok
    cases hok
  obtain ⟨s', hrun, -, -, hperm, -⟩ := sort_shuffle_ordered hv hl (by decide) false 1024 16 id
    hsized hsized hholds hno (by decide)
  exact ⟨s', hrun, hperm⟩

/-! ## Lanes that wrap around -/

/-- Four buckets of `2 ^ 30` places with `n` elements of one class are merged and split without a
stop when the lane of the class wraps around to a positive number. -/
theorem mergeSplitKWay_wraps {n : Nat}
    (hn : 0 < (BitVec.ofNat 32 (2 ^ 30) - BitVec.ofNat 32 n).toInt)
    {f : Nat → List (TaggedT α)} (hf : ∀ i < 4, (f i).length = 2 ^ 30)
    (hreal : (gather 4 fun i => reals (f i)).length = n)
    (htag : ∀ x ∈ gather 4 fun i => reals (f i), x.realTag % 4 = 0) :
    ∃ out, mergeSplitKWay 4 (2 ^ 30) ((List.range 4).map f) = some out ∧
      ∀ i < 4, (out.getD i []).length = 2 ^ 30 := by
  have hz : ∀ b ∈ (List.range 4).map f, b.length = 2 ^ 30 := fun b hb => by
    obtain ⟨i, hi, rfl⟩ := List.mem_map.1 hb
    exact hf i (List.mem_range.1 hi)
  have hcount : ∀ j, realMarkCount TaggedT.isDummy (fun x => x.realTag % 4) j
      ((List.range 4).map f).flatten = if j = 0 then n else 0 := fun j => by
    have hreals : realMarkCount TaggedT.isDummy (fun x => x.realTag % 4) j
        ((List.range 4).map f).flatten =
        (gather 4 fun i => reals (f i)).countP fun x => decide (x.realTag % 4 = j) := by
      rw [realMarkCount, ← List.flatMap_def]
      change (gather 4 f).countP _ = (gather 4 fun i => (f i).filter fun x => !x.isDummy).countP _
      rw [← gather_filter, List.countP_filter]
      exact List.countP_congr fun x _ => by rw [Bool.and_comm]
    rw [hreals]
    split
    · subst j
      rw [← hreal]
      exact List.countP_eq_length.2 fun x hx => decide_eq_true (htag x hx)
    · rename_i hj
      exact List.countP_eq_zero.2 fun x hx => by rw [htag x hx]; simpa using Ne.symm hj
  have hlanes : ∀ j : Fin 8, 0 < (BitVec.ofNat 32 (2 ^ 30) - BitVec.ofNat 32 (realMarkCount
      TaggedT.isDummy (fun x => x.realTag % 4) j ((List.range 4).map f).flatten)).toInt :=
    fun j => by
      rw [hcount]
      split
      · exact hn
      · decide
  obtain ⟨out, hout⟩ : ∃ out, mergeSplitMulti TaggedT.isDummy (fun x => (x.realTag % 4, x.divTag 4))
      4 (2 ^ 30) ((List.range 4).map f) = some out :=
    mergeSplitMulti_eq_some (by omega) (by omega) (by simp) hz hlanes
  rw [← TaggedT.getMarkAndUpdate_eq (by omega) (by omega)] at hout
  have hcall : mergeSplitKWay 4 (2 ^ 30) ((List.range 4).map f) = some out := hout
  obtain ⟨hlen, hsized, -⟩ := mergeSplitKWay_perm (by omega) (by omega) (by omega)
    (by simp) hz hcall
  refine ⟨out, hcall, fun i hi => ?_⟩
  rw [List.getD_eq_getElem _ _ (by omega)]
  exact hsized _ (List.getElem_mem _)

/-- A single batch of four buckets of `2 ^ 30` places, for as many elements. -/
def fourBuckets : ButterflySorter :=
  new .kWayButterflyOShuffle true ⟨[[4]], 2 ^ 30, 4⟩ (2 ^ 40) 16 (2 ^ 32)

theorem fourBuckets_alloc : fourBuckets.batchSize * fourBuckets.sizeofWrappedT < 2 ^ 63 := by
  decide +kernel

theorem fourBuckets_inBuffer : fourBuckets.InBuffer 0 0 := by
  decide +kernel

/-- Its elements all being in class 0, the batch is routed without a stop. -/
theorem fourBuckets_ends {input : List (BitVec 64 × α)} (hlen : input.length = 2 ^ 32)
    (htag : ∀ p ∈ input, tagOf p % 4 = 0) {batch : Nat → List (TaggedT α)}
    (hb : ∀ p, (batch p).length = 2 ^ 30) (vec : Nat → List (TaggedT α))
    (stdSort : List (TaggedT α) → List (TaggedT α)) :
    Ends (fun s' : PState α => (s'.lastBuckets 0).length = 2 ^ 30) (fun _ => False)
      (fourBuckets.sort (Vector.plain _) stdSort (.start input batch vec)) := by
  have hreal : fourBuckets.numRealPerBucket = 2 ^ 30 := by decide
  have hZ : fourBuckets.Z = 2 ^ 30 := rfl
  have hs : fourBuckets.Sized (State.start input batch vec) := hb
  have hone : fourBuckets.KWayParams.ways.length = 1 := rfl
  have hcount : divRoundUp fourBuckets.KWayParams.totalBucket
      (getVecProduct (fourBuckets.waysOf 0)) = 0 + 1 := by decide
  rw [sort_eq fourBuckets_alloc, hone, Nat.sub_self, KWayButterflySort, hcount, forRange_succ,
    forRange_zero, ok_bind, sortBatch_last rfl stdSort hone.symm _ _ _ fourBuckets_inBuffer,
    fetchBatch_zero, ok_bind, show (fourBuckets.waysOf 0).length - 1 = 0 from rfl,
    KWayButterflySortBasic, show (fourBuckets.waysOf 0).getD 0 0 = 4 from rfl,
    show getVecProduct (fourBuckets.waysOf 0) / 4 = 1 by decide]
  have hpad : Ends (fourBuckets.Fed 0 0 1 (.start input batch vec) 4) (fun _ => False)
      (fourBuckets.padBuckets 0 0 4 1 (.start input batch vec)) :=
    forRange_ends _ (.start hs) fun i _ s₁ h₁ => padBucket_fed (by rw [hreal, hZ]) h₁
  refine (hpad.bind fun s₁ h₁ => ?_ : Ends (fun s₂ : PState α => (s₂.batch 0).length = 2 ^ 30) _ _
    ).bind fun s₂ h₂ => ?_
  · have hbucket : ∀ i < 4, List.Perm (reals (s₁.batch (0 + i * 1 + 0)))
        (((input.drop (i * 2 ^ 30)).take (2 ^ 30)).map tagged) := fun i hi => by
      have := h₁.batch.routed i hi 0 (by omega)
      rw [gather_one, part_one, Nat.add_zero (i * 1), Nat.mul_one i, source, if_pos rfl,
        hreal] at this
      rw [Nat.mul_one i]
      exact this
    have hall : List.Perm (gather 4 fun i => reals (s₁.batch (0 + i * 1 + 0)))
        (input.map tagged) := by
      refine (gather_perm hbucket).trans (List.Perm.of_eq ?_)
      rw [← gather_map, gather_take_drop, List.take_of_length_le (by omega)]
    obtain ⟨out, hout, hsized⟩ := mergeSplitKWay_wraps (n := 2 ^ 32) (by decide)
      (fun i _ => h₁.sized (0 + i * 1 + 0)) (by rw [hall.length_eq, List.length_map, hlen])
      fun x hx => by
        obtain ⟨p, hp, rfl⟩ := List.mem_map.1 (hall.mem_iff.1 hx)
        rw [realTag_tagged]
        exact htag p hp
    change Ends _ _ (fourBuckets.mergeSplitAt 4 (fun i => 0 + i * 1 + 0) s₁)
    rw [mergeSplitAt, hZ, hout]
    exact hsized 0 (by omega)
  · rw [outputBatch_shuffle rfl]
    exact h₂

theorem sort_shuffle_wraps {input : List (BitVec 64 × α)} (hlen : input.length = 2 ^ 32)
    (htag : ∀ p ∈ input, tagOf p % 4 = 0) {batch : Nat → List (TaggedT α)}
    (hb : ∀ p, (batch p).length = 2 ^ 30) (vec : Nat → List (TaggedT α))
    (stdSort : List (TaggedT α) → List (TaggedT α)) :
    ∃ s' : PState α, (new .kWayButterflyOShuffle true ⟨[[4]], 2 ^ 30, 4⟩ (2 ^ 40) 16
      input.length).sort (Vector.plain _) stdSort (.start input batch vec) = .ok s' ∧
      (s'.lastBuckets 0).length = 2 ^ 30 := by
  rw [hlen]
  exact (fourBuckets_ends hlen htag hb vec stdSort).exists_ok fun _ _ => id

/-- The `2 ^ 32` elements with the tags `4 * i`. -/
def multiplesOfFour : List (BitVec 64 × Unit) :=
  (List.range (2 ^ 32)).map fun i => (BitVec.ofNat 64 (4 * i), ())

theorem length_multiplesOfFour : multiplesOfFour.length = 2 ^ 32 := by
  rw [multiplesOfFour, List.length_map, List.length_range]

theorem map_tagOf_multiplesOfFour :
    multiplesOfFour.map tagOf = (List.range (2 ^ 32)).map fun i => 4 * i := by
  rw [multiplesOfFour, List.map_map]
  refine List.map_congr_left fun i hi => ?_
  have := List.mem_range.1 hi
  rw [Function.comp_apply, tagOf, BitVec.toNat_ofNat]
  omega

theorem tagOf_multiplesOfFour (p : BitVec 64 × Unit) (hp : p ∈ multiplesOfFour) :
    tagOf p % 4 = 0 := by
  have hmem := List.mem_map_of_mem (f := tagOf) hp
  rw [map_tagOf_multiplesOfFour] at hmem
  obtain ⟨i, -, hi⟩ := List.mem_map.1 hmem
  omega

/-- `2 ^ 32` elements of class 0 do not all come to bucket 0, which has `2 ^ 30` places; and a
shuffle with a buffer of one place does not come to its end. -/
theorem sort_shuffle_lane_wraps :
    (KWayButterflyParams.Valid ⟨[[4]], 2 ^ 30, 4⟩ multiplesOfFour.length ∧
    (multiplesOfFour.map tagOf).Nodup ∧
    ∃ s' : PState Unit, (new .kWayButterflyOShuffle true ⟨[[4]], 2 ^ 30, 4⟩ (2 ^ 40) 16
      multiplesOfFour.length).sort (Vector.plain _) id (.start multiplesOfFour
        (fun _ => List.replicate (2 ^ 30) ⟨0, ()⟩) fun _ => List.replicate (2 ^ 30) ⟨0, ()⟩) =
        .ok s' ∧
      ¬ List.Perm ((reals (s'.lastBuckets 0)).map fun x => (x.realTag, x.v))
        ((multiplesOfFour.filter fun p => tagOf p % 4 == 0).map fun p => (tagOf p / 4, p.2))) ∧
    KWayButterflyParams.Valid ⟨[[2, 3], [2]], 4, 12⟩ fourElements.length ∧
    (fourElements.map tagOf).Nodup ∧
    ∃ s : PState Char,
      (new .kWayButterflyOShuffle false ⟨[[2, 3], [2]], 4, 12⟩ 600 16 fourElements.length).sort
        (Vector.plain _) id (.start fourElements (fun _ => List.replicate 4 ⟨0, 'x'⟩)
          fun _ => List.replicate 4 ⟨0, 'x'⟩) = .error (.overrun, s) := by
  refine ⟨⟨⟨by decide, by decide, by decide, by decide, ⟨30, by decide, by decide, rfl⟩, ?_⟩, ?_,
    ?_⟩, ⟨by decide, by decide, by decide, by decide, ⟨2, by decide, by decide, rfl⟩, by decide⟩,
    by decide, _, rfl⟩
  · rw [length_multiplesOfFour]
    decide
  · rw [map_tagOf_multiplesOfFour]
    exact List.nodup_range.map fun i j h => by omega
  · obtain ⟨s', hrun, hlen⟩ := sort_shuffle_wraps length_multiplesOfFour tagOf_multiplesOfFour
      (fun _ => List.length_replicate) (fun _ => List.replicate (2 ^ 30) ⟨0, ()⟩) id
    refine ⟨s', hrun, fun hperm => ?_⟩
    have hall : (multiplesOfFour.filter fun p => tagOf p % 4 == 0) = multiplesOfFour :=
      List.filter_eq_self.2 fun p hp => by rw [tagOf_multiplesOfFour p hp]; rfl
    have hle : (reals (s'.lastBuckets 0)).length ≤ (s'.lastBuckets 0).length :=
      List.length_filter_le _ _
    have hlength := hperm.length_eq
    rw [hall, List.length_map, List.length_map, length_multiplesOfFour] at hlength
    omega

end EM.Algorithm.ButterflySorter
