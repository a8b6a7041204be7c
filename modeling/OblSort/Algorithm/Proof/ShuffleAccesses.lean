import OblSort.Algorithm.Proof.ButterflyGroups
import OblSort.Algorithm.Proof.ButterflyShuffle
import OblSort.Algorithm.Proof.Instrumented
import OblSort.Algorithm.Proof.WaksWalk
import OblSort.Algorithm.ShuffleAccesses
import OblSort.Lib.Follow
import OblSort.Lib.Lockstep

/-!
# A butterfly shuffle is oblivious

Two shuffles with the same random draws look the same from outside, whatever the elements are and
whatever the buffer and the pages held before (`shuffle_oblivious`): they make the same accesses,
page transfers and calls of the reader and of the writer in the same order, and end in the same way.
So what is seen of a shuffle is a function of its parameters, of the number of elements and of the
draws.

The invariant of the two runs is that buckets at one place are `Alike`: their real elements have the
same tags. It holds of the buckets that have been padded or fetched, so it comes with the sets of
the places where it does.
-/

namespace EM.Algorithm

open EM.DynamicPageVector Loop Store Trace Traced

/-! ## Tags -/

section Tags

variable {α : Type}

/-- An element without its value. -/
def TaggedT.bare (x : TaggedT α) : TaggedT Unit := ⟨x.tag, ()⟩

theorem map_bare_part (F q : Nat) (xs : List (TaggedT α)) :
    (part F q xs).map TaggedT.bare = part F q (xs.map TaggedT.bare) := by
  rw [part, part, List.filter_map, List.map_map, List.map_map]
  rfl

/-- The real elements have the same tags. -/
def Alike (xs ys : List (TaggedT α)) : Prop :=
  List.Perm ((reals xs).map TaggedT.bare) ((reals ys).map TaggedT.bare)

theorem Alike.length_eq {xs ys : List (TaggedT α)} (h : Alike xs ys) :
    (reals xs).length = (reals ys).length := by
  simpa only [List.length_map] using List.Perm.length_eq h

/-- The classes of two rows of buckets that are alike. -/
theorem part_gather_alike {k : Nat} {f f' : Nat → List (TaggedT α)}
    (h : ∀ i < k, Alike (f i) (f' i))
    (F q : Nat) : List.Perm ((part F q (gather k fun i => reals (f i))).map TaggedT.bare)
      ((part F q (gather k fun i => reals (f' i))).map TaggedT.bare) := by
  rw [map_bare_part, map_bare_part, gather_map, gather_map]
  exact part_perm (gather_perm h)

variable {k m : Nat}

theorem realMarkCount_eq (f : Nat → List (TaggedT α)) (i : Nat) :
    realMarkCount TaggedT.isDummy (fun x => x.realTag % k) i ((List.range k).map f).flatten =
      (part k i (gather k fun i => reals (f i))).length := by
  rw [realMarkCount, List.countP_eq_length_filter, ← List.flatMap_def, part, List.length_map]
  change ((gather k f).filter _).length = _
  rw [gather_filter, gather_filter]
  congr 1
  refine gather_congr fun j _ => ?_
  rw [reals, List.filter_filter]
  exact List.filter_congr fun x _ => Bool.and_comm _ _

/-- A merge-split stops when a class of tags has too many elements. -/
theorem mergeSplitKWay_eq_none_iff (h2 : 2 ≤ k) (h8 : k ≤ 8) (hm : 1 ≤ m)
    (hlane : k = 2 ∨ (k - 1) * 2 ^ m ≤ 2 ^ 31) {f : Nat → List (TaggedT α)}
    (hf : ∀ i < k, (f i).length = 2 ^ m) :
    mergeSplitKWay k (2 ^ m) ((List.range k).map f) = none ↔ ∃ i < k,
      if k = 2 then 2 ^ m < (part k i (gather k fun i => reals (f i))).length
      else 2 ^ m ≤ (part k i (gather k fun i => reals (f i))).length := by
  have hz : ∀ b ∈ (List.range k).map f, b.length = 2 ^ m := fun b hb => by
    obtain ⟨i, hi, rfl⟩ := List.mem_map.1 hb
    exact hf i (List.mem_range.1 hi)
  rw [(mergeSplitKWay_routed h2 h8 hm hlane (by simp) hz).abort]
  simp only [realMarkCount_eq]

/-! ## Stores of buckets -/

/-- Two stores of buckets of `Z` elements that are alike at the places in `A`. -/
structure AlikeOn (Z : Nat) (A : Set Nat) (m m' : Nat → List (TaggedT α)) : Prop where
  length : ∀ p, (m p).length = Z
  length' : ∀ p, (m' p).length = Z
  alike : ∀ p ∈ A, Alike (m p) (m' p)

namespace AlikeOn

variable {Z : Nat} {A : Set Nat} {m m' : Nat → List (TaggedT α)}

theorem mono (h : AlikeOn Z A m m') {A' : Set Nat} (hA : A' ⊆ A) : AlikeOn Z A' m m' :=
  ⟨h.length, h.length', fun p hp => h.alike p (hA hp)⟩

/-- A bucket that is alike is put in a place. -/
theorem update (h : AlikeOn Z A m m') {p : Nat} {b b' : List (TaggedT α)} (hb : b.length = Z)
    (hb' : b'.length = Z) (hbb : Alike b b') :
    AlikeOn Z (insert p A) (Function.update m p b) (Function.update m' p b') := by
  constructor
  · intro q
    by_cases hq : q = p
    · rw [hq, Function.update_self, hb]
    · rw [Function.update_of_ne hq, h.length]
  · intro q
    by_cases hq : q = p
    · rw [hq, Function.update_self, hb']
    · rw [Function.update_of_ne hq, h.length']
  · intro q hq
    by_cases hqp : q = p
    · rw [hqp, Function.update_self, Function.update_self]
      exact hbb
    · rw [Function.update_of_ne hqp, Function.update_of_ne hqp]
      exact h.alike q (hq.resolve_left hqp)

/-- Buckets that are alike are put in places of `A`. -/
theorem putAll (h : AlikeOn Z A m m') {idx : Nat → Nat} {vals vals' : Nat → List (TaggedT α)}
    {n : Nat}
    (hidx : ∀ i < n, idx i ∈ A) (hv : ∀ i < n, (vals i).length = Z)
    (hv' : ∀ i < n, (vals' i).length = Z) (hvv : ∀ i < n, Alike (vals i) (vals' i)) :
    AlikeOn Z A (putAll idx vals n m) (putAll idx vals' n m') := by
  induction n with
  | zero => exact h
  | succ n ih =>
    refine ((ih (fun i hi => hidx i (by omega)) (fun i hi => hv i (by omega))
      (fun i hi => hv' i (by omega)) fun i hi => hvv i (by omega)).update (hv n (by omega))
      (hv' n (by omega)) (hvv n (by omega))).mono (Set.subset_insert _ _)

end AlikeOn

end Tags

namespace ButterflySorter

variable {α σ : Type} {S : ButterflySorter}

/-! ## The results -/

/-- The instrumented function does what the function does. -/
abbrev Erases (f : Logged α σ → Except (Abort × Logged α σ) (Logged α σ))
    (f' : State α σ → Except (Stop α σ) (State α σ)) : Prop :=
  Follows Prod.fst (fun _ => True) (fun _ _ => True) f f'

theorem perform_erases {β : Type} {c : Logged α σ → Traced Event β} {g : β → State α σ → State α σ}
    {f' : State α σ → Except (Stop α σ) (State α σ)}
    (h : ∀ s : Logged α σ, f' s.1 = match (c s).value with
      | none => .error (.mergeSplit, s.1)
      | some b => .ok (g b s.1)) :
    Erases (fun s => perform (c s) g s) f' := by
  refine ⟨fun s => ?_⟩
  have hs := h s
  cases hc : c s with
  | none =>
    rw [hc] at hs
    exact fun _ => ⟨trivial, hs⟩
  | some r =>
    rw [hc] at hs
    exact fun _ => ⟨trivial, hs⟩

theorem value_tagAndPadT (n p offset : Nat) (bucket : List (TaggedT α))
    (reader : List (BitVec 64 × α)) :
    (tagAndPadT n p offset bucket reader).value = some (tagAndPad n offset bucket reader) := by
  induction bucket generalizing offset reader with
  | nil => rfl
  | cons it its ih =>
    cases reader with
    | nil => simp [tagAndPadT, tagAndPad, ih]
    | cons r reader =>
      by_cases h : offset < n
      · simp [tagAndPadT, tagAndPad, h, ih]
      · simp [tagAndPadT, tagAndPad, h, ih]

theorem value_writeOutT (p i : Nat) (bucket : List (TaggedT α)) :
    (writeOutT p i bucket).value = some () := by
  induction bucket generalizing i with
  | nil => rfl
  | cons x xs ih => cases h : x.isDummy <;> simp [writeOutT, h, ih]

theorem value_tagSortT (p : Nat) (bucket : List (TaggedT α)) :
    (tagSortT p bucket).value = some (tagSort bucket) := by
  simp [tagSortT, value_bitonicSortT, value_writeOutT, tagSort, bitonicSortList]

theorem padBucketT_erases (p : Nat) :
    Erases (α := α) (σ := σ) (S.padBucketT p) (fun s => .ok (S.padBucket p s)) :=
  perform_erases fun s => by simp only [value_tagAndPadT, padBucket]

theorem mergeSplitAtT_erases (way : Nat) (idx : Nat → Nat) :
    Erases (α := α) (σ := σ) (S.mergeSplitAtT way idx) (S.mergeSplitAt way idx) :=
  perform_erases fun s => by
    rw [value_relabel, value_mergeSplitKWayT, mergeSplitAt]
    cases mergeSplitKWay way S.Z ((List.range way).map fun i => s.1.batch (idx i)) <;> rfl

theorem mergeSplitLayerT_erases (begin way wayBucket : Nat) :
    Erases (α := α) (σ := σ) (S.mergeSplitLayerT begin way wayBucket)
      (S.mergeSplitLayer begin way wayBucket) :=
  forRange_follows fun _ => mergeSplitAtT_erases way _

theorem padBucketsT_erases (ioLayer begin way wayBucket : Nat) :
    Erases (α := α) (σ := σ) (S.padBucketsT ioLayer begin way wayBucket)
      (S.padBuckets ioLayer begin way wayBucket) :=
  (forRange_follows fun _ => padBucketT_erases _).ite .skip

theorem basicT_erases (ioLayer innerLayer begin numBucket : Nat) :
    Erases (α := α) (σ := σ) (S.KWayButterflySortBasicT ioLayer innerLayer begin numBucket)
      (S.KWayButterflySortBasic ioLayer innerLayer begin numBucket) := by
  induction innerLayer generalizing begin numBucket with
  | zero => exact (padBucketsT_erases ..).comp (mergeSplitLayerT_erases ..)
  | succ innerLayer ih => exact (forRange_follows fun _ => ih ..).comp (mergeSplitLayerT_erases ..)

theorem outputBucketT_erases (p : Nat) :
    Erases (α := α) (σ := σ) (S.outputBucketT p) (fun s => .ok (S.outputBucket p s)) :=
  perform_erases fun s => by simp only [value_tagSortT, outputBucket]

section Layers

variable (V : Vector σ (List (TaggedT α))) (stdSort : List (TaggedT α) → List (TaggedT α))

theorem copyInT_erases (pageIdx p counter : Nat) :
    Erases (copyInT V pageIdx p counter) (copyIn V pageIdx p counter) := by
  refine ⟨fun s => ?_⟩
  simp only [copyInT, copyIn]
  cases V.read pageIdx counter s.1.vec with
  | mk result vec =>
    cases result with
    | none => exact fun _ => ⟨trivial, rfl⟩
    | some bucket => exact fun _ => ⟨trivial, rfl⟩

theorem copyOutT_erases (pageIdx p counter : Nat) :
    Erases (copyOutT V pageIdx p counter) (copyOut V pageIdx p counter) :=
  ⟨fun _ _ => ⟨trivial, rfl⟩⟩

theorem outputBatchT_erases (ht : S.task = .kWayButterflyOShuffle)
    (ioLayer batchCount batchIdx batchBegin : Nat) :
    Erases (σ := σ) (S.outputBatchT ioLayer batchIdx batchBegin)
      (S.outputBatch stdSort ioLayer batchCount batchIdx batchBegin) := by
  let keep (s : State α σ) : State α σ := { s with
    lastBuckets := putAll (fun i => batchIdx + S.fetchInterval ioLayer * i)
      (fun i => s.batch (batchBegin + i)) (getVecProduct (S.waysOf ioLayer)) s.lastBuckets }
  have hkeep : Erases (fun s => .ok (keep s.1, s.2)) (fun s => .ok (keep s)) :=
    .step (fun _ _ => trivial) fun _ => rfl
  have hloop := hkeep.comp (forRange_follows (n := getVecProduct (S.waysOf ioLayer)) fun i =>
    outputBucketT_erases (S := S) (batchBegin + i))
  have hplain : S.outputBatch stdSort ioLayer batchCount batchIdx batchBegin = fun s =>
      forRange (getVecProduct (S.waysOf ioLayer)) (fun i s =>
        .ok (S.outputBucket (batchBegin + i) s)) (keep s) := by
    funext s
    rw [outputBatch]
    simp only [ht]
    exact bind_pure _
  rw [hplain]
  exact hloop

theorem sortBatchT_erases (ht : S.task = .kWayButterflyOShuffle)
    (ioLayer begin batchCount batchIdx : Nat) :
    Erases (S.sortBatchT V ioLayer begin batchIdx)
      (S.sortBatch V stdSort ioLayer begin batchCount batchIdx) := by
  have hfetch : Erases (S.fetchBatchT V ioLayer begin batchIdx
      (batchIdx % S.batchPerEnclave ioLayer * getVecProduct (S.waysOf ioLayer))) _ :=
    Follows.skip.ite (forRange_follows fun _ => copyInT_erases V ..)
  have hwrite : Erases (S.writeBatchT V ioLayer begin batchIdx) _ :=
    forRange_follows fun _ => copyOutT_erases V ..
  exact (require_follows fun _ _ => trivial).comp
    (hfetch.comp ((basicT_erases ..).comp ((outputBatchT_erases stdSort ht ..).ite hwrite)))

theorem layerT_erases (ht : S.task = .kWayButterflyOShuffle) (ioLayer begin size : Nat) :
    Erases (S.KWayButterflySortT V ioLayer begin size)
      (S.KWayButterflySort V stdSort ioLayer begin size) := by
  induction ioLayer generalizing begin size with
  | zero => exact forRange_follows fun _ => sortBatchT_erases V stdSort ht ..
  | succ ioLayer ih =>
    exact (forRange_follows fun _ => ih ..).comp
      (forRange_follows fun _ => sortBatchT_erases V stdSort ht ..)

/-- **The instrumented shuffle** does what the shuffle does. -/
theorem sortT_erases (ht : S.task = .kWayButterflyOShuffle) :
    Erases (S.sortT V) (S.sort V stdSort) :=
  (require_follows fun _ _ => trivial).comp (layerT_erases V stdSort ht ..)

end Layers

/-! ## Two runs -/

section Oblivious

/-- A logged state over plain pages. -/
abbrev PLogged (α : Type) := Logged α (Nat → List (TaggedT α))

/-- Two runs that look the same so far: the buckets at the places in `B` and the pages in `P` are
alike. -/
structure Related (S : ButterflySorter) (B P : Set Nat) (s s' : PLogged α) : Prop where
  batch : AlikeOn S.Z B s.1.batch s'.1.batch
  vec : AlikeOn S.Z P s.1.vec s'.1.vec
  draws : s.1.reader.map Prod.fst = s'.1.reader.map Prod.fst
  log : s.2 = s'.2

/-- Two runs that stop for the same reason, and look the same. -/
def SameStop (e e' : Abort × Logged α σ) : Prop := e.1 = e'.1 ∧ e.2.2 = e'.2.2

theorem perform_lockstep {β : Type} {c c' : Traced Event β} {R : β → β → Prop}
    {f : β → State α σ → State α σ} {s s' : Logged α σ} {Q : Logged α σ → Logged α σ → Prop}
    (h : Agree R c c') (hnone : c.value = none ↔ c'.value = none) (hlog : s.2 = s'.2)
    (hQ : ∀ b b' es, c.value = some b → c'.value = some b' →
      Q (f b s.1, s.2 ++ es) (f b' s'.1, s'.2 ++ es)) :
    Lockstep Q SameStop (perform c f s) (perform c' f s') := by
  cases c with
  | none =>
    cases c' with
    | none => exact ⟨rfl, hlog⟩
    | some r' => exact absurd (hnone.1 rfl) (Option.some_ne_none _)
  | some r =>
    cases c' with
    | none => exact absurd (hnone.2 rfl) (Option.some_ne_none _)
    | some r' =>
      have hes := (h r.1 r.2 r'.1 r'.2 rfl rfl).1
      rw [perform, perform, ← hes]
      exact hQ r.1 r'.1 r.2 rfl rfl

variable {B P : Set Nat} {s s' : PLogged α}

theorem Related.mono (h : S.Related B P s s') {B' P' : Set Nat} (hB : B' ⊆ B) (hP : P' ⊆ P) :
    S.Related B' P' s s' :=
  ⟨h.batch.mono hB, h.vec.mono hP, h.draws, h.log⟩

theorem agree_tagAndPadT (n p offset : Nat) {bucket bucket' : List (TaggedT α)}
    (hb : SameLength bucket bucket') {reader reader' : List (BitVec 64 × α)}
    (hr : SameLength reader reader') :
    Agree (fun _ _ => True) (tagAndPadT n p offset bucket reader)
      (tagAndPadT n p offset bucket' reader') := by
  have hall := hb.all
  clear hb
  induction hall generalizing offset reader reader' with
  | nil => exact .pure trivial
  | @cons it it' its its' _ _ ih =>
    cases reader with
    | nil =>
      cases reader' with
      | nil => exact .step _ (.step _ ((ih (offset + 1) hr).bind fun _ _ _ => .pure trivial))
      | cons r' reader' => cases hr
    | cons r reader =>
      cases reader' with
      | nil => cases hr
      | cons r' reader' =>
        by_cases h : offset < n
        · simp only [tagAndPadT, if_pos h]
          exact .step _ (.step _ ((ih (offset + 1) hr.tail).bind fun _ _ _ => .pure trivial))
        · simp only [tagAndPadT, if_neg h]
          exact .step _ (.step _ ((ih (offset + 1) hr).bind fun _ _ _ => .pure trivial))

/-- A bucket that has been padded is alike. -/
theorem padBucketT_lockstep (h : S.Related B P s s') (p : Nat) :
    Lockstep (S.Related (insert p B) P) SameStop (S.padBucketT p s) (S.padBucketT p s') := by
  have hlen : SameLength s.1.reader s'.1.reader := by
    simpa [SameLength] using congrArg List.length h.draws
  obtain ⟨h1, h2, h3⟩ := tagAndPad_spec S.numRealPerBucket 0 (s.1.batch p) s.1.reader
  obtain ⟨h1', h2', h3'⟩ := tagAndPad_spec S.numRealPerBucket 0 (s'.1.batch p) s'.1.reader
  rw [h.batch.length] at h1 h2 h3
  rw [h.batch.length'] at h1' h2' h3'
  have htags : ∀ ys : List (BitVec 64 × α), (ys.map tagged).map TaggedT.bare =
      (ys.map Prod.fst).map fun r => TaggedT.setData r () := fun ys => by
    rw [List.map_map, List.map_map]
    rfl
  refine perform_lockstep
    (agree_tagAndPadT _ _ _ ((h.batch.length p).trans (h.batch.length' p).symm) hlen)
    (by simp only [value_tagAndPadT]; simp) h.log fun b b' es hb hb' => ?_
  rw [value_tagAndPadT, Option.some_inj] at hb hb'
  subst hb hb'
  refine ⟨h.batch.update h3 h3' ?_, h.vec, ?_, congrArg (· ++ es) h.log⟩
  · have hdraws : ∀ n, (s.1.reader.take n).map Prod.fst = (s'.1.reader.take n).map Prod.fst :=
      fun n => by
      rw [List.map_take, List.map_take, h.draws]
    rw [Alike, h1, h1', htags, htags, hdraws]
  · dsimp only
    rw [h2, h2', List.map_drop, List.map_drop, h.draws]

/-- A merge-split of buckets that are alike. -/
theorem mergeSplitAtT_lockstep (hZ : ∃ m, 1 ≤ m ∧ S.Z = 2 ^ m) {way : Nat} (h2 : 2 ≤ way)
    (h8 : way ≤ 8)
    (hlane : way = 2 ∨ (way - 1) * S.Z ≤ 2 ^ 31) {idx : Nat → Nat} (hidx : ∀ i < way, idx i ∈ B)
    (h : S.Related B P s s') :
    Lockstep (S.Related B P) SameStop (S.mergeSplitAtT way idx s) (S.mergeSplitAtT way idx s') := by
  obtain ⟨m, hm, hZm⟩ := hZ
  rw [hZm] at hlane
  have hlen : ∀ i < way, (s.1.batch (idx i)).length = 2 ^ m :=
    fun i _ => (h.batch.length _).trans hZm
  have hlen' : ∀ i < way, (s'.1.batch (idx i)).length = 2 ^ m :=
    fun i _ => (h.batch.length' _).trans hZm
  have hparts := part_gather_alike (fun i hi => h.batch.alike _ (hidx i hi)) way
  have hbuckets : ∀ m : Nat → List (TaggedT α), (∀ i < way, (m (idx i)).length = S.Z) →
      Buckets way S.Z ((List.range way).map fun i => m (idx i)) := fun m hm =>
    ⟨by simp, fun b hb => by
      obtain ⟨i, hi, rfl⟩ := List.mem_map.1 hb
      exact hm i (List.mem_range.1 hi)⟩
  refine perform_lockstep ((agree_mergeSplitKWayT (hbuckets s.1.batch fun _ _ => h.batch.length _)
    (hbuckets s'.1.batch fun _ _ => h.batch.length' _)).relabel _) ?_ h.log
      fun out out' es hout hout' => ?_
  · rw [value_relabel, value_relabel, value_mergeSplitKWayT, value_mergeSplitKWayT, hZm,
      mergeSplitKWay_eq_none_iff h2 h8 hm hlane hlen, mergeSplitKWay_eq_none_iff h2 h8
        hm hlane hlen']
    have hcount : ∀ i, (part way i (gather way fun i => reals (s.1.batch (idx i)))).length =
        (part way i (gather way fun i => reals (s'.1.batch (idx i)))).length := fun i => by
      simpa only [List.length_map] using (hparts i).length_eq
    simp only [hcount]
  · rw [value_relabel, value_mergeSplitKWayT, hZm] at hout hout'
    have hr := (mergeSplitKWay_part h2 h8 hm hlane hlen).2 out hout
    have hr' := (mergeSplitKWay_part h2 h8 hm hlane hlen').2 out' hout'
    refine ⟨h.batch.putAll hidx (fun i hi => (hr i hi).1.trans hZm.symm)
      (fun i hi => (hr' i hi).1.trans hZm.symm) fun i hi => ?_, h.vec, h.draws,
      congrArg (· ++ es) h.log⟩
    exact (((hr i hi).2.map _).trans (hparts i)).trans ((hr' i hi).2.map _).symm

/-- The merge-splits of a layer. -/
theorem mergeSplitLayerT_lockstep (hZ : ∃ m, 1 ≤ m ∧ S.Z = 2 ^ m) {begin way wb : Nat}
    (h2 : 2 ≤ way) (h8 : way ≤ 8) (hlane : way = 2 ∨ (way - 1) * S.Z ≤ 2 ^ 31)
    (hB : Set.Ico begin (begin + wb * way) ⊆ B) (h : S.Related B P s s') :
    Lockstep (S.Related B P) SameStop (S.mergeSplitLayerT begin way wb s)
      (S.mergeSplitLayerT begin way wb s') := by
  refine forRange_lockstep (fun _ => S.Related B P) h fun j hj s₁ s₁' h₁ => ?_
  refine mergeSplitAtT_lockstep hZ h2 h8 hlane (fun i hi => hB ?_) h₁
  have hlt := grid_lt hi hj
  rw [Set.mem_Ico, Nat.mul_comm wb]
  constructor <;> omega

/-- The places of `n` buckets more. -/
theorem insert_Ico_subset (B : Set Nat) (begin n : Nat) :
    B ∪ Set.Ico begin (begin + (n + 1)) ⊆ insert (begin + n) (B ∪ Set.Ico begin (begin + n)) := by
  rintro p (hp | hp)
  · exact .inr (.inl hp)
  · rw [Set.mem_Ico] at hp
    by_cases hpn : p = begin + n
    · exact .inl hpn
    · exact .inr (.inr (Set.mem_Ico.2 ⟨hp.1, by omega⟩))

theorem union_Ico_subset (B : Set Nat) (begin n k : Nat) :
    B ∪ Set.Ico begin (begin + (n + k)) ⊆ B ∪ Set.Ico begin (begin + n) ∪
      Set.Ico (begin + n) (begin + n + k) := by
  rintro p (hp | hp)
  · exact .inl (.inl hp)
  · rw [Set.mem_Ico] at hp
    by_cases hpn : p < begin + n
    · exact .inl (.inr (Set.mem_Ico.2 ⟨hp.1, hpn⟩))
    · exact .inr (Set.mem_Ico.2 ⟨by omega, by omega⟩)

section Basic

variable (hv : S.Valid) (hl : S.KWayParams.LanesFit) {ioLayer : Nat}

include hv hl in
/-- **The layers in memory**, on buckets that are alike; those of the first layer of pages are
padded. -/
theorem basicT_lockstep (hio : ioLayer < S.KWayParams.ways.length) {innerLayer : Nat}
    (hin : innerLayer < (S.waysOf ioLayer).length) (begin : Nat) {B : Set Nat}
    (h : S.Related B P s s') (hB : ioLayer ≠ 0 →
      Set.Ico begin (begin + ((S.waysOf ioLayer).take (innerLayer + 1)).prod) ⊆ B) :
    Lockstep
      (S.Related (B ∪ Set.Ico begin (begin + ((S.waysOf ioLayer).take (innerLayer + 1)).prod)) P)
      SameStop
      (S.KWayButterflySortBasicT ioLayer innerLayer begin
        ((S.waysOf ioLayer).take (innerLayer + 1)).prod s)
      (S.KWayButterflySortBasicT ioLayer innerLayer begin
        ((S.waysOf ioLayer).take (innerLayer + 1)).prod s') := by
  have hmem := waysOf_mem hio
  induction innerLayer generalizing begin B s s' with
  | zero =>
    obtain ⟨h2, h8⟩ := hv.way_range _ hmem _ (List.getElem_mem hin)
    have hlane := hl _ hmem _ (List.getElem_mem hin)
    have hprod : ((S.waysOf ioLayer).take (0 + 1)).prod = 1 * (S.waysOf ioLayer)[0] := by
      rw [List.prod_take_succ _ _ hin]
      rfl
    rw [hprod] at hB ⊢
    rw [KWayButterflySortBasicT, KWayButterflySortBasicT, List.getD_eq_getElem _ _ hin]
    generalize (S.waysOf ioLayer)[0] = way at h2 h8 hlane hB
    rw [Nat.mul_div_cancel _ (by omega)]
    refine Lockstep.bind (R := S.Related (B ∪ Set.Ico begin (begin + 1 * way)) P) ?_
      fun s₁ s₁' h₁ =>
      mergeSplitLayerT_lockstep hv.Z h2 h8 hlane (Set.subset_union_right) h₁
    rw [padBucketsT, padBucketsT, Nat.one_mul]
    by_cases h0 : ioLayer = 0
    · rw [if_pos h0, if_pos h0]
      refine forRange_lockstep (fun i => S.Related (B ∪ Set.Ico begin (begin + i)) P) ?_
        fun i _ s₁ s₁' h₁ => ?_
      · exact h.mono (by simp) (fun _ hp => hp)
      · rw [Nat.mul_one]
        exact (padBucketT_lockstep h₁ _).mono fun _ _ h₂ =>
          h₂.mono (insert_Ico_subset B begin i) fun _ hp => hp
    · rw [if_neg h0, if_neg h0]
      rw [Nat.one_mul] at hB
      exact h.mono (Set.union_subset (fun _ hp => hp) (hB h0)) fun _ hp => hp
  | succ innerLayer ih =>
    obtain ⟨h2, h8⟩ := hv.way_range _ hmem _ (List.getElem_mem hin)
    have hlane := hl _ hmem _ (List.getElem_mem hin)
    have ih := fun s s' => @ih s s' (by omega)
    rw [List.prod_take_succ _ _ hin] at hB ⊢
    rw [KWayButterflySortBasicT, KWayButterflySortBasicT, List.getD_eq_getElem _ _ hin]
    generalize ((S.waysOf ioLayer).take (innerLayer + 1)).prod = F at ih hB
    generalize (S.waysOf ioLayer)[innerLayer + 1] = way at h2 h8 hlane hB
    rw [Nat.mul_div_cancel _ (by omega)]
    refine Lockstep.bind (R := S.Related (B ∪ Set.Ico begin (begin + F * way)) P) ?_
      fun s₁ s₁' h₁ =>
      mergeSplitLayerT_lockstep hv.Z h2 h8 hlane (Set.subset_union_right) h₁
    rw [Nat.mul_comm F way] at hB ⊢
    refine forRange_lockstep (fun i => S.Related (B ∪ Set.Ico begin (begin + i * F)) P) ?_
      fun i hi s₁ s₁' h₁ => ?_
    · exact h.mono (by simp) (fun _ hp => hp)
    · refine (ih s₁ s₁' (begin + i * F) h₁ fun h0 p hp => .inl (hB h0 ?_)).mono fun _ _ h₂ =>
        h₂.mono ?_ fun _ hp => hp
      · have := Nat.mul_le_mul_right F (Nat.succ_le_of_lt hi)
        rw [Set.mem_Ico] at hp ⊢
        rw [Nat.succ_mul] at this
        constructor <;> omega
      · rw [Nat.succ_mul]
        exact union_Ico_subset B begin (i * F) F

include hv hl in
theorem routeBatchT_lockstep (hio : ioLayer < S.KWayParams.ways.length) (batchBegin : Nat)
    {B : Set Nat} (h : S.Related B P s s')
    (hB : ioLayer ≠ 0 → Set.Ico batchBegin (batchBegin + (S.waysOf ioLayer).prod) ⊆ B) :
    Lockstep (S.Related (B ∪ Set.Ico batchBegin (batchBegin + (S.waysOf ioLayer).prod)) P) SameStop
      (S.KWayButterflySortBasicT ioLayer ((S.waysOf ioLayer).length - 1) batchBegin
        (S.waysOf ioLayer).prod s)
      (S.KWayButterflySortBasicT ioLayer ((S.waysOf ioLayer).length - 1) batchBegin
        (S.waysOf ioLayer).prod s') := by
  have hlen : 0 < (S.waysOf ioLayer).length :=
    List.length_pos_iff.2 (hv.inner_ne_nil _ (waysOf_mem hio))
  have htake : (S.waysOf ioLayer).take ((S.waysOf ioLayer).length - 1 + 1) = S.waysOf ioLayer := by
    rw [Nat.sub_add_cancel hlen, List.take_length]
  have hroute := basicT_lockstep hv hl hio
    (show (S.waysOf ioLayer).length - 1 < (S.waysOf ioLayer).length by omega) batchBegin h
  rw [htake] at hroute
  exact hroute hB

end Basic

/-! ## Batches -/

/-- The first `n` pages of batch `batchIdx` of a layer. -/
def batchPages (S : ButterflySorter) (ioLayer begin batchIdx n : Nat) : Set Nat :=
  {q | ∃ u < n, q = begin + (batchIdx + S.fetchInterval ioLayer * u)}

theorem fetchBatchT_lockstep {ioLayer : Nat} (h0 : ioLayer ≠ 0) (begin batchIdx batchBegin : Nat)
    (hP : S.batchPages ioLayer begin batchIdx (S.waysOf ioLayer).prod ⊆ P)
    (h : S.Related B P s s') :
    Lockstep (S.Related (B ∪ Set.Ico batchBegin (batchBegin + (S.waysOf ioLayer).prod)) P) SameStop
      (S.fetchBatchT (.plain _) ioLayer begin batchIdx batchBegin s)
      (S.fetchBatchT (.plain _) ioLayer begin batchIdx batchBegin s') := by
  rw [fetchBatchT, fetchBatchT, if_neg h0, if_neg h0, getVecProduct_eq]
  refine forRange_lockstep (fun u => S.Related (B ∪ Set.Ico batchBegin (batchBegin + u)) P)
    (h.mono (by simp) fun _ hp => hp) fun u hu s₁ s₁' h₁ => ?_
  refine Related.mono (B := insert (batchBegin + u) (B ∪ Set.Ico batchBegin (batchBegin + u))) ?_
    (insert_Ico_subset B batchBegin u) fun _ hp => hp
  exact ⟨h₁.batch.update (h₁.vec.length _) (h₁.vec.length' _)
    (h₁.vec.alike _ (hP ⟨u, hu, rfl⟩)), h₁.vec, h₁.draws, congrArg (· ++ _) h₁.log⟩

theorem writeBatchT_lockstep (ioLayer begin batchIdx : Nat)
    (hB : Set.Ico 0 (S.waysOf ioLayer).prod ⊆ B) (h : S.Related B P s s') :
    Lockstep (S.Related B (P ∪ S.batchPages ioLayer begin batchIdx (S.waysOf ioLayer).prod))
    SameStop
      (S.writeBatchT (.plain _) ioLayer begin batchIdx s)
      (S.writeBatchT (.plain _) ioLayer begin batchIdx s') := by
  rw [writeBatchT, getVecProduct_eq]
  refine forRange_lockstep (fun u => S.Related B (P ∪ S.batchPages ioLayer begin batchIdx u))
    (h.mono (fun _ hp => hp) ?_) fun u hu s₁ s₁' h₁ => ?_
  · rintro q (hq | ⟨v, hv, -⟩)
    · exact hq
    · omega
  · refine Related.mono (P := insert (begin + (batchIdx + S.fetchInterval ioLayer * u))
      (P ∪ S.batchPages ioLayer begin batchIdx u)) ?_ (fun _ hp => hp) ?_
    · exact ⟨h₁.batch, h₁.vec.update (h₁.batch.length _) (h₁.batch.length' _)
        (h₁.batch.alike _ (hB (Set.mem_Ico.2 ⟨Nat.zero_le u, hu⟩))), h₁.draws,
        congrArg (· ++ _) h₁.log⟩
    · rintro q (hq | ⟨v, hv, rfl⟩)
      · exact .inr (.inl hq)
      · by_cases huv : v = u
        · exact .inl (by rw [huv])
        · exact .inr (.inr ⟨v, by omega, rfl⟩)

/-- A bucket sorted by tags: its real elements come first. -/
theorem map_isDummy_tagSort {b : List (TaggedT α)} (hb : b.length ≤ 2 ^ 63) :
    (tagSort b).map TaggedT.isDummy =
      List.replicate (reals b).length false ++ List.replicate
        (b.length - (reals b).length) true := by
  have hsorted : (tagSort b).Pairwise fun x y => x.tag.toNat ≤ y.tag.toNat :=
    bitonicSortList_sorted WaksOnOff.decides_tag hb
  have hsplit := pairwise_eq_append (p := fun x : TaggedT α => !x.isDummy) hsorted
    fun x _ y _ hx hy hle => by
      rw [TaggedT.isDummy_eq, Bool.not_eq_true', decide_eq_false_iff_not] at hx
      rw [TaggedT.isDummy_eq, Bool.not_eq_false', decide_eq_true_iff] at hy
      omega
  have hreals := (perm_reals (tagSort_perm b)).length_eq
  have hlen := (tagSort_perm b).length_eq
  have hfront : ((tagSort b).filter fun x => !x.isDummy).length = (reals b).length := hreals
  have hall := congrArg List.length hsplit
  rw [List.length_append, hfront] at hall
  rw [hsplit, List.map_append]
  congr 1
  · refine List.eq_replicate_iff.2 ⟨by rw [List.length_map, hfront], fun d hd => ?_⟩
    obtain ⟨x, hx, rfl⟩ := List.mem_map.1 hd
    simpa using (List.mem_filter.1 hx).2
  · refine List.eq_replicate_iff.2 ⟨by rw [List.length_map]; omega, fun d hd => ?_⟩
    obtain ⟨x, hx, rfl⟩ := List.mem_map.1 hd
    simpa using (List.mem_filter.1 hx).2

theorem agree_writeOutT (p i : Nat) {bucket bucket' : List (TaggedT α)}
    (h : bucket.map TaggedT.isDummy = bucket'.map TaggedT.isDummy) :
    Agree (fun _ _ => True) (writeOutT p i bucket) (writeOutT p i bucket') := by
  induction bucket generalizing i bucket' with
  | nil =>
    rw [List.map_eq_nil_iff.1 h.symm]
    exact .pure trivial
  | cons x xs ih =>
    cases bucket' with
    | nil => cases h
    | cons x' xs' =>
      obtain ⟨hx, hxs⟩ := List.cons.inj h
      rw [writeOutT, writeOutT, hx]
      refine .step _ ?_
      dsimp only
      split
      · exact ih (i + 1) hxs
      · exact .step _ (.step _ (ih (i + 1) hxs))

/-- A bucket is sorted and written out. -/
theorem outputBucketT_lockstep (hZ : S.Z ≤ 2 ^ 63) {p : Nat} (hp : p ∈ B) (h : S.Related B P s s') :
    Lockstep (S.Related B P) SameStop (S.outputBucketT p s) (S.outputBucketT p s') := by
  have hlen := h.batch.length p
  have hlen' := h.batch.length' p
  have halike := h.batch.alike p hp
  have hdummies : (tagSort (s.1.batch p)).map TaggedT.isDummy =
      (tagSort (s'.1.batch p)).map TaggedT.isDummy := by
    rw [map_isDummy_tagSort (hlen ▸ hZ), map_isDummy_tagSort (hlen' ▸ hZ), hlen, hlen',
      halike.length_eq]
  have hnetwork : Agree SameLength (bitonicSortT (fun a b => a.tag.ult b.tag) true (s.1.batch p))
      (bitonicSortT (fun a b => a.tag.ult b.tag) true (s'.1.batch p)) :=
    agree_bitonicSortT true (hlen.trans hlen'.symm)
  have hsort := (hnetwork.relabel fun a => Event.access (a.at p id)).values
    ((value_relabel ..).trans (value_bitonicSortT ..))
    ((value_relabel ..).trans (value_bitonicSortT ..))
  have hagree : Agree (fun _ _ => True) (tagSortT p (s.1.batch p)) (tagSortT p (s'.1.batch p)) := by
    refine hsort.bind fun b b' hb => ?_
    rw [hb.1, hb.2]
    exact (agree_writeOutT p 0 hdummies).bind fun _ _ _ => .pure trivial
  refine perform_lockstep hagree (by simp only [value_tagSortT]; simp) h.log
    fun b b' es hb hb' => ?_
  rw [value_tagSortT, Option.some_inj] at hb hb'
  subst hb hb'
  refine ⟨(h.batch.update ((length_tagSort _).trans hlen) ((length_tagSort _).trans hlen') ?_).mono
    (Set.subset_insert _ _), h.vec, h.draws, congrArg (· ++ es) h.log⟩
  exact ((perm_reals (tagSort_perm _)).map _).trans
    (halike.trans ((perm_reals (tagSort_perm _)).map _).symm)

theorem outputBatchT_lockstep (hZ : S.Z ≤ 2 ^ 63) (ioLayer batchIdx : Nat)
    (hB : Set.Ico 0 (S.waysOf ioLayer).prod ⊆ B) (h : S.Related B P s s') :
    Lockstep (S.Related B P) SameStop (S.outputBatchT ioLayer batchIdx 0 s)
      (S.outputBatchT ioLayer batchIdx 0 s') := by
  rw [outputBatchT, outputBatchT, getVecProduct_eq]
  refine forRange_lockstep (fun _ => S.Related B P) ⟨h.batch, h.vec, h.draws, h.log⟩
    fun i hi s₁ s₁' h₁ => ?_
  rw [Nat.zero_add]
  exact outputBucketT_lockstep hZ (hB (Set.mem_Ico.2 ⟨Nat.zero_le i, hi⟩)) h₁

/-! ## Layers -/

section Layers

variable (hv : S.Valid) (hl : S.KWayParams.LanesFit) (ht : S.task = .kWayButterflyOShuffle)

include hv hl in
/-- A batch is fetched and routed. -/
theorem fetchRouteT_lockstep {ioLayer : Nat} (hio : ioLayer < S.KWayParams.ways.length)
    (begin batchIdx : Nat)
    (hP : ioLayer ≠ 0 → S.batchPages ioLayer begin batchIdx (S.waysOf ioLayer).prod ⊆ P)
    (h : S.Related ∅ P s s') {next : PLogged α → Except (Abort × PLogged α) (PLogged α)}
    {Q : PLogged α → PLogged α → Prop}
    (hnext : ∀ s₁ s₁', S.Related (Set.Ico 0 (S.waysOf ioLayer).prod) P s₁ s₁' →
      Lockstep Q SameStop (next s₁) (next s₁')) :
    Lockstep Q SameStop
      (S.fetchBatchT (.plain _) ioLayer begin batchIdx 0 s >>= fun s =>
        S.KWayButterflySortBasicT ioLayer ((S.waysOf ioLayer).length - 1) 0
          (S.waysOf ioLayer).prod s >>= next)
      (S.fetchBatchT (.plain _) ioLayer begin batchIdx 0 s' >>= fun s =>
        S.KWayButterflySortBasicT ioLayer ((S.waysOf ioLayer).length - 1) 0
          (S.waysOf ioLayer).prod s >>= next) := by
  have hroute : ∀ {B : Set Nat} {s₁ s₁' : PLogged α}, S.Related B P s₁ s₁' →
      (ioLayer ≠ 0 → Set.Ico 0 (0 + (S.waysOf ioLayer).prod) ⊆ B) → Lockstep Q SameStop
        (S.KWayButterflySortBasicT ioLayer ((S.waysOf ioLayer).length - 1) 0
          (S.waysOf ioLayer).prod s₁ >>= next)
        (S.KWayButterflySortBasicT ioLayer ((S.waysOf ioLayer).length - 1) 0
          (S.waysOf ioLayer).prod s₁' >>= next) := fun h₁ hB =>
    (routeBatchT_lockstep hv hl hio 0 h₁ hB).bind fun s₂ s₂' h₂ => hnext s₂ s₂'
      (h₂.mono (by rw [Nat.zero_add]; exact Set.subset_union_right) fun _ hp => hp)
  by_cases h0 : ioLayer = 0
  · rw [fetchBatchT, fetchBatchT, if_pos h0, if_pos h0]
    exact hroute h fun hne => absurd h0 hne
  · exact (fetchBatchT_lockstep h0 begin batchIdx 0 (hP h0) h).bind fun s₁ s₁' h₁ =>
      hroute h₁ fun _ => Set.subset_union_right

omit hv hl in
/-- A batch is in the buffer of both runs or of none. -/
theorem enterBatchT_lockstep (ioLayer batchIdx : Nat) (h : S.Related ∅ P s s') :
    Lockstep (S.Related ∅ P) SameStop (S.enterBatchT ioLayer batchIdx s)
      (S.enterBatchT ioLayer batchIdx s') :=
  require_lockstep h ⟨rfl, h.log⟩

include hv hl ht

/-- A batch before the last layer: its pages are alike. -/
theorem sortBatchT_lockstep {ioLayer : Nat} (hio : ioLayer + 1 < S.KWayParams.ways.length)
    (begin batchIdx : Nat)
    (hP : ioLayer ≠ 0 → S.batchPages ioLayer begin batchIdx (S.waysOf ioLayer).prod ⊆ P)
    (h : S.Related ∅ P s s') :
    Lockstep (S.Related ∅ (P ∪ S.batchPages ioLayer begin batchIdx (S.waysOf ioLayer).prod))
    SameStop
      (S.sortBatchT (.plain _) ioLayer begin batchIdx s)
      (S.sortBatchT (.plain _) ioLayer begin batchIdx s') := by
  simp only [sortBatchT, batchPerEnclave_shuffle ht, Nat.mod_one, Nat.zero_mul, getVecProduct_eq,
    isLastLayer_eq_false hio, Bool.false_eq_true, if_false]
  refine (enterBatchT_lockstep ioLayer batchIdx h).bind fun s s' h => ?_
  exact fetchRouteT_lockstep hv hl (by omega) begin batchIdx hP h fun s₁ s₁' h₁ =>
    (writeBatchT_lockstep ioLayer begin batchIdx (fun _ hp => hp) h₁).mono fun _ _ h₂ =>
      h₂.mono (Set.empty_subset _) fun _ hp => hp

/-- A batch of the last layer is written out. -/
theorem lastBatchT_lockstep {ioLayer : Nat} (hlast : ioLayer + 1 = S.KWayParams.ways.length)
    (begin batchIdx : Nat)
    (hP : ioLayer ≠ 0 → S.batchPages ioLayer begin batchIdx (S.waysOf ioLayer).prod ⊆ P)
    (h : S.Related ∅ P s s') :
    Lockstep (S.Related ∅ P) SameStop (S.sortBatchT (.plain _) ioLayer begin batchIdx s)
      (S.sortBatchT (.plain _) ioLayer begin batchIdx s') := by
  have hlayer : S.isLastLayer ioLayer = true := by
    rw [isLastLayer, beq_iff_eq]
    omega
  simp only [sortBatchT, batchPerEnclave_shuffle ht, Nat.mod_one, Nat.zero_mul, getVecProduct_eq,
    hlayer, if_true]
  refine (enterBatchT_lockstep ioLayer batchIdx h).bind fun s s' h => ?_
  exact fetchRouteT_lockstep hv hl (by omega) begin batchIdx hP h fun s₁ s₁' h₁ =>
    (outputBatchT_lockstep hv.Z_le ioLayer batchIdx (fun _ hp => hp) h₁).mono fun _ _ h₂ =>
      h₂.mono (Set.empty_subset _) fun _ hp => hp

omit hv hl ht in
/-- The pages of a batch are in the range of its layer. -/
theorem batchPages_subset {ioLayer batchIdx : Nat} (hn : batchIdx < S.fetchInterval ioLayer)
    (begin : Nat) :
    S.batchPages ioLayer begin batchIdx (S.waysOf ioLayer).prod ⊆
      Set.Ico begin (begin + S.fetchInterval (ioLayer + 1)) := by
  rintro q ⟨u, hu, rfl⟩
  have hlt := grid_lt hu hn
  rw [Nat.mul_comm u, Nat.mul_comm _ (S.fetchInterval ioLayer), ← fetchInterval_succ] at hlt
  exact Set.mem_Ico.2 ⟨by omega, by omega⟩

/-- **The layers of pages** before the last one: the pages of the range are alike. -/
theorem layerT_lockstep {ioLayer : Nat} (hio : ioLayer + 1 < S.KWayParams.ways.length) (begin : Nat)
    {P : Set Nat} (h : S.Related ∅ P s s') :
    Lockstep (S.Related ∅ (P ∪ Set.Ico begin (begin + S.fetchInterval (ioLayer + 1)))) SameStop
      (S.KWayButterflySortT (.plain _) ioLayer begin (S.fetchInterval (ioLayer + 1)) s)
      (S.KWayButterflySortT (.plain _) ioLayer begin (S.fetchInterval (ioLayer + 1)) s') := by
  have hW := hv.prod_pos (show ioLayer < S.KWayParams.ways.length by omega)
  induction ioLayer generalizing begin P s s' with
  | zero =>
    rw [KWayButterflySortT, KWayButterflySortT, getVecProduct_eq]
    have hcount : divRoundUp (S.fetchInterval (0 + 1)) (S.waysOf 0).prod = 0 + 1 := by
      rw [fetchInterval_succ, divRoundUp_mul hW]
      rfl
    rw [hcount]
    refine (sortBatchT_lockstep hv hl ht hio begin 0 (fun hne => absurd rfl hne) h).mono
      fun _ _ h₁ =>
      h₁.mono (fun _ hp => hp) (Set.union_subset_union_right P ?_)
    intro q hq
    rw [fetchInterval_succ, fetchInterval_zero, Nat.one_mul, Set.mem_Ico] at hq
    exact ⟨q - begin, by omega, by rw [fetchInterval_zero]; omega⟩
  | succ ioLayer ih =>
    have ih := fun s s' => @ih s s' (by omega)
    rw [KWayButterflySortT, KWayButterflySortT, getVecProduct_eq, fetchInterval_succ (ioLayer + 1),
      Nat.mul_div_cancel _ hW, divRoundUp_mul hW]
    refine Lockstep.bind (R := S.Related ∅ (P ∪ Set.Ico begin
      (begin + (S.waysOf (ioLayer + 1)).prod * S.fetchInterval (ioLayer + 1)))) ?_
        fun s₁ s₁' h₁ => ?_
    · refine forRange_lockstep (fun i => S.Related ∅ (P ∪ Set.Ico begin
        (begin + i * S.fetchInterval (ioLayer + 1)))) (h.mono (fun _ hp => hp) (by simp))
        fun i hi s₁ s₁' h₁ => ?_
      refine (ih s₁ s₁' (begin + i * S.fetchInterval (ioLayer + 1)) h₁
        (hv.prod_pos (by omega))).mono fun _ _ h₂ => h₂.mono (fun _ hp => hp) ?_
      rw [Nat.succ_mul]
      exact union_Ico_subset P begin _ _
    · rw [Nat.mul_comm (S.fetchInterval (ioLayer + 1))]
      refine forRange_lockstep (fun _ => S.Related ∅ (P ∪ Set.Ico begin
        (begin + (S.waysOf (ioLayer + 1)).prod * S.fetchInterval (ioLayer + 1)))) h₁
        fun n hn s₂ s₂' h₂ => ?_
      have hpages := batchPages_subset hn begin
      rw [fetchInterval_succ (ioLayer + 1), Nat.mul_comm (S.fetchInterval (ioLayer + 1))] at hpages
      exact (sortBatchT_lockstep hv hl ht hio begin n (fun _ => hpages.trans Set.subset_union_right)
        h₂).mono fun _ _ h₃ => h₃.mono (fun _ hp => hp) Set.subset_union_left

/-- **A whole shuffle**, on pages that may hold anything. -/
theorem sortT_lockstep (h : S.Related ∅ ∅ s s') :
    Lockstep (fun s s' => s.2 = s'.2) SameStop (S.sortT (.plain _) s) (S.sortT (.plain _) s') := by
  obtain ⟨l, hlen⟩ : ∃ l, S.KWayParams.ways.length = l + 1 :=
    Nat.exists_eq_succ_of_ne_zero fun h => hv.ways_ne_nil (List.length_eq_zero_iff.1 h)
  have hW := hv.prod_pos (show l < S.KWayParams.ways.length by omega)
  have hsize : S.KWayParams.totalBucket = S.fetchInterval (l + 1) := by rw [hv.totalBucket_eq, hlen]
  rw [sortT, sortT, hlen, Nat.add_sub_cancel, hsize]
  refine (require_lockstep h ⟨rfl, h.log⟩ : Lockstep (S.Related ∅ ∅) SameStop _ _).bind
    fun s s' h => ?_
  cases l with
  | zero =>
    rw [KWayButterflySortT, KWayButterflySortT, getVecProduct_eq, fetchInterval_succ,
      divRoundUp_mul hW]
    refine (forRange_lockstep (fun _ => S.Related ∅ ∅) h fun n _ s₁ s₁' h₁ => ?_).mono
      fun _ _ h₁ => h₁.log
    exact lastBatchT_lockstep hv hl ht hlen.symm 0 n (fun hne => absurd rfl hne) h₁
  | succ l =>
    rw [KWayButterflySortT, KWayButterflySortT, getVecProduct_eq, fetchInterval_succ (l + 1),
      Nat.mul_div_cancel _ hW, divRoundUp_mul hW]
    refine Lockstep.bind (R := S.Related ∅ (Set.Ico 0
      (0 + (S.waysOf (l + 1)).prod * S.fetchInterval (l + 1)))) ?_ fun s₁ s₁' h₁ => ?_
    · refine forRange_lockstep (fun i => S.Related ∅ (Set.Ico 0 (0 + i * S.fetchInterval (l + 1))))
        (h.mono (fun _ hp => hp) (by simp)) fun i hi s₁ s₁' h₁ => ?_
      refine (layerT_lockstep hv hl ht (by omega) (0 + i * S.fetchInterval (l + 1)) h₁).mono
        fun _ _ h₂ => h₂.mono (fun _ hp => hp) ?_
      have hunion := union_Ico_subset ∅ 0 (i * S.fetchInterval (l + 1)) (S.fetchInterval (l + 1))
      rwa [Set.empty_union, Set.empty_union, ← Nat.succ_mul] at hunion
    · refine (forRange_lockstep (fun _ => S.Related ∅ (Set.Ico 0
        (0 + (S.waysOf (l + 1)).prod * S.fetchInterval (l + 1)))) h₁ fun n hn s₂ s₂' h₂ => ?_).mono
        fun _ _ h₂ => h₂.log
      have hpages := batchPages_subset hn 0
      rw [fetchInterval_succ (l + 1), Nat.mul_comm (S.fetchInterval (l + 1))] at hpages
      exact lastBatchT_lockstep hv hl ht hlen.symm 0 n (fun _ => hpages) h₂

end Layers

/-! ## Obliviousness -/

/-- **A butterfly shuffle is oblivious.** What is recorded is what the shuffle does; and two
shuffles with the same draws look the same, whatever their elements are and whatever the buffer and
the pages hold: they end in the same way and record the same events. -/
theorem shuffle_oblivious (hv : S.Valid) (hl : S.KWayParams.LanesFit)
    (ht : S.task = .kWayButterflyOShuffle) {input input' : List (BitVec 64 × α)}
    (hdraws : input.map Prod.fst = input'.map Prod.fst)
    {batch batch' pages pages' : Nat → List (TaggedT α)} (hb : ∀ p, (batch p).length = S.Z)
    (hb' : ∀ p, (batch' p).length = S.Z) (hp : ∀ p, (pages p).length = S.Z)
    (hp' : ∀ p, (pages' p).length = S.Z) (stdSort : List (TaggedT α) → List (TaggedT α)) :
    Ends (fun s => S.sort (.plain _) stdSort (.start input batch pages) = .ok s.1)
      (fun e => S.sort (.plain _) stdSort (.start input batch pages) = .error (e.1, e.2.1))
      (S.sortT (.plain _) (.start input batch pages, [])) ∧
    seen (S.sortT (.plain _) (.start input batch pages, [])) =
      seen (S.sortT (.plain _) (.start input' batch' pages', [])) := by
  constructor
  · exact ((sortT_erases (.plain _) stdSort ht).ends (.start input batch pages, [])).mono
      (fun s h => (h trivial).2) fun e h => (h trivial).2
  · have hstart : S.Related ∅ ∅ (.start input batch pages, []) (.start input' batch' pages', []) :=
      ⟨⟨hb, hb', fun _ hq => hq.elim⟩, ⟨hp, hp', fun _ hq => hq.elim⟩, hdraws, rfl⟩
    have hrun := sortT_lockstep hv hl ht hstart
    cases h : S.sortT (.plain _) (.start input batch pages, []) with
    | ok s =>
      cases h' : S.sortT (.plain _) (.start input' batch' pages', []) with
      | ok s' =>
        rw [h, h'] at hrun
        exact congrArg (Prod.mk none) hrun
      | error e' =>
        rw [h, h'] at hrun
        exact hrun.elim
    | error e =>
      cases h' : S.sortT (.plain _) (.start input' batch' pages', []) with
      | ok s' =>
        rw [h, h'] at hrun
        exact hrun.elim
      | error e' =>
        rw [h, h'] at hrun
        exact Prod.ext (congrArg some hrun.1) hrun.2

/-- A shuffle with two layers of two ways. -/
def shuffleOfFour : ButterflySorter := ⟨.kWayButterflyOShuffle, false, ⟨[[2], [2]], 2, 4⟩, 1, 8, 16⟩

theorem shuffleOfFour_valid : shuffleOfFour.Valid where
  ways_ne_nil := by decide
  inner_ne_nil := by decide
  way_range := by decide
  totalBucket := by decide
  Z := ⟨1, by decide, by decide⟩
  Z_le := by decide
  numReal := by decide

theorem shuffleOfFour_lanesFit : shuffleOfFour.KWayParams.LanesFit := by
  unfold KWayButterflyParams.LanesFit
  decide

/-- Two inputs of three elements with the same draws, and buffers and pages that hold different
things. -/
theorem shuffle_oblivious_three :
    seen (shuffleOfFour.sortT (.plain _)
      (.start [(5, 10), (2, 20), (7, 30)] (fun _ => [⟨0, 0⟩, ⟨0, 0⟩]) fun _ =>
        [⟨0, 0⟩, ⟨0, 0⟩], [])) =
    seen (shuffleOfFour.sortT (.plain _)
      (.start [(5, 60), (2, 50), (7, 40)] (fun p => [⟨1, p⟩, ⟨3, p⟩]) fun p =>
        [⟨2, p⟩, ⟨4, p⟩], [])) :=
  (shuffle_oblivious (α := Nat) shuffleOfFour_valid shuffleOfFour_lanesFit rfl (by decide)
    (fun _ => rfl) (fun _ => rfl) (fun _ => rfl) (fun _ => rfl) id).2

end Oblivious

end ButterflySorter

end EM.Algorithm
