import Mathlib.Data.Prod.Lex
import OblSort.Apps.OramInit
import OblSort.Apps.Proof.AppsCommon
import OblSort.Lib.Store

/-!
# The tree that `ORAMInit` builds

A level (`oramLevel_spec`): each bucket gets the `Z` entries of smallest uid among its own and its
dummies, so it is full; what is not marked goes up, the reals first, as far as there is room. The
whole tree by induction over the levels (`oramInitHelper_spec`).
-/

namespace Apps

variable {δ : Type}

open Store

/-! ## Marking -/

/-- The bucket of an entry. -/
def bucketAt (level : Nat) (e : ORAMEntry δ) : Nat := e.pos >>> level

def ofBucket (level b : Nat) (es : List (ORAMEntry δ)) : List (ORAMEntry δ) :=
  es.filter fun e => decide (bucketAt level e = b)

/-- The entries with mark `m` of bucket `b`. -/
def markedOf (level : Nat) (m : Bool) (b : Nat) (ms : List (MarkEntry δ)) : List (ORAMEntry δ) :=
  (ms.filter fun e => e.isMarked == m && decide (bucketAt level e.entry = b)).map MarkEntry.entry

theorem markedOf_cons (level : Nat) (m m' : Bool) (b : Nat) (e : ORAMEntry δ)
    (ms : List (MarkEntry δ)) : markedOf level m b (⟨m', e⟩ :: ms) =
      if m' = m ∧ bucketAt level e = b then e :: markedOf level m b ms
        else markedOf level m b ms := by
  unfold markedOf
  by_cases h : m' = m ∧ bucketAt level e = b
  · rw [if_pos h, List.filter_cons_of_pos (by simp [h.1, h.2]), List.map_cons]
  · rw [if_neg h, List.filter_cons_of_neg (by simpa using h)]

theorem ofBucket_cons (level b : Nat) (e : ORAMEntry δ) (es : List (ORAMEntry δ)) :
    ofBucket level b (e :: es) =
      if bucketAt level e = b then e :: ofBucket level b es else ofBucket level b es := by
  simp [ofBucket, List.filter_cons]

theorem markEntries_cons (Z level prevPos dupCounter : Nat) (e : ORAMEntry δ)
    (es : List (ORAMEntry δ)) :
    ∃ c, c = (if bucketAt level e = prevPos >>> level then dupCounter else 0) ∧
      markEntries Z level prevPos dupCounter (e :: es) =
        ⟨decide (c < Z), e⟩ :: markEntries Z level e.pos (c + 1) es := by
  refine ⟨_, rfl, ?_⟩
  by_cases h : e.pos >>> level = prevPos >>> level <;> simp [markEntries, bucketAt, h]

/-- What of a bucket is marked and what is not, when `dupCounter` of its entries came before. -/
theorem markedOf_markEntries {Z level : Nat} {prevPos dupCounter : Nat} {es : List (ORAMEntry δ)}
    (hsorted : es.Pairwise fun a b => bucketAt level a ≤ bucketAt level b)
    (hge : ∀ e ∈ es, prevPos >>> level ≤ bucketAt level e) (b : Nat) :
    markedOf level true b (markEntries Z level prevPos dupCounter es) =
        (ofBucket level b es).take (Z - if prevPos >>> level = b then dupCounter else 0) ∧
      markedOf level false b (markEntries Z level prevPos dupCounter es) =
        (ofBucket level b es).drop (Z - if prevPos >>> level = b then dupCounter else 0) := by
  induction es generalizing prevPos dupCounter with
  | nil => simp [markedOf, markEntries, ofBucket]
  | cons e es ih =>
    obtain ⟨he, hes⟩ := List.pairwise_cons.1 hsorted
    have hprev := hge e List.mem_cons_self
    obtain ⟨c, hc, hmark⟩ := markEntries_cons Z level prevPos dupCounter e es
    obtain ⟨ih1, ih2⟩ := @ih e.pos (c + 1) hes he
    change _ = (ofBucket level b es).take (Z - if bucketAt level e = b then c + 1 else 0) at ih1
    change _ = (ofBucket level b es).drop (Z - if bucketAt level e = b then c + 1 else 0) at ih2
    rw [hmark, markedOf_cons, markedOf_cons, ofBucket_cons]
    by_cases hb : bucketAt level e = b
    · -- an entry of the bucket: it is marked if there were fewer than `Z`
      have hcount : (if prevPos >>> level = b then dupCounter else 0) = c := by
        rw [hc, hb]
        exact if_congr eq_comm rfl rfl
      rw [if_pos hb] at ih1 ih2
      rw [hcount, if_pos hb]
      by_cases hZ : c < Z
      · rw [if_pos ⟨by simpa using hZ, hb⟩, if_neg (by simp [hZ]),
          show Z - c = Z - (c + 1) + 1 by omega, List.take_succ_cons, List.drop_succ_cons, ih1, ih2]
        exact ⟨rfl, rfl⟩
      · have h0 : Z - c = 0 ∧ Z - (c + 1) = 0 := by omega
        rw [h0.2] at ih1 ih2
        rw [if_neg (by simp [hZ]), if_pos ⟨by simpa using hZ, hb⟩, h0.1, ih1, ih2]
        exact ⟨rfl, rfl⟩
    · rw [if_neg hb] at ih1 ih2
      have hskip : ∀ m, ¬ (decide (c < Z) = m ∧ bucketAt level e = b) := fun m h => hb h.2
      rw [if_neg (hskip true), if_neg (hskip false), if_neg hb, ih1, ih2]
      by_cases hp : prevPos >>> level = b
      · -- the bucket is over
        have hnone : ofBucket level b es = [] := by
          refine List.filter_eq_nil_iff.2 fun x hx => ?_
          have := he x hx
          simp only [decide_eq_true_eq]
          omega
        simp [hnone]
      · rw [if_neg hp]
        exact ⟨rfl, rfl⟩

/-- **Marking**: of each bucket of a sorted list the first `Z` entries are marked. -/
theorem markedOf_level {Z level prevPos : Nat} {es : List (ORAMEntry δ)}
    (hsorted : es.Pairwise fun a b => bucketAt level a ≤ bucketAt level b) (b : Nat) :
    markedOf level true b (markEntries Z level prevPos 0 es) = (ofBucket level b es).take Z ∧
      markedOf level false b (markEntries Z level prevPos 0 es) = (ofBucket level b es).drop Z := by
  cases es with
  | nil => simp [markedOf, markEntries, ofBucket]
  | cons e es =>
    -- the first entry begins a bucket, whatever `prevPos` is
    have hfirst : markEntries Z level prevPos 0 (e :: es) = markEntries Z level e.pos 0
      (e :: es) := by
      simp [markEntries]
    have hge : ∀ x ∈ e :: es, e.pos >>> level ≤ bucketAt level x := by
      intro x hx
      cases hx with
      | head => exact Nat.le_refl _
      | tail _ hx => exact (List.pairwise_cons.1 hsorted).1 x hx
    rw [hfirst]
    simpa using @markedOf_markEntries δ Z level e.pos 0 (e :: es) hsorted hge b

theorem map_entry_markEntries (Z level prevPos dupCounter : Nat) (es : List (ORAMEntry δ)) :
    (markEntries Z level prevPos dupCounter es).map MarkEntry.entry = es := by
  induction es generalizing prevPos dupCounter with
  | nil => rfl
  | cons e es ih => simp [markEntries, ih]

/-! ## Reals and dummies -/

def isReal (e : ORAMEntry δ) : Bool := e.uid != dummyUid

/-- The real entries. -/
def reals (es : List (ORAMEntry δ)) : List (ORAMEntry δ) := es.filter isReal

@[simp] theorem reals_append (xs ys : List (ORAMEntry δ)) :
    reals (xs ++ ys) = reals xs ++ reals ys :=
  List.filter_append _ _

/-- By uid, the reals come first. -/
theorem reals_first {es : List (ORAMEntry δ)} (hsorted : es.Pairwise fun a b => a.uid ≤ b.uid)
    (huid : ∀ e ∈ es, e.uid ≤ dummyUid) : es = reals es ++ es.filter fun e => !isReal e := by
  refine pairwise_eq_append hsorted fun a ha b hb har hbd hab => ?_
  have := huid a ha
  simp only [isReal, bne_iff_ne, bne_eq_false_iff_eq] at har hbd
  omega

/-- Where all reals fit in the first `n`, there are none behind. -/
theorem reals_drop {es : List (ORAMEntry δ)} (hsorted : es.Pairwise fun a b => a.uid ≤ b.uid)
    (huid : ∀ e ∈ es, e.uid ≤ dummyUid) {n : Nat} (hn : (reals es).length ≤ n) :
    reals (es.drop n) = [] := by
  rw [reals_first hsorted huid, List.drop_append, List.drop_eq_nil_of_le hn, List.nil_append]
  refine List.filter_eq_nil_iff.2 fun e he => ?_
  simpa using (List.mem_filter.1 (List.mem_of_mem_drop he)).2

/-! ## One level -/

variable {Z level n : Nat} {reads es : List (ORAMEntry δ)} {ms : List (MarkEntry δ)}

/-- The marked and the other entries after the second sort. -/
def marked (m : Bool) (ms : List (MarkEntry δ)) : List (ORAMEntry δ) :=
  (ms.filter fun x => x.isMarked == m).map MarkEntry.entry

theorem ofBucket_marked (m : Bool) (b : Nat) (ms : List (MarkEntry δ)) :
    ofBucket level b (marked m ms) = markedOf level m b ms := by
  rw [ofBucket, marked, List.filter_map, List.filter_filter, markedOf]
  refine congrArg _ (List.filter_congr fun x _ => ?_)
  rw [Function.comp_apply, Bool.and_comm]

/-- The marked entries come first. -/
theorem map_entry_eq {xs : List (MarkEntry δ)} (h : SortedPerm MarkEntry.lt xs ms) :
    ms.map MarkEntry.entry = marked true ms ++ marked false ms := by
  have := pairwise_eq_append (p := fun x : MarkEntry δ => x.isMarked == true) h.sorted
    fun a _ b _ ha hb hab => by
      simp only [beq_iff_eq, beq_eq_false_iff_ne, ne_eq, Bool.not_eq_true] at ha hb
      simp [MarkEntry.lt, ha, hb] at hab
  have hneg : (fun x : MarkEntry δ => !(x.isMarked == true)) = fun x => x.isMarked == false := by
    funext x
    cases x.isMarked <;> rfl
  rw [hneg] at this
  conv_lhs => rw [this]
  rw [List.map_append, marked, marked]

/-- The marked entries are in the order of their buckets. -/
theorem marked_sorted {xs : List (MarkEntry δ)} (h : SortedPerm MarkEntry.lt xs ms) :
    (marked true ms).Pairwise fun a b => bucketAt level a ≤ bucketAt level b := by
  rw [marked, List.pairwise_map]
  refine (h.sorted.filter _).imp_of_mem fun {a b} ha hb hab => ?_
  have ha : a.isMarked = true := by simpa using (List.mem_filter.1 ha).2
  have hb : b.isMarked = true := by simpa using (List.mem_filter.1 hb).2
  have hpos : a.entry.pos ≤ b.entry.pos := by simpa [MarkEntry.lt, ha, hb] using hab
  rw [bucketAt, bucketAt, Nat.shiftRight_eq_div_pow, Nat.shiftRight_eq_div_pow]
  exact Nat.div_le_div_right hpos

/-- The others are in the order of their uids. -/
theorem unmarked_sorted {xs : List (MarkEntry δ)} (h : SortedPerm MarkEntry.lt xs ms) :
    (marked false ms).Pairwise fun a b => a.uid ≤ b.uid := by
  rw [marked, List.pairwise_map]
  refine (h.sorted.filter _).imp_of_mem fun {a b} ha hb hab => ?_
  have ha : a.isMarked = false := by simpa using (List.mem_filter.1 ha).2
  have hb : b.isMarked = false := by simpa using (List.mem_filter.1 hb).2
  simpa [MarkEntry.lt, ha, hb] using hab

/-- What the reads of a level of `n` buckets are: each belongs to one of them. -/
structure Reads (level n : Nat) (reads : List (ORAMEntry δ)) : Prop where
  length_eq : reads.length = n
  bucket_lt : ∀ e ∈ reads, bucketAt level e < n
  uid_le : ∀ e ∈ reads, e.uid ≤ dummyUid

/-- What a level does: it fills its buckets, and keeps for the level above as many of the other
reals as there is room for. -/
structure LevelSpec (Z level n : Nat) (reads out up : List (ORAMEntry δ)) : Prop where
  length_out : out.length = n * Z
  bucket : ∀ b < n, ∀ e ∈ (out.drop (b * Z)).take Z, bucketAt level e = b
  length_up : up.length = n / 2
  mem_up : ∀ e ∈ up, bucketAt level e < n ∧ e.uid ≤ dummyUid
  perm : ∃ dropped, List.Perm (reals (out ++ up ++ dropped)) (reals reads) ∧
    ((reals reads).length - (reals out).length ≤ n / 2 → reals dropped = [])
  last : n = 1 → 0 < Z → (reals reads).length ≤ (reals out).length

section Level

variable [Inhabited δ]

/-- The dummies that a level adds. -/
def levelDummies (Z level n : Nat) : List (ORAMEntry δ) :=
  (List.range (n * Z)).map fun i => ⟨(i / Z) <<< level, dummyUid, default⟩

theorem levelReader_entry (Z level : Nat) (reads : List (ORAMEntry δ)) :
    (levelReader Z level reads).map LevelPosEntry.entry = reads ++
      levelDummies Z level reads.length := by
  simp [levelReader, levelDummies, Function.comp_def]

theorem levelReader_levelPos {Z level : Nat} {reads : List (ORAMEntry δ)} {x : LevelPosEntry δ}
    (hx : x ∈ levelReader Z level reads) : x.levelPos = bucketAt level x.entry := by
  rcases List.mem_append.1 hx with hx | hx
  · obtain ⟨e, -, rfl⟩ := List.mem_map.1 hx
    rfl
  · obtain ⟨i, -, rfl⟩ := List.mem_map.1 hx
    simp [bucketAt, Nat.shiftLeft_shiftRight]

theorem mem_levelDummies {Z level n : Nat} {e : ORAMEntry δ} (he : e ∈ levelDummies Z level n) :
    e.uid = dummyUid ∧ bucketAt level e < n := by
  obtain ⟨i, hi, rfl⟩ := List.mem_map.1 he
  refine ⟨rfl, ?_⟩
  rw [bucketAt, Nat.shiftLeft_shiftRight]
  exact Nat.div_lt_of_lt_mul (by simpa [Nat.mul_comm] using hi)

/-- There are dummies enough to fill a bucket. -/
theorem length_ofBucket_levelDummies {Z level n b : Nat} (hb : b < n) :
    Z ≤ (ofBucket level b (@levelDummies δ _ Z level n)).length := by
  have hgather : @levelDummies δ _ Z level n =
      gather n fun i => gather Z fun _ => [⟨i <<< level, dummyUid, default⟩] := by
    have : @levelDummies δ _ Z level n =
        gather (n * Z) fun i => [⟨(i / Z) <<< level, dummyUid, default⟩] := by
      rw [levelDummies, gather, List.map_eq_flatMap]
    rw [this, gather_mul]
    refine gather_congr fun i _ => gather_congr fun j hj => ?_
    rw [Nat.add_comm, Nat.add_mul_div_right _ _ (by omega), Nat.div_eq_of_lt hj, Nat.zero_add]
  have hsub := sublist_gather hb fun i => gather Z fun _ =>
    [(⟨i <<< level, dummyUid, default⟩ : ORAMEntry δ)]
  rw [← hgather] at hsub
  have hall : ofBucket level b (gather Z fun _ =>
    [(⟨b <<< level, dummyUid, default⟩ : ORAMEntry δ)]) =
      gather Z fun _ => [⟨b <<< level, dummyUid, default⟩] := by
    refine List.filter_eq_self.2 fun e he => ?_
    obtain ⟨i, -, he⟩ := mem_gather.1 he
    rw [List.mem_singleton.1 he]
    simp [bucketAt, Nat.shiftLeft_shiftRight]
  have hle := (hsub.filter fun e => decide (bucketAt level e = b)).length_le
  change (ofBucket level b _).length ≤ _ at hle
  rw [hall, length_gather fun _ _ => rfl, List.length_singleton, Nat.mul_one] at hle
  exact hle

/-- The entries after the first sort of a level. -/
structure Intermediate (Z level : Nat) (reads es : List (ORAMEntry δ)) : Prop where
  perm : List.Perm es (reads ++ levelDummies Z level reads.length)
  sorted : es.Pairwise fun a b => bucketAt level a < bucketAt level b ∨
    (bucketAt level a = bucketAt level b ∧ a.uid ≤ b.uid)

theorem intermediate_of_sort {Z level : Nat} {reads : List (ORAMEntry δ)}
    {xs : List (LevelPosEntry δ)} (h : SortedPerm LevelPosEntry.lt (levelReader Z level reads) xs) :
    Intermediate Z level reads (xs.map LevelPosEntry.entry) where
  perm := by
    rw [← levelReader_entry]
    exact h.perm.map _
  sorted := by
    rw [List.pairwise_map]
    refine h.sorted.imp_of_mem fun {a b} ha hb hab => ?_
    simp only [LevelPosEntry.lt, levelReader_levelPos (h.perm.mem_iff.1 ha),
      levelReader_levelPos (h.perm.mem_iff.1 hb), Bool.or_eq_false_iff, Bool.and_eq_false_iff,
      decide_eq_false_iff_not] at hab
    omega

theorem Intermediate.mem (hr : Reads level n reads) (h : Intermediate Z level reads es)
    {e : ORAMEntry δ} (he : e ∈ es) : bucketAt level e < n ∧ e.uid ≤ dummyUid := by
  rcases List.mem_append.1 (h.perm.mem_iff.1 he) with he | he
  · exact ⟨hr.bucket_lt e he, hr.uid_le e he⟩
  · rw [← hr.length_eq]
    exact ⟨(mem_levelDummies he).2, Nat.le_of_eq (mem_levelDummies he).1⟩

theorem Intermediate.length_ofBucket (hr : Reads level n reads) (h : Intermediate Z level reads es)
    {b : Nat} (hb : b < n) : Z ≤ (ofBucket level b es).length := by
  have hlen := (h.perm.filter fun e => decide (bucketAt level e = b)).length_eq
  have hdummies := @length_ofBucket_levelDummies δ _ Z level n b hb
  rw [List.filter_append, List.length_append, hr.length_eq] at hlen
  unfold ofBucket at hdummies ⊢
  omega

theorem Intermediate.length_eq (hr : Reads level n reads) (h : Intermediate Z level reads es) :
    es.length = n + n * Z := by
  rw [h.perm.length_eq, List.length_append, levelDummies, List.length_map, List.length_range,
    hr.length_eq]

theorem Intermediate.reals_perm (h : Intermediate Z level reads es) :
    List.Perm (reals es) (reals reads) := by
  have hnone : reals (@levelDummies δ _ Z level reads.length) = [] := by
    refine List.filter_eq_nil_iff.2 fun e he => ?_
    simp [isReal, (mem_levelDummies he).1]
  have := h.perm.filter isReal
  rwa [List.filter_append, show (levelDummies Z level reads.length).filter isReal = [] from hnone,
    List.append_nil] at this

/-- The two sorts of a level. -/
structure LevelRun (Z level n : Nat) (reads es : List (ORAMEntry δ))
    (ms : List (MarkEntry δ)) : Prop where
  input : Reads level n reads
  first : Intermediate Z level reads es
  second : SortedPerm MarkEntry.lt (markEntries Z level dummyUid 0 es) ms

namespace LevelRun

theorem entry_perm (h : LevelRun Z level n reads es ms) :
    List.Perm (marked true ms ++ marked false ms) es := by
  rw [← map_entry_eq h.second]
  exact (h.second.perm.map _).trans (.of_eq (map_entry_markEntries _ _ _ _ es))

/-- Of each bucket the `Z` entries that the first sort puts in front are marked. -/
theorem ofBucket_perm (h : LevelRun Z level n reads es ms) (b : Nat) :
    List.Perm (ofBucket level b (marked true ms)) ((ofBucket level b es).take Z) ∧
      List.Perm (ofBucket level b (marked false ms)) ((ofBucket level b es).drop Z) := by
  have hsorted : es.Pairwise fun a b => bucketAt level a ≤ bucketAt level b :=
    h.first.sorted.imp fun {a b} hab => by omega
  obtain ⟨h1, h2⟩ := @markedOf_level δ Z level dummyUid es hsorted b
  rw [ofBucket_marked, ofBucket_marked, ← h1, ← h2]
  exact ⟨(h.second.perm.filter _).map _, (h.second.perm.filter _).map _⟩

theorem mem (h : LevelRun Z level n reads es ms) {m : Bool} {e : ORAMEntry δ}
    (he : e ∈ marked m ms) :
    bucketAt level e < n ∧ e.uid ≤ dummyUid := by
  refine h.first.mem h.input (h.entry_perm.mem_iff.1 (List.mem_append.2 ?_))
  cases m with
  | true => exact .inl he
  | false => exact .inr he

theorem length_ofBucket (h : LevelRun Z level n reads es ms) {b : Nat} (hb : b < n) :
    (ofBucket level b (marked true ms)).length = Z := by
  rw [(h.ofBucket_perm b).1.length_eq, List.length_take]
  exact Nat.min_eq_left (h.first.length_ofBucket h.input hb)

/-- The marked entries are the buckets of the level, one after the other. -/
theorem marked_eq (h : LevelRun Z level n reads es ms) :
    marked true ms = gather n fun b => ofBucket level b (marked true ms) :=
  sorted_eq_gather (marked_sorted h.second) fun _ he => (h.mem he).1

theorem length_marked (h : LevelRun Z level n reads es ms) : (marked true ms).length = n * Z := by
  rw [h.marked_eq]
  exact length_gather fun b hb => h.length_ofBucket hb

theorem length_unmarked (h : LevelRun Z level n reads es ms) : (marked false ms).length = n := by
  have := h.entry_perm.length_eq
  rw [List.length_append, h.length_marked, h.first.length_eq h.input] at this
  omega

theorem reals_perm (h : LevelRun Z level n reads es ms) :
    List.Perm (reals (marked true ms) ++ reals (marked false ms)) (reals reads) := by
  rw [← reals_append]
  exact (h.entry_perm.filter _).trans h.first.reals_perm

theorem take_eq (h : LevelRun Z level n reads es ms) :
    (ms.take (n * Z)).map MarkEntry.entry = marked true ms := by
  rw [List.map_take, map_entry_eq h.second, ← h.length_marked, List.take_left]

theorem drop_eq (h : LevelRun Z level n reads es ms) (k : Nat) :
    ((ms.drop (n * Z)).take k).map MarkEntry.entry = (marked false ms).take k := by
  rw [List.map_take, List.map_drop, map_entry_eq h.second, ← h.length_marked, List.drop_left]

/-- At the root there is one bucket for one entry, and a real entry gets in. -/
theorem reals_unmarked_root (h : LevelRun Z level 1 reads es ms) (hZ : 0 < Z) :
    reals (marked false ms) = [] := by
  have hall : ∀ xs : List (ORAMEntry δ), (∀ e ∈ xs, bucketAt level e < 1) →
    ofBucket level 0 xs = xs :=
    fun xs hxs => List.filter_eq_self.2 fun e he => by
      have := hxs e he
      simp only [decide_eq_true_eq]
      omega
  have hdrop := (h.ofBucket_perm 0).2
  rw [hall _ fun e he => (h.mem he).1, hall _ fun e he => (h.first.mem h.input he).1] at hdrop
  have huid : es.Pairwise fun a b => a.uid ≤ b.uid :=
    h.first.sorted.imp_of_mem fun {a b} ha hb hab => by
      have h1 := (h.first.mem h.input ha).1
      have h2 := (h.first.mem h.input hb).1
      omega
  have hlen : (reals es).length ≤ Z := by
    have h1 := h.first.reals_perm.length_eq
    have h2 : (reals reads).length ≤ reads.length := List.length_filter_le _ _
    have h3 := h.input.length_eq
    omega
  have hnil : List.Perm (reals (marked false ms)) [] := by
    rw [← reals_drop huid (fun e he => (h.first.mem h.input he).2) hlen]
    exact hdrop.filter _
  exact hnil.eq_nil

/-- **One level of the tree**. -/
theorem spec (h : LevelRun Z level n reads es ms) :
    LevelSpec Z level n reads ((ms.take (n * Z)).map MarkEntry.entry)
      (((ms.drop (n * Z)).take (n / 2)).map MarkEntry.entry) := by
  rw [h.take_eq, h.drop_eq]
  have hreals := h.reals_perm.length_eq
  rw [List.length_append] at hreals
  refine ⟨h.length_marked, fun b hb e he => ?_, ?_, fun e he => h.mem (List.mem_of_mem_take he),
    ⟨(marked false ms).drop (n / 2), ?_, fun hle => ?_⟩, fun h1 hZ => ?_⟩
  · have htake := @take_drop_gather (ORAMEntry δ) Z n b (fun b => ofBucket level b (marked true ms))
      (fun i hi _ => h.length_ofBucket hi) (fun i hi => Nat.le_of_eq (h.length_ofBucket hi).symm) hb
    rw [← h.marked_eq, List.take_of_length_le (Nat.le_of_eq h.length_marked)] at htake
    rw [htake] at he
    exact of_decide_eq_true (List.mem_filter.1 (List.mem_of_mem_take he)).2
  · rw [List.length_take, h.length_unmarked]
    omega
  · rw [List.append_assoc, List.take_append_drop, reals_append]
    exact h.reals_perm
  · exact reals_drop (unmarked_sorted h.second) (fun e he => (h.mem he).2) (by omega)
  · subst h1
    rw [h.reals_unmarked_root hZ, List.length_nil] at hreals
    omega

end LevelRun

end Level

/-! ## The tree -/

/-- Where level `l` of a tree of `h + 1` levels begins in the output. -/
def levelStart (Z h l : Nat) : Nat := (2 ^ (h + 1) - 2 ^ (h - l + 1)) * Z

theorem levelStart_zero (Z h : Nat) : levelStart Z h 0 = 0 := by
  simp [levelStart]

/-- A tree is its lowest level and a tree with one level less. -/
theorem levelStart_succ (Z : Nat) {h l : Nat} (hl : l ≤ h + 1) :
    levelStart Z (h + 1) (l + 1) = 2 ^ (h + 1) * Z + levelStart Z h l := by
  have hpow : 2 ^ (h - l + 1) ≤ 2 ^ (h + 1) := Nat.pow_le_pow_right (by decide) (by omega)
  rw [levelStart, levelStart, ← Nat.add_mul,
    show h + 1 - (l + 1) = h - l by omega, Nat.pow_succ 2 (h + 1)]
  congr 1
  omega

/-- What the levels from `level` on make of `2 ^ k` entries. -/
structure TreeSpec (Z level k : Nat) (reads out : List (ORAMEntry δ)) : Prop where
  length_eq : out.length = (2 ^ (k + 1) - 1) * Z
  bucket : ∀ j ≤ k, ∀ b < 2 ^ (k - j), ∀ s < Z, ∃ e, out[levelStart Z k j + b * Z + s]? = some e ∧
    bucketAt (level + j) e = b
  perm : ∃ dropped, List.Perm (reals (out ++ dropped)) (reals reads)
  all : (∀ j < k, (reals reads).length - (reals (out.take (levelStart Z k (j + 1)))).length ≤
    2 ^ (k - j - 1)) → List.Perm (reals out) (reals reads)

theorem Reads.up {k : Nat} {out up : List (ORAMEntry δ)}
    (h : LevelSpec Z level (2 ^ (k + 1)) reads out up) : Reads (level + 1) (2 ^ k) up where
  length_eq := by
    rw [h.length_up, Nat.pow_succ]
    omega
  bucket_lt e he := by
    have := (h.mem_up e he).1
    rw [bucketAt, Nat.shiftRight_succ]
    rw [bucketAt, Nat.pow_succ] at this
    omega
  uid_le e he := (h.mem_up e he).2

/-- The slots of a bucket in the lowest level. -/
theorem LevelSpec.slot {out up : List (ORAMEntry δ)} (h : LevelSpec Z level n reads out up)
    {b s : Nat}
    (hb : b < n) (hs : s < Z) : ∃ e, out[b * Z + s]? = some e ∧ bucketAt level e = b := by
  have hlt : b * Z + s < out.length := by
    have : (b + 1) * Z ≤ n * Z := Nat.mul_le_mul_right Z hb
    rw [Nat.succ_mul] at this
    rw [h.length_out]
    omega
  refine ⟨out[b * Z + s], List.getElem?_eq_getElem hlt, h.bucket b hb _ ?_⟩
  have hget : ((out.drop (b * Z)).take Z)[s]? = some out[b * Z + s] := by
    rw [List.getElem?_take_of_lt hs, List.getElem?_drop, List.getElem?_eq_getElem hlt]
  exact List.mem_of_getElem? hget

/-- The root. -/
theorem TreeSpec.root {out up : List (ORAMEntry δ)} (hZ : 0 < Z)
    (h : LevelSpec Z level 1 reads out up) :
    TreeSpec Z level 0 reads out := by
  obtain ⟨dropped, hperm, hnone⟩ := h.perm
  have hup : up = [] := List.eq_nil_of_length_eq_zero h.length_up
  subst hup
  rw [List.append_nil] at hperm
  refine ⟨by rw [h.length_out]; rfl, fun j hj b hb s hs => ?_, ⟨dropped, hperm⟩, fun _ => ?_⟩
  · obtain rfl : j = 0 := by omega
    rw [levelStart_zero, Nat.zero_add]
    exact h.slot hb hs
  · have hlast := h.last rfl hZ
    rwa [reals_append, hnone (by omega), List.append_nil] at hperm

/-- A level below a tree. -/
theorem LevelSpec.cons {k : Nat} {out up rest : List (ORAMEntry δ)}
    (h : LevelSpec Z level (2 ^ (k + 1)) reads out up) (ht : TreeSpec Z (level + 1) k up rest) :
    TreeSpec Z level (k + 1) reads (out ++ rest) := by
  obtain ⟨dropped, hperm, hnone⟩ := h.perm
  refine ⟨?_, fun j hj b hb s hs => ?_, ?_, fun hplaced => ?_⟩
  · have hpos := Nat.two_pow_pos (k + 1)
    rw [List.length_append, h.length_out, ht.length_eq, ← Nat.add_mul, Nat.pow_succ 2 (k + 1)]
    congr 1
    omega
  · cases j with
    | zero =>
      obtain ⟨e, he, hbucket⟩ := h.slot hb hs
      refine ⟨e, ?_, hbucket⟩
      rw [levelStart_zero, Nat.zero_add, List.getElem?_append_left
        (List.getElem?_eq_some_iff.1 he).1, he]
    | succ j =>
      obtain ⟨e, he, hbucket⟩ :=
        ht.bucket j (by omega) b (by rwa [Nat.add_sub_add_right] at hb) s hs
      refine ⟨e, ?_, by rwa [Nat.add_assoc, Nat.add_comm 1 j] at hbucket⟩
      rw [levelStart_succ Z (by omega), ← h.length_out, Nat.add_assoc, Nat.add_assoc,
        List.getElem?_append_right (Nat.le_add_right _ _), Nat.add_sub_cancel_left,
        ← Nat.add_assoc, he]
  · obtain ⟨dropped', hperm'⟩ := ht.perm
    refine ⟨dropped' ++ dropped, List.Perm.trans ?_ hperm⟩
    simp only [reals_append] at hperm' ⊢
    rw [List.append_assoc, ← List.append_assoc (reals rest)]
    exact ((hperm'.append_right _).append_left _).trans (.of_eq (List.append_assoc _ _ _).symm)
  · -- after the lowest level
    have hfirst := hplaced 0 (by omega)
    rw [levelStart_succ Z (by omega), levelStart_zero, Nat.add_zero, ← h.length_out, List.take_left]
      at hfirst
    have hup := hnone (by
      rw [Nat.pow_succ, Nat.mul_div_cancel _ (by decide)]
      exact hfirst)
    rw [reals_append, reals_append, hup, List.append_nil] at hperm
    -- after the levels above
    have hrest := ht.all fun j hj => by
      have := hplaced (j + 1) (by omega)
      rw [levelStart_succ Z (by omega), ← h.length_out, List.take_length_add_append, reals_append,
        List.length_append, show k + 1 - (j + 1) - 1 = k - j - 1 by omega] at this
      have hlen := hperm.length_eq
      rw [List.length_append] at hlen
      omega
    rw [reals_append]
    exact (hrest.append_left _).trans hperm

variable [Inhabited δ] {sortLevel : Nat → Sorter (@LevelPosEntry.lt δ)}
  {sortMark : Nat → Sorter (@MarkEntry.lt δ)}

theorem oramLevel_spec (hr : Reads level n reads) :
    LevelSpec Z level n reads
      (oramLevel (fun l => (sortLevel l).run) (fun l => (sortMark l).run) Z level reads).1
      (oramLevel (fun l => (sortLevel l).run) (fun l => (sortMark l).run) Z level reads).2 := by
  have h :=
    LevelRun.mk hr (intermediate_of_sort ((sortLevel level).spec (levelReader Z level reads)))
    ((sortMark level).spec _)
  have hspec := h.spec
  rw [← hr.length_eq] at hspec ⊢
  exact hspec

/-- **`ORAMInitHelper`** builds the levels from `level` on. -/
theorem oramInitHelper_spec (hZ : 0 < Z) {k : Nat} (hr : Reads level (2 ^ k) reads) :
    ∃ out, oramInitHelper (fun l => (sortLevel l).run) (fun l => (sortMark l).run) Z level reads =
      .ok out ∧
      TreeSpec Z level k reads out := by
  have hpow : ∀ k : Nat, 2 ^ k &&& (2 ^ k - 1) = 0 := fun k => by
    rw [Nat.and_two_pow_sub_one_eq_mod, Nat.mod_self]
  have hpos : ∀ k : Nat, 2 ^ k ≠ 0 := fun k => Nat.ne_of_gt (Nat.two_pow_pos k)
  induction k generalizing level reads with
  | zero =>
    have hspec := @oramLevel_spec δ Z level _ reads _ sortLevel sortMark hr
    have hup := hspec.length_up
    refine ⟨_, ?_, TreeSpec.root hZ hspec⟩
    rw [oramInitHelper, hr.length_eq, if_neg (by simp), if_neg (hpos 0)]
    dsimp only
    rw [oramInitHelper, hup]
    simp
    rfl
  | succ k ih =>
    have hspec := @oramLevel_spec δ Z level _ reads _ sortLevel sortMark hr
    obtain ⟨rest, hrest, ht⟩ := ih (Reads.up hspec)
    refine ⟨_, ?_, hspec.cons ht⟩
    rw [oramInitHelper, hr.length_eq, if_neg (by rw [hpow]; simp), if_neg (hpos _)]
    dsimp only
    rw [hrest]
    rfl

/-- The reals of the input that are not in the levels up to `l`. -/
def unplaced (Z h l : Nat) (input out : List (ORAMEntry δ)) : Nat :=
  (reals input).length - (reals (out.take (levelStart Z h (l + 1)))).length

/-- **`ORAMInit` builds a valid tree**: level by level from the leaves, each bucket with `Z` slots
for dummies and entries of its own; no real entry more often than it came, and all of them if those
that a level leaves over fit into the level above. -/
theorem oramInit_valid [DecidableEq δ] (sortLevel : Nat → Sorter (@LevelPosEntry.lt δ))
    (sortMark : Nat → Sorter (@MarkEntry.lt δ)) (h Z : Nat) (hZ : 1 ≤ Z)
    (input : List (ORAMEntry δ)) (hlen : input.length = 2 ^ h) (hpos : ∀ e ∈ input, e.pos < 2 ^ h)
    (huid : ∀ e ∈ input, e.uid < 2 ^ 64 - 1) :
    ∃ out, oramInit (fun l => (sortLevel l).run) (fun l => (sortMark l).run) Z input = .ok out ∧
      out.length = (2 ^ (h + 1) - 1) * Z ∧
      (∀ l ≤ h, ∀ b < 2 ^ (h - l), ∀ s < Z, ∃ e, out[levelStart Z h l + b * Z + s]? = some e ∧
        (e.uid = dummyUid ∨ e.pos >>> l = b)) ∧
      (∀ e, e.uid ≠ dummyUid → out.count e ≤ input.count e) ∧
      ((∀ l < h, unplaced Z h l input out ≤ 2 ^ (h - l - 1)) →
        ∀ e ∈ input, out.count e = input.count e) := by
  have hr : Reads 0 (2 ^ h) input := ⟨hlen, hpos, fun e he => Nat.le_of_lt (huid e he)⟩
  obtain ⟨out, hout, ht⟩ := @oramInitHelper_spec δ Z 0 input _ sortLevel sortMark hZ h hr
  have hreal : ∀ (e : ORAMEntry δ) (xs : List (ORAMEntry δ)), e.uid ≠ dummyUid →
      xs.count e = (reals xs).count e := fun e xs he =>
    (List.count_filter (by simpa [isReal] using he)).symm
  refine ⟨out, hout, ht.length_eq, fun l hl b hb s hs => ?_, fun e he => ?_, fun hplaced e he => ?_⟩
  · obtain ⟨e, hget, hbucket⟩ := ht.bucket l hl b hb s hs
    rw [Nat.zero_add] at hbucket
    exact ⟨e, hget, .inr hbucket⟩
  · obtain ⟨dropped, hperm⟩ := ht.perm
    rw [hreal e out he, hreal e input he, ← hperm.count_eq, reals_append, List.count_append]
    exact Nat.le_add_right _ _
  · have hne : e.uid ≠ dummyUid := Nat.ne_of_lt (huid e he)
    rw [hreal e out hne, hreal e input hne, (ht.all hplaced).count_eq]

/-- The levels by position and uid. -/
def LevelPosEntry.sorter : Sorter (@LevelPosEntry.lt δ) :=
  Sorter.byKey (fun x => toLex (x.levelPos, x.entry.uid)) _ fun a b hab => by
    simp only [LevelPosEntry.lt, Bool.or_eq_true, Bool.and_eq_true, decide_eq_true_eq] at hab
    exact Prod.Lex.toLex_lt_toLex.2 hab

/-- Marked entries first. -/
def MarkEntry.sorter : Sorter (@MarkEntry.lt δ) :=
  Sorter.byKey (fun x => toLex (!x.isMarked, if x.isMarked then x.entry.pos else x.entry.uid)) _
    fun a b hab => by
      rw [Prod.Lex.toLex_lt_toLex]
      cases ha : a.isMarked <;> cases hb : b.isMarked <;> simp_all [MarkEntry.lt]

/-- Four entries, three of them for one leaf, in buckets of one. -/
theorem oramInit_valid_four :
    ∃ out, oramInit (fun _ => LevelPosEntry.sorter.run) (fun _ => MarkEntry.sorter.run) 1
        [⟨2, 0, ()⟩, ⟨2, 1, ()⟩, ⟨2, 2, ()⟩, ⟨1, 3, ()⟩] = .ok out ∧ out.length = 7 ∧
      ∀ e ∈ ([⟨2, 0, ()⟩, ⟨2, 1, ()⟩, ⟨2, 2, ()⟩, ⟨1, 3, ()⟩] : List (ORAMEntry Unit)),
        out.count e = [⟨2, 0, ()⟩, ⟨2, 1, ()⟩, ⟨2, 2, ()⟩, ⟨1, 3, ()⟩].count e := by
  obtain ⟨out, hout, hlen, -, -, hall⟩ := oramInit_valid (fun _ => LevelPosEntry.sorter)
    (fun _ => MarkEntry.sorter) 2 1 (by decide) [⟨2, 0, ()⟩, ⟨2, 1, ()⟩, ⟨2, 2, ()⟩, ⟨1, 3, ()⟩] rfl
    (by decide) (by decide)
  refine ⟨out, hout, hlen, hall ?_⟩
  have hrun : oramInit (fun _ => LevelPosEntry.sorter.run) (fun _ => MarkEntry.sorter.run) 1
      [⟨2, 0, ()⟩, ⟨2, 1, ()⟩, ⟨2, 2, ()⟩, ⟨1, 3, ()⟩] =
        .ok [⟨0, dummyUid, ()⟩, ⟨1, 3, ()⟩, ⟨2, 0, ()⟩, ⟨3, dummyUid, ()⟩,
          ⟨0, dummyUid, ()⟩, ⟨2, 1, ()⟩, ⟨2, 2, ()⟩] := by
    decide +kernel
  rw [hrun] at hout
  cases hout
  decide

end Apps
