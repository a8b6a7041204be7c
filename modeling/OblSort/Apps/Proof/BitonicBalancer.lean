import OblSort.Apps.BitonicBalancer
import OblSort.Algorithm.Proof.Bitonic
import OblSort.Algorithm.Proof.OrCompact
import OblSort.Lib.Runs

/-!
# What the bitonic load balancer keeps

After the sort the loop keeps the first `bktSize` entries of every shard, fillers or not. So the
front always has `bktSize` entries of every shard, but which of them are real depends on how the
network orders entries of the same shard. A pair of the last shard does not come through
(`balanceBatch_keeps`): the left half has all pairs and the right half the fillers of the last
shard, and the last merge takes one of the pairs behind the fillers.
-/

namespace Apps.ParOMap

open EM.Algorithm Compact Runs Store

variable {K V : Type}

/-! ## The loop -/

/-- The shard of an entry. -/
def shardKey (x : PartitionElement K V) : Nat := x.shardIdx.toNat

/-- On sorted entries one counter is enough. -/
theorem keepFlags_eq {bktSize : Nat} {currShardIdx : BitVec 32} {currShardCount : Nat}
    {seen : Nat → Nat} {vec : List (PartitionElement K V)}
    (hsorted : vec.Pairwise fun a b => shardKey a ≤ shardKey b)
    (hge : ∀ x ∈ vec, currShardIdx.toNat ≤ shardKey x)
    (hcount : seen currShardIdx.toNat = currShardCount)
    (hnew : ∀ k, currShardIdx.toNat < k → seen k = 0) :
    keepFlags bktSize currShardIdx currShardCount vec = marks shardKey bktSize seen vec := by
  induction vec generalizing currShardIdx currShardCount seen with
  | nil => rfl
  | cons x vec ih =>
    obtain ⟨hx, hsorted⟩ := List.pairwise_cons.1 hsorted
    have hle := hge x List.mem_cons_self
    simp only [keepFlags, marks]
    by_cases hsame : x.shardIdx = currShardIdx
    · subst hsame
      have hseen : seen (shardKey x) = currShardCount := hcount
      simp only [beq_self_eq_true, if_true, hseen]
      rw [ih hsorted hx (Function.update_self _ _ _) fun k hk => ?_]
      · rfl
      · rw [Function.update_of_ne (Nat.ne_of_gt hk)]
        exact hnew k hk
    · have hlt : currShardIdx.toNat < shardKey x :=
        Nat.lt_of_le_of_ne hle fun h => hsame (BitVec.eq_of_toNat_eq h.symm)
      have hseen : seen (shardKey x) = 0 := hnew _ hlt
      have hfalse : (x.shardIdx == currShardIdx) = false := beq_eq_false_iff_ne.2 hsame
      simp only [hfalse, Bool.false_eq_true, if_false, hseen]
      rw [ih hsorted hx (Function.update_self _ _ _) fun k hk => ?_]
      · rfl
      · rw [Function.update_of_ne (Nat.ne_of_gt hk)]
        exact hnew k (hlt.trans hk)

theorem lt_decides : Net.Decides (fun a b : PartitionElement K V => shardKey a ≤ shardKey b)
    PartitionElement.lt where
  trans _ _ _ hab hbc := Nat.le_trans hab hbc
  le_of_cmp a b h := by
    have : a.shardIdx < b.shardIdx := of_decide_eq_true h
    exact (BitVec.lt_def.1 this).le
  le_of_not a b h := by
    have : ¬ a.shardIdx < b.shardIdx := of_decide_eq_false h
    exact Nat.not_lt.1 fun hlt => this (BitVec.lt_def.2 hlt)

/-- **The loop and the compaction** on a vector: the first of every shard come to the front. -/
theorem compacted_firsts {bktSize : Nat} {vec : List (PartitionElement K V)}
    (hlen : vec.length < 2 ^ 64) (hsorted : vec.Pairwise fun a b => shardKey a ≤ shardKey b) :
    (orCompactPrefix vec.length (fun i => (markPrefix 64 (keepFlags bktSize 0 0 vec)).getD i 0)
      vec).take (firsts shardKey bktSize vec).length = firsts shardKey bktSize vec := by
  have hflags : keepFlags bktSize 0 0 vec = marks shardKey bktSize (fun _ => 0) vec :=
    keepFlags_eq hsorted (fun x _ => Nat.zero_le _) rfl fun k _ => rfl
  have hmarks := length_marks shardKey bktSize (fun _ => 0) vec
  have hcount := List.count_le_length (a := true) (l := marks shardKey bktSize (fun _ => 0) vec)
  have h := orCompactPrefix_selected hmarks hlen (markPrefix_sums (Nat.le_refl 64) (by omega))
  rw [hflags, firsts, length_selected hmarks]
  exact h.2

/-! ## The entries of a shard -/

section

variable [Inhabited K] [Inhabited V]

theorem shardKey_filler {n j : Nat} (hn : n ≤ 2 ^ 32) (hj : j < n) :
    shardKey (filler j : PartitionElement K V) = j :=
  Nat.mod_eq_of_lt (by omega)

theorem mem_fillers {n b : Nat} {x : PartitionElement K V} (hx : x ∈ fillers n b) :
    ∃ j < n, x = filler j := by
  obtain ⟨j, hj, hx⟩ := List.mem_flatMap.1 hx
  exact ⟨j, List.mem_range.1 hj, List.eq_of_mem_replicate hx⟩

theorem length_fillers (n b : Nat) : (fillers n b : List (PartitionElement K V)).length = n * b :=
  length_gather (f := fun j => List.replicate b (filler j)) fun _ _ => List.length_replicate

theorem countP_fillers {n : Nat} (hn : n ≤ 2 ^ 32) (b k : Nat) :
    (fillers n b : List (PartitionElement K V)).countP (fun x => decide (shardKey x = k)) =
      if k < n then b else 0 := by
  induction n with
  | zero => rfl
  | succ n ih =>
    have hlast : shardKey (filler n : PartitionElement K V) = n := shardKey_filler hn (by omega)
    have hstep : (fillers (n + 1) b : List (PartitionElement K V)) =
        fillers n b ++ List.replicate b (filler n) :=
      gather_succ n _
    rw [hstep, List.countP_append, ih (by omega), List.countP_replicate, hlast]
    by_cases hk : n = k
    · subst hk
      simp
    · have hiff : k < n + 1 ↔ k < n := by omega
      simp [hk, hiff]

theorem le_count_filler {n j : Nat} [DecidableEq (PartitionElement K V)] (hj : j < n) (b : Nat) :
    b ≤ (fillers n b : List (PartitionElement K V)).count (filler j) := by
  have hsub : (List.replicate b (filler j)).Sublist (fillers n b : List (PartitionElement K V)) :=
    sublist_gather hj fun j => List.replicate b (filler j)
  simpa using hsub.count_le (filler j)

variable {omap : ParOMap K} {numShards : BitVec 32} {bktSize : Nat} {batch : List (K × V)}

theorem countP_fillVec (k : Nat) :
    (omap.fillVec numShards bktSize batch).countP (fun x => decide (shardKey x = k)) =
      batch.countP (fun p => decide ((omap.shard p.1).toNat = k)) +
        if k < numShards.toNat then bktSize else 0 := by
  rw [fillVec, List.countP_append, countP_fillers numShards.isLt.le, List.countP_map]
  rfl

theorem shardKey_lt (hshard : ∀ p ∈ batch, omap.shard p.1 < numShards)
    {x : PartitionElement K V} (hx : x ∈ omap.fillVec numShards bktSize batch) :
    shardKey x < numShards.toNat := by
  rcases List.mem_append.1 hx with hx | hx
  · obtain ⟨p, hp, rfl⟩ := List.mem_map.1 hx
    exact BitVec.lt_def.1 (hshard p hp)
  · obtain ⟨j, hj, rfl⟩ := mem_fillers hx
    rwa [shardKey_filler numShards.isLt.le hj]

/-- The real entries are among the first ones of their shards if all others are fillers. -/
theorem entries_subperm_iff
    (hfit : ∀ k, batch.countP (fun p => decide ((omap.shard p.1).toNat = k)) ≤ bktSize)
    {vec : List (PartitionElement K V)} (hvec : vec.Perm (omap.fillVec numShards bktSize batch)) :
    (batch.map omap.entry).Subperm (firsts shardKey bktSize vec) ↔
      ∀ x ∈ rests shardKey bktSize vec, x ∈ (fillers numShards.toNat bktSize : List _) := by
  classical
  have hall : List.Perm (firsts shardKey bktSize vec ++ rests shardKey bktSize vec)
      (batch.map omap.entry ++ fillers numShards.toNat bktSize) :=
    (firsts_append_rests shardKey bktSize vec).trans hvec
  constructor
  · rintro ⟨reals, hreals, hsub⟩ x hx
    obtain ⟨others, hothers⟩ := hsub.exists_perm_append
    have hrest : List.Perm (others ++ rests shardKey bktSize vec)
        (fillers numShards.toNat bktSize) := by
      rw [← List.perm_append_left_iff reals, ← List.append_assoc]
      exact (hothers.symm.append_right _).trans (hall.trans (hreals.symm.append_right _))
    exact hrest.mem_iff.1 (List.mem_append_right _ hx)
  · intro hrests
    have hsub : (rests shardKey bktSize vec).Subperm (fillers numShards.toNat bktSize) := by
      refine List.subperm_ext_iff.2 fun x hx => ?_
      obtain ⟨j, hj, rfl⟩ := mem_fillers (hrests x hx)
      have hkey := shardKey_filler (K := K) (V := V) numShards.isLt.le hj
      have hcount : (rests shardKey bktSize vec).count (filler j) ≤
          (rests shardKey bktSize vec).countP fun x => decide (shardKey x = j) :=
        List.countP_mono_left fun x _ h => by
          rw [eq_of_beq h]
          exact decide_eq_true hkey
      have hfew := hfit j
      rw [count_rests, hvec.countP_eq, countP_fillVec, if_pos hj] at hcount
      exact (hcount.trans (by omega)).trans (le_count_filler hj bktSize)
    obtain ⟨reals, hreals, hsub⟩ := hsub
    obtain ⟨others, hothers⟩ := hsub.exists_perm_append
    have hfirsts : List.Perm (firsts shardKey bktSize vec) (batch.map omap.entry ++ others) := by
      rw [← List.perm_append_right_iff (rests shardKey bktSize vec), List.append_assoc]
      refine hall.trans ((hothers.trans ?_).append_left _)
      exact (hreals.append_right _).trans List.perm_append_comm
    exact (List.sublist_append_left _ _).subperm.trans hfirsts.symm.subperm

end

/-! ## The balancer -/

section

variable [Inhabited K] [Inhabited V] {omap : ParOMap K} {numShards : BitVec 32} {bktSize : Nat}
  {batch : List (K × V)}

/-- An entry of the batch is like a filler if its pair is. -/
theorem entry_mem_fillers_iff (hshard : ∀ p ∈ batch, omap.shard p.1 < numShards)
    (hfit : ∀ k, batch.countP (fun p => decide ((omap.shard p.1).toNat = k)) ≤ bktSize)
    {p : K × V} (hp : p ∈ batch) :
    omap.entry p ∈ (fillers numShards.toNat bktSize : List _) ↔ p = default := by
  constructor
  · intro hfiller
    obtain ⟨j, -, hj⟩ := mem_fillers hfiller
    have hkey : p.1 = default := congrArg PartitionElement.key hj
    have hvalue : p.2 = default := congrArg PartitionElement.value hj
    exact Prod.ext hkey hvalue
  · intro hdefault
    have hpos : 0 < batch.countP fun q =>
        decide ((omap.shard q.1).toNat = (omap.shard p.1).toNat) :=
      List.countP_pos_iff.2 ⟨p, hp, decide_eq_true rfl⟩
    have hle := hfit (omap.shard p.1).toNat
    refine List.mem_flatMap.2 ⟨(omap.shard p.1).toNat,
      List.mem_range.2 (BitVec.lt_def.1 (hshard p hp)), List.mem_replicate.2 ⟨by omega, ?_⟩⟩
    rw [entry, filler, BitVec.ofNat_toNat, BitVec.setWidth_eq, hdefault]
    rfl

theorem length_fillVec :
    (omap.fillVec numShards bktSize batch).length = batch.length + numShards.toNat * bktSize := by
  rw [fillVec, List.length_append, List.length_map, length_fillers]

theorem sorted_fillVec (hsize : batch.length + numShards.toNat * bktSize < 2 ^ 63) :
    (bitonicSortList PartitionElement.lt (omap.fillVec numShards bktSize batch)).Pairwise
      fun a b => shardKey a ≤ shardKey b :=
  bitonicSortList_sorted lt_decides (by rw [length_fillVec]; omega)

/-- The shards of the entries that are kept. -/
theorem map_shardIdx_firsts (hsize : batch.length + numShards.toNat * bktSize < 2 ^ 63)
    (hshard : ∀ p ∈ batch, omap.shard p.1 < numShards) :
    (firsts shardKey bktSize (bitonicSortList PartitionElement.lt
        (omap.fillVec numShards bktSize batch))).map (·.shardIdx) =
      (List.range numShards.toNat).flatMap fun j => List.replicate bktSize (BitVec.ofNat 32 j) := by
  have hperm := bitonicSortList_perm PartitionElement.lt (omap.fillVec numShards bktSize batch)
  have hkeys := map_key_firsts (sorted_fillVec hsize)
    (fun x hx => shardKey_lt hshard (hperm.mem_iff.1 hx)) fun k hk => by
      rw [hperm.countP_eq, countP_fillVec, if_pos hk]
      exact Nat.le_add_left _ _
  have hidx : (fun x : PartitionElement K V => x.shardIdx) =
      fun x => BitVec.ofNat 32 (shardKey x) := by
    funext x
    rw [shardKey, BitVec.ofNat_toNat, BitVec.setWidth_eq]
  calc
    _ = ((firsts shardKey bktSize (bitonicSortList PartitionElement.lt
          (omap.fillVec numShards bktSize batch))).map shardKey).map (BitVec.ofNat 32) := by
      rw [List.map_map, hidx]
      rfl
    _ = _ := by
      rw [hkeys, gather, List.map_flatMap]
      simp only [List.map_replicate]

/-- The front of the compacted vector. -/
theorem take_balanceBatch (hsize : batch.length + numShards.toNat * bktSize < 2 ^ 63)
    (hshard : ∀ p ∈ batch, omap.shard p.1 < numShards) :
    (omap.balanceBatch numShards bktSize batch).take (numShards.toNat * bktSize) =
      firsts shardKey bktSize
        (bitonicSortList PartitionElement.lt (omap.fillVec numShards bktSize batch)) := by
  have hperm := bitonicSortList_perm PartitionElement.lt (omap.fillVec numShards bktSize batch)
  have hlen : (firsts shardKey bktSize
      (bitonicSortList PartitionElement.lt (omap.fillVec numShards bktSize batch))).length =
        numShards.toNat * bktSize := by
    have h := congrArg List.length (map_shardIdx_firsts (K := K) (V := V) hsize hshard)
    rw [List.length_map] at h
    exact h.trans (length_gather fun _ _ => List.length_replicate)
  rw [← hlen]
  refine compacted_firsts ?_ (sorted_fillVec hsize)
  rw [hperm.length_eq, length_fillVec]
  omega

/-- What the compaction keeps of a batch: all of its entries. -/
def Keeps (omap : ParOMap K) (numShards : BitVec 32) (bktSize : Nat)
    (batch : List (K × V)) : Prop :=
  (batch.map omap.entry).Subperm
    ((omap.balanceBatch numShards bktSize batch).take (numShards.toNat * bktSize))

theorem keeps_iff (hsize : batch.length + numShards.toNat * bktSize < 2 ^ 63)
    (hshard : ∀ p ∈ batch, omap.shard p.1 < numShards)
    (hfit : ∀ k, batch.countP (fun p => decide ((omap.shard p.1).toNat = k)) ≤ bktSize) :
    omap.Keeps numShards bktSize batch ↔
      ∀ x ∈ rests shardKey bktSize
          (bitonicSortList PartitionElement.lt (omap.fillVec numShards bktSize batch)),
        x ∈ (fillers numShards.toNat bktSize : List _) := by
  rw [Keeps, take_balanceBatch hsize hshard]
  exact entries_subperm_iff hfit (bitonicSortList_perm PartitionElement.lt _)

/-- Pairs that are like fillers cannot be lost. -/
theorem keeps_default (hsize : batch.length + numShards.toNat * bktSize < 2 ^ 63)
    (hshard : ∀ p ∈ batch, omap.shard p.1 < numShards)
    (hfit : ∀ k, batch.countP (fun p => decide ((omap.shard p.1).toNat = k)) ≤ bktSize)
    (hdefault : ∀ p ∈ batch, p = default) : omap.Keeps numShards bktSize batch := by
  refine (keeps_iff hsize hshard hfit).2 fun x hx => ?_
  have hmem : x ∈ omap.fillVec numShards bktSize batch :=
    (bitonicSortList_perm _ _).mem_iff.1 ((selected_sublist _ _).subset hx)
  rcases List.mem_append.1 hmem with hentry | hfiller
  · obtain ⟨p, hp, rfl⟩ := List.mem_map.1 hentry
    exact (entry_mem_fillers_iff hshard hfit hp).2 (hdefault p hp)
  · exact hfiller

/-- The left half of `vec` has the whole batch, and no filler of the last shard if there are two
shards or more or the only one is full. -/
theorem fillVec_halves (hshard : ∀ p ∈ batch, omap.shard p.1 < numShards)
    (hfit : ∀ k, batch.countP (fun p => decide ((omap.shard p.1).toNat = k)) ≤ bktSize)
    (hmany : 2 ≤ numShards.toNat ∨ bktSize ≤ batch.length) (hpos : 0 < numShards.toNat) :
    ∃ left right, omap.fillVec numShards bktSize batch = left ++ right ∧
      (left.length + right.length) / 2 = left.length ∧ (∀ p ∈ batch, omap.entry p ∈ left) ∧
      ∀ x ∈ left, shardKey x + 1 = numShards.toNat → ∃ p ∈ batch, x = omap.entry p := by
  have hbatch : batch.length ≤ numShards.toNat * bktSize :=
    length_le_of_countP (fun p hp => BitVec.lt_def.1 (hshard p hp)) hfit
  obtain ⟨n, hn⟩ := Nat.exists_eq_succ_of_ne_zero hpos.ne'
  -- the fillers of the left half
  obtain ⟨c, hc⟩ : ∃ c, (batch.length + numShards.toNat * bktSize) / 2 = batch.length + c :=
    ⟨_, (Nat.add_sub_cancel' (by omega)).symm⟩
  have hsmall : c ≤ n * bktSize := by
    rw [hn, Nat.succ_mul] at hc hbatch
    rcases hmany with h2 | hfull
    · have := Nat.mul_le_mul_right bktSize (show 1 ≤ n by omega)
      omega
    · omega
  have hfirst : (fillers (n + 1) bktSize : List (PartitionElement K V)) =
      fillers n bktSize ++ List.replicate bktSize (filler n) := gather_succ n _
  have hlen : (fillers n bktSize : List (PartitionElement K V)).length = n * bktSize :=
    length_fillers n bktSize
  refine ⟨batch.map omap.entry ++ (fillers n bktSize).take c,
    (fillers n bktSize).drop c ++ List.replicate bktSize (filler n), ?_, ?_, ?_, ?_⟩
  · rw [fillVec, hn, hfirst, List.append_assoc, ← List.append_assoc (List.take c _),
      List.take_append_drop]
  · rw [hn, Nat.succ_mul] at hc
    simp only [List.length_append, List.length_map, List.length_take, List.length_drop,
      List.length_replicate, hlen]
    omega
  · intro p hp
    exact List.mem_append_left _ (List.mem_map_of_mem hp)
  · intro x hx hlast
    rcases List.mem_append.1 hx with hentry | hfiller
    · obtain ⟨p, hp, rfl⟩ := List.mem_map.1 hentry
      exact ⟨p, hp, rfl⟩
    · obtain ⟨j, hj, rfl⟩ := mem_fillers (List.mem_of_mem_take hfiller)
      have hle := numShards.isLt
      rw [shardKey_filler (n := n) (by omega) hj] at hlast
      omega

/-- A pair of the last shard is lost: the sort takes it behind all entries of the shard. -/
theorem exists_rest (hsize : batch.length + numShards.toNat * bktSize < 2 ^ 63)
    (hshard : ∀ p ∈ batch, omap.shard p.1 < numShards)
    (hfit : ∀ k, batch.countP (fun p => decide ((omap.shard p.1).toNat = k)) ≤ bktSize)
    (hmany : 2 ≤ numShards.toNat ∨ bktSize ≤ batch.length)
    (hlast : ∃ p ∈ batch, (omap.shard p.1).toNat + 1 = numShards.toNat) :
    ∃ p ∈ batch, omap.entry p ∈ rests shardKey bktSize
      (bitonicSortList PartitionElement.lt (omap.fillVec numShards bktSize batch)) := by
  obtain ⟨p, hp, hlast⟩ := hlast
  obtain ⟨left, right, hvec, hhalf, hin, hreal⟩ := fillVec_halves hshard hfit hmany (by omega)
  have hlen := congrArg List.length hvec
  rw [length_fillVec, List.length_append] at hlen
  have hperm := bitonicSortList_perm PartitionElement.lt (omap.fillVec numShards bktSize batch)
  have hkey : shardKey (omap.entry p) + 1 = numShards.toNat := hlast
  obtain ⟨x, hx, hle, hend⟩ := bitonicSortList_last lt_decides
    (fun a b hab => Nat.not_le.2 (BitVec.lt_def.1 (of_decide_eq_true hab))) hhalf
      (by omega) (hin p hp)
    fun y hy => by
      have := shardKey_lt hshard (show y ∈ omap.fillVec numShards bktSize batch by rwa [hvec])
      omega
  rw [← hvec] at hend
  have hxkey : shardKey x = numShards.toNat - 1 := by
    have := shardKey_lt hshard (show x ∈ omap.fillVec numShards bktSize batch by
      rw [hvec]
      exact List.mem_append_left _ hx)
    omega
  obtain ⟨q, hq, rfl⟩ := hreal x hx (by omega)
  refine ⟨q, hq, ?_⟩
  obtain ⟨front, hfront⟩ := List.getLast?_eq_some_iff.1 hend
  rw [hfront] at hperm ⊢
  refine mem_rests_concat ?_
  -- `bktSize` fillers and a pair are in the shard
  have hcount := hperm.countP_eq fun y => decide (shardKey y = shardKey (omap.entry q))
  have hpair : 0 < batch.countP fun p => decide
    ((omap.shard p.1).toNat = shardKey (omap.entry q)) :=
    List.countP_pos_iff.2 ⟨q, hq, decide_eq_true rfl⟩
  rw [countP_fillVec, if_pos (by omega), List.countP_append, List.countP_singleton,
    if_pos (decide_eq_true rfl)] at hcount
  omega

/-- A batch that keeps its pairs sends none to the last shard, if no pair is like a filler. -/
theorem Keeps.shard_lt (hsize : batch.length + numShards.toNat * bktSize < 2 ^ 63)
    (hshard : ∀ p ∈ batch, omap.shard p.1 < numShards)
    (hfit : ∀ k, batch.countP (fun p => decide ((omap.shard p.1).toNat = k)) ≤ bktSize)
    (hmany : 2 ≤ numShards.toNat ∨ bktSize ≤ batch.length) (hreal : ∀ p ∈ batch, p ≠ default)
    (h : omap.Keeps numShards bktSize batch) {p : K × V} (hp : p ∈ batch) :
    (omap.shard p.1).toNat + 1 < numShards.toNat := by
  by_contra hge
  have hlt := BitVec.lt_def.1 (hshard p hp)
  obtain ⟨q, hq, hrest⟩ := exists_rest hsize hshard hfit hmany ⟨p, hp, by omega⟩
  exact hreal q hq ((entry_mem_fillers_iff hshard hfit hq).1
    ((keeps_iff hsize hshard hfit).1 h _ hrest))

/-- No bucket size is large enough: the last shard can be filled with one pair. -/
theorem not_keeps_replicate {p : K × V} (hsize : bktSize + numShards.toNat * bktSize < 2 ^ 63)
    (hpos : 0 < bktSize) (hlast : (omap.shard p.1).toNat + 1 = numShards.toNat) (hp : p ≠ default) :
    ¬ omap.Keeps numShards bktSize (List.replicate bktSize p) := by
  intro hkeeps
  have hall : ∀ q ∈ List.replicate bktSize p, q = p := fun q hq => List.eq_of_mem_replicate hq
  have hlen : (List.replicate bktSize p).length = bktSize := List.length_replicate
  have hlt := hkeeps.shard_lt (by rwa [hlen]) (fun q hq => ?_) (fun k => ?_) (.inr hlen.ge)
    (fun q hq => by rwa [hall q hq]) (List.mem_replicate.2 ⟨hpos.ne', rfl⟩)
  · omega
  · rw [hall q hq]
    exact BitVec.lt_def.2 (by omega)
  · exact List.countP_le_length.trans hlen.le

/-- **The bitonic load balancer** brings `bktSize` entries of every shard to the front, in the order
of the shards. The entries of the batch are among them if they are all like fillers, which is to say
that nothing can be lost; and they are not if a pair goes to the last shard, none of the pairs is
like a filler, and there are two shards or more or the only one is full. -/
theorem balanceBatch_keeps (hsize : batch.length + numShards.toNat * bktSize < 2 ^ 63)
    (hshard : ∀ p ∈ batch, omap.shard p.1 < numShards)
    (hfit : ∀ k, batch.countP (fun p => decide ((omap.shard p.1).toNat = k)) ≤ bktSize) :
    ((omap.balanceBatch numShards bktSize batch).take (numShards.toNat * bktSize)).map
      (·.shardIdx) =
      (List.range numShards.toNat).flatMap (fun j => List.replicate bktSize (BitVec.ofNat 32 j)) ∧
    ((∀ p ∈ batch, p = default) → omap.Keeps numShards bktSize batch) ∧
    ((2 ≤ numShards.toNat ∨ bktSize ≤ batch.length) → (∀ p ∈ batch, p ≠ default) →
      omap.Keeps numShards bktSize batch →
        ∀ p ∈ batch, (omap.shard p.1).toNat + 1 < numShards.toNat) := by
  refine ⟨?_, keeps_default hsize hshard hfit, fun hmany hreal hkeeps p hp => ?_⟩
  · rw [take_balanceBatch hsize hshard]
    exact map_shardIdx_firsts hsize hshard
  · exact hkeeps.shard_lt hsize hshard hfit hmany hreal hp

end

/-- A single shard. -/
def oneShard : ParOMap Nat := ⟨1, BitVec.allOnes 64, fun _ => 0⟩

theorem oneShard_fits {bktSize : Nat} {batch : List (Nat × Nat)} (hlen : batch.length ≤ bktSize)
    (k : Nat) : batch.countP (fun p => decide ((oneShard.shard p.1).toNat = k)) ≤ bktSize :=
  List.countP_le_length.trans hlen

/-- One filler, and a pair that is like it or another one. -/
theorem balanceBatch_keeps_one :
    oneShard.Keeps 1 1 [(0, 0)] ∧ ¬ oneShard.Keeps 1 1 [(1, 7)] := by
  constructor
  · refine (balanceBatch_keeps (by decide) ?_ (oneShard_fits (Nat.le_refl _))).2.1 (by decide)
    decide +kernel
  · intro hkeeps
    have hshard : ∀ p ∈ [(1, 7)], oneShard.shard p.1 < 1 := by decide +kernel
    have hlast := (balanceBatch_keeps (by decide) hshard (oneShard_fits (Nat.le_refl _))).2.2
      (.inr (by decide)) (by decide) hkeeps (1, 7) List.mem_cons_self
    exact absurd hlast (by decide +kernel)

/-- Eight fillers: here the ties fall so that the pair is kept. -/
example : ([(1, 7)].map oneShard.entry).Subperm
    ((oneShard.balanceBatch 1 8 [(1, 7)]).take (1 * 8)) := by
  decide +kernel

/-- With one filler the pair is lost. -/
theorem balanceBatch_loses :
    (∀ p ∈ [(1, 7)], oneShard.shard p.1 < 1) ∧
      (∀ k, [(1, 7)].countP (fun p => decide ((oneShard.shard p.1).toNat = k)) ≤ 1) ∧
      ¬ ([(1, 7)].map oneShard.entry).Subperm
        ((oneShard.balanceBatch 1 1 [(1, 7)]).take (1 * 1)) :=
  ⟨by decide +kernel, oneShard_fits (Nat.le_refl _), by decide +kernel⟩

end Apps.ParOMap
