import OblSort.Apps.LoadBalancer
import OblSort.Algorithm.Proof.ButterflyShuffle
import Mathlib.Data.BitVec
import Mathlib.Tactic.Ring

/-!
# Every pair comes to its shard

After the levels of `route` whose factors multiply to `W`, the buckets lie in blocks of `W` rows of
`parBatchCount` buckets, and row `d` of a block holds what of the block's column has a shard that is
`d` modulo `W` (`Spread`). One level more multiplies `W` by its way (`Spread.next`); after the last
one row `d` is the region of shard `d`.

While pairs are inserted the real elements in front of the next place are the pairs since the last
call of `route` (`Filled`), whatever the buffer held before.
-/

namespace EM.Algorithm

open Loop Store

/-! ## One level -/

section Level

variable {α : Type} {way w n g o i : Nat} {m m₁ m' : Nat → List (TaggedT α)}

/-- A bucket of a level by its group, its offset in the group and its way. -/
theorem bucket_inj {g' o' i' : Nat} (hi : i < way) (hi' : i' < way) (ho : o < w) (ho' : o' < w)
    (h : (i + g * way) * w + o = (i' + g' * way) * w + o') : i = i' ∧ g = g' ∧ o = o' := by
  have h₁ :=
    grid_inj ho ho' (show 0 + (i + g * way) * w + o = 0 + (i' + g' * way) * w + o' by omega)
  have h₂ := grid_inj hi hi' (show 0 + g * way + i = 0 + g' * way + i' by omega)
  exact ⟨h₂.2, h₂.1, h₁.2⟩

theorem bucket_lt {G : Nat} (hi : i < way) (hg : g < G) (ho : o < w) :
    (i + g * way) * w + o < G * way * w := by
  have := grid_lt hg hi
  exact grid_lt (by omega) ho

/-- After the first `n` merge-splits of a level with this stride. -/
structure LevelUpTo (way w n : Nat) (m m' : Nat → List (TaggedT α)) : Prop where
  routed : ∀ g o, o < w → g * w + o < n → ∀ i < way, List.Perm (reals (m' ((i + g * way) * w + o)))
    (part way i (gather way fun j => reals (m ((j + g * way) * w + o))))
  later : ∀ g o, o < w → n ≤ g * w + o → ∀ i < way,
    m' ((i + g * way) * w + o) = m ((i + g * way) * w + o)

theorem LevelUpTo.zero : LevelUpTo way w 0 m m :=
  ⟨fun _ _ _ h => absurd h (by omega), fun _ _ _ _ _ _ => rfl⟩

theorem LevelUpTo.next (h : LevelUpTo way w n m m₁) (hw : 0 < w) {vals : Nat → List (TaggedT α)}
    (hvals : ∀ i < way, List.Perm (reals (vals i))
      (part way i (gather way fun j => reals (m ((j + n / w * way) * w + n % w))))) :
    LevelUpTo way w (n + 1) m (putAll (fun i => (i + n / w * way) * w + n % w) vals way m₁) := by
  have hn : n / w * w + n % w = n := Nat.div_add_mod' n w
  have ho := Nat.mod_lt n hw
  constructor
  · intro g o ho' hlt i hi
    by_cases hgo : g * w + o = n
    · obtain ⟨rfl, rfl⟩ := grid_inj ho' ho (show 0 + g * w + o = 0 + n / w * w + n % w by omega)
      rw [putAll_idx (fun i hi i' hi' heq => (bucket_inj hi hi' ho ho heq).1) hi]
      exact hvals i hi
    · rw [putAll_of_ne fun i' hi' heq => hgo ?_]
      · exact h.routed g o ho' (by omega) i hi
      · obtain ⟨-, rfl, rfl⟩ := bucket_inj hi' hi ho ho' heq
        exact hn
  · intro g o ho' hle i hi
    rw [putAll_of_ne fun i' hi' heq => ?_]
    · exact h.later g o ho' (by omega) i hi
    · obtain ⟨-, rfl, rfl⟩ := bucket_inj hi' hi ho ho' heq
      omega

end Level

/-! ## The levels -/

section Levels

variable {α : Type} {P W G way : Nat} {f m m' : Nat → List (TaggedT α)}

/-- The network up to the levels with product `W`, on `G` blocks of `W` rows of `P` buckets, where
`f p` enters bucket `p`. -/
def Spread (P W G : Nat) (f m : Nat → List (TaggedT α)) : Prop :=
  ∀ g < G, ∀ d < W, ∀ o < P, List.Perm (reals (m ((g * W + d) * P + o)))
    (part W d (gather W fun i => f ((g * W + i) * P + o)))

theorem Spread.zero (G : Nat) (m : Nat → List (TaggedT α)) :
    Spread P 1 G (fun p => reals (m p)) m := by
  intro g hg d hd o ho
  obtain rfl : d = 0 := by omega
  rw [gather_one, part_one]

/-- **One level more.** -/
theorem Spread.next (h : Spread P W (G * way) f m) (h' : LevelUpTo way (P * W) (G * (P * W)) m m') :
    Spread P (W * way) G f m' := by
  intro g hg e he o ho
  have hW : 0 < W := Nat.pos_of_ne_zero fun h0 => by simp [h0] at he
  have hd : e % W < W := Nat.mod_lt e hW
  have hi : e / W < way := Nat.div_lt_of_lt_mul he
  have hcol : e % W * P + o < P * W := by
    rw [Nat.mul_comm P W]
    exact grid_lt hd ho
  -- bucket `e` of block `g` is way `e / W` of group `g`, in row `e % W`
  have hpos : ∀ j r, ((j + g * way) * (P * W) + (r * P + o)) = ((g * way + j) * W + r) * P + o :=
    fun j r => by ring
  have hlast := h'.routed g _ hcol (grid_lt hg hcol) _ hi
  simp only [hpos] at hlast
  have hbefore : List.Perm (gather way fun j => reals (m (((g * way + j) * W + e % W) * P + o)))
      (part W (e % W) (gather (W * way) fun i => f ((g * (W * way) + i) * P + o))) := by
    rw [Nat.mul_comm W way, gather_mul, part_gather]
    refine gather_perm fun j hj => ?_
    have := h (g * way + j) (grid_lt hg hj) (e % W) hd o ho
    refine this.trans (List.Perm.of_eq (congrArg _ (gather_congr fun i _ => congrArg f ?_)))
    ring
  have he' : (g * way + e / W) * W + e % W = g * (W * way) + e := by
    have := Nat.div_add_mod' e W
    calc (g * way + e / W) * W + e % W = g * (W * way) + (e / W * W + e % W) := by ring
      _ = g * (W * way) + e := by rw [this]
  rw [he'] at hlast
  have := hlast.trans (part_perm hbefore)
  rwa [part_part hd, Nat.mod_add_div] at this

/-- After the last level a row holds the elements of its shard. -/
theorem Spread.region (h : Spread P W 1 f m) {d : Nat} (hd : d < W) :
    List.Perm (gather P fun o => reals (m (d * P + o))) (part W d (gather (P * W) f)) := by
  have hrow : List.Perm (gather P fun o => reals (m (d * P + o)))
      (gather P fun o => part W d (gather W fun i => f (i * P + o))) :=
    gather_perm fun o ho => by
      have := h 0 (by omega) d hd o ho
      simpa only [Nat.zero_mul, Nat.zero_add] using this
  refine hrow.trans ?_
  rw [Nat.mul_comm P W, gather_mul, ← part_gather]
  exact part_perm (gather_comm P W _)

end Levels

end EM.Algorithm

namespace Apps.ParOMap.InitContext

open EM.Algorithm EM.Algorithm.ButterflySorter Loop Store

variable {K V : Type} {C : InitContext K}

/-! ## The stride -/

theorem strideWord_ofNat {n : Nat} (h : n < 2 ^ 31) : strideWord (BitVec.ofNat 32 n) = n := by
  have hmsb : (BitVec.ofNat 32 n).msb = false := by
    rw [BitVec.msb_eq_false_iff_two_mul_lt, BitVec.toNat_ofNat]
    omega
  rw [strideWord, BitVec.signExtend_eq_setWidth_of_msb_false hmsb, BitVec.toNat_setWidth,
    BitVec.toNat_ofNat]
  omega

/-! ## Parameters -/

/-- What an initialisation relies on. The constructor takes `parBatchCount` as a quotient of a
64-bit size, so that the buffer has fewer than `2 ^ 64` places. -/
structure Valid (C : InitContext K) : Prop where
  factor_range : ∀ way ∈ C.factors, 2 ≤ way ∧ way ≤ 8
  shardCount : C.factors.prod = C.shardCount
  parBatchCount : 1 ≤ C.parBatchCount
  bktSize : ∃ m, 1 ≤ m ∧ C.bktSize = 2 ^ m
  bktRealSize : 1 ≤ C.bktRealSize ∧ C.bktRealSize ≤ C.bktSize
  batchSize_lt : C.batchSize < 2 ^ 64

/-- The lanes of every merge-split hold its counts. -/
def LanesFit (C : InitContext K) : Prop :=
  ∀ way ∈ C.factors, way = 2 ∨ (way - 1) * C.bktSize ≤ 2 ^ 31

/-- The stride of every level is an `int`. -/
def StrideFits (C : InitContext K) : Prop :=
  ∀ level < C.factors.length, C.parBatchCount * (C.factors.take level).prod < 2 ^ 31

/-- The buckets all have their size. -/
def Sized (C : InitContext K) (batch : Batch K V) : Prop := ∀ p, (batch p).length = C.bktSize

/-! ## Routing a batch -/

/-- Only the buffer differs. -/
def SameRest (s s' : State K V) : Prop := s' = { s with batch := s'.batch }

theorem SameRest.refl (s : State K V) : SameRest s s := rfl

theorem SameRest.trans {s s' s'' : State K V} (h : SameRest s s') (h' : SameRest s' s'') :
    SameRest s s'' := by
  unfold SameRest at *
  rw [h', h]

/-- The buffer has changed from `s` to `s'` as `R` says. -/
structure Step (C : InitContext K) (R : Batch K V → Batch K V → Prop)
    (s s' : State K V) : Prop where
  batch : R s.batch s'.batch
  sized : C.Sized s'.batch
  rest : SameRest s s'

/-- A merge-split has aborted, with the buffer as it is there. -/
def Aborts (s : State K V) (e : Stopped K V) : Prop := e.1 = .abort ∧ SameRest s e.2

/-- A merge-split whose buckets are all in the buffer. -/
theorem mergeSplitGroup_eq (hZ : 0 < C.bktSize) (hlt : C.batchSize < 2 ^ 64) {way n w : Nat}
    {stride : BitVec 32} (hstride : strideWord stride = w) (hw : 0 < w)
    (hbkt : ∀ j < way, (j + n / w * way) * w + n % w < C.bktPerBatch) (s : State K V) :
    C.mergeSplitGroup way stride n s =
      match mergeSplitKWay way C.bktSize ((List.range way).map fun j =>
        s.batch ((j + n / w * way) * w + n % w)) with
      | none => .error (.abort, s)
      | some out => .ok { s with
          batch := putAll (fun j => (j + n / w * way) * w + n % w) (fun j => out.getD j []) way
            s.batch } := by
  have hpos : ∀ j < way, ((j + n / w * way) * w + n % w) * C.bktSize % 2 ^ 64 / C.bktSize =
      (j + n / w * way) * w + n % w := fun j hj => by
    have := (Nat.mul_le_mul_right C.bktSize (hbkt j hj).le).trans_lt hlt
    rw [Nat.mod_eq_of_lt this, Nat.mul_div_cancel _ hZ]
  have hin : ¬ ∃ j < way, C.bktPerBatch ≤
      ((j + n / w * way) * w + n % w) * C.bktSize % 2 ^ 64 / C.bktSize := by
    rintro ⟨j, hj, hle⟩
    rw [hpos j hj] at hle
    exact absurd (hbkt j hj) (by omega)
  have hread : ((List.range way).map fun j =>
      s.batch (((j + n / w * way) * w + n % w) * C.bktSize % 2 ^ 64 / C.bktSize)) =
      (List.range way).map fun j => s.batch ((j + n / w * way) * w + n % w) :=
    List.map_congr_left fun j hj => by rw [hpos j (List.mem_range.1 hj)]
  simp only [mergeSplitGroup, hstride, if_neg hw.ne', if_neg hin, hread]
  cases mergeSplitKWay way C.bktSize _ with
  | none => rfl
  | some out => simp only [putAll_congr hpos]

theorem mergeSplitLevel_spec (hv : C.Valid) (hl : C.LanesFit) {way : Nat} (hway : way ∈ C.factors)
    {stride : BitVec 32} {w G : Nat} (hstride : strideWord stride = w) (hw : 0 < w)
    (hG : C.bktPerBatch = G * way * w) {s : State K V} (hs : C.Sized s.batch) :
    Ends (C.Step (LevelUpTo way w (G * w)) s) (Aborts s)
      (forRange (C.bktPerBatch / way) (C.mergeSplitGroup way stride) s) := by
  obtain ⟨h2, h8⟩ := hv.factor_range way hway
  obtain ⟨m, hm, hZ⟩ := hv.bktSize
  have hcount : C.bktPerBatch / way = G * w := by
    rw [hG, Nat.mul_right_comm, Nat.mul_div_cancel _ (by omega)]
  rw [hcount]
  refine forRange_ends (fun n => C.Step (LevelUpTo way w n) s) ⟨.zero, hs, .refl s⟩
    fun n hn s₁ h₁ => ?_
  have ho : n % w < w := Nat.mod_lt n hw
  have hg : n / w < G := Nat.div_lt_of_lt_mul (by rwa [Nat.mul_comm])
  rw [mergeSplitGroup_eq (hZ ▸ Nat.two_pow_pos m) hv.batchSize_lt hstride hw
    fun j hj => hG ▸ bucket_lt hj hg ho]
  obtain ⟨hnone, hsome⟩ := mergeSplitKWay_part h2 h8 hm (hZ ▸ hl way hway)
    (show ∀ i < way, (s₁.batch ((i + n / w * way) * w + n % w)).length = 2 ^ m from
      fun i _ => (h₁.sized _).trans hZ)
  have hold : (gather way fun i => EM.Algorithm.reals (s₁.batch ((i + n / w * way) * w + n % w))) =
      gather way fun i => EM.Algorithm.reals (s.batch ((i + n / w * way) * w + n % w)) :=
    gather_congr fun i hi => by rw [h₁.batch.later _ _ ho (Nat.div_add_mod' n w).ge i hi]
  rw [hold, ← hZ] at hsome
  cases hcall : mergeSplitKWay way C.bktSize ((List.range way).map fun j =>
      s₁.batch ((j + n / w * way) * w + n % w)) with
  | none => exact ⟨rfl, h₁.rest⟩
  | some out =>
    refine ⟨h₁.batch.next hw fun i hi => (hsome out hcall i hi).2, fun p => ?_, ?_⟩
    · exact putAll_forall (P := fun b : List (TaggedT (K × V)) => b.length = C.bktSize) h₁.sized
        (fun i hi => (hsome out hcall i hi).1) p
    · exact h₁.rest.trans rfl

/-- **The network.** From the levels with product `W` on. -/
theorem routeLevels_spec (hv : C.Valid) (hl : C.LanesFit) {f : Nat → List (TaggedT (K × V))}
    {factors : List Nat} (hmem : ∀ way ∈ factors, way ∈ C.factors) {W : Nat} (hW : 0 < W)
    (hprod : C.bktPerBatch = C.parBatchCount * (W * factors.prod))
    (hfits : ∀ level < factors.length, C.parBatchCount * (W * (factors.take level).prod) < 2 ^ 31)
    {s : State K V} (hs : C.Sized s.batch) (hf : Spread C.parBatchCount W factors.prod f s.batch) :
    Ends (C.Step (fun _ => Spread C.parBatchCount (W * factors.prod) 1 f) s) (Aborts s)
      (C.routeLevels factors (BitVec.ofNat 32 (C.parBatchCount * W)) s) := by
  induction factors generalizing W s with
  | nil =>
    rw [List.prod_nil, Nat.mul_one]
    exact ⟨hf, hs, .refl s⟩
  | cons way factors ih =>
    have hway := hmem way List.mem_cons_self
    obtain ⟨h2, -⟩ := hv.factor_range way hway
    have hstride : strideWord (BitVec.ofNat 32 (C.parBatchCount * W)) = C.parBatchCount * W := by
      have := hfits 0 (by simp)
      rw [List.take_zero, List.prod_nil, Nat.mul_one] at this
      exact strideWord_ofNat this
    rw [List.prod_cons] at hprod hf ⊢
    have hlevel := mergeSplitLevel_spec (G := factors.prod) hv hl hway hstride
      (Nat.mul_pos hv.parBatchCount hW) (by rw [hprod]; ring) hs
    rw [routeLevels]
    refine hlevel.bind fun s₁ h₁ => ?_
    rw [hstride, Nat.mul_assoc]
    rw [Nat.mul_comm] at hf
    refine (ih (fun way hw => hmem way (List.mem_cons_of_mem _ hw)) (Nat.mul_pos hW (by omega))
      (by rw [hprod]; ring) (fun level hlevel => ?_) h₁.sized (hf.next h₁.batch)).mono
      (fun s₂ h₂ => ⟨?_, h₂.sized, h₁.rest.trans h₂.rest⟩) fun e he => ⟨he.1, h₁.rest.trans he.2⟩
    · have := hfits (level + 1) (by simpa using hlevel)
      rwa [List.take_succ_cons, List.prod_cons, ← Nat.mul_assoc W] at this
    · rw [← Nat.mul_assoc]
      exact h₂.batch

/-! ## Deliveries -/

/-- A pair as `Insert` writes it to the buffer. -/
def element (C : InitContext K) (p : K × V) : TaggedT (K × V) :=
  tagged ((C.omap.shard p.1).setWidth 64, p)

/-- The number of the shard of a pair. -/
def shardOf (C : InitContext K) (p : K × V) : Nat := (C.omap.shard p.1).toNat

theorem realTag_element (p : K × V) : (C.element p).realTag = C.shardOf p := by
  have hlt := (C.omap.shard p.1).isLt
  rw [element, realTag_tagged, tagOf, BitVec.toNat_setWidth, shardOf]
  omega

/-- A buffer holds these pairs. -/
def Holds (C : InitContext K) (pairs : List (K × V)) (batch : Batch K V) : Prop :=
  EM.Algorithm.reals (gather C.bktPerBatch batch) = pairs.map C.element

/-- The pairs that the buckets `[shard * parBatchCount, (shard + 1) * parBatchCount)` hold. -/
def region (C : InitContext K) (shard : Nat) (batch : Batch K V) : List (K × V) :=
  (gather C.parBatchCount fun o =>
    EM.Algorithm.reals (batch (shard * C.parBatchCount + o))).map TaggedT.v

/-- Every one of these pairs is in the region of its shard, once, and nothing else is. -/
def Delivered (C : InitContext K) (pairs : List (K × V)) (batch : Batch K V) : Prop :=
  ∀ shard < C.shardCount,
    List.Perm (C.region shard batch) (pairs.filter fun p => C.shardOf p == shard)

/-- The class of a shard. -/
theorem part_element {shard : Nat} {pairs : List (K × V)}
    (hshard : ∀ p ∈ pairs, C.shardOf p < C.shardCount) :
    (part C.shardCount shard (pairs.map C.element)).map TaggedT.v =
      pairs.filter fun p => C.shardOf p == shard := by
  have hfilter : pairs.filter ((fun x : TaggedT (K × V) =>
      decide (x.realTag % C.shardCount = shard)) ∘ C.element) =
      pairs.filter fun p => C.shardOf p == shard :=
    List.filter_congr fun p hp => by
      rw [Function.comp_apply, realTag_element, Nat.mod_eq_of_lt (hshard p hp)]
      rfl
  rw [part, List.filter_map, hfilter, List.map_map, List.map_map]
  exact List.map_id'' (fun p => rfl) _

/-- What `route` does to a buffer. -/
structure Routes (C : InitContext K) (pairs : List (K × V)) (s s' : State K V) : Prop where
  sized : C.Sized s'.batch
  delivered : C.Delivered pairs s'.batch
  rest : s' = { s with
    batch := s'.batch, handed := s.handed ++ [s.batch], routed := s.routed ++ [s'.batch] }

/-- `route` has been called and has not returned. -/
def RouteAborts (s : State K V) (e : Stopped K V) : Prop :=
  e.1 = .abort ∧ e.2 = { s with batch := e.2.batch, handed := s.handed ++ [s.batch] }

theorem route_spec (hv : C.Valid) (hl : C.LanesFit) (hstride : C.StrideFits) {pairs : List (K × V)}
    (hshard : ∀ p ∈ pairs, C.shardOf p < C.shardCount) {s : State K V} (hs : C.Sized s.batch)
    (hold : C.Holds pairs s.batch) : Ends (C.Routes pairs s) (RouteAborts s) (C.route s) := by
  have hbkt : C.bktPerBatch = C.parBatchCount * (1 * C.factors.prod) := by
    rw [Nat.one_mul, hv.shardCount, bktPerBatch]
  have hlevels := routeLevels_spec (s := { s with handed := s.handed ++ [s.batch] }) hv hl
    (fun _ h => h) Nat.one_pos hbkt (fun level h => by simpa using hstride level h) hs
    (Spread.zero C.factors.prod s.batch)
  rw [Nat.mul_one, Nat.one_mul, hv.shardCount] at hlevels
  rw [route]
  have hstop : ∀ e, Aborts { s with handed := s.handed ++ [s.batch] } e → RouteAborts s e :=
    fun e he => he
  refine (hlevels.mono (fun _ h => h) hstop).bind fun s' h' => ?_
  refine ⟨h'.sized, fun shard hlt => ?_, ?_⟩
  · have hall : gather (C.parBatchCount * C.shardCount) (fun p => EM.Algorithm.reals (s.batch p)) =
        pairs.map C.element := (gather_filter _ _).symm.trans hold
    have hregion := (h'.batch.region hlt).map TaggedT.v
    rw [hall, part_element hshard] at hregion
    exact hregion
  · rw [h'.rest]

/-! ## Filling the buffer -/

/-- The next place of the buffer. -/
def place (C : InitContext K) (s : State K V) : Nat := s.currBktIdx * C.bktSize + s.currBktOffset

/-- The real elements in front of the place `n` are these pairs. -/
def Front (C : InitContext K) (pairs : List (K × V)) (n : Nat) (batch : Batch K V) : Prop :=
  EM.Algorithm.reals ((gather C.bktPerBatch batch).take n) = pairs.map C.element

section Filling

variable {pairs : List (K × V)} {batch : Batch K V} {i n : Nat}

theorem sized_modifyAt (hs : C.Sized batch) (i : Nat) (f : TaggedT (K × V) → TaggedT (K × V)) :
    C.Sized (C.modifyAt i f batch) := by
  intro p
  rw [modifyAt]
  by_cases hp : p = i / C.bktSize
  · subst hp
    rw [Function.update_self, List.length_modify, hs]
  · rw [Function.update_of_ne hp, hs]

theorem take_modifyAt (hs : C.Sized batch) (hi : i < C.batchSize)
    (f : TaggedT (K × V) → TaggedT (K × V)) :
    ∃ x, (gather C.bktPerBatch (C.modifyAt i f batch)).take (i + 1) =
      (gather C.bktPerBatch batch).take i ++ [f x] := by
  have hlt : i < (gather C.bktPerBatch batch).length := by
    rw [length_gather fun p _ => hs p]
    exact hi
  refine ⟨(gather C.bktPerBatch batch)[i], ?_⟩
  have hlen : ((gather C.bktPerBatch batch).take i).length = i := by
    rw [List.length_take]
    omega
  rw [modifyAt, gather_modify hs hi, List.modify_eq_take_cons_drop hlt]
  rw [List.take_append, hlen, List.take_of_length_le (by omega), Nat.add_sub_cancel_left]
  rfl

theorem Front.pair (h : C.Front pairs i batch) (hs : C.Sized batch) (hi : i < C.batchSize)
    (p : K × V) : C.Front (pairs ++ [p]) (i + 1) (C.modifyAt i (fun _ => C.element p) batch) := by
  obtain ⟨x, hx⟩ := take_modifyAt hs hi fun _ => C.element p
  have hreal : EM.Algorithm.reals [C.element p] = [C.element p] := by
    rw [element, reals_cons_real (isDummy_tagged _)]
    rfl
  rw [Front, hx, EM.Algorithm.reals_append, h, hreal, List.map_append]
  rfl

theorem Front.dummy (h : C.Front pairs i batch) (hs : C.Sized batch) (hi : i < C.batchSize) :
    C.Front pairs (i + 1) (C.modifyAt i TaggedT.setDummy batch) := by
  obtain ⟨x, hx⟩ := take_modifyAt hs hi TaggedT.setDummy
  rw [Front, hx, EM.Algorithm.reals_append, h, reals_cons_dummy (isDummy_setDummy x)]
  exact List.append_nil _

theorem sized_setDummies (hs : C.Sized batch) (i n : Nat) : C.Sized (C.setDummies i n batch) := by
  induction n with
  | zero => exact hs
  | succ n ih => exact sized_modifyAt ih _ _

theorem Front.dummies (h : C.Front pairs i batch) (hs : C.Sized batch) (hn : i + n ≤ C.batchSize) :
    C.Front pairs (i + n) (C.setDummies i n batch) := by
  induction n with
  | zero => exact h
  | succ n ih => exact (ih (by omega)).dummy (sized_setDummies hs i n) (by omega)

theorem Front.holds (h : C.Front pairs C.batchSize batch) (hs : C.Sized batch) :
    C.Holds pairs batch := by
  have hlen : (gather C.bktPerBatch batch).length = C.batchSize := length_gather fun p _ => hs p
  rwa [Front, List.take_of_length_le hlen.le] at h

end Filling

/-! ## One `Insert` -/

/-- Between two calls: these pairs are in the buffer. -/
structure Filled (C : InitContext K) (pairs : List (K × V)) (s : State K V) : Prop where
  sized : C.Sized s.batch
  idx_lt : s.currBktIdx < C.bktPerBatch
  offset_lt : s.currBktOffset < C.bktRealSize
  front : C.Front pairs (C.place s) s.batch
  count : pairs.length = s.currBktIdx * C.bktRealSize + s.currBktOffset

theorem Filled.place_lt (hv : C.Valid) {pairs : List (K × V)} {s : State K V}
    (h : C.Filled pairs s) :
    C.place s < C.batchSize :=
  grid_lt h.idx_lt (h.offset_lt.trans_le hv.bktRealSize.2)

/-- The buffer with dummies in the places that are left. -/
theorem Filled.padded (hv : C.Valid) {pairs : List (K × V)} {s : State K V} (h : C.Filled pairs s) :
    C.Sized (C.setDummies (C.place s) (C.batchSize - C.place s) s.batch) ∧
      C.Holds pairs (C.setDummies (C.place s) (C.batchSize - C.place s) s.batch) := by
  have hplace := h.place_lt hv
  have hsized := sized_setDummies h.sized (C.place s) (C.batchSize - C.place s)
  have hfront := h.front.dummies (n := C.batchSize - C.place s) h.sized (by omega)
  rw [Nat.add_sub_cancel' hplace.le] at hfront
  exact ⟨hsized, hfront.holds hsized⟩

/-- An empty buffer. -/
theorem Filled.empty (hv : C.Valid) {s : State K V} (hs : C.Sized s.batch) (hidx : s.currBktIdx = 0)
    (hoff : s.currBktOffset = 0) : C.Filled [] s where
  sized := hs
  idx_lt := by
    rw [hidx, bktPerBatch, ← hv.shardCount]
    refine Nat.mul_pos hv.parBatchCount (List.prod_pos fun way hway => ?_)
    have := (hv.factor_range way hway).1
    omega
  offset_lt := hoff ▸ hv.bktRealSize.1
  front := by
    rw [Front, place, hidx, hoff, Nat.zero_mul]
    rfl
  count := by
    rw [hidx, hoff, Nat.zero_mul]
    rfl

/-- One pair more has been counted, and `route` has not been called. -/
structure Counted (s s' : State K V) : Prop where
  load : s'.load = s.load + 1
  handed : s'.handed = s.handed
  routed : s'.routed = s.routed

/-- **What `Insert` does**: it writes the pair to the buffer, and routes the buffer when that is
full. -/
theorem insert_cases (hv : C.Valid) {current : List (K × V)} {s : State K V}
    (h : C.Filled current s) (hload : s.load < C.omap.size) (key : K) (value : V) :
    ∃ s₁, Counted s s₁ ∧
      ((C.insert key value s = .ok s₁ ∧ C.Filled (current ++ [(key, value)]) s₁) ∨
      (C.insert key value s = (C.route s₁ >>= fun s => .ok { s with currBktIdx := 0 }) ∧
        C.Sized s₁.batch ∧ C.Holds (current ++ [(key, value)]) s₁.batch ∧ s₁.currBktOffset = 0 ∧
        current.length + 1 = C.bktPerBatch * C.bktRealSize)) := by
  have hplace := h.place_lt hv
  have hcount := h.count
  have hsized : C.Sized (C.putElement key value s).batch := sized_modifyAt h.sized _ _
  have hfront : C.Front (current ++ [(key, value)]) (C.place s + 1)
    (C.putElement key value s).batch :=
    h.front.pair h.sized hplace (key, value)
  have hlength : (current ++ [(key, value)]).length = s.currBktIdx * C.bktRealSize +
      (s.currBktOffset + 1) := by
    rw [List.length_append, hcount]
    rfl
  have hinsert : C.insert key value s =
      if s.currBktOffset + 1 = C.bktRealSize then
        if s.currBktIdx + 1 = C.bktPerBatch then
          C.route (C.closeBucket (C.putElement key value s)) >>= fun s =>
            .ok { s with currBktIdx := 0 }
        else .ok (C.closeBucket (C.putElement key value s))
      else .ok (C.putElement key value s) := by
    rw [insert, if_neg (by omega)]
    rfl
  rw [hinsert]
  by_cases hoff : s.currBktOffset + 1 = C.bktRealSize
  · rw [if_pos hoff]
    -- the bucket is full: dummies up to its end
    have hle := hv.bktRealSize.2
    have hend : C.place s + 1 + (C.bktSize - (s.currBktOffset + 1)) =
        (s.currBktIdx + 1) * C.bktSize := by
      rw [place, Nat.succ_mul]
      omega
    have hfit : (s.currBktIdx + 1) * C.bktSize ≤ C.batchSize := Nat.mul_le_mul_right _ h.idx_lt
    have hsized' : C.Sized (C.closeBucket (C.putElement key value s)).batch :=
      sized_setDummies hsized _ _
    have hfront' : C.Front (current ++ [(key, value)]) ((s.currBktIdx + 1) * C.bktSize)
        (C.closeBucket (C.putElement key value s)).batch := by
      rw [← hend]
      exact hfront.dummies hsized (by omega)
    refine ⟨C.closeBucket (C.putElement key value s), ⟨rfl, rfl, rfl⟩, ?_⟩
    by_cases hfull : s.currBktIdx + 1 = C.bktPerBatch
    · rw [if_pos hfull]
      rw [hfull] at hfront'
      refine .inr ⟨rfl, hsized', hfront'.holds hsized', rfl, ?_⟩
      rw [hcount, ← hfull, Nat.succ_mul, ← hoff]
      rfl
    · rw [if_neg hfull]
      have hlt := h.idx_lt
      refine .inl ⟨rfl, hsized', show s.currBktIdx + 1 < _ by omega, hv.bktRealSize.1, hfront', ?_⟩
      rw [hlength, hoff]
      exact (Nat.succ_mul _ _).symm
  · rw [if_neg hoff]
    have hlt := h.offset_lt
    exact ⟨C.putElement key value s, ⟨rfl, rfl, rfl⟩,
      .inl ⟨rfl, hsized, h.idx_lt, show s.currBktOffset + 1 < _ by omega, hfront, hlength⟩⟩

/-! ## Runs -/

/-- The batches of a run: what each call of `route` was given, and what each return left. -/
structure Batches (C : InitContext K) (chunks : List (List (K × V))) (s : State K V) : Prop where
  handed : List.Forall₂ C.Holds chunks s.handed
  routed : List.Forall₂ C.Delivered chunks s.routed

/-- The pairs inserted so far: those of the batches, and those in the buffer. -/
structure Collects (C : InitContext K) (pairs : List (K × V)) (chunks : List (List (K × V)))
    (current : List (K × V)) (s : State K V) : Prop where
  inserted : chunks.flatten ++ current = pairs
  batches : C.Batches chunks s
  load : s.load = pairs.length

/-- `route` has stopped on the batch with the pairs inserted last. -/
def StopsIn (C : InitContext K) (pairs : List (K × V)) (e : Stopped K V) : Prop :=
  e.1 = .abort ∧ ∃ chunks last, (chunks ++ [last]).flatten = pairs.take e.2.load ∧
    List.Forall₂ C.Holds (chunks ++ [last]) e.2.handed ∧ List.Forall₂ C.Delivered chunks e.2.routed

/-- Between two calls of a run. -/
def Ready (C : InitContext K) (pairs : List (K × V)) (s : State K V) : Prop :=
  ∃ chunks current, C.Collects pairs chunks current s ∧ C.Filled current s

section Runs

variable (hv : C.Valid) (hl : C.LanesFit) (hstride : C.StrideFits) {pairs later : List (K × V)}
  {s : State K V}

include hv hl hstride

/-- A call of `route` closes a batch. -/
theorem Collects.route {current : List (K × V)} {chunks : List (List (K × V))}
    (h : C.Collects pairs chunks current s) (hshard : ∀ p ∈ pairs, C.shardOf p < C.shardCount)
    (hs : C.Sized s.batch) (hold : C.Holds current s.batch) :
    Ends (fun s' => C.Collects pairs (chunks ++ [current]) [] s' ∧ C.Sized s'.batch ∧
        s'.currBktOffset = s.currBktOffset)
      (C.StopsIn (pairs ++ later)) (C.route s) := by
  have hcurrent : ∀ p ∈ current, C.shardOf p < C.shardCount := fun p hp =>
    hshard p (h.inserted ▸ List.mem_append_right _ hp)
  have hflat : (chunks ++ [current]).flatten = pairs := by
    rw [← h.inserted, List.flatten_append]
    simp
  have hhanded : List.Forall₂ C.Holds (chunks ++ [current]) (s.handed ++ [s.batch]) :=
    List.rel_append h.batches.handed (.cons hold .nil)
  refine (route_spec hv hl hstride hcurrent hs hold).mono (fun s' h' => ?_) fun e he => ?_
  · refine ⟨⟨by rw [hflat, List.append_nil], ⟨?_, ?_⟩, ?_⟩, h'.sized, by rw [h'.rest]⟩
    · rw [h'.rest]
      exact hhanded
    · rw [h'.rest]
      exact List.rel_append h.batches.routed (.cons h'.delivered .nil)
    · rw [h'.rest]
      exact h.load
  · obtain ⟨hstop, hrest⟩ := he
    refine ⟨hstop, chunks, current, ?_, ?_, ?_⟩
    · rw [hrest, hflat]
      change pairs = List.take s.load _
      rw [h.load, List.take_left]
    · rw [hrest]
      exact hhanded
    · rw [hrest]
      exact h.batches.routed

/-- One `Insert` of a run. -/
theorem insert_ready {p : K × V} (h : C.Ready pairs s) (hsize : pairs.length < C.omap.size)
    (hshard : ∀ q ∈ pairs ++ [p], C.shardOf q < C.shardCount) :
    Ends (C.Ready (pairs ++ [p])) (C.StopsIn (pairs ++ [p] ++ later)) (C.insert p.1 p.2 s) := by
  obtain ⟨chunks, current, hc, hf⟩ := h
  obtain ⟨s₁, hcounted, hcase⟩ := insert_cases hv hf (by rw [hc.load]; exact hsize) p.1 p.2
  have hcollects : C.Collects (pairs ++ [p]) chunks (current ++ [p]) s₁ := by
    refine ⟨by rw [← List.append_assoc, hc.inserted], ⟨?_, ?_⟩, ?_⟩
    · rw [hcounted.handed]
      exact hc.batches.handed
    · rw [hcounted.routed]
      exact hc.batches.routed
    · rw [hcounted.load, hc.load, List.length_append]
      rfl
  obtain ⟨hinsert, hfilled⟩ | ⟨hinsert, hsized, hold, hoff, -⟩ := hcase
  · rw [hinsert]
    exact ⟨chunks, _, hcollects, hfilled⟩
  · rw [hinsert]
    refine (hcollects.route hv hl hstride hshard hsized hold).bind fun s₂ h₂ => ?_
    obtain ⟨hc₂, hs₂, hoff₂⟩ := h₂
    exact ⟨_, [], ⟨hc₂.inserted, ⟨hc₂.batches.handed, hc₂.batches.routed⟩, hc₂.load⟩,
      .empty hv hs₂ rfl (hoff₂.trans hoff)⟩

theorem insertBatch_ready (h : C.Ready pairs s) (hsize : pairs.length + later.length ≤ C.omap.size)
    (hshard : ∀ p ∈ pairs ++ later, C.shardOf p < C.shardCount) :
    Ends (C.Ready (pairs ++ later)) (C.StopsIn (pairs ++ later)) (C.insertBatch later s) := by
  induction later generalizing pairs s with
  | nil =>
    rw [List.append_nil]
    exact h
  | cons p later ih =>
    have hcons : pairs ++ p :: later = pairs ++ [p] ++ later := by simp
    rw [List.length_cons] at hsize
    rw [hcons] at hshard ⊢
    rw [insertBatch]
    refine (insert_ready hv hl hstride h (by omega) fun q hq =>
      hshard q (List.mem_append_left _ hq)).bind fun s' h' => ih h' ?_ hshard
    rw [List.length_append, List.length_singleton]
    omega

/-- `Finalize` routes what is left in the buffer. -/
theorem finalize_batches (h : C.Ready pairs s) (hshard : ∀ p ∈ pairs, C.shardOf p < C.shardCount) :
    Ends (fun s' => ∃ chunks, chunks.flatten = pairs ∧ C.Batches chunks s') (C.StopsIn pairs)
      (C.finalize s) := by
  obtain ⟨chunks, current, hc, hf⟩ := h
  rw [finalize]
  by_cases hzero : s.currBktIdx * C.bktSize + s.currBktOffset = 0
  · have hnil : current = [] := by
      have hfront := hf.front
      rw [place, hzero] at hfront
      exact List.map_eq_nil_iff.1 hfront.symm
    rw [if_neg (not_not_intro hzero)]
    refine ⟨chunks, ?_, hc.batches⟩
    rw [← hc.inserted, hnil, List.append_nil]
  · rw [if_pos hzero]
    obtain ⟨hsized, hold⟩ := hf.padded hv
    have hcollects : C.Collects pairs chunks current
        { s with batch := C.setDummies (C.place s) (C.batchSize - C.place s) s.batch } :=
      ⟨hc.inserted, ⟨hc.batches.handed, hc.batches.routed⟩, hc.load⟩
    refine (hcollects.route hv hl hstride hshard hsized hold).mono
      (fun s' h' => ⟨_, ?_, h'.1.batches⟩) fun e he => List.append_nil pairs ▸ he
    rw [← h'.1.inserted, List.append_nil]

end Runs

/-- **Every pair comes to its shard.** The pairs of a run are those of its batches, in order; after
the call of `route` for a batch every pair of it is in the region of its shard, once and unchanged.
A run that does not end stops in a merge-split, and then all pairs inserted so far are those of the
batches. -/
theorem init_delivered (hv : C.Valid) (hl : C.LanesFit) (hstride : C.StrideFits)
    {batch : Batch K V} (hb : C.Sized batch) {pairs : List (K × V)}
    (hsize : pairs.length ≤ C.omap.size) (hshard : ∀ p ∈ pairs, C.shardOf p < C.shardCount) :
    Ends (fun s => ∃ chunks, chunks.flatten = pairs ∧ C.Batches chunks s) (C.StopsIn pairs)
      (C.init pairs (.start batch)) := by
  have hstart : C.Ready [] (State.start batch) :=
    ⟨[], [], ⟨rfl, ⟨.nil, .nil⟩, rfl⟩, .empty hv hb rfl rfl⟩
  have hinsert := insertBatch_ready hv hl hstride hstart
    (by rwa [List.length_nil, Nat.zero_add]) hshard
  exact hinsert.bind fun s h => finalize_batches hv hl hstride h hshard

/-- Two shards and a buffer of two buckets. -/
def twoShards : InitContext Nat where
  omap := { size := 3, shardHashRange := 2 ^ 63, hash := fun key => BitVec.ofNat 64 (key * 2 ^ 63) }
  factors := [2]
  shardCount := 2
  bktSize := 2
  bktRealSize := 1
  parBatchCount := 1

/-- Three pairs, two of them of shard 1. -/
def threePairs : List (Nat × Nat) := [(0, 10), (1, 11), (3, 12)]

theorem init_delivered_three :
    ∃ s, twoShards.init threePairs (.start fun _ => [⟨0, 0, 0⟩, ⟨0, 0, 0⟩]) = .ok s ∧
      ∃ chunks, chunks.flatten = threePairs ∧ twoShards.Batches chunks s := by
  have hok : (twoShards.init threePairs (.start fun _ => [⟨0, 0, 0⟩, ⟨0, 0, 0⟩])).toBool =
    true := by
    decide +kernel
  cases hrun : twoShards.init threePairs (.start fun _ => [⟨0, 0, 0⟩, ⟨0, 0, 0⟩]) with
  | ok s =>
    refine ⟨s, rfl, (init_delivered ?_ ?_ ?_ (fun _ => rfl) ?_ ?_).of_ok hrun⟩
    · exact ⟨by decide, by decide, by decide, ⟨1, by decide, by decide⟩, by decide, by decide⟩
    · unfold LanesFit
      decide
    · unfold StrideFits
      decide
    · decide
    · decide +kernel
  | error e =>
    rw [hrun] at hok
    exact absurd hok Bool.false_ne_true

/-! ## Where the bounds are needed -/

/-- Fewer pairs than the buffer takes are inserted without a call of `route`. -/
theorem insertBatch_filled (hv : C.Valid) {current later : List (K × V)} {s : State K V}
    (h : C.Filled current s) (hload : s.load + later.length ≤ C.omap.size)
    (hlt : current.length + later.length < C.bktPerBatch * C.bktRealSize) :
    ∃ s', C.insertBatch later s = .ok s' ∧ C.Filled (current ++ later) s' ∧
    s'.routed = s.routed := by
  induction later generalizing current s with
  | nil => exact ⟨s, rfl, by rwa [List.append_nil], rfl⟩
  | cons p later ih =>
    rw [List.length_cons] at hload hlt
    obtain ⟨s₁, hcounted, ⟨hinsert, hfilled⟩ | ⟨-, -, -, -, hfull⟩⟩ :=
      insert_cases hv h (by omega) p.1 p.2
    · obtain ⟨s', hrun, hf, hrouted⟩ := ih hfilled (by rw [hcounted.load]; omega)
        (by rw [List.length_append, List.length_singleton]; omega)
      refine ⟨s', ?_, by simpa using hf, hrouted.trans hcounted.routed⟩
      rw [insertBatch, hinsert]
      exact hrun
    · omega

/-- Four shards with buckets of `2 ^ 30` places, in each of which all may be real. -/
structure WideBuckets (C : InitContext K) : Prop where
  factors : C.factors = [4]
  shardCount : C.shardCount = 4
  parBatchCount : C.parBatchCount = 1
  bktSize : C.bktSize = 2 ^ 30
  bktRealSize : C.bktRealSize = 2 ^ 30

section Wide

variable (hw : C.WideBuckets)

include hw

theorem WideBuckets.bktPerBatch : C.bktPerBatch = 4 := by
  rw [InitContext.bktPerBatch, hw.parBatchCount, hw.shardCount]

theorem WideBuckets.valid : C.Valid where
  factor_range := by
    rw [hw.factors]
    decide
  shardCount := by
    rw [hw.factors, hw.shardCount]
    rfl
  parBatchCount := hw.parBatchCount.ge
  bktSize := ⟨30, by decide, hw.bktSize⟩
  bktRealSize := by
    rw [hw.bktRealSize, hw.bktSize]
    decide
  batchSize_lt := by
    rw [batchSize, hw.bktPerBatch, hw.bktSize]
    decide

/-- With `2 ^ 32 - 1` elements of shard 0 the lane of the shard wraps around to `2 ^ 30 + 1`. -/
theorem WideBuckets.route {pairs : List (K × V)} (hlen : pairs.length = 2 ^ 32 - 1)
    (hshard : ∀ p ∈ pairs, C.shardOf p = 0) {s : State K V} (hs : C.Sized s.batch)
    (hold : C.Holds pairs s.batch) :
    ∃ s', C.route s = .ok s' ∧ ∃ b, s'.routed = s.routed ++ [b] ∧ (b 0).length = 2 ^ 30 := by
  have hall : gather 4 (fun p => EM.Algorithm.reals (s.batch p)) = pairs.map C.element := by
    rw [Holds, hw.bktPerBatch] at hold
    exact (gather_filter _ _).symm.trans hold
  obtain ⟨out, hout, hsized⟩ := mergeSplitKWay_wraps (n := 2 ^ 32 - 1) (by decide)
    (fun i _ => (hs i).trans hw.bktSize) (by rw [hall, List.length_map, hlen]) fun x hx => by
      rw [hall] at hx
      obtain ⟨p, hp, rfl⟩ := List.mem_map.1 hx
      rw [realTag_element, hshard p hp]
  have hstride : strideWord (BitVec.ofNat 32 1) = 1 := strideWord_ofNat (by decide)
  have hbkt : ∀ j < 4, (j + 0 / 1 * 4) * 1 + 0 % 1 < C.bktPerBatch := fun j hj => by
    rw [hw.bktPerBatch]
    omega
  have hpos : ∀ j, (j + 0 / 1 * 4) * 1 + 0 % 1 = j := fun j => by omega
  -- the only merge-split of the only level
  have hgroup : C.mergeSplitGroup 4 (BitVec.ofNat 32 1) 0
    { s with handed := s.handed ++ [s.batch] } =
      .ok { s with
        handed := s.handed ++ [s.batch]
        batch := putAll (fun j => j) (fun j => out.getD j []) 4 s.batch } := by
    rw [mergeSplitGroup_eq (hw.bktSize ▸ Nat.two_pow_pos 30) hw.valid.batchSize_lt hstride
      Nat.one_pos hbkt, hw.bktSize]
    simp only [hpos, hout]
  have hroute : C.route s = .ok { s with
      handed := s.handed ++ [s.batch]
      batch := putAll (fun j => j) (fun j => out.getD j []) 4 s.batch
      routed := s.routed ++ [putAll (fun j => j) (fun j => out.getD j []) 4 s.batch] } := by
    rw [InitContext.route, hw.factors, hw.parBatchCount, routeLevels, hw.bktPerBatch,
      show 4 / 4 = 0 + 1 from rfl, forRange_succ, forRange_zero, ok_bind, hgroup]
    rfl
  refine ⟨_, hroute, _, rfl, ?_⟩
  have hzero : putAll (fun j => j) (fun j => out.getD j []) 4 s.batch 0 = out.getD 0 [] :=
    putAll_idx (fun _ _ _ _ h => h) (by omega)
  rw [hzero]
  exact hsized 0 (by omega)

/-- They do not all fit into the region of shard 0, which has `2 ^ 30` places. -/
theorem WideBuckets.init_wraps {pairs : List (K × V)} (hlen : pairs.length = 2 ^ 32 - 1)
    (hsize : pairs.length ≤ C.omap.size) (hshard : ∀ p ∈ pairs, C.shardOf p = 0)
    {batch : Batch K V} (hb : C.Sized batch) :
    ¬ Ends (fun s => ∃ chunks, chunks.flatten = pairs ∧ C.Batches chunks s) (C.StopsIn pairs)
      (C.init pairs (.start batch)) := by
  have hempty : C.Filled [] (State.start batch) := .empty hw.valid hb rfl rfl
  have hlt : ([] : List (K × V)).length + pairs.length < C.bktPerBatch * C.bktRealSize := by
    rw [hlen, hw.bktPerBatch, hw.bktRealSize, List.length_nil]
    decide
  obtain ⟨s, hrun, hf, hrouted⟩ := insertBatch_filled hw.valid hempty
    ((Nat.zero_add _).trans_le hsize) hlt
  rw [List.nil_append] at hf
  have hne : s.currBktIdx * C.bktSize + s.currBktOffset ≠ 0 := by
    have hcount := hf.count
    rw [hw.bktRealSize, ← hw.bktSize, hlen] at hcount
    omega
  obtain ⟨hsized, hold⟩ := hf.padded hw.valid
  obtain ⟨s', hroute, b, hb', hsmall⟩ := hw.route hlen hshard
    (s := { s with batch := C.setDummies (C.place s) (C.batchSize - C.place s) s.batch })
    hsized hold
  have hinit : C.init pairs (.start batch) = .ok s' := by
    rw [init, hrun, ok_bind, finalize, if_pos hne]
    exact hroute
  rw [hinit]
  rintro ⟨chunks, hflat, hbatches⟩
  have hdelivered := hbatches.routed
  rw [hb', show s.routed = [] from hrouted] at hdelivered
  obtain ⟨chunk, _, hd, hnil, rfl⟩ : ∃ chunk rest, C.Delivered chunk b ∧
      List.Forall₂ C.Delivered rest [] ∧ chunks = chunk :: rest := by
    cases hdelivered with
    | cons hd hnil => exact ⟨_, _, hd, hnil, rfl⟩
  cases hnil
  have hchunk : chunk = pairs := by simpa using hflat
  subst hchunk
  have hperm := (hd 0 (by rw [hw.shardCount]; decide)).length_eq
  rw [List.filter_eq_self.2 fun p hp => by rw [hshard p hp]; rfl, hlen, region, hw.parBatchCount,
    gather_one, List.length_map] at hperm
  have hle : (EM.Algorithm.reals (b (0 * 1 + 0))).length ≤ (b 0).length := List.length_filter_le _ _
  omega

end Wide

/-- With a stride that is 0 as an `int`, `route` divides by zero. -/
theorem route_stride_zero {way : Nat} {factors : List Nat} (hfactors : C.factors = way :: factors)
    (hcount : 0 < C.bktPerBatch / way) (hstride : BitVec.ofNat 32 C.parBatchCount = 0)
    (s : State K V) :
    C.route s = .error (.divisionByZero, { s with handed := s.handed ++ [s.batch] }) := by
  have hgroup : ∀ s : State K V, C.mergeSplitGroup way 0 0 s = .error (.divisionByZero, s) :=
    fun s => rfl
  rw [route, hfactors, hstride, routeLevels, forRange_eq_error hcount (hgroup _)]
  rfl

/-- Four shards with buckets of `2 ^ 30` places, and a single key. -/
def fourShards : InitContext Unit where
  omap := { size := 2 ^ 32, shardHashRange := 2 ^ 62, hash := fun _ => 0 }
  factors := [4]
  shardCount := 4
  bktSize := 2 ^ 30
  bktRealSize := 2 ^ 30
  parBatchCount := 1

/-- Two shards with `2 ^ 32` buckets each, and a single key. -/
def manyBuckets : InitContext Unit where
  omap := { size := 1, shardHashRange := 2 ^ 63, hash := fun _ => 0 }
  factors := [2]
  shardCount := 2
  bktSize := 2
  bktRealSize := 1
  parBatchCount := 2 ^ 32

theorem manyBuckets_valid : manyBuckets.Valid :=
  ⟨by decide, by decide, by decide, ⟨1, by decide, by decide⟩, by decide, by decide⟩

/-- One pair is not routed when the stride is cut to 0. -/
theorem manyBuckets_init {batch : Batch Unit Unit} (hb : manyBuckets.Sized batch) :
    ¬ Ends (fun s => ∃ chunks, chunks.flatten = [((), ())] ∧ manyBuckets.Batches chunks s)
      (manyBuckets.StopsIn [((), ())]) (manyBuckets.init [((), ())] (.start batch)) := by
  have hempty : manyBuckets.Filled [] (State.start batch) := .empty manyBuckets_valid hb rfl rfl
  have hload : (State.start batch).load + [((), ())].length ≤ manyBuckets.omap.size := Nat.le_refl 1
  obtain ⟨s, hrun, hf, -⟩ := insertBatch_filled manyBuckets_valid hempty hload (by decide)
  have hne : s.currBktIdx * manyBuckets.bktSize + s.currBktOffset ≠ 0 := by
    have hcount : 1 = s.currBktIdx * 1 + s.currBktOffset := hf.count
    change s.currBktIdx * 2 + s.currBktOffset ≠ 0
    omega
  rw [init, hrun, ok_bind, finalize, if_pos hne, route_stride_zero rfl (by decide) (by decide)]
  rintro ⟨hstop, -⟩
  cases hstop

theorem fourShards_shardOf (p : Unit × Unit) : fourShards.shardOf p = 0 :=
  (by decide +kernel : fourShards.shardOf ((), ()) = 0)

theorem manyBuckets_shardOf (p : Unit × Unit) : manyBuckets.shardOf p = 0 :=
  (by decide +kernel : manyBuckets.shardOf ((), ()) = 0)

/-- Neither bound can be left out: `2 ^ 32 - 1` pairs of one shard that wrap a lane, and one pair
with `2 ^ 32` buckets for each shard. -/
theorem init_not_delivered :
    (fourShards.Valid ∧ fourShards.StrideFits ∧
      (List.replicate (2 ^ 32 - 1) ((), ())).length ≤ fourShards.omap.size ∧
      (∀ p ∈ List.replicate (2 ^ 32 - 1) ((), ()), fourShards.shardOf p < fourShards.shardCount) ∧
      ¬ Ends (fun s => ∃ chunks, chunks.flatten = List.replicate (2 ^ 32 - 1) ((), ()) ∧
          fourShards.Batches chunks s)
        (fourShards.StopsIn (List.replicate (2 ^ 32 - 1) ((), ())))
        (fourShards.init (List.replicate (2 ^ 32 - 1) ((), ()))
          (.start fun _ => List.replicate (2 ^ 30) ⟨0, (), ()⟩))) ∧
    manyBuckets.Valid ∧ manyBuckets.LanesFit ∧ [((), ())].length ≤ manyBuckets.omap.size ∧
      (∀ p ∈ [((), ())], manyBuckets.shardOf p < manyBuckets.shardCount) ∧
      ¬ Ends (fun s => ∃ chunks, chunks.flatten = [((), ())] ∧ manyBuckets.Batches chunks s)
        (manyBuckets.StopsIn [((), ())])
        (manyBuckets.init [((), ())] (.start fun _ => [⟨0, (), ()⟩, ⟨0, (), ()⟩])) := by
  have hwide : fourShards.WideBuckets := ⟨rfl, rfl, rfl, rfl, rfl⟩
  have hsize : (List.replicate (2 ^ 32 - 1) ((), ())).length ≤ fourShards.omap.size := by
    rw [List.length_replicate]
    decide
  refine ⟨⟨hwide.valid, ?_, hsize, fun p _ => ?_, ?_⟩, manyBuckets_valid, ?_, Nat.le_refl 1,
    fun p _ => ?_, manyBuckets_init fun _ => rfl⟩
  · unfold StrideFits
    decide
  · rw [fourShards_shardOf]
    decide
  · exact hwide.init_wraps List.length_replicate hsize (fun p _ => fourShards_shardOf p)
      fun _ => List.length_replicate
  · unfold LanesFit
    decide
  · rw [manyBuckets_shardOf]
    decide

end Apps.ParOMap.InitContext
