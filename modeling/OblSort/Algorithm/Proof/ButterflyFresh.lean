import OblSort.Algorithm.Proof.ButterflyPages
import OblSort.Algorithm.Proof.DistriFresh

/-!
# The page operations of a butterfly sorter

As in the distribution sorter, a layer reads its pages with the counter of the layer below and
writes them with its own, and the last layer only reads (`sort_versioned`). Positions are not cut
here, so this holds for every size.
-/

namespace EM.Algorithm.ButterflySorter

open EM.DynamicPageVector Loop Schedule Store

variable {α σ : Type} {S : ButterflySorter}

/-- Nested ways whose product is the number of buckets, which is a `size_t`. -/
structure Layered (S : ButterflySorter) : Prop where
  ways : NestedWays S.KWayParams.ways
  totalBucket : S.KWayParams.totalBucket = (S.KWayParams.ways.map List.prod).prod
  totalBucket_lt : S.KWayParams.totalBucket < 2 ^ 64

/-! ## In memory -/

/-- A computation is not about the pages, and does not stop at an authentication. -/
abbrev KeepsVec (s : State α σ) : Except (Stop α σ) (State α σ) → Prop :=
  Ends (fun s' : State α σ => s'.vec = s.vec) fun e => e.2.vec = s.vec ∧ e.1 ≠ .authentication

theorem forRange_keepsVec {n : Nat} {body : Nat → State α σ → Except (Stop α σ) (State α σ)}
    (hbody : ∀ i s, KeepsVec s (body i s)) (s : State α σ) : KeepsVec s (forRange n body s) :=
  forRange_ends (fun _ (s' : State α σ) => s'.vec = s.vec) rfl fun i _ s₁ h₁ => h₁ ▸ hbody i s₁

theorem KeepsVec.bind {s : State α σ} {c : Except (Stop α σ) (State α σ)}
    {f : State α σ → Except (Stop α σ) (State α σ)} (h : KeepsVec s c)
    (hf : ∀ s, KeepsVec s (f s)) :
    KeepsVec s (c >>= f) :=
  Ends.bind h fun s₁ h₁ => h₁ ▸ hf s₁

theorem mergeSplitLayer_keepsVec (begin way wayBucket : Nat) (s : State α σ) :
    KeepsVec s (S.mergeSplitLayer begin way wayBucket s) :=
  forRange_keepsVec (fun j s => by
    rw [mergeSplitAt]
    split
    · exact ⟨rfl, fun h => by cases h⟩
    · exact rfl) s

theorem basic_keepsVec (ioLayer innerLayer begin numBucket : Nat) (s : State α σ) :
    KeepsVec s (S.KWayButterflySortBasic ioLayer innerLayer begin numBucket s) := by
  induction innerLayer generalizing begin numBucket s with
  | zero =>
    rw [KWayButterflySortBasic]
    refine KeepsVec.bind ?_ fun s => mergeSplitLayer_keepsVec ..
    rw [padBuckets]
    split
    · exact forRange_keepsVec (fun _ _ => by exact rfl) s
    · exact rfl
  | succ innerLayer ih =>
    rw [KWayButterflySortBasic]
    exact (forRange_keepsVec (fun i s => ih ..) s).bind fun s => mergeSplitLayer_keepsVec ..

theorem outputGroup_keepsVec (stdSort : List (TaggedT α) → List (TaggedT α)) (n : Nat)
    (s : State α σ) :
    KeepsVec s (S.outputGroup stdSort n s) := by
  rw [outputGroup]
  dsimp only
  split
  · exact ⟨rfl, fun h => by cases h⟩
  · exact rfl

theorem outputBatch_keepsVec (stdSort : List (TaggedT α) → List (TaggedT α))
    (ioLayer batchCount batchIdx batchBegin : Nat) (s : State α σ) :
    KeepsVec s (S.outputBatch stdSort ioLayer batchCount batchIdx batchBegin s) := by
  rw [outputBatch]
  refine KeepsVec.bind (forRange_keepsVec (fun _ _ => by exact rfl) _) fun s => ?_
  split
  · exact rfl
  · split
    · exact outputGroup_keepsVec ..
    · exact rfl

/-! ## One batch -/

/-- Where a sort may stop: the pages are as they should be, and a failed authentication needs
`A`. -/
def StopsVersioned (Inv : σ → Prop) (A : Prop) (e : Stop α σ) : Prop :=
  Inv e.2.vec ∧ (e.1 = .authentication → A)

theorem stopsVersioned_of_ne {Inv : σ → Prop} {A : Prop} {s : State α σ} {a : Abort}
    (hs : Inv s.vec) (ha : a ≠ .authentication) : StopsVersioned Inv A (a, s) :=
  ⟨hs, fun h => absurd h ha⟩

theorem KeepsVec.versioned {Inv : σ → Prop} {A : Prop} {s : State α σ}
    {c : Except (Stop α σ) (State α σ)} (h : KeepsVec s c) (hs : Inv s.vec) :
    Ends (fun s' => s'.vec = s.vec) (StopsVersioned Inv A) c :=
  Ends.mono h (fun _ h => h) fun _ he => ⟨he.1 ▸ hs, fun ha => absurd ha he.2⟩

variable {V : Vector σ (List (TaggedT α))} {Inv : σ → Prop} {cur : σ → Nat → Option Nat} {A : Prop}
  (hV : Versioned V Inv cur A) {stdSort : List (TaggedT α) → List (TaggedT α)} {l begin n : Nat}

section Batch

include hV

/-- The pages of a batch are read with the counter of the layer below. -/
theorem fetchBatch_versioned (batchBegin : Nat) {s : State α σ} (hs : Inv s.vec)
    (hcur : ∀ u < (S.waysOf l).prod, cur s.vec (begin + (n + S.fetchInterval l * u)) = before l) :
    Ends (fun s' => Inv s'.vec ∧ cur s'.vec = cur s.vec) (StopsVersioned Inv A)
      (S.fetchBatch V l begin n batchBegin s) := by
  rw [fetchBatch, getVecProduct_eq]
  split
  · exact ⟨hs, rfl⟩
  · rename_i h0
    rw [before, if_neg h0] at hcur
    refine hV.reads (fun u _ s hinv hnone => ?_) hs hcur
    rw [copyIn]
    cases hread : V.read (begin + (n + S.fetchInterval l * u)) (l - 1) s.vec with
    | mk result vec =>
      rw [hread] at hinv hnone
      cases result with
      | none => exact ⟨hinv, fun _ => hnone rfl⟩
      | some bucket => exact rfl

/-- They are written with the counter of the layer. -/
theorem writeBatch_versioned (hF : 0 < S.fetchInterval l) (hl : l < 2 ^ 32)
    (hlt : ∀ u < (S.waysOf l).prod, begin + (n + S.fetchInterval l * u) < 2 ^ 64) {s : State α σ}
    (hs : Inv s.vec)
    (hcur : ∀ u < (S.waysOf l).prod, cur s.vec (begin + (n + S.fetchInterval l * u)) = before l) :
    Ends (fun s' => Inv s'.vec ∧ Stamps (fun u => begin + (n + S.fetchInterval l * u))
        (S.waysOf l).prod (some l) (cur s.vec) (cur s'.vec)) (StopsVersioned Inv A)
      (S.writeBatch V l begin n s) := by
  rw [writeBatch, getVecProduct_eq]
  exact hV.writes (fun u _ s => ⟨_, s.batch u, rfl, rfl⟩)
    (fun u _ u' _ h => Nat.eq_of_mul_eq_mul_left hF (by omega)) hlt hl hs hcur

/-- A batch of a layer before the last one. -/
theorem sortBatch_versioned (hlast : l + 1 < S.KWayParams.ways.length) (batchCount : Nat)
    (hF : 0 < S.fetchInterval l) (hl : l < 2 ^ 32)
    (hlt : ∀ u < (S.waysOf l).prod, begin + (n + S.fetchInterval l * u) < 2 ^ 64) {s : State α σ}
    (hs : Inv s.vec)
    (hcur : ∀ u < (S.waysOf l).prod, cur s.vec (begin + (n + S.fetchInterval l * u)) = before l) :
    Ends (fun s' => Inv s'.vec ∧ Stamps (fun u => begin + (n + S.fetchInterval l * u))
        (S.waysOf l).prod (some l) (cur s.vec) (cur s'.vec)) (StopsVersioned Inv A)
      (S.sortBatch V stdSort l begin batchCount n s) := by
  by_cases hin : S.InBuffer l n
  swap
  · rw [sortBatch_overrun hin]
    exact stopsVersioned_of_ne hs (by decide)
  rw [sortBatch_inner hlast _ _ _ _ hin]
  refine Ends.bind (Q := fun s' => Inv s'.vec ∧ cur s'.vec = cur s.vec)
    ((fetchBatch_versioned hV 0 hs hcur).bind ?_) ?_
  · rintro s₁ ⟨hs₁, h₁⟩
    refine ((basic_keepsVec ..).versioned hs₁).mono (fun s₂ h₂ => ?_) fun _ he => he
    rw [h₂]
    exact ⟨hs₁, h₁⟩
  · rintro s₂ ⟨hs₂, h₂⟩
    rw [← h₂]
    exact writeBatch_versioned hV hF hl hlt hs₂ fun u hu => (congrFun h₂ _).trans (hcur u hu)

/-- A batch of the last layer. -/
theorem lastBatch_versioned (hlast : S.isLastLayer l = true) (batchCount : Nat) {s : State α σ}
    (hs : Inv s.vec)
    (hcur : ∀ u < (S.waysOf l).prod, cur s.vec (begin + (n + S.fetchInterval l * u)) = before l) :
    Ends (fun s' => Inv s'.vec ∧ cur s'.vec = cur s.vec) (StopsVersioned Inv A)
      (S.sortBatch V stdSort l begin batchCount n s) := by
  rw [sortBatch]
  refine Ends.bind (Q := fun s' => s' = s)
    (require_ends (fun _ => rfl) fun _ => stopsVersioned_of_ne hs (by decide)) ?_
  rintro _ rfl
  refine (fetchBatch_versioned hV _ hs hcur).bind ?_
  rintro s₁ ⟨hs₁, h₁⟩
  simp only [hlast, ↓reduceIte]
  refine (((basic_keepsVec ..).bind fun s => outputBatch_keepsVec ..).versioned hs₁).mono
    (fun s₂ h₂ => ?_) fun _ he => he
  rw [h₂]
  exact ⟨hs₁, h₁⟩

end Batch

/-! ## Layers -/

section Layers

variable (hS : S.Layered)

include hS in
theorem Layered.prod_pos (hl : l < S.KWayParams.ways.length) : 0 < (S.waysOf l).prod := by
  have := hS.ways.two_le_prod (waysOf_mem hl)
  omega

include hS in
theorem Layered.fetchInterval_pos (hl : l ≤ S.KWayParams.ways.length) : 0 < S.fetchInterval l := by
  induction l with
  | zero => exact Nat.one_pos
  | succ l ih =>
    rw [fetchInterval_succ]
    exact Nat.mul_pos (ih (by omega)) (hS.prod_pos (by omega))

include hS in
theorem Layered.length_lt : S.KWayParams.ways.length < 64 :=
  hS.ways.length_lt (hS.totalBucket ▸ hS.totalBucket_lt)

include hV hS

/-- The batches of a layer before the last one. -/
theorem sortBatches_stamps (hlast : l + 1 < S.KWayParams.ways.length)
    (hlt : begin + (S.waysOf l).prod * S.fetchInterval l ≤ 2 ^ 64) {s : State α σ} (hs : Inv s.vec)
    (hcur : ∀ q < (S.waysOf l).prod * S.fetchInterval l, cur s.vec (begin + q) = before l) :
    Ends (fun s' => Inv s'.vec ∧ Stamps (fun q => begin + q) ((S.waysOf l).prod * S.fetchInterval l)
        (some l) (cur s.vec) (cur s'.vec)) (StopsVersioned Inv A)
      (forRange (S.fetchInterval l) (S.sortBatch V stdSort l begin (S.fetchInterval l)) s) := by
  have hcounter := hS.length_lt
  have hpage : ∀ n u, begin + (u * S.fetchInterval l + n) = begin + (n + S.fetchInterval l * u) :=
    fun n u => by rw [Nat.add_comm n, Nat.mul_comm u]
  refine (parts_columns (S.fetchInterval l) (S.waysOf l).prod).loop (fun q => begin + q) (before l)
    (some l) (fun s : State α σ => Inv s.vec) (fun s => cur s.vec) (fun q _ q' _ h => by omega)
    (fun n hn s hs hold => ?_) hs hcur
  simp only [hpage] at hold ⊢
  refine sortBatch_versioned hV hlast _ (hS.fetchInterval_pos (by omega)) (by omega)
    (fun u hu => ?_) hs hold
  rw [← hpage]
  have := grid_lt hu hn
  omega

omit hV hS in
/-- The calls for the parts of a range, one after the other. -/
theorem parts_stamps {W F : Nat} {call : Nat → State α σ → Except (Stop α σ) (State α σ)}
    (hlt : begin + W * F ≤ 2 ^ 64)
    (hcall : ∀ i s, begin + i * F + F ≤ 2 ^ 64 → Inv s.vec →
      (∀ j < F, cur s.vec (begin + i * F + j) = none) →
      Ends (fun s' => Inv s'.vec ∧ Stamps (fun j => begin + i * F + j) F (some l) (cur s.vec)
        (cur s'.vec)) (StopsVersioned Inv A) (call i s))
    {s : State α σ} (hs : Inv s.vec) (hcur : ∀ q < W * F, cur s.vec (begin + q) = none) :
    Ends (fun s' => Inv s'.vec ∧ Stamps (fun q => begin + q) (W * F) (some l)
      (cur s.vec) (cur s'.vec)) (StopsVersioned Inv A) (forRange W call s) := by
  refine (parts_rows W F).loop (fun q => begin + q) none (some l) (fun s : State α σ => Inv s.vec)
    (fun s => cur s.vec) (fun q _ q' _ h => by omega) (fun i hi s hs hold => ?_) hs hcur
  have hend := Nat.mul_le_mul_right F (show i + 1 ≤ W from hi)
  rw [Nat.succ_mul] at hend
  simp only [← Nat.add_assoc] at hold ⊢
  exact hcall i s (by omega) hs hold

/-- **The layers of pages** below the last one: every page of a range is written with the counters
up to the layer, each once. -/
theorem KWayButterflySort_stamps (hlast : l + 1 < S.KWayParams.ways.length)
    (hlt : begin + S.fetchInterval (l + 1) ≤ 2 ^ 64) {s : State α σ} (hs : Inv s.vec)
    (hcur : ∀ q < S.fetchInterval (l + 1), cur s.vec (begin + q) = none) :
    Ends (fun s' => Inv s'.vec ∧ Stamps (fun q => begin + q) (S.fetchInterval (l + 1)) (some l)
        (cur s.vec) (cur s'.vec)) (StopsVersioned Inv A)
      (S.KWayButterflySort V stdSort l begin (S.fetchInterval (l + 1)) s) := by
  induction l generalizing begin s with
  | zero =>
    rw [fetchInterval_succ] at hlt hcur ⊢
    rw [KWayButterflySort_first _ _ (hS.prod_pos (by omega))]
    rw [Nat.mul_comm] at hlt hcur ⊢
    exact sortBatches_stamps hV hS hlast hlt hs hcur
  | succ l ih =>
    have hW := hS.prod_pos (l := l + 1) (by omega)
    rw [fetchInterval_succ (l + 1)] at hlt hcur ⊢
    rw [KWayButterflySort_next _ _ hW]
    rw [Nat.mul_comm] at hlt hcur ⊢
    refine Ends.bind
      (parts_stamps hlt (fun i s hlt hs hold => ih (by omega) hlt hs hold) hs hcur) ?_
    rintro s₁ ⟨hs₁, h₁⟩
    refine (sortBatches_stamps hV hS hlast hlt hs₁ fun q hq => ?_).mono
      (fun _ h => ⟨h.1, h₁.again h.2⟩) fun _ he => he
    rw [h₁.here q hq]
    rfl

omit hS in
/-- The batches of the last layer. -/
theorem lastBatches_versioned (hlast : S.isLastLayer l = true) (batchCount : Nat) {s : State α σ}
    (hs : Inv s.vec)
    (hcur : ∀ q < (S.waysOf l).prod * S.fetchInterval l, cur s.vec (begin + q) = before l) :
    Ends (fun s' => Inv s'.vec) (StopsVersioned Inv A)
      (forRange (S.fetchInterval l) (S.sortBatch V stdSort l begin batchCount) s) := by
  refine (forRange_ends (fun _ (s' : State α σ) => Inv s'.vec ∧ cur s'.vec = cur s.vec) ⟨hs, rfl⟩
    ?_).mono (fun _ h => h.1) fun _ he => he
  rintro n hn s₁ ⟨hs₁, h₁⟩
  refine (lastBatch_versioned hV hlast batchCount hs₁ fun u hu => ?_).mono
    (fun s₂ h => ⟨h.1, h.2.trans h₁⟩) fun _ he => he
  rw [h₁, Nat.add_comm n, Nat.mul_comm]
  exact hcur _ (grid_lt hu hn)

/-- **A whole sort** reads every page with the counter it was last written with, and writes no page
twice with one counter. -/
theorem sort_versioned {s : State α σ} (hs : Inv s.vec) (hcur : ∀ p, cur s.vec p = none) :
    Ends (fun s' => Inv s'.vec) (StopsVersioned Inv A) (S.sort V stdSort s) := by
  obtain ⟨l, hl⟩ : ∃ l, S.KWayParams.ways.length = l + 1 :=
    Nat.exists_eq_succ_of_ne_zero fun h => hS.ways.ne_nil (List.length_eq_zero_iff.1 h)
  have hlast : S.isLastLayer l = true := by simp [isLastLayer, hl]
  have hW := hS.prod_pos (l := l) (by omega)
  have hsize : S.KWayParams.totalBucket = S.fetchInterval l * (S.waysOf l).prod := by
    rw [hS.totalBucket, ← fetchInterval_succ, fetchInterval_eq (by omega), ← hl, List.take_length]
  rw [sort, hsize, hl, Nat.add_sub_cancel]
  refine Ends.bind (Q := fun s' => s' = s)
    (require_ends (fun _ => rfl) fun _ => stopsVersioned_of_ne hs (by decide)) ?_
  rintro _ rfl
  cases l with
  | zero =>
    rw [KWayButterflySort_first _ _ hW]
    exact lastBatches_versioned hV hlast _ hs fun q _ => hcur _
  | succ l =>
    have hfit := hS.totalBucket_lt
    rw [hsize, Nat.mul_comm] at hfit
    rw [KWayButterflySort_next _ _ hW]
    refine Ends.bind (parts_stamps (by omega) (fun i s hlt hs hold =>
      KWayButterflySort_stamps hV hS (by omega) hlt hs hold) hs fun q _ => hcur _) ?_
    rintro s₁ ⟨hs₁, h₁⟩
    refine lastBatches_versioned hV hlast _ hs₁ fun q hq => ?_
    rw [h₁.here q hq]
    rfl

end Layers

end EM.Algorithm.ButterflySorter
