import OblSort.Algorithm.Proof.DistriFresh
import OblSort.Algorithm.Proof.DistriSort
import OblSort.Lib.Follow
import OblSort.Proof.WitnessedVector

/-!
# A distribution sort on an untrusted backend

As with the butterfly sorter, a sort on a vector that does the same does the same (`sort_follows`),
and on a replaying backend it does what it does on plain pages or stops at a failed authentication
(`sort_replaying`), when positions fit into an `int`.
-/

namespace EM.Algorithm.KWayDistriSorter

open EM.DynamicPageVector Loop

variable {α σ σ' ρ : Type} {S : KWayDistriSorter α}

/-- The state with another intermediate vector. -/
def State.mapVec (π : σ → σ') (s : State α σ ρ) : State α σ' ρ where
  io := s.io
  inputCount := s.inputCount
  batch := s.batch
  allocated := s.allocated
  vec := π s.vec
  given := s.given
  partitions := s.partitions

section Follows

variable (π : σ → σ') (good : σ → Prop) (fails : Prop) (I : IOVector ρ α)

/-- A step on one vector and the same step on the image of the vector. -/
abbrev FollowsVec (f : State α σ ρ → Except (Stop α σ ρ) (State α σ ρ))
    (f' : State α σ' ρ → Except (Stop α σ' ρ) (State α σ' ρ)) : Prop :=
  Follows (State.mapVec π) (fun s => good s.vec)
    (fun a s => good s.vec ∧ (a = .authentication → fails)) f f'

/-! ## In memory -/

theorem fillBlock_mapVec (offset : Nat) (it : Block α) (s : State α σ ρ) :
    Ends (fun r => r.2.vec = s.vec ∧ S.fillBlock I offset it (s.mapVec π) = .ok (r.1, r.2.mapVec π))
      (fun e => e.2.vec = s.vec ∧ S.fillBlock I offset it (s.mapVec π) = .error (e.1, e.2.mapVec π))
      (S.fillBlock I offset it s) := by
  by_cases hc : offset < S.numRealPerBucket ∧ I.eof s.io = false
  · rw [show S.fillBlock I offset it s = S.readBlock I it s from if_pos hc,
      show S.fillBlock I offset it (s.mapVec π) = S.readBlock I it (s.mapVec π) from if_pos hc]
    simp only [readBlock, State.mapVec]
    cases I.read s.io with
    | error io => exact ⟨rfl, rfl⟩
    | ok r => exact ⟨rfl, rfl⟩
  · rw [show S.fillBlock I offset it s = .ok (it.setDummy, s) from if_neg hc,
      show S.fillBlock I offset it (s.mapVec π) = .ok (it.setDummy, s.mapVec π) from if_neg hc]
    exact ⟨rfl, rfl⟩

theorem tagAndPad_mapVec (offset : Nat) (its : List (Block α)) (s : State α σ ρ) :
    Ends (fun r => r.2.vec = s.vec ∧ S.tagAndPad I offset its (s.mapVec π) =
      .ok (r.1, r.2.mapVec π))
      (fun e => e.2.vec = s.vec ∧ S.tagAndPad I offset its (s.mapVec π) =
        .error (e.1, e.2.mapVec π))
      (S.tagAndPad I offset its s) := by
  induction its generalizing offset s with
  | nil => exact ⟨rfl, rfl⟩
  | cons it its ih =>
    have hfill := fillBlock_mapVec (S := S) π I offset it s
    cases hf : S.fillBlock I offset it s with
    | error e =>
      rw [hf] at hfill
      have himage : S.tagAndPad I offset (it :: its) (s.mapVec π) = .error (e.1, e.2.mapVec π) := by
        rw [tagAndPad, hfill.2]
        rfl
      rw [show S.tagAndPad I offset (it :: its) s = .error e by rw [tagAndPad, hf]; rfl]
      exact ⟨hfill.1, himage⟩
    | ok r =>
      rw [hf] at hfill
      have hstep : S.tagAndPad I offset (it :: its) s =
          S.tagAndPad I (offset + 1) its r.2 >>= fun r' => .ok (r.1 :: r'.1, r'.2) := by
        rw [tagAndPad, hf]
        rfl
      have himage : S.tagAndPad I offset (it :: its) (s.mapVec π) =
          S.tagAndPad I (offset + 1) its (r.2.mapVec π) >>= fun r' => .ok (r.1 :: r'.1, r'.2) := by
        rw [tagAndPad, hfill.2]
        rfl
      have hrest := ih (offset + 1) r.2
      rw [hstep, himage]
      cases hr : S.tagAndPad I (offset + 1) its r.2 with
      | error e =>
        rw [hr] at hrest
        rw [hrest.2]
        exact ⟨hrest.1.trans hfill.1, rfl⟩
      | ok r' =>
        rw [hr] at hrest
        rw [hrest.2]
        exact ⟨hrest.1.trans hfill.1, rfl⟩

theorem padBucket_eq (p : Nat) (s : State α σ ρ) :
    S.padBucket I p s = S.tagAndPad I 0 (s.batch p) s >>= fun r =>
      .ok { r.2 with batch := Function.update r.2.batch p r.1 } := rfl

theorem padBucket_follows (p : Nat) :
    FollowsVec π good fails (S.padBucket I p) (S.padBucket I p) := by
  refine ⟨fun s => ?_⟩
  have hpad := tagAndPad_mapVec (S := S) π I 0 (s.batch p) s
  rw [padBucket_eq, padBucket_eq]
  cases hr : S.tagAndPad I 0 (s.batch p) s with
  | error e =>
    rw [hr] at hpad
    exact fun h => ⟨hpad.1 ▸ h.1, congrArg (· >>= _) hpad.2⟩
  | ok r =>
    rw [hr] at hpad
    exact fun h => ⟨hpad.1 ▸ h, congrArg (· >>= _) hpad.2⟩

theorem padBuckets_follows (ioLayer way begin stride : Nat) :
    FollowsVec π good fails (S.padBuckets I ioLayer way begin stride)
      (S.padBuckets I ioLayer way begin stride) :=
  Follows.ite (forRange_follows fun _ => padBucket_follows ..) .skip

variable [SortKey α]

theorem mergeSplitStride_follows
    (way pivotStride pivotOffset stride strideBegin strideCount : Nat) :
    FollowsVec (ρ := ρ) π good fails
      (S.mergeSplitStride way pivotStride pivotOffset stride strideBegin strideCount)
      (S.mergeSplitStride way pivotStride pivotOffset stride strideBegin strideCount) := by
  refine ⟨fun s => ?_⟩
  simp only [mergeSplitStride, mergeSplitAt, State.mapVec]
  split
  · exact fun h => ⟨h.1, rfl⟩
  · split
    · exact fun h => ⟨h.1, rfl⟩
    · exact fun h => ⟨h, rfl⟩

theorem mergeSplitLayer_follows (way pivotStride pivotOffset stride begin endPtr : Nat) :
    FollowsVec (ρ := ρ) π good fails
      (S.mergeSplitLayer way pivotStride pivotOffset stride begin endPtr)
      (S.mergeSplitLayer way pivotStride pivotOffset stride begin endPtr) :=
  forStride_follows (fun _ h => h.1) (fun _ _ => mergeSplitStride_follows ..) _ _ _

theorem basic_follows (ioLayer endPtr pivotStride pivotOffset innerLayer begin stride : Nat) :
    FollowsVec π good fails
      (S.KWayDistriSortBasic I ioLayer endPtr pivotStride pivotOffset innerLayer begin stride)
      (S.KWayDistriSortBasic I ioLayer endPtr pivotStride pivotOffset innerLayer begin stride) := by
  induction innerLayer generalizing begin stride with
  | zero => exact (padBuckets_follows ..).comp (mergeSplitLayer_follows ..)
  | succ innerLayer ih => exact (forRange_follows fun i => ih ..).comp (mergeSplitLayer_follows ..)

omit [SortKey α] in
theorem flush_follows : FollowsVec (α := α) π good fails (flush I) (flush I) := by
  refine ⟨fun s => ?_⟩
  simp only [flush, State.mapVec]
  cases I.flush s.io with
  | error io => exact fun h => ⟨h.1, rfl⟩
  | ok io => exact fun h => ⟨h, rfl⟩

/-! ## Pages -/

variable {π good fails} {V : Vector σ (List (Block α))} {V' : Vector σ' (List (Block α))}
  (hV : Tracks V V' π good fails)

include hV

omit [SortKey α] in
theorem copyIn_follows (it p counter : Nat) :
    FollowsVec (ρ := ρ) π good fails (S.copyIn V it p counter) (S.copyIn V' it p counter) := by
  refine ⟨fun s => ?_⟩
  have hread := hV.read (it / S.Z) counter s.vec
  have hgood := hV.read_good (it / S.Z) counter s.vec
  simp only [copyIn, State.mapVec]
  cases hr : V.read (it / S.Z) counter s.vec with
  | mk result vec =>
    rw [hr] at hread hgood
    cases result with
    | none => exact fun h => ⟨hgood h.1, by rw [hread h.1 fun _ => h.2 rfl]⟩
    | some bucket => exact fun h => ⟨hgood h, by rw [hread h fun h => by cases h]⟩

omit [SortKey α] in
theorem copyOut_follows (it p counter : Nat) :
    FollowsVec (ρ := ρ) π good fails (S.copyOut V it p counter) (S.copyOut V' it p counter) := by
  refine .step (fun s => hV.write_good _ _ _ s.vec) fun s => ?_
  simp only [State.mapVec, hV.write]

theorem sortStride_follows (ioLayer stride strideBegin strideCount : Nat) :
    FollowsVec π good fails (S.sortStride I V ioLayer stride strideBegin strideCount)
      (S.sortStride I V' ioLayer stride strideBegin strideCount) := by
  have hfetch : FollowsVec (ρ := ρ) π good fails (S.fetchStride V ioLayer stride strideBegin)
      (S.fetchStride V' ioLayer stride strideBegin) :=
    Follows.ite .skip (forRange_follows fun _ => copyIn_follows hV ..)
  have houtput : FollowsVec π good fails (S.outputPartition I ioLayer)
    (S.outputPartition I ioLayer) :=
    .step (fun _ h => h) fun _ => rfl
  exact hfetch.comp (houtput.ite ((basic_follows ..).comp
    (forRange_follows fun _ => copyOut_follows hV ..)))

theorem sortStrides_follows (uninit : Nat → Nat → List (Block α))
    (endPtr ioLayer begin stride : Nat) :
    FollowsVec π good fails (S.sortStrides I V uninit endPtr ioLayer begin stride)
      (S.sortStrides I V' uninit endPtr ioLayer begin stride) :=
  ⟨fun s => ((forStride_follows (fun _ h => h.1) (fun _ _ => sortStride_follows I hV ..) _ _ _).comp
    ((flush_follows ..).ite .skip)).ends (allocate uninit s)⟩

theorem KWayDistriSort_follows (uninit : Nat → Nat → List (Block α))
    (endPtr ioLayer begin stride : Nat) :
    FollowsVec π good fails (S.KWayDistriSort I V uninit endPtr ioLayer begin stride)
      (S.KWayDistriSort I V' uninit endPtr ioLayer begin stride) := by
  induction ioLayer generalizing begin stride with
  | zero => exact sortStrides_follows I hV ..
  | succ ioLayer ih => exact (forRange_follows fun i => ih ..).comp (sortStrides_follows I hV ..)

/-- **A sort** does on the image of the pages what it does on the pages. -/
theorem sort_follows (uninit : Nat → Nat → List (Block α)) :
    FollowsVec π good fails (S.sort I V uninit) (S.sort I V' uninit) :=
  KWayDistriSort_follows I hV ..

end Follows

/-! ## Replaying backends -/

/-- **A sort on a replaying backend** does what it does on plain pages, or stops at a failed
authentication, which takes a backend that is not honest. -/
theorem distri_replaying [SortKey α] (hS : S.Layered) (hsmall : S.numTotalBucket * S.Z < 2 ^ 31)
    (I : IOVector ρ α) (answer : Backend (List (Block α))) (nounce : Nounce)
    (uninit : Nat → Nat → List (Block α)) (io : ρ) (inputCount : BitVec 64)
    (pages : Nat → List (Block α)) :
    Ends
      (fun s => ∃ vec, S.sort I (.plain _) uninit (.start io inputCount pages) =
        .ok (s.mapVec fun _ => vec))
      (fun e => e.1 = .authentication ∧ answer ≠ .honest _ ∨ ∃ vec,
        S.sort I (.plain _) uninit (.start io inputCount pages) =
          .error (e.1, e.2.mapVec fun _ => vec))
      (S.sort I (.replaying answer) uninit (.start io inputCount (.new nounce))) := by
  let start : State α (Witnessed (ReplayServer (List (Block α))) (List (Block α))) ρ :=
    .start io inputCount ⟨.new nounce, pages, True⟩
  have hkept : Ends (fun s => Mirrored s.vec) (StopsVersioned Mirrored (answer ≠ .honest _))
      (S.sort I (Vector.replaying answer).witnessed uninit start) :=
    sort_versioned (witnessed_versioned answer) hS hsmall (mirrored_new nounce pages) fun _ => rfl
  have hreplay := (sort_follows (S := S) I (witnessed_tracks (.replaying answer)) uninit).ends start
  have hplain :=
    (sort_follows (S := S) I (witnessed_tracks_plain (.replaying answer)) uninit).ends start
  cases hrun : S.sort I (Vector.replaying answer).witnessed uninit start with
  | ok s =>
    rw [hrun] at hkept hreplay hplain
    rw [show S.sort I (.replaying answer) uninit (.start io inputCount (.new nounce)) = _ from
      (hreplay trivial).2]
    exact ⟨s.vec.pages, (hplain hkept.agreed).2⟩
  | error e =>
    rw [hrun] at hkept hreplay hplain
    rw [show S.sort I (.replaying answer) uninit (.start io inputCount (.new nounce)) = _ from
      (hreplay ⟨trivial, fun _ => trivial⟩).2]
    by_cases hauth : e.1 = .authentication
    · exact .inl ⟨hauth, hkept.2 hauth⟩
    · exact .inr ⟨e.2.vec.pages, (hplain ⟨hkept.1.agreed, fun h => absurd h hauth⟩).2⟩

/-- A sorter of one element, with two layers of two ways and partitions of one bucket. -/
def twoLayers : KWayDistriSorter SortElement :=
  .new true ⟨[[2], [2]], 2, 4, 4⟩ 1 (List.replicate 3 ⟨⟨6, []⟩, 2, false, false⟩)

theorem twoLayers_layered : twoLayers.Layered :=
  ⟨⟨by decide, by decide, by decide⟩, by decide, by decide, by decide, by decide⟩

/-- Two layers of two ways, on a backend that is not honest. -/
theorem distri_replaying_two :
    Ends
      (fun s => ∃ vec, twoLayers.sort InOut.vector (.plain _) (fun _ => zeroBlocks)
        (.start ⟨[(⟨5, []⟩, 0)], []⟩ 0 fun _ => []) = .ok (s.mapVec fun _ => vec))
      (fun e => e.1 = .authentication ∧ Backend.newest (List (Block SortElement)) ≠
        .honest _ ∨ ∃ vec, twoLayers.sort InOut.vector (.plain _) (fun _ => zeroBlocks)
          (.start ⟨[(⟨5, []⟩, 0)], []⟩ 0 fun _ => []) = .error (e.1, e.2.mapVec fun _ => vec))
      (twoLayers.sort InOut.vector (.replaying (.newest _)) (fun _ => zeroBlocks)
        (.start ⟨[(⟨5, []⟩, 0)], []⟩ 0 (.new ⟨3, 4⟩))) :=
  distri_replaying twoLayers_layered (show 2 * 2 * 1 * 2 < 2 ^ 31 by decide) InOut.vector
    (.newest _) ⟨3, 4⟩ (fun _ => zeroBlocks) ⟨[(⟨5, []⟩, 0)], []⟩ 0 fun _ => []

end EM.Algorithm.KWayDistriSorter
