import OblSort.Algorithm.Proof.ButterflyFresh
import OblSort.Lib.Follow
import OblSort.Proof.WitnessedVector

/-!
# A butterfly sort on an untrusted backend

A sort uses its intermediate vector through reads and writes only, so on a vector that does the same
it does the same (`sort_follows`).
-/

namespace EM.Algorithm

open EM.DynamicPageVector Loop

namespace ButterflySorter

variable {α σ σ' : Type} {S : ButterflySorter}

/-- The state with another intermediate vector. -/
def State.mapVec (π : σ → σ') (s : State α σ) : State α σ' where
  reader := s.reader
  batch := s.batch
  vec := π s.vec
  written := s.written
  mergeSortRanges := s.mergeSortRanges
  lastBuckets := s.lastBuckets
  handed := s.handed

section Follows

variable (π : σ → σ') (good : σ → Prop) (fails : Prop)

/-- A step on one vector and the same step on the image of the vector. -/
abbrev FollowsVec (f : State α σ → Except (Stop α σ) (State α σ))
    (f' : State α σ' → Except (Stop α σ') (State α σ')) : Prop :=
  Follows (State.mapVec π) (fun s => good s.vec)
    (fun a s => good s.vec ∧ (a = .authentication → fails)) f f'

/-! ## In memory -/

theorem mergeSplitLayer_follows (begin way wayBucket : Nat) :
    FollowsVec (α := α) π good fails (S.mergeSplitLayer begin way wayBucket)
      (S.mergeSplitLayer begin way wayBucket) := by
  refine forRange_follows fun j => ⟨fun s => ?_⟩
  simp only [mergeSplitAt, State.mapVec]
  split
  · exact fun h => ⟨h.1, rfl⟩
  · exact fun h => ⟨h, rfl⟩

theorem padBuckets_follows (ioLayer begin way wayBucket : Nat) :
    FollowsVec (α := α) π good fails (S.padBuckets ioLayer begin way wayBucket)
      (S.padBuckets ioLayer begin way wayBucket) :=
  Follows.ite (forRange_follows fun _ => .step (fun _ h => h) fun _ => rfl) .skip

theorem basic_follows (ioLayer innerLayer begin numBucket : Nat) :
    FollowsVec (α := α) π good fails (S.KWayButterflySortBasic ioLayer innerLayer begin numBucket)
      (S.KWayButterflySortBasic ioLayer innerLayer begin numBucket) := by
  induction innerLayer generalizing begin numBucket with
  | zero => exact (padBuckets_follows ..).comp (mergeSplitLayer_follows ..)
  | succ innerLayer ih => exact (forRange_follows fun i => ih ..).comp (mergeSplitLayer_follows ..)

theorem outputGroup_follows (stdSort : List (TaggedT α) → List (TaggedT α)) (n : Nat) :
    FollowsVec π good fails (S.outputGroup stdSort n) (S.outputGroup stdSort n) := by
  refine ⟨fun s => ?_⟩
  simp only [outputGroup, State.mapVec]
  split
  · exact fun h => ⟨h.1, rfl⟩
  · exact fun h => ⟨h, rfl⟩

theorem outputBatch_follows (stdSort : List (TaggedT α) → List (TaggedT α))
    (ioLayer batchCount batchIdx batchBegin : Nat) :
    FollowsVec π good fails (S.outputBatch stdSort ioLayer batchCount batchIdx batchBegin)
      (S.outputBatch stdSort ioLayer batchCount batchIdx batchBegin) := by
  have hbuckets : FollowsVec (α := α) π good fails
      (forRange (getVecProduct (S.waysOf ioLayer)) fun i s =>
        .ok (S.outputBucket (batchBegin + i) s))
      (forRange (getVecProduct (S.waysOf ioLayer)) fun i s =>
        .ok (S.outputBucket (batchBegin + i) s)) :=
    forRange_follows fun _ => .step (fun _ h => h) fun _ => rfl
  refine ⟨fun s => (hbuckets.comp ?_).ends { s with
    lastBuckets := Store.putAll (fun i => batchIdx + S.fetchInterval ioLayer * i)
      (fun i => s.batch (batchBegin + i)) (getVecProduct (S.waysOf ioLayer)) s.lastBuckets }⟩
  cases S.task with
  | kWayButterflyOShuffle => exact .skip
  | kWayButterflyOSort => exact (outputGroup_follows ..).ite .skip

/-! ## Pages -/

variable {π good fails} {V : Vector σ (List (TaggedT α))} {V' : Vector σ' (List (TaggedT α))}
  (hV : Tracks V V' π good fails)

include hV

theorem copyIn_follows (pageIdx p counter : Nat) :
    FollowsVec π good fails (copyIn V pageIdx p counter) (copyIn V' pageIdx p counter) := by
  refine ⟨fun s => ?_⟩
  have hread := hV.read pageIdx counter s.vec
  have hgood := hV.read_good pageIdx counter s.vec
  simp only [copyIn, State.mapVec]
  cases hr : V.read pageIdx counter s.vec with
  | mk result vec =>
    rw [hr] at hread hgood
    cases result with
    | none => exact fun h => ⟨hgood h.1, by rw [hread h.1 fun _ => h.2 rfl]⟩
    | some bucket => exact fun h => ⟨hgood h, by rw [hread h fun h => by cases h]⟩

theorem copyOut_follows (pageIdx p counter : Nat) :
    FollowsVec π good fails (copyOut V pageIdx p counter) (copyOut V' pageIdx p counter) := by
  refine .step (fun s => hV.write_good _ _ _ s.vec) fun s => ?_
  simp only [State.mapVec, hV.write]

theorem fetchBatch_follows (ioLayer begin batchIdx batchBegin : Nat) :
    FollowsVec π good fails (S.fetchBatch V ioLayer begin batchIdx batchBegin)
      (S.fetchBatch V' ioLayer begin batchIdx batchBegin) :=
  Follows.ite .skip (forRange_follows fun _ => copyIn_follows hV ..)

theorem sortBatch_follows (stdSort : List (TaggedT α) → List (TaggedT α))
    (ioLayer begin batchCount batchIdx : Nat) :
    FollowsVec π good fails (S.sortBatch V stdSort ioLayer begin batchCount batchIdx)
      (S.sortBatch V' stdSort ioLayer begin batchCount batchIdx) :=
  (require_follows fun _ h => h.1).comp ((fetchBatch_follows hV ..).comp ((basic_follows ..).comp
    ((outputBatch_follows ..).ite (forRange_follows fun _ => copyOut_follows hV ..))))

theorem KWayButterflySort_follows (stdSort : List (TaggedT α) → List (TaggedT α))
    (ioLayer begin size : Nat) :
    FollowsVec π good fails (S.KWayButterflySort V stdSort ioLayer begin size)
      (S.KWayButterflySort V' stdSort ioLayer begin size) := by
  induction ioLayer generalizing begin size with
  | zero => exact forRange_follows fun _ => sortBatch_follows hV ..
  | succ ioLayer ih =>
    exact (forRange_follows fun i => ih ..).comp (forRange_follows fun _ => sortBatch_follows hV ..)

/-- **A sort** does on the image of the pages what it does on the pages. -/
theorem sort_follows (stdSort : List (TaggedT α) → List (TaggedT α)) :
    FollowsVec π good fails (S.sort V stdSort) (S.sort V' stdSort) :=
  (require_follows fun _ h => h.1).comp (KWayButterflySort_follows hV ..)

end Follows

/-! ## Replaying backends -/

/-- **A sort on a replaying backend** does what it does on plain pages, or stops at a failed
authentication, which takes a backend that is not honest. -/
theorem butterfly_replaying (hS : S.Layered) (answer : Backend (List (TaggedT α))) (nounce : Nounce)
    (stdSort : List (TaggedT α) → List (TaggedT α)) (input : List (BitVec 64 × α))
    (batch pages : Nat → List (TaggedT α)) :
    Ends
      (fun s => ∃ vec, S.sort (.plain _) stdSort (.start input batch pages) =
        .ok (s.mapVec fun _ => vec))
      (fun e => e.1 = .authentication ∧ answer ≠ .honest _ ∨ ∃ vec,
        S.sort (.plain _) stdSort (.start input batch pages) =
          .error (e.1, e.2.mapVec fun _ => vec))
      (S.sort (.replaying answer) stdSort (.start input batch (.new nounce))) := by
  let start : State α (Witnessed (ReplayServer (List (TaggedT α))) (List (TaggedT α))) :=
    .start input batch ⟨.new nounce, pages, True⟩
  have hkept : Ends (fun s => Mirrored s.vec) (StopsVersioned Mirrored (answer ≠ .honest _))
      (S.sort (Vector.replaying answer).witnessed stdSort start) :=
    sort_versioned (witnessed_versioned answer) hS (mirrored_new nounce pages) fun _ => rfl
  have hreplay := (sort_follows (S := S) (witnessed_tracks (.replaying answer)) stdSort).ends start
  have hplain :=
    (sort_follows (S := S) (witnessed_tracks_plain (.replaying answer)) stdSort).ends start
  cases hrun : S.sort (Vector.replaying answer).witnessed stdSort start with
  | ok s =>
    rw [hrun] at hkept hreplay hplain
    rw [show S.sort (.replaying answer) stdSort (.start input batch (.new nounce)) = _ from
      (hreplay trivial).2]
    exact ⟨s.vec.pages, (hplain hkept.agreed).2⟩
  | error e =>
    rw [hrun] at hkept hreplay hplain
    rw [show S.sort (.replaying answer) stdSort (.start input batch (.new nounce)) = _ from
      (hreplay ⟨trivial, fun _ => trivial⟩).2]
    by_cases hauth : e.1 = .authentication
    · exact .inl ⟨hauth, hkept.2 hauth⟩
    · exact .inr ⟨e.2.vec.pages, (hplain ⟨hkept.1.agreed, fun h => absurd h hauth⟩).2⟩

/-- A sorter of one element, with two layers of two ways. -/
def twoLayers : ButterflySorter := ⟨.kWayButterflyOSort, false, ⟨[[2], [2]], 2, 4⟩, 1, 8, 16⟩

theorem twoLayers_layered : twoLayers.Layered :=
  ⟨⟨by decide, by decide, by decide⟩, by decide, by decide⟩

/-- Two layers of two ways, on a backend that is not honest. -/
theorem butterfly_replaying_two :
    Ends
      (fun s => ∃ vec, twoLayers.sort (.plain _) id (.start [(5, ())] (fun _ => []) fun _ => []) =
        .ok (s.mapVec fun _ => vec))
      (fun e => e.1 = .authentication ∧ Backend.newest (List (TaggedT Unit)) ≠ .honest _ ∨ ∃ vec,
        twoLayers.sort (.plain _) id (.start [(5, ())] (fun _ => []) fun _ => []) =
          .error (e.1, e.2.mapVec fun _ => vec))
      (twoLayers.sort (.replaying (.newest _)) id (.start [(5, ())] (fun _ => []) (.new ⟨3, 4⟩))) :=
  butterfly_replaying twoLayers_layered (.newest _) ⟨3, 4⟩ id [(5, ())] (fun _ => []) fun _ => []

end ButterflySorter

end EM.Algorithm
