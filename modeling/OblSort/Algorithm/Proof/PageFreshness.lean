import OblSort.Algorithm.Proof.ButterflyFresh
import OblSort.Algorithm.Proof.DistriSort

/-!
# Freshness of the intermediate pages

On a backend that may answer with any ciphertext stored before, the sorters read from a page what
they last wrote to it, or abort, and never use a nonce twice; on an honest one no authentication
fails. A `KWayDistriSorter` does so as long as positions fit into an `int`: with a stride of
`2 ^ 31` elements a layer leaves out all rows but the first one, and the next layer reads pages that
it has not written.
-/

namespace EM.Algorithm

open EM.DynamicPageVector Loop

/-- **The intermediate pages are fresh**, in a butterfly sort of any size and in a distribution sort
whose positions fit into an `int`. -/
theorem intermediate_pages_fresh {α β ρ : Type} [SortKey β] {B : ButterflySorter} (hB : B.Layered)
    (stdSort : List (TaggedT α) → List (TaggedT α)) (input : List (BitVec 64 × α))
    (batch : Nat → List (TaggedT α)) (answer : Backend (List (TaggedT α))) (nounce : Nounce)
    {D : KWayDistriSorter β} (hD : D.Layered) (hsmall : D.numTotalBucket * D.Z < 2 ^ 31)
    (I : IOVector ρ β) (uninit : Nat → Nat → List (Block β)) (io : ρ) (inputCount : BitVec 64)
    (answer' : Backend (List (Block β))) (nounce' : Nounce) :
    Ends (fun s => s.vec.Fresh)
        (fun e => e.2.vec.Fresh ∧ (answer = .honest _ → e.1 ≠ .authentication))
        (B.sort (Vector.replaying answer) stdSort (.start input batch (.new nounce))) ∧
      Ends (fun s => s.vec.Fresh)
        (fun e => e.2.vec.Fresh ∧ (answer' = .honest _ → e.1 ≠ .authentication))
        (D.sort I (Vector.replaying answer') uninit (.start io inputCount (.new nounce'))) := by
  constructor
  · exact (ButterflySorter.sort_versioned (replaying_versioned answer) hB
      (ReplayServer.kept_new nounce) (ReplayServer.counter_new nounce)).mono (fun _ h => h.fresh)
      fun _ he => ⟨he.1.fresh, fun honest hauth => he.2 hauth honest⟩
  · exact (KWayDistriSorter.sort_versioned (replaying_versioned answer') hD hsmall
      (ReplayServer.kept_new nounce') (ReplayServer.counter_new nounce')).mono (fun _ h => h.fresh)
      fun _ he => ⟨he.1.fresh, fun honest hauth => he.2 hauth honest⟩

/-! ### Layers of two and of three ways -/

/-- A sorter of one element, with buckets of two elements in partitions of `partitionSize`. -/
def layersOf (ways : List (List Nat)) (partitionSize : Nat) : KWayDistriSorter SortElement :=
  let totalPartition := (ways.map List.prod).prod
  .new true ⟨ways, 2, totalPartition, totalPartition * partitionSize⟩ 1
    (List.replicate (totalPartition - 1) ⟨⟨6, []⟩, 2, false, false⟩)

theorem layersOf_layered {ways : List (List Nat)} (h : NestedWays ways) {partitionSize : Nat}
    (hpos : 0 < partitionSize) : (layersOf ways partitionSize).Layered := by
  have hparts : 0 < (ways.map List.prod).prod := (Nat.two_pow_pos _).trans_le h.two_pow_le
  have hsize : (layersOf ways partitionSize).partitionSize = partitionSize :=
    Nat.mul_div_cancel_left _ hparts
  exact ⟨h, rfl, by rwa [hsize], by rw [hsize]; rfl, Nat.two_pos⟩

/-- Answers with what was stored last, at whatever place. -/
def latest (P : Type) : Backend P := fun _ _ _ => 0

/-- Two layers of two ways, on a backend that is not honest. -/
theorem intermediate_pages_fresh_two :
    Ends (fun s => s.vec.Fresh)
        (fun e => e.2.vec.Fresh ∧ (latest (List (TaggedT Unit)) = .honest _ →
          e.1 ≠ .authentication))
        ((⟨.kWayButterflyOSort, false, ⟨[[2], [2]], 2, 4⟩, 1, 8, 16⟩ : ButterflySorter).sort
          (Vector.replaying (latest _)) id (.start [(5, ())] (fun _ => []) (.new ⟨3, 4⟩))) ∧
      Ends (fun s => s.vec.Fresh)
        (fun e => e.2.vec.Fresh ∧ (latest (List (Block SortElement)) = .honest _ →
          e.1 ≠ .authentication))
        ((layersOf [[2], [2]] 1).sort InOut.vector (Vector.replaying (latest _))
          (fun _ => zeroBlocks) (.start ⟨[(⟨5, []⟩, 0)], []⟩ 0 (.new ⟨3, 4⟩))) :=
  have hways : NestedWays [[2], [2]] := ⟨by decide, by decide, by decide⟩
  intermediate_pages_fresh ⟨hways, by decide, by decide⟩ id [(5, ())] (fun _ => [])
  (latest _) ⟨3, 4⟩
    (layersOf_layered hways Nat.one_pos) (show 2 * 2 * 1 * 2 < 2 ^ 31 by decide) InOut.vector
    (fun _ => zeroBlocks) ⟨[(⟨5, []⟩, 0)], []⟩ 0 (latest _) ⟨3, 4⟩

/-- Three layers and partitions of `2 ^ 28` buckets: the layer in the middle has a stride of
`2 ^ 31` elements, and an authentication fails on an honest backend. -/
theorem intermediate_pages_stale :
    (layersOf [[3], [2], [2]] (2 ^ 28)).Layered ∧
    ¬ Ends (fun s => s.vec.Fresh)
        (fun e => e.2.vec.Fresh ∧ (Backend.honest (List (Block SortElement)) = .honest _ →
          e.1 ≠ .authentication))
        ((layersOf [[3], [2], [2]] (2 ^ 28)).sort InOut.vector (Vector.replaying (.honest _))
          (fun _ => zeroBlocks) (.start ⟨[(⟨5, []⟩, 0)], []⟩ 0 (.new ⟨3, 4⟩))) := by
  refine ⟨layersOf_layered ⟨by decide, by decide, by decide⟩ (by decide), ?_⟩
  obtain ⟨e, he, hreason⟩ := KWayDistriSorter.sort_stops (layersOf [[3], [2], [2]] (2 ^ 28))
    InOut.vector (Vector.replaying (.honest _)) (fun _ => zeroBlocks)
    (.start ⟨[(⟨5, []⟩, 0)], []⟩ 0 (.new ⟨3, 4⟩)) .authentication (l := 2) rfl (by decide +kernel)
    (by decide +kernel)
  rw [he, ends_error]
  exact fun h => h.2 rfl hreason

end EM.Algorithm
