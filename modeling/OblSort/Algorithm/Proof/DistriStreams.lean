import OblSort.Algorithm.Proof.DistriSort
import OblSort.Lib.Lockstep

/-!
# A distribution sort with another input and output

Two readers that give the same and two writers that are given the same are alike to a sort: it goes
through the same blocks and stops for the same reason (`sort_alike`). What relates the inputs while
the layers before the last one read, and what relates the outputs while the last one writes, may
differ.
-/

namespace EM.Algorithm.KWayDistriSorter

open EM.DynamicPageVector Loop

variable {α σ ρ ρ' : Type}

/-- The state with another input and output. -/
def State.setIo (s : State α σ ρ') (io : ρ) : State α σ ρ where
  io := io
  inputCount := s.inputCount
  batch := s.batch
  allocated := s.allocated
  vec := s.vec
  given := s.given
  partitions := s.partitions

/-- The inputs and the outputs are related, the rest is the same. -/
def Alike (R : ρ → ρ' → Prop) (s : State α σ ρ) (s' : State α σ ρ') : Prop :=
  ∃ io, s = s'.setIo io ∧ R io s'.io

/-- Both stop for the same reason. -/
def SameReason (e : Stop α σ ρ) (e' : Stop α σ ρ') : Prop := e.1 = e'.1

theorem sameReason_stop (a : DistriAbort) {s : State α σ ρ}
    {s' : State α σ ρ'} : SameReason (a, s) (a, s') := rfl

/-- The readers give the same. -/
structure ReadsAlike (I : IOVector ρ α) (I' : IOVector ρ' α) (R : ρ → ρ' → Prop) : Prop where
  eof : ∀ io io', R io io' → I.eof io = I'.eof io'
  read : ∀ io io', R io io' → I'.eof io' = false →
    Lockstep (fun r r' => r.1 = r'.1 ∧ R r.2 r'.2) (fun _ _ => True) (I.read io) (I'.read io')

/-- The writers are given the same, and their outputs are related by `Q` once they are flushed. -/
structure WritesAlike (I : IOVector ρ α) (I' : IOVector ρ' α) (R Q : ρ → ρ' → Prop) : Prop where
  write : ∀ x io io', R io io' → R (I.write x io) (I'.write x io')
  flush : ∀ io io', R io io' → Lockstep Q (fun _ _ => True) (I.flush io) (I'.flush io')

variable {S : KWayDistriSorter α} {I : IOVector ρ α} {I' : IOVector ρ' α} {R Q W : ρ → ρ' → Prop}
  {s : State α σ ρ} {s' : State α σ ρ'}

/-! ## Tag and pad -/

theorem fillBlock_alike (hI : ReadsAlike I I' R) (offset : Nat) (it : Block α) (hs : Alike R s s') :
    Lockstep (fun r r' => r.1 = r'.1 ∧ Alike R r.2 r'.2) SameReason (S.fillBlock I offset it s)
      (S.fillBlock I' offset it s') := by
  obtain ⟨io, rfl, hio⟩ := hs
  unfold fillBlock
  rw [show I.eof (s'.setIo io).io = I'.eof s'.io from hI.eof io s'.io hio]
  by_cases hc : offset < S.numRealPerBucket ∧ I'.eof s'.io = false
  · rw [if_pos hc, if_pos hc]
    have hread := hI.read io s'.io hio hc.2
    simp only [readBlock, State.setIo]
    cases hr : I.read io with
    | error io₁ =>
      cases hr' : I'.read s'.io with
      | error io₁' => rfl
      | ok r' =>
        rw [hr, hr'] at hread
        exact hread.elim
    | ok r =>
      cases hr' : I'.read s'.io with
      | error io₁' =>
        rw [hr, hr'] at hread
        exact hread.elim
      | ok r' =>
        rw [hr, hr'] at hread
        rcases r with ⟨x, io₁⟩
        rcases r' with ⟨x', io₁'⟩
        obtain ⟨rfl, hio₁⟩ := hread
        exact ⟨rfl, io₁, rfl, hio₁⟩
  · rw [if_neg hc, if_neg hc]
    exact ⟨rfl, io, rfl, hio⟩

theorem tagAndPad_alike (hI : ReadsAlike I I' R) (its : List (Block α)) (offset : Nat)
    (hs : Alike R s s') :
    Lockstep (fun r r' => r.1 = r'.1 ∧ Alike R r.2 r'.2) SameReason (S.tagAndPad I offset its s)
      (S.tagAndPad I' offset its s') := by
  induction its generalizing offset s s' with
  | nil => exact ⟨rfl, hs⟩
  | cons it its ih =>
    unfold tagAndPad
    refine (fillBlock_alike hI offset it hs).bind fun r r' hr => ?_
    refine Lockstep.bind (ih (offset + 1) hr.2) fun q q' hq => ?_
    exact ⟨by rw [hr.1, hq.1], hq.2⟩

theorem padBucket_alike (hI : ReadsAlike I I' R) (p : Nat) (hs : Alike R s s') :
    Lockstep (Alike R) SameReason (S.padBucket I p s) (S.padBucket I' p s') := by
  have hbatch : s.batch p = s'.batch p := by
    obtain ⟨io, rfl, -⟩ := hs
    rfl
  unfold padBucket
  rw [hbatch]
  refine Lockstep.bind (tagAndPad_alike hI (s'.batch p) 0 hs) fun r r' hr => ?_
  obtain ⟨hbucket, io, heq, hio⟩ := hr
  refine ⟨io, ?_, hio⟩
  rw [hbucket, heq]
  rfl

theorem padBuckets_alike (hI : ReadsAlike I I' R) (ioLayer way begin stride : Nat)
    (hs : Alike R s s') :
    Lockstep (Alike R) SameReason (S.padBuckets I ioLayer way begin stride s)
      (S.padBuckets I' ioLayer way begin stride s') := by
  unfold padBuckets
  split
  · exact forRange_lockstep (fun _ => Alike R) hs fun i _ _ _ h =>
      padBucket_alike hI (begin + i * stride) h
  · exact hs

variable [SortKey α]

/-! ## In memory -/

theorem mergeSplitStride_alike (way pivotStride pivotOffset stride p c : Nat) (hs : Alike R s s') :
    Lockstep (Alike R) SameReason (S.mergeSplitStride way pivotStride pivotOffset stride p c s)
      (S.mergeSplitStride way pivotStride pivotOffset stride p c s') := by
  obtain ⟨io, rfl, hio⟩ := hs
  simp only [mergeSplitStride, mergeSplitAt, State.setIo]
  split
  · rfl
  · split
    · rfl
    · exact ⟨io, rfl, hio⟩

theorem mergeSplitLayer_alike (way pivotStride pivotOffset stride begin endPtr : Nat)
    (hs : Alike R s s') :
    Lockstep (Alike R) SameReason
      (S.mergeSplitLayer way pivotStride pivotOffset stride begin endPtr s)
      (S.mergeSplitLayer way pivotStride pivotOffset stride begin endPtr s') := by
  unfold mergeSplitLayer
  refine forStride_lockstep (fun _ _ _ => sameReason_stop .noReturn) (fun p _ c t t' h => ?_) hs
  exact mergeSplitStride_alike way pivotStride pivotOffset stride p c h

theorem basic_alike (hI : ReadsAlike I I' R)
    (ioLayer endPtr pivotStride pivotOffset innerLayer begin stride : Nat)
    (hs : Alike R s s') :
    Lockstep (Alike R) SameReason
      (S.KWayDistriSortBasic I ioLayer endPtr pivotStride pivotOffset innerLayer begin stride s)
      (S.KWayDistriSortBasic I' ioLayer endPtr pivotStride pivotOffset innerLayer begin
        stride s') := by
  induction innerLayer generalizing begin stride s s' with
  | zero =>
    unfold KWayDistriSortBasic
    exact (padBuckets_alike hI _ _ _ _ hs).bind fun _ _ h => mergeSplitLayer_alike _ _ _ _ _ _ h
  | succ innerLayer ih =>
    unfold KWayDistriSortBasic
    refine Lockstep.bind (forRange_lockstep (fun _ => Alike R) hs fun i _ _ _ h => ih _ _ h)
      fun _ _ h => ?_
    exact mergeSplitLayer_alike _ _ _ _ _ _ h

/-! ## Layers of pages -/

variable {V : Vector σ (List (Block α))} {uninit : Nat → Nat → List (Block α)}

omit [SortKey α] in
theorem copyIn_alike (it p counter : Nat) (hs : Alike R s s') :
    Lockstep (Alike R) SameReason (S.copyIn V it p counter s) (S.copyIn V it p counter s') := by
  obtain ⟨io, rfl, hio⟩ := hs
  simp only [copyIn, State.setIo]
  split
  · rfl
  · exact ⟨io, rfl, hio⟩

omit [SortKey α] in
theorem copyOut_alike (it p counter : Nat) (hs : Alike R s s') :
    Lockstep (Alike R) SameReason (S.copyOut V it p counter s) (S.copyOut V it p counter s') := by
  obtain ⟨io, rfl, hio⟩ := hs
  exact ⟨io, rfl, hio⟩

omit [SortKey α] in
theorem fetchStride_alike (ioLayer stride strideBegin : Nat) (hs : Alike R s s') :
    Lockstep (Alike R) SameReason (S.fetchStride V ioLayer stride strideBegin s)
      (S.fetchStride V ioLayer stride strideBegin s') := by
  unfold fetchStride
  split
  · exact hs
  · exact forRange_lockstep (fun _ => Alike R) hs fun _ _ _ _ h => copyIn_alike _ _ _ h

omit [SortKey α] in
theorem writeStride_alike (ioLayer stride strideBegin : Nat) (hs : Alike R s s') :
    Lockstep (Alike R) SameReason (S.writeStride V ioLayer stride strideBegin s)
      (S.writeStride V ioLayer stride strideBegin s') :=
  forRange_lockstep (fun _ => Alike R) hs fun _ _ _ _ h => copyOut_alike _ _ _ h

omit [SortKey α] in
theorem foldl_write_alike (hI : WritesAlike I I' R Q) (xs : List (Block α)) {io : ρ} {io' : ρ'}
    (hio : R io io') :
    R (xs.foldl (fun io x => I.write x.data io) io)
    (xs.foldl (fun io x => I'.write x.data io) io') := by
  induction xs generalizing io io' with
  | nil => exact hio
  | cons x xs ih => exact ih (hI.write x.data io io' hio)

theorem outputPartition_alike (hI : WritesAlike I I' R Q) (ioLayer : Nat) (hs : Alike R s s') :
    Lockstep (Alike R) SameReason (S.outputPartition I ioLayer s)
    (S.outputPartition I' ioLayer s') := by
  obtain ⟨io, rfl, hio⟩ := hs
  exact ⟨_, rfl, foldl_write_alike hI _ hio⟩

omit [SortKey α] in
theorem flush_alike (hI : WritesAlike I I' R Q) (hs : Alike R s s') :
    Lockstep (Alike Q) SameReason (flush I s) (flush I' s') := by
  obtain ⟨io, rfl, hio⟩ := hs
  have hflush := hI.flush io s'.io hio
  simp only [flush, State.setIo]
  cases hr : I.flush io with
  | error io₁ =>
    cases hr' : I'.flush s'.io with
    | error io₁' => rfl
    | ok io₁' =>
      rw [hr, hr'] at hflush
      exact hflush.elim
  | ok io₁ =>
    cases hr' : I'.flush s'.io with
    | error io₁' =>
      rw [hr, hr'] at hflush
      exact hflush.elim
    | ok io₁' =>
      rw [hr, hr'] at hflush
      exact ⟨io₁, rfl, hflush⟩

/-- A loop over the strides, and what comes after it. -/
theorem sortStrides_alike {endPtr ioLayer begin stride : Nat}
    (hstep : ∀ p c (s : State α σ ρ) (s' : State α σ ρ'), Alike R s s' →
      Lockstep (Alike R) SameReason
      (S.sortStride I V ioLayer stride p c s) (S.sortStride I' V ioLayer stride p c s'))
    (hflush : ∀ (s : State α σ ρ) (s' : State α σ ρ'), Alike R s s' → Lockstep (Alike Q) SameReason
      (if S.isLastLayer ioLayer then flush I s else .ok s)
      (if S.isLastLayer ioLayer then flush I' s' else .ok s'))
    (hs : Alike R s s') :
    Lockstep (Alike Q) SameReason (S.sortStrides I V uninit endPtr ioLayer begin stride s)
      (S.sortStrides I' V uninit endPtr ioLayer begin stride s') := by
  have hstart : Alike R (allocate uninit s) (allocate uninit s') := by
    obtain ⟨io, rfl, hio⟩ := hs
    exact ⟨io, rfl, hio⟩
  unfold sortStrides
  refine Lockstep.bind (forStride_lockstep (fun _ _ _ => sameReason_stop .noReturn)
    (fun p _ c s s' h => ?_) hstart) hflush
  exact hstep p c s s' h

/-- The layers before the last one read. -/
theorem layers_alike (hI : ReadsAlike I I' R) {endPtr ioLayer begin stride : Nat}
    (hlayer : ioLayer < S.distriParams.ways.length) (hs : Alike R s s') :
    Lockstep (Alike R) SameReason (S.KWayDistriSort I V uninit endPtr ioLayer begin stride s)
      (S.KWayDistriSort I' V uninit endPtr ioLayer begin stride s') := by
  have hstrides : ∀ layer begin stride (s : State α σ ρ) (s' : State α σ ρ'),
      layer < S.distriParams.ways.length → Alike R s s' →
      Lockstep (Alike R) SameReason (S.sortStrides I V uninit endPtr layer begin stride s)
        (S.sortStrides I' V uninit endPtr layer begin stride s') := by
    intro layer begin stride s s' hlt hs
    have hlast : S.isLastLayer layer = false := beq_false_of_ne (Nat.ne_of_lt hlt)
    refine sortStrides_alike (fun p c s s' h => ?_) (fun s s' h => ?_) hs
    · unfold sortStride
      refine (fetchStride_alike _ _ _ h).bind fun t t' ht => ?_
      rw [hlast, if_neg Bool.false_ne_true, if_neg Bool.false_ne_true]
      exact (basic_alike hI _ _ _ _ _ _ _ ht).bind fun _ _ h => writeStride_alike _ _ _ h
    · rw [hlast, if_neg Bool.false_ne_true, if_neg Bool.false_ne_true]
      exact h
  induction ioLayer generalizing begin stride s s' with
  | zero => exact hstrides 0 begin stride s s' hlayer hs
  | succ ioLayer ih =>
    unfold KWayDistriSort
    refine Lockstep.bind (forRange_lockstep (fun _ => Alike R) hs fun _ _ _ _ h => ih (by omega) h)
      fun t t' ht => ?_
    exact hstrides _ _ _ t t' hlayer ht

/-- The last layer writes. -/
theorem lastLayer_alike (hI : WritesAlike I I' R Q) {endPtr ioLayer begin stride : Nat}
    (hlast : S.isLastLayer ioLayer = true) (hs : Alike R s s') :
    Lockstep (Alike Q) SameReason (S.sortStrides I V uninit endPtr ioLayer begin stride s)
      (S.sortStrides I' V uninit endPtr ioLayer begin stride s') := by
  refine sortStrides_alike (fun p c s s' h => ?_) (fun s s' h => ?_) hs
  · unfold sortStride
    refine (fetchStride_alike _ _ _ h).bind fun t t' ht => ?_
    rw [hlast, if_pos rfl, if_pos rfl]
    exact outputPartition_alike hI ioLayer ht
  · rw [hlast, if_pos rfl, if_pos rfl]
    exact flush_alike hI h

variable (V uninit) in
/-- **A sort** does the same with another input and output, when the readers give the same and the
writers are given the same. -/
theorem sort_alike (hread : ReadsAlike I I' R) (hwrite : WritesAlike I I' W Q)
    (hRW : ∀ io io', R io io' → W io io') (hs : Alike R s s') :
    Lockstep (Alike Q) SameReason (S.sort I V uninit s) (S.sort I' V uninit s') := by
  have hmono : ∀ (t : State α σ ρ) (t' : State α σ ρ'), Alike R t t' → Alike W t t' := by
    rintro t t' ⟨io, rfl, hio⟩
    exact ⟨io, rfl, hRW io t'.io hio⟩
  unfold sort
  cases hL : S.distriParams.ways.length with
  | zero => exact lastLayer_alike hwrite (beq_iff_eq.2 hL.symm) (hmono s s' hs)
  | succ L =>
    unfold KWayDistriSort
    refine Lockstep.bind
      (forRange_lockstep (fun _ => Alike R) hs fun _ _ _ _ h => layers_alike hread (by omega) h)
      fun t t' ht => ?_
    exact lastLayer_alike hwrite (beq_iff_eq.2 hL.symm) (hmono t t' ht)

end EM.Algorithm.KWayDistriSorter
