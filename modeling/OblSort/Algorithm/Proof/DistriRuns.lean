import OblSort.Algorithm.KWayDistriSort

/-!
# What a distribution sort does with its input and output

The layers before the last one only read the input, the last one only writes the output. `ReadKeeps`
and `WriteKeeps` say that a property is kept by one read and by one write; `sort_keeps` that a whole
sort then keeps it, whatever the ways, the pivots and the pages are.
-/

namespace EM.Algorithm.KWayDistriSorter

open EM.DynamicPageVector Loop

variable {α σ ρ : Type}

/-- The part of the state that reading and writing is about is the same. -/
structure SameInput (s s' : State α σ ρ) : Prop where
  io : s'.io = s.io
  inputCount : s'.inputCount = s.inputCount
  given : s'.given = s.given

/-- `P` is about the input, the output and the pages, reading a block keeps it, and a computation in
memory that stops for another reason stops with `E`. -/
structure MemoryKeeps (S : KWayDistriSorter α) (I : IOVector ρ α) (P : State α σ ρ → Prop)
    (E : Stop α σ ρ → Prop) : Prop where
  frame : ∀ s s', P s → SameInput s s' → s'.vec = s.vec → P s'
  read : ∀ it s, P s → I.eof s.io = false → Ends (fun r => P r.2) E (S.readBlock I it s)
  abort : ∀ a s, a ≠ .inputOutput → a ≠ .authentication → P s → E (a, s)

/-- `P` is about the input and the output, reading a block keeps it, and a sort that stops for
another reason stops with `E`. -/
structure ReadKeeps (S : KWayDistriSorter α) (I : IOVector ρ α) (P : State α σ ρ → Prop)
    (E : Stop α σ ρ → Prop) : Prop where
  frame : ∀ s s', P s → SameInput s s' → P s'
  read : ∀ it s, P s → I.eof s.io = false → Ends (fun r => P r.2) E (S.readBlock I it s)
  abort : ∀ a s, a ≠ .inputOutput → P s → E (a, s)

/-- The same for writing. -/
structure WriteKeeps (I : IOVector ρ α) (P : State α σ ρ → Prop)
    (E : Stop α σ ρ → Prop) : Prop where
  frame : ∀ s s', P s → SameInput s s' → P s'
  write : ∀ x s, P s → P { s with io := I.write x s.io }
  flush : ∀ s, P s → Ends P E (KWayDistriSorter.flush I s)
  abort : ∀ a s, a ≠ .inputOutput → P s → E (a, s)

variable {S : KWayDistriSorter α} {I : IOVector ρ α} {P Q : State α σ ρ → Prop}
  {E : Stop α σ ρ → Prop} {V : Vector σ (List (Block α))} {uninit : Nat → Nat → List (Block α)}

/-! ## In memory -/

theorem MemoryKeeps.tagAndPad (h : MemoryKeeps S I P E) {offset : Nat} {its : List (Block α)}
    {s : State α σ ρ} (hs : P s) : Ends (fun r => P r.2) E (S.tagAndPad I offset its s) := by
  induction its generalizing offset s with
  | nil => exact hs
  | cons it its ih =>
    rw [KWayDistriSorter.tagAndPad]
    have hfirst : Ends (fun r => P r.2) E (S.fillBlock I offset it s) := by
      rw [fillBlock]
      split
      · rename_i hcond
        exact h.read it s hs hcond.2
      · exact hs
    refine hfirst.bind fun r hr => ?_
    exact Ends.bind (ih hr) fun _ hr' => hr'

theorem MemoryKeeps.padBucket (h : MemoryKeeps S I P E) {p : Nat} {s : State α σ ρ} (hs : P s) :
    Ends P E (S.padBucket I p s) :=
  Ends.bind (h.tagAndPad hs) fun _ hr => h.frame _ _ hr ⟨rfl, rfl, rfl⟩ rfl

theorem MemoryKeeps.padBuckets (h : MemoryKeeps S I P E) {ioLayer way begin stride : Nat}
    {s : State α σ ρ} (hs : P s) : Ends P E (S.padBuckets I ioLayer way begin stride s) := by
  rw [KWayDistriSorter.padBuckets]
  split
  · exact forRange_ends (fun _ => P) hs fun _ _ _ => h.padBucket
  · exact hs

variable [SortKey α]

theorem MemoryKeeps.mergeSplitStride (h : MemoryKeeps S I P E)
    {way pivotStride pivotOffset stride p c : Nat} {s : State α σ ρ} (hs : P s) :
    Ends P E (S.mergeSplitStride way pivotStride pivotOffset stride p c s) := by
  rw [KWayDistriSorter.mergeSplitStride]
  split
  · exact h.abort _ _ (by decide) (by decide) hs
  · rw [mergeSplitAt]
    split
    · exact h.abort _ _ (by decide) (by decide) hs
    · exact h.frame _ _ hs ⟨rfl, rfl, rfl⟩ rfl

theorem MemoryKeeps.mergeSplitLayer (h : MemoryKeeps S I P E)
    {way pivotStride pivotOffset stride begin endPtr : Nat} {s : State α σ ρ} (hs : P s) :
    Ends P E (S.mergeSplitLayer way pivotStride pivotOffset stride begin endPtr s) :=
  forStride_keeps (fun _ => h.abort _ _ (by decide) (by decide))
  (fun _ _ _ _ => h.mergeSplitStride) hs

theorem MemoryKeeps.basic (h : MemoryKeeps S I P E)
    {ioLayer endPtr pivotStride pivotOffset innerLayer begin stride : Nat}
    {s : State α σ ρ} (hs : P s) :
    Ends P E (S.KWayDistriSortBasic I ioLayer endPtr pivotStride pivotOffset innerLayer begin stride
      s) := by
  induction innerLayer generalizing begin stride s with
  | zero =>
    rw [KWayDistriSortBasic]
    exact h.padBuckets hs |>.bind fun _ => h.mergeSplitLayer
  | succ innerLayer ih =>
    rw [KWayDistriSortBasic]
    exact (forRange_ends (fun _ => P) hs fun _ _ _ => ih).bind fun _ => h.mergeSplitLayer

/-! ## Layers of pages -/

omit [SortKey α] in
theorem fetchStride_keeps (hframe : ∀ s s' : State α σ ρ, P s → SameInput s s' → P s')
    (habort : ∀ a s, a ≠ .inputOutput → P s → E (a, s)) {ioLayer stride p : Nat} {s : State α σ ρ}
    (hs : P s) : Ends P E (S.fetchStride V ioLayer stride p s) := by
  rw [fetchStride]
  split
  · exact hs
  · refine forRange_ends (fun _ => P) hs fun _ _ s hs => ?_
    rw [copyIn]
    split
    · exact habort _ _ (by decide) (hframe _ _ hs ⟨rfl, rfl, rfl⟩)
    · exact hframe _ _ hs ⟨rfl, rfl, rfl⟩

omit [SortKey α] in
theorem ReadKeeps.memory (h : ReadKeeps S I P E) : MemoryKeeps S I P E where
  frame s s' hs hsame _ := h.frame s s' hs hsame
  read := h.read
  abort a s ha _ hs := h.abort a s ha hs

theorem ReadKeeps.sortStride (h : ReadKeeps S I P E) {ioLayer stride p c : Nat}
    (hlast : S.isLastLayer ioLayer = false) {s : State α σ ρ} (hs : P s) :
    Ends P E (S.sortStride I V ioLayer stride p c s) := by
  rw [KWayDistriSorter.sortStride]
  refine (fetchStride_keeps h.frame h.abort hs).bind fun s hs => ?_
  rw [hlast, if_neg Bool.false_ne_true]
  refine (h.memory.basic hs).bind fun s hs => forRange_ends (fun _ => P) hs fun _ _ s hs => ?_
  exact h.frame _ _ hs ⟨rfl, rfl, rfl⟩

theorem sortStrides_keeps (hframe : ∀ s s' : State α σ ρ, P s → SameInput s s' → P s')
    (habort : ∀ a s, a ≠ .inputOutput → P s → E (a, s)) {endPtr ioLayer begin stride : Nat}
    (hstep : ∀ p c s, P s → Ends P E (S.sortStride I V ioLayer stride p c s))
    (hflush : ∀ s, P s → Ends P E (if S.isLastLayer ioLayer then flush I s else .ok s))
    {s : State α σ ρ} (hs : P s) :
    Ends P E (S.sortStrides I V uninit endPtr ioLayer begin stride s) := by
  have hstart : P (allocate uninit s) := hframe _ _ hs ⟨rfl, rfl, rfl⟩
  rw [sortStrides]
  refine Ends.bind (forStride_keeps (fun s hs => ?_) (fun p _ c s hs => ?_) hstart) hflush
  · exact habort _ _ (by decide) hs
  · exact hstep p c s hs

/-- The layers before the last one. -/
theorem ReadKeeps.layers (h : ReadKeeps S I P E) {endPtr ioLayer begin stride : Nat}
    (hlayer : ioLayer < S.distriParams.ways.length) {s : State α σ ρ} (hs : P s) :
    Ends P E (S.KWayDistriSort I V uninit endPtr ioLayer begin stride s) := by
  have hstrides : ∀ layer begin stride s, layer < S.distriParams.ways.length → P s →
      Ends P E (S.sortStrides I V uninit endPtr layer begin stride s) := by
    intro layer begin stride s hlt hs
    have hlast : S.isLastLayer layer = false := beq_false_of_ne (Nat.ne_of_lt hlt)
    refine sortStrides_keeps h.frame h.abort (fun _ _ _ => h.sortStride hlast) (fun s hs => ?_) hs
    rw [hlast, if_neg Bool.false_ne_true]
    exact hs
  induction ioLayer generalizing begin stride s with
  | zero => exact hstrides 0 begin stride s hlayer hs
  | succ ioLayer ih =>
    rw [KWayDistriSort]
    exact (forRange_ends (fun _ => P) hs fun _ _ _ hs => ih (by omega) hs).bind fun s hs =>
      hstrides _ _ _ s hlayer hs

omit [SortKey α] in
theorem WriteKeeps.writes (h : WriteKeeps I P E) (xs : List (Block α)) {s : State α σ ρ}
    (hs : P s) :
    P { s with io := xs.foldl (fun io x => I.write x.data io) s.io } := by
  induction xs generalizing s with
  | nil => exact hs
  | cons x xs ih => exact ih (h.write x.data s hs)

/-- The last layer. -/
theorem WriteKeeps.lastLayer (h : WriteKeeps I P E) {endPtr ioLayer begin stride : Nat}
    (hlast : S.isLastLayer ioLayer = true) {s : State α σ ρ} (hs : P s) :
    Ends P E (S.sortStrides I V uninit endPtr ioLayer begin stride s) := by
  refine sortStrides_keeps h.frame h.abort (fun p c s hs => ?_) (fun s hs => ?_) hs
  · rw [sortStride]
    refine (fetchStride_keeps h.frame h.abort hs).bind fun s hs => ?_
    rw [hlast, if_pos rfl]
    exact h.frame _ _ (h.writes
      (sortPartition (Store.gather (S.numInternalWay ioLayer) s.batch)) hs)
      ⟨rfl, rfl, rfl⟩
  · rw [hlast, if_pos rfl]
    exact h.flush s hs

variable (V uninit) in
/-- **A whole sort** keeps what its reads and its writes keep. -/
theorem sort_keeps (hread : ReadKeeps S I P E) (hwrite : WriteKeeps I Q E) (hPQ : ∀ s, P s → Q s)
    {s : State α σ ρ} (hs : P s) : Ends Q E (S.sort I V uninit s) := by
  rw [sort]
  cases hL : S.distriParams.ways.length with
  | zero => exact hwrite.lastLayer (beq_iff_eq.2 hL.symm) (hPQ s hs)
  | succ L =>
    rw [KWayDistriSort]
    refine (forRange_ends (fun _ => P) hs fun _ _ _ hs => hread.layers (by omega) hs).bind
      fun s hs => ?_
    exact hwrite.lastLayer (beq_iff_eq.2 hL.symm) (hPQ s hs)

end EM.Algorithm.KWayDistriSorter
