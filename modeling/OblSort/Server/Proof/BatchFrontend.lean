import OblSort.Server.BatchFrontend

/-!
# The batching frontends refine the direct one

A `Ledger` records what the callers of the frontends have asked for: the last value written to each
page, and for each output address the value that its last read should give. `Inv` says where these
values are while requests are in the rings and in the queues of the backend. Every call keeps it as
long as a frontend is not flushed for the kind of request that it does not hold (`Matched`), so that
in every such run a read that is done has given its value, and a flushed write is in the backend
(`runOps_correct`). A `flushWrite` with reads in the ring drops them (`runOps_lost_read`).
-/

namespace EM

variable {F A T : Type}

/-! ## What the callers have asked for -/

/-- The last `WriteLazy` to a page; `flushed`: there has been a `flushWrite` of the frontend
since. -/
structure LastWrite (T : Type) where
  value : T
  counter : Nat
  flushed : Bool

/-- The last `ReadLazy` with an output address: the number that it returned and the value that the
page had; `flushed`: there has been a `flushRead` of the frontend since. -/
structure Request (F T : Type) where
  frontend : F
  job : Nat
  value : T
  flushed : Bool

structure Ledger (F A T : Type) where
  lastWrites : F → Nat → Option (LastWrite T)
  requests : A → Option (Request F T)

/-- The value of a page, when it was last written with this counter. -/
def Ledger.expected (slots : Slots F T) (l : Ledger F A T) (f : F) (i counter : Nat) : Option T :=
  match l.lastWrites f i with
  | some w => if w.counter = counter then some w.value else none
  | none => if slots.lateInit f then some (slots.defaultVal f) else none

/-- A `ReadLazy` with the output address `out`. -/
def Ledger.request [DecidableEq A] (out : A) (r : Option (Request F T)) (l : Ledger F A T) :
    Ledger F A T :=
  { l with requests := Function.update l.requests out r }

theorem Ledger.request_self [DecidableEq A] (out : A) (r : Option (Request F T))
    (l : Ledger F A T) : (l.request out r).requests out = r := Function.update_self ..

theorem Ledger.request_of_ne [DecidableEq A] {out out' : A} (h : out' ≠ out)
    (r : Option (Request F T)) (l : Ledger F A T) : (l.request out r).requests out' =
      l.requests out' :=
  Function.update_of_ne h ..

/-- A `WriteLazy` to page `i`. -/
def Ledger.write [DecidableEq F] (f : F) (i : Nat) (w : LastWrite T) (l : Ledger F A T) :
    Ledger F A T :=
  { l with lastWrites := Function.update l.lastWrites f (Function.update
    (l.lastWrites f) i (some w)) }

theorem Ledger.write_self [DecidableEq F] (f : F) (i : Nat) (w : LastWrite T) (l : Ledger F A T) :
    (l.write f i w).lastWrites f i = some w := by
  simp [Ledger.write]

theorem Ledger.write_of_ne [DecidableEq F] {f g : F} {i j : Nat} (h : ¬ (g = f ∧ j = i))
    (w : LastWrite T) (l : Ledger F A T) : (l.write f i w).lastWrites g j = l.lastWrites g j := by
  by_cases hg : g = f
  · subst hg
    simp [Ledger.write, Function.update_of_ne fun hj => h ⟨rfl, hj⟩]
  · simp [Ledger.write, Function.update_of_ne hg]

/-- The ciphertext of a page. -/
def Slots.enc (slots : Slots F T) (f : F) (i : Nat) (w : LastWrite T) : FreshEncrypted T :=
  ⟨(slots.nounce f).forPage i w.counter, w.value⟩

theorem Slots.offset_inj (slots : Slots F T) {f g : F} {i j : Nat} (hi : i < slots.numPage f)
    (hj : j < slots.numPage g) (h : slots.offset f i = slots.offset g j) : f = g ∧ i = j := by
  have hf := slots.sizeOfT_pos f
  have hg := slots.sizeOfT_pos g
  have hi' := Nat.mul_le_mul_right (slots.sizeOfT f) (Nat.succ_le_of_lt hi)
  have hj' := Nat.mul_le_mul_right (slots.sizeOfT g) (Nat.succ_le_of_lt hj)
  rw [Nat.succ_mul] at hi' hj'
  unfold Slots.offset at h
  by_cases hfg : f = g
  · subst hfg
    exact ⟨rfl, Nat.eq_of_mul_eq_mul_right hf (by omega)⟩
  · have hdisjoint := slots.disjoint f g hfg
    omega

/-! ## The invariant -/

/-- The backend's data once its queue of writes is done. -/
def World.settled (s : World F A T) : Nat → Option (FreshEncrypted T) :=
  s.writeChunks.foldl (fun data ch => Function.update data ch.offset (some ch.tmp)) s.data

/-- The requests of the rings and of the queues of the backend. `hole` is an entry of a ring whose
request has not been handed to the backend yet. -/
structure World.Inv (slots : Slots F T) (hole : Option (F × Fin bufferCapacity)) (s : World F A T)
    (l : Ledger F A T) : Prop where
  readChunk : ∀ ch ∈ s.readChunks, (s.frontends ch.frontend).isRead = true ∧
    (s.frontends ch.frontend).pageStates ch.idx = .PENDING_PAGE ∧
    ∃ i < slots.numPage ch.frontend, ch.offset = slots.offset ch.frontend i
  writeChunk : ∀ ch ∈ s.writeChunks, (s.frontends ch.frontend).isRead = false ∧
    (s.frontends ch.frontend).pageStates ch.idx = .PENDING_PAGE ∧
    ∃ i < slots.numPage ch.frontend, ch.offset = slots.offset ch.frontend i
  pendingRead : ∀ f idx, (s.frontends f).isRead = true →
    (s.frontends f).pageStates idx = .PENDING_PAGE → hole ≠ some (f, idx) →
    ∃ ch ∈ s.readChunks, ch.frontend = f ∧ ch.idx = idx
  pendingWrite : ∀ f idx, (s.frontends f).isRead = false →
    (s.frontends f).pageStates idx = .PENDING_PAGE → hole ≠ some (f, idx) →
    ∃ ch ∈ s.writeChunks, ch.frontend = f ∧ ch.idx = idx
  outstanding : ∀ f idx, (s.frontends f).isRead = true →
    (s.frontends f).pageStates idx ≠ .EMPTY_PAGE →
    ∃ job x, l.requests ((s.frontends f).outAddrs idx) = some ⟨f, job, x, false⟩ ∧
      (s.frontends f).doneCounter < job ∧
      (∀ ch ∈ s.readChunks, ch.frontend = f → ch.idx = idx →
        s.data ch.offset = some ⟨(s.frontends f).nounces idx, x⟩) ∧
      ((s.frontends f).pageStates idx = .DONE_PAGE →
        (s.frontends f).encs idx = some ⟨(s.frontends f).nounces idx, x⟩)
  distinct : ∀ f idx idx', (s.frontends f).isRead = true →
    (s.frontends f).pageStates idx ≠ .EMPTY_PAGE → (s.frontends f).pageStates idx' ≠ .EMPTY_PAGE →
    (s.frontends f).outAddrs idx = (s.frontends f).outAddrs idx' → idx = idx'
  answered : ∀ out r, l.requests out = some r → s.mem out = r.value ∨
    ∃ idx, (s.frontends r.frontend).isRead = true ∧
      (s.frontends r.frontend).pageStates idx ≠ .EMPTY_PAGE ∧
      (s.frontends r.frontend).outAddrs idx = out
  counters : ∀ f, (s.frontends f).isRead = true →
    (s.frontends f).doneCounter ≤ (s.frontends f).jobCounter
  written : ∀ f i w, l.lastWrites f i = some w →
    i < slots.numPage f ∧ s.settled (slots.offset f i) = some (slots.enc f i w)
  flushed : ∀ f i w, l.lastWrites f i = some w → w.flushed = true →
    s.data (slots.offset f i) = some (slots.enc f i w)

/-- What a flush leaves of the frontends: their modes, where they are in their rings and their
output addresses; no request is new. -/
structure World.Flushes (s s' : World F A T) : Prop where
  isRead : ∀ g, (s'.frontends g).isRead = (s.frontends g).isRead
  bufferIdx : ∀ g, (s'.frontends g).bufferIdx = (s.frontends g).bufferIdx
  outAddrs : ∀ g, (s'.frontends g).outAddrs = (s.frontends g).outAddrs
  jobCounter : ∀ g, (s'.frontends g).jobCounter = (s.frontends g).jobCounter
  modified : ∀ g, (s'.frontends g).modified = (s.frontends g).modified
  empty : ∀ g idx, (s.frontends g).pageStates idx = .EMPTY_PAGE →
    (s'.frontends g).pageStates idx = .EMPTY_PAGE

theorem World.Flushes.refl (s : World F A T) : Flushes s s :=
  ⟨fun _ => rfl, fun _ => rfl, fun _ => rfl, fun _ => rfl, fun _ => rfl, fun _ _ h => h⟩

theorem World.Flushes.trans {s₁ s₂ s₃ : World F A T} (h : Flushes s₁ s₂) (h' : Flushes s₂ s₃) :
    Flushes s₁ s₃ :=
  ⟨fun g => (h'.isRead g).trans (h.isRead g), fun g => (h'.bufferIdx g).trans (h.bufferIdx g),
    fun g => (h'.outAddrs g).trans (h.outAddrs g), fun g => (h'.jobCounter g).trans
      (h.jobCounter g),
    fun g => (h'.modified g).trans (h.modified g), fun g idx he =>
      h'.empty g idx (h.empty g idx he)⟩

/-- The frontends differ in the entries of their rings only, and these are in use as before. -/
structure World.SameRings (s s' : World F A T) : Prop where
  isRead : ∀ g, (s'.frontends g).isRead = (s.frontends g).isRead
  bufferIdx : ∀ g, (s'.frontends g).bufferIdx = (s.frontends g).bufferIdx
  outAddrs : ∀ g, (s'.frontends g).outAddrs = (s.frontends g).outAddrs
  nounces : ∀ g, (s'.frontends g).nounces = (s.frontends g).nounces
  doneCounter : ∀ g, (s'.frontends g).doneCounter = (s.frontends g).doneCounter
  jobCounter : ∀ g, (s'.frontends g).jobCounter = (s.frontends g).jobCounter
  modified : ∀ g, (s'.frontends g).modified = (s.frontends g).modified

theorem World.SameRings.refl (s : World F A T) : SameRings s s :=
  ⟨fun _ => rfl, fun _ => rfl, fun _ => rfl, fun _ => rfl, fun _ => rfl, fun _ => rfl, fun _ => rfl⟩

theorem World.SameRings.trans {s₁ s₂ s₃ : World F A T} (h : SameRings s₁ s₂)
    (h' : SameRings s₂ s₃) :
    SameRings s₁ s₃ :=
  ⟨fun g => (h'.isRead g).trans (h.isRead g), fun g => (h'.bufferIdx g).trans (h.bufferIdx g),
    fun g => (h'.outAddrs g).trans (h.outAddrs g), fun g => (h'.nounces g).trans (h.nounces g),
    fun g => (h'.doneCounter g).trans (h.doneCounter g),
    fun g => (h'.jobCounter g).trans (h.jobCounter g), fun g =>
      (h'.modified g).trans (h.modified g)⟩

variable [DecidableEq F]

namespace World

@[simp] theorem update_self (f : F) (u : BatchFrontend A T → BatchFrontend A T) (s : World F A T) :
    (s.update f u).frontends f = u (s.frontends f) := Function.update_self ..

theorem update_of_ne {f g : F} (h : g ≠ f) (u : BatchFrontend A T → BatchFrontend A T)
    (s : World F A T) : (s.update f u).frontends g = s.frontends g := Function.update_of_ne h ..

/-- What the update of a frontend keeps is the same in all of them. -/
theorem update_keeps {β : Type} (get : BatchFrontend A T → β) (f g : F)
    {u : BatchFrontend A T → BatchFrontend A T} (s : World F A T)
    (hu : get (u (s.frontends f)) = get (s.frontends f)) :
    get ((s.update f u).frontends g) = get (s.frontends g) := by
  by_cases hg : g = f
  · subst hg
    rw [update_self, hu]
  · rw [update_of_ne hg]

/-- An update of the entries of one ring. -/
theorem sameRings_update (f : F) (s : World F A T)
    (encs : Fin bufferCapacity → Option (FreshEncrypted T))
    (pageStates : Fin bufferCapacity → PageSlotState) :
    SameRings s (s.update f fun b => { b with encs, pageStates }) := by
  constructor <;> intro g <;> by_cases hg : g = f
  all_goals first
    | subst hg; rw [update_self]
    | rw [update_of_ne hg]

/-! ## The backend -/

/-- The reads of `chunks` are done. -/
structure ReadsDone (chunks : List (ReadChunk F)) (s s' : World F A T) : Prop where
  rings : SameRings s s'
  data : s'.data = s.data
  mem : s'.mem = s.mem
  writeChunks : s'.writeChunks = s.writeChunks
  entry : ∀ g idx, ((s'.frontends g).pageStates idx = .DONE_PAGE ∧
      ∃ ch ∈ chunks, ch.frontend = g ∧ ch.idx = idx ∧ (s'.frontends g).encs idx =
        s.data ch.offset) ∨
    ((s'.frontends g).pageStates idx = (s.frontends g).pageStates idx ∧
      (s'.frontends g).encs idx = (s.frontends g).encs idx ∧
      ∀ ch ∈ chunks, ch.frontend = g → ch.idx ≠ idx)

theorem readsDone_foldl (chunks : List (ReadChunk F)) (s : World F A T) :
    ReadsDone chunks s (chunks.foldl (fun s ch => s.readChunk ch) s) := by
  induction chunks generalizing s with
  | nil => exact ⟨.refl s, rfl, rfl, rfl, fun g idx => .inr ⟨rfl, rfl, by simp⟩⟩
  | cons ch chunks ih =>
    obtain ⟨hrings, hdata, hmem, hwrites, hentry⟩ := ih (s.readChunk ch)
    refine ⟨(sameRings_update ..).trans hrings, hdata, hmem, hwrites, fun g idx => ?_⟩
    rcases hentry g idx with ⟨hdone, ch', hmem', hf, hi, henc⟩ | ⟨hstate, henc, hnone⟩
    · exact .inl ⟨hdone, ch', List.mem_cons_of_mem ch hmem', hf, hi, henc⟩
    · by_cases hat : ch.frontend = g ∧ ch.idx = idx
      · obtain ⟨rfl, rfl⟩ := hat
        rw [readChunk, update_self] at hstate henc
        exact .inl ⟨hstate.trans (Function.update_self ..), ch, List.mem_cons_self, rfl, rfl,
          henc.trans (Function.update_self ..)⟩
      · have hold : ((s.readChunk ch).frontends g).pageStates idx = (s.frontends g).pageStates idx ∧
            ((s.readChunk ch).frontends g).encs idx = (s.frontends g).encs idx := by
          by_cases hg : g = ch.frontend
          · subst hg
            have hi : idx ≠ ch.idx := fun h => hat ⟨rfl, h.symm⟩
            rw [readChunk, update_self]
            exact ⟨Function.update_of_ne hi .., Function.update_of_ne hi ..⟩
          · rw [readChunk, update_of_ne hg]
            exact ⟨rfl, rfl⟩
        refine .inr ⟨hstate.trans hold.1, henc.trans hold.2, fun ch' hmem' hf hi => ?_⟩
        rcases List.mem_cons.1 hmem' with rfl | hmem'
        · exact hat ⟨hf, hi⟩
        · exact hnone ch' hmem' hf hi

/-- The writes of `chunks` are done. -/
structure WritesDone (chunks : List (WriteChunk F T)) (s s' : World F A T) : Prop where
  rings : SameRings s s'
  data : s'.data = chunks.foldl
    (fun (data : Nat → Option (FreshEncrypted T)) ch => Function.update data ch.offset
      (some ch.tmp)) s.data
  mem : s'.mem = s.mem
  readChunks : s'.readChunks = s.readChunks
  encs : ∀ g, (s'.frontends g).encs = (s.frontends g).encs
  entry : ∀ g idx, ((s'.frontends g).pageStates idx = .DONE_PAGE ∧
      ∃ ch ∈ chunks, ch.frontend = g ∧ ch.idx = idx) ∨
    ((s'.frontends g).pageStates idx = (s.frontends g).pageStates idx ∧
      ∀ ch ∈ chunks, ch.frontend = g → ch.idx ≠ idx)

theorem sameRings_setState (f : F) (idx : Fin bufferCapacity) (state : PageSlotState)
    (s : World F A T) : SameRings s (s.setState f idx state) := by
  constructor <;> intro g <;> by_cases hg : g = f
  all_goals first
    | subst hg; rw [setState, update_self]
    | rw [setState, update_of_ne hg]

/-- The entries of the rings after `setState`. -/
theorem setState_entry (f g : F) (idx i : Fin bufferCapacity) (state : PageSlotState)
    (s : World F A T) :
    ((s.setState f idx state).frontends g).encs = (s.frontends g).encs ∧
      ((s.setState f idx state).frontends g).pageStates i =
        if g = f ∧ i = idx then state else (s.frontends g).pageStates i := by
  by_cases hg : g = f
  · subst hg
    rw [setState, update_self]
    refine ⟨rfl, ?_⟩
    by_cases hi : i = idx
    · subst hi
      rw [if_pos ⟨rfl, rfl⟩]
      exact Function.update_self ..
    · rw [if_neg fun h => hi h.2]
      exact Function.update_of_ne hi ..
  · rw [setState, update_of_ne hg, if_neg fun h => hg h.1]
    exact ⟨rfl, rfl⟩

theorem writesDone_foldl (chunks : List (WriteChunk F T)) (s : World F A T) :
    WritesDone chunks s (chunks.foldl (fun s ch => s.writeChunk ch) s) := by
  induction chunks generalizing s with
  | nil => exact ⟨.refl s, rfl, rfl, rfl, fun g => rfl, fun g idx => .inr ⟨rfl, by simp⟩⟩
  | cons ch chunks ih =>
    obtain ⟨hrings, hdata, hmem, hreads, hencs, hentry⟩ := ih (s.writeChunk ch)
    have hset := fun g i => setState_entry ch.frontend g ch.idx i .DONE_PAGE
      { s with data := Function.update s.data ch.offset (some ch.tmp) }
    have hfirst : SameRings s (s.writeChunk ch) := by
      obtain ⟨h1, h2, h3, h4, h5, h6, h7⟩ := sameRings_setState ch.frontend ch.idx .DONE_PAGE
        { s with data := Function.update s.data ch.offset (some ch.tmp) }
      exact ⟨h1, h2, h3, h4, h5, h6, h7⟩
    refine ⟨hfirst.trans hrings, hdata, hmem, hreads, fun g => (hencs g).trans (hset g 0).1,
      fun g idx => ?_⟩
    rcases hentry g idx with ⟨hdone, ch', hmem', hf, hi⟩ | ⟨hstate, hnone⟩
    · exact .inl ⟨hdone, ch', List.mem_cons_of_mem ch hmem', hf, hi⟩
    · have hstate' := hstate.trans (hset g idx).2
      by_cases hat : g = ch.frontend ∧ idx = ch.idx
      · rw [if_pos hat] at hstate'
        exact .inl ⟨hstate', ch, List.mem_cons_self, hat.1.symm, hat.2.symm⟩
      · rw [if_neg hat] at hstate'
        refine .inr ⟨hstate', fun ch' hmem' hf hi => ?_⟩
        rcases List.mem_cons.1 hmem' with rfl | hmem'
        · exact hat ⟨hf.symm, hi.symm⟩
        · exact hnone ch' hmem' hf hi

variable {slots : Slots F T} {hole : Option (F × Fin bufferCapacity)} {s s' : World F A T}
  {l : Ledger F A T}

omit [DecidableEq F] in
/-- The parts of the invariant that do not change while the same entries of the rings are in use. -/
theorem Inv.of_sameRings (h : Inv slots hole s l) (hrings : SameRings s s')
    (hempty : ∀ g idx, (s'.frontends g).pageStates idx = .EMPTY_PAGE ↔
      (s.frontends g).pageStates idx = .EMPTY_PAGE)
    (hmem : s'.mem = s.mem) (hsettled : s'.settled = s.settled)
    (hflushed : ∀ f i w, l.lastWrites f i = some w → w.flushed = true →
      s'.data (slots.offset f i) = some (slots.enc f i w))
    (hreads : ∀ ch ∈ s'.readChunks, ch ∈ s.readChunks ∧
      (s'.frontends ch.frontend).pageStates ch.idx = .PENDING_PAGE)
    (hwrites : ∀ ch ∈ s'.writeChunks, ch ∈ s.writeChunks ∧
      (s'.frontends ch.frontend).pageStates ch.idx = .PENDING_PAGE)
    (hpendingRead : ∀ f idx, (s.frontends f).isRead = true →
      (s'.frontends f).pageStates idx = .PENDING_PAGE → hole ≠ some (f, idx) →
      ∃ ch ∈ s'.readChunks, ch.frontend = f ∧ ch.idx = idx)
    (hpendingWrite : ∀ f idx, (s.frontends f).isRead = false →
      (s'.frontends f).pageStates idx = .PENDING_PAGE → hole ≠ some (f, idx) →
      ∃ ch ∈ s'.writeChunks, ch.frontend = f ∧ ch.idx = idx)
    (hdata : ∀ ch ∈ s'.readChunks, s'.data ch.offset = s.data ch.offset)
    (hencs : ∀ f idx x, (s.frontends f).isRead = true →
      (∀ ch ∈ s.readChunks, ch.frontend = f → ch.idx = idx → s.data ch.offset = some x) →
      ((s.frontends f).pageStates idx = .DONE_PAGE → (s.frontends f).encs idx = some x) →
      (s'.frontends f).pageStates idx = .DONE_PAGE → (s'.frontends f).encs idx = some x) :
    Inv slots hole s' l where
  readChunk ch hch := by
    obtain ⟨hold, hp⟩ := hreads ch hch
    obtain ⟨hr, -, hoff⟩ := h.readChunk ch hold
    exact ⟨(hrings.isRead _).trans hr, hp, hoff⟩
  writeChunk ch hch := by
    obtain ⟨hold, hp⟩ := hwrites ch hch
    obtain ⟨hr, -, hoff⟩ := h.writeChunk ch hold
    exact ⟨(hrings.isRead _).trans hr, hp, hoff⟩
  pendingRead f idx hr := hpendingRead f idx ((hrings.isRead f).symm.trans hr)
  pendingWrite f idx hr := hpendingWrite f idx ((hrings.isRead f).symm.trans hr)
  outstanding f idx hr hne := by
    rw [hrings.isRead] at hr
    rw [Ne, hempty] at hne
    obtain ⟨job, x, hreq, hlt, hread, henc⟩ := h.outstanding f idx hr hne
    rw [hrings.outAddrs, hrings.doneCounter, hrings.nounces]
    refine ⟨job, x, hreq, hlt, fun ch hch hf hi => ?_, hencs f idx _ hr hread henc⟩
    exact (hdata ch hch).trans (hread ch (hreads ch hch).1 hf hi)
  distinct f idx idx' hr hne hne' heq := by
    rw [hrings.isRead] at hr
    rw [Ne, hempty] at hne hne'
    rw [hrings.outAddrs] at heq
    exact h.distinct f idx idx' hr hne hne' heq
  answered out r hreq := by
    rw [hmem, hrings.isRead, hrings.outAddrs]
    rcases h.answered out r hreq with hval | ⟨idx, hr, hne, heq⟩
    · exact .inl hval
    · exact .inr ⟨idx, hr, fun he => hne ((hempty _ _).1 he), heq⟩
  counters f hr := by
    rw [hrings.isRead] at hr
    rw [hrings.doneCounter, hrings.jobCounter]
    exact h.counters f hr
  written := by
    rw [hsettled]
    exact h.written
  flushed := hflushed

omit [DecidableEq F] in
theorem SameRings.flushes (h : SameRings s s')
    (hempty : ∀ g idx, (s.frontends g).pageStates idx = .EMPTY_PAGE →
      (s'.frontends g).pageStates idx = .EMPTY_PAGE) : Flushes s s' :=
  ⟨h.isRead, h.bufferIdx, h.outAddrs, h.jobCounter, h.modified, hempty⟩

/-- **`FlushRead`** of the backend: the pending reads are done. -/
theorem Inv.backendFlushRead (h : Inv slots hole s l) :
    Inv slots hole s.backendFlushRead l ∧ Flushes s s.backendFlushRead ∧
      ∀ f idx, (s.frontends f).isRead = true → (s.frontends f).pageStates idx = .PENDING_PAGE →
        hole ≠ some (f, idx) → (s.backendFlushRead.frontends f).pageStates idx = .DONE_PAGE := by
  obtain ⟨⟨h1, h2, h3, h4, h5, h6, h7⟩, hdata, hmem, hwrites, hentry⟩ :=
    readsDone_foldl s.readChunks s
  have hrings : SameRings s s.backendFlushRead := ⟨h1, h2, h3, h4, h5, h6, h7⟩
  have hempty : ∀ g idx, (s.backendFlushRead.frontends g).pageStates idx = .EMPTY_PAGE ↔
      (s.frontends g).pageStates idx = .EMPTY_PAGE := fun g idx => by
    rcases hentry g idx with ⟨hst, ch, hch, rfl, rfl, -⟩ | ⟨hst, -, -⟩
    · rw [show (s.backendFlushRead.frontends _).pageStates ch.idx = _ from hst,
        (h.readChunk ch hch).2.1]
      simp
    · rw [show (s.backendFlushRead.frontends g).pageStates idx = _ from hst]
  have hpend : ∀ f idx, (s.frontends f).isRead = true →
      (s.frontends f).pageStates idx = .PENDING_PAGE → hole ≠ some (f, idx) →
      (s.backendFlushRead.frontends f).pageStates idx = .DONE_PAGE := fun f idx hr hp hne => by
    obtain ⟨ch, hch, hf, hi⟩ := h.pendingRead f idx hr hp hne
    rcases hentry f idx with ⟨hst, -⟩ | ⟨-, -, hnone⟩
    · exact hst
    · exact absurd hi (hnone ch hch hf)
  refine ⟨h.of_sameRings hrings hempty hmem ?_ ?_ ?_ ?_ ?_ ?_ ?_ ?_,
    hrings.flushes fun g idx => (hempty g idx).2, hpend⟩
  · exact congrArg₂ (List.foldl _) hdata hwrites
  · intro f i w hw hfl
    exact (congrFun hdata _).trans (h.flushed f i w hw hfl)
  · intro ch hch
    cases hch
  · intro ch hch
    have hold : ch ∈ s.writeChunks := hwrites ▸ hch
    refine ⟨hold, ?_⟩
    obtain ⟨hr, hp, -⟩ := h.writeChunk ch hold
    rcases hentry ch.frontend ch.idx with ⟨-, ch', hch', hf, -⟩ | ⟨hst, -, -⟩
    · rw [← hf, (h.readChunk ch' hch').1] at hr
      cases hr
    · exact hst.trans hp
  · intro f idx hr hp hne
    rcases hentry f idx with ⟨hst, -⟩ | ⟨hst, -, -⟩
    · cases hst.symm.trans hp
    · cases (hpend f idx hr (hst.symm.trans hp) hne).symm.trans hp
  · intro f idx hr hp hne
    rcases hentry f idx with ⟨hst, -⟩ | ⟨hst, -, -⟩
    · cases hst.symm.trans hp
    · obtain ⟨ch, hch, hat⟩ := h.pendingWrite f idx hr (hst.symm.trans hp) hne
      exact ⟨ch, hwrites ▸ hch, hat⟩
  · intro ch hch
    cases hch
  · intro f idx x hr hread henc hst'
    rcases hentry f idx with ⟨-, ch, hch, hf, hi, he⟩ | ⟨hst, he, -⟩
    · exact he.trans (hread ch hch hf hi)
    · exact he.trans (henc (hst.symm.trans hst'))

omit [DecidableEq F] in
/-- Data that the queue of writes does not reach. -/
theorem foldl_data_of_notMem {chunks : List (WriteChunk F T)} {off : Nat}
    (h : ∀ ch ∈ chunks, ch.offset ≠ off) (data : Nat → Option (FreshEncrypted T)) :
    chunks.foldl (fun (data : Nat → Option (FreshEncrypted T)) ch =>
      Function.update data ch.offset (some ch.tmp)) data off = data off := by
  induction chunks generalizing data with
  | nil => rfl
  | cons ch chunks ih =>
    rw [List.foldl_cons, ih fun ch' hch' => h ch' (List.mem_cons_of_mem ch hch')]
    exact Function.update_of_ne (h ch List.mem_cons_self).symm ..

omit [DecidableEq F] in
/-- A page of a frontend that has no write in the queue. -/
theorem Inv.settled_eq (h : Inv slots hole s l) {f : F} {i : Nat} (hi : i < slots.numPage f)
    (hf : ∀ ch ∈ s.writeChunks, ch.frontend ≠ f) :
    s.settled (slots.offset f i) = s.data (slots.offset f i) := by
  refine foldl_data_of_notMem (fun ch hch heq => ?_) s.data
  obtain ⟨-, -, j, hj, hoff⟩ := h.writeChunk ch hch
  exact hf ch hch (slots.offset_inj hj hi (hoff.symm.trans heq)).1

/-- **`FlushWrite`** of the backend: the pending writes are done. -/
theorem Inv.backendFlushWrite (h : Inv slots hole s l) :
    Inv slots hole s.backendFlushWrite l ∧ Flushes s s.backendFlushWrite ∧
      ∀ f idx, (s.frontends f).isRead = false → (s.frontends f).pageStates idx = .PENDING_PAGE →
        hole ≠ some (f, idx) → (s.backendFlushWrite.frontends f).pageStates idx = .DONE_PAGE := by
  obtain ⟨⟨h1, h2, h3, h4, h5, h6, h7⟩, hdata, hmem, hreads, hencs, hentry⟩ :=
    writesDone_foldl s.writeChunks s
  have hrings : SameRings s s.backendFlushWrite := ⟨h1, h2, h3, h4, h5, h6, h7⟩
  have hempty : ∀ g idx, (s.backendFlushWrite.frontends g).pageStates idx = .EMPTY_PAGE ↔
      (s.frontends g).pageStates idx = .EMPTY_PAGE := fun g idx => by
    rcases hentry g idx with ⟨hst, ch, hch, rfl, rfl⟩ | ⟨hst, -⟩
    · rw [show (s.backendFlushWrite.frontends _).pageStates ch.idx = _ from hst,
        (h.writeChunk ch hch).2.1]
      simp
    · rw [show (s.backendFlushWrite.frontends g).pageStates idx = _ from hst]
  have hpend : ∀ f idx, (s.frontends f).isRead = false →
      (s.frontends f).pageStates idx = .PENDING_PAGE → hole ≠ some (f, idx) →
      (s.backendFlushWrite.frontends f).pageStates idx = .DONE_PAGE := fun f idx hr hp hne => by
    obtain ⟨ch, hch, hf, hi⟩ := h.pendingWrite f idx hr hp hne
    rcases hentry f idx with ⟨hst, -⟩ | ⟨-, hnone⟩
    · exact hst
    · exact absurd hi (hnone ch hch hf)
  -- the pages of the reads in the queue are not written: their frontends read
  have hread : ∀ ch ∈ s.readChunks, s.backendFlushWrite.data ch.offset = s.data ch.offset :=
    fun ch hch => by
      obtain ⟨hr, -, i, hi, hoff⟩ := h.readChunk ch hch
      rw [hoff]
      refine (congrFun hdata _).trans (h.settled_eq hi fun ch' hch' heq => ?_)
      have hw := (h.writeChunk ch' hch').1
      rw [heq, hr] at hw
      cases hw
  refine ⟨h.of_sameRings hrings hempty hmem ?_ ?_ ?_ ?_ ?_ ?_ ?_ ?_,
    hrings.flushes fun g idx => (hempty g idx).2, hpend⟩
  · exact hdata
  · intro f i w hw _
    exact (congrFun hdata _).trans (h.written f i w hw).2
  · intro ch hch
    have hold : ch ∈ s.readChunks := hreads ▸ hch
    refine ⟨hold, ?_⟩
    obtain ⟨hr, hp, -⟩ := h.readChunk ch hold
    rcases hentry ch.frontend ch.idx with ⟨-, ch', hch', hf, -⟩ | ⟨hst, -⟩
    · rw [← hf, (h.writeChunk ch' hch').1] at hr
      cases hr
    · exact hst.trans hp
  · intro ch hch
    cases hch
  · intro f idx hr hp hne
    rcases hentry f idx with ⟨hst, -⟩ | ⟨hst, -⟩
    · cases hst.symm.trans hp
    · obtain ⟨ch, hch, hat⟩ := h.pendingRead f idx hr (hst.symm.trans hp) hne
      exact ⟨ch, hreads ▸ hch, hat⟩
  · intro f idx hr hp hne
    rcases hentry f idx with ⟨hst, -⟩ | ⟨hst, -⟩
    · cases hst.symm.trans hp
    · cases (hpend f idx hr (hst.symm.trans hp) hne).symm.trans hp
  · intro ch hch
    exact hread ch (hreads ▸ hch)
  · intro f idx x hr hread henc hst'
    rw [show (s.backendFlushWrite.frontends f).encs = _ from hencs f]
    rcases hentry f idx with ⟨-, ch, hch, hf, -⟩ | ⟨hst, -⟩
    · rw [← hf, (h.writeChunk ch hch).1] at hr
      cases hr
    · exact henc (hst.symm.trans hst')

/-! ## Entries of the rings -/

/-- A request that is done leaves its entry; its value, if it is a read, is in the memory. -/
theorem Inv.setEmpty (h : Inv slots hole s l) {f : F} {idx : Fin bufferCapacity}
    (hdone : (s.frontends f).pageStates idx = .DONE_PAGE) {mem : A → T}
    (hmem : ∀ out r, l.requests out = some r → (s.mem out = r.value ∨
      ((s.frontends f).isRead = true ∧ r.frontend = f ∧ (s.frontends f).outAddrs idx = out)) →
      mem out = r.value) :
    Inv slots hole ({ s with mem }.setState f idx .EMPTY_PAGE) l ∧
      Flushes s ({ s with mem }.setState f idx .EMPTY_PAGE) ∧
      (({ s with mem }.setState f idx .EMPTY_PAGE).frontends f).pageStates idx = .EMPTY_PAGE := by
  have hrings : SameRings s ({ s with mem }.setState f idx .EMPTY_PAGE) := by
    obtain ⟨h1, h2, h3, h4, h5, h6, h7⟩ := sameRings_setState f idx .EMPTY_PAGE { s with mem }
    exact ⟨h1, h2, h3, h4, h5, h6, h7⟩
  have hset := fun g i => setState_entry f g idx i .EMPTY_PAGE { s with mem }
  have hencs : ∀ g, (({ s with mem }.setState f idx .EMPTY_PAGE).frontends g).encs =
      (s.frontends g).encs := fun g => (hset g 0).1
  -- an entry that is in use is another one
  have hused : ∀ g i, (({ s with mem }.setState f idx .EMPTY_PAGE).frontends g).pageStates i ≠
      .EMPTY_PAGE → (({ s with mem }.setState f idx .EMPTY_PAGE).frontends g).pageStates i =
        (s.frontends g).pageStates i := fun g i hne => by
    rw [(hset g i).2] at hne ⊢
    split at hne
    · exact absurd rfl hne
    · next hat => rw [if_neg hat]
  have hother : ∀ g i, (s.frontends g).pageStates i ≠ .DONE_PAGE →
      (({ s with mem }.setState f idx .EMPTY_PAGE).frontends g).pageStates i =
        (s.frontends g).pageStates i := fun g i hne => by
    rw [(hset g i).2, if_neg]
    rintro ⟨rfl, rfl⟩
    exact hne hdone
  refine ⟨?_, hrings.flushes fun g i he => ?_, by rw [(hset f idx).2, if_pos ⟨rfl, rfl⟩]⟩
  constructor
  case readChunk =>
    intro ch hch
    obtain ⟨hr, hp, hoff⟩ := h.readChunk ch hch
    exact ⟨(hrings.isRead _).trans hr, (hother _ _ (by rw [hp]; simp)).trans hp, hoff⟩
  case writeChunk =>
    intro ch hch
    obtain ⟨hr, hp, hoff⟩ := h.writeChunk ch hch
    exact ⟨(hrings.isRead _).trans hr, (hother _ _ (by rw [hp]; simp)).trans hp, hoff⟩
  case pendingRead =>
    intro g i hr hp hne
    rw [hused g i (by rw [hp]; simp)] at hp
    exact h.pendingRead g i ((hrings.isRead g).symm.trans hr) hp hne
  case pendingWrite =>
    intro g i hr hp hne
    rw [hused g i (by rw [hp]; simp)] at hp
    exact h.pendingWrite g i ((hrings.isRead g).symm.trans hr) hp hne
  case outstanding =>
    intro g i hr hne
    rw [hrings.outAddrs, hrings.doneCounter, hrings.nounces, hencs, hused g i hne]
    rw [hused g i hne] at hne
    exact h.outstanding g i ((hrings.isRead g).symm.trans hr) hne
  case distinct =>
    intro g i j hr hi hj heq
    rw [hused g i hi] at hi
    rw [hused g j hj] at hj
    rw [hrings.outAddrs] at heq
    exact h.distinct g i j ((hrings.isRead g).symm.trans hr) hi hj heq
  case answered =>
    intro out r hreq
    rw [hrings.isRead, hrings.outAddrs]
    rcases h.answered out r hreq with hval | ⟨i, hr, hne, heq⟩
    · exact .inl (hmem out r hreq (.inl hval))
    · by_cases hat : r.frontend = f ∧ i = idx
      · obtain ⟨hf, rfl⟩ := hat
        rw [hf] at hr heq
        exact .inl (hmem out r hreq (.inr ⟨hr, hf, heq⟩))
      · refine .inr ⟨i, hr, ?_, heq⟩
        rw [(hset _ i).2, if_neg hat]
        exact hne
  case counters =>
    intro g hr
    rw [hrings.doneCounter, hrings.jobCounter]
    exact h.counters g ((hrings.isRead g).symm.trans hr)
  case written => exact h.written
  case flushed => exact h.flushed
  · exact (hother g i (by rw [he]; simp)).trans he

/-- Counters that the requests in the ring do not depend on. -/
theorem Inv.update_counters (h : Inv slots hole s l) {f : F}
    {u : BatchFrontend A T → BatchFrontend A T}
    (hu : ∃ modified bufferIdx doneCounter jobCounter, u (s.frontends f) =
      { s.frontends f with modified, bufferIdx, doneCounter, jobCounter } ∧
      ((s.frontends f).isRead = true → doneCounter = (s.frontends f).doneCounter ∧
        (s.frontends f).jobCounter ≤ jobCounter)) :
    Inv slots hole (s.update f u) l := by
  obtain ⟨modified, bufferIdx, doneCounter, jobCounter, hu, hread⟩ := hu
  have hat : ∀ g, (s.update f u).frontends g = s.frontends g ∨
      (g = f ∧ (s.update f u).frontends g =
        { s.frontends f with modified, bufferIdx, doneCounter, jobCounter }) := fun g => by
    by_cases hg : g = f
    · subst hg
      exact .inr ⟨rfl, by rw [update_self, hu]⟩
    · exact .inl (update_of_ne hg u s)
  have hisRead : ∀ g, ((s.update f u).frontends g).isRead = (s.frontends g).isRead := fun g =>
    update_keeps BatchFrontend.isRead f g s (by rw [hu])
  have hstates : ∀ g, ((s.update f u).frontends g).pageStates =
    (s.frontends g).pageStates := fun g =>
    update_keeps BatchFrontend.pageStates f g s (by rw [hu])
  have hencs : ∀ g, ((s.update f u).frontends g).encs = (s.frontends g).encs := fun g =>
    update_keeps BatchFrontend.encs f g s (by rw [hu])
  have hout : ∀ g, ((s.update f u).frontends g).outAddrs = (s.frontends g).outAddrs := fun g =>
    update_keeps BatchFrontend.outAddrs f g s (by rw [hu])
  have hnounces : ∀ g, ((s.update f u).frontends g).nounces = (s.frontends g).nounces := fun g =>
    update_keeps BatchFrontend.nounces f g s (by rw [hu])
  have hdone : ∀ g, (s.frontends g).isRead = true →
      ((s.update f u).frontends g).doneCounter = (s.frontends g).doneCounter := fun g hr => by
    rcases hat g with heq | ⟨rfl, heq⟩
    · rw [heq]
    · rw [heq]
      exact (hread hr).1
  constructor
  case readChunk =>
    intro ch hch
    rw [hisRead, hstates]
    exact h.readChunk ch hch
  case writeChunk =>
    intro ch hch
    rw [hisRead, hstates]
    exact h.writeChunk ch hch
  case pendingRead =>
    intro g i hr hp hne
    rw [hisRead] at hr
    rw [hstates] at hp
    exact h.pendingRead g i hr hp hne
  case pendingWrite =>
    intro g i hr hp hne
    rw [hisRead] at hr
    rw [hstates] at hp
    exact h.pendingWrite g i hr hp hne
  case outstanding =>
    intro g i hr hne
    rw [hisRead] at hr
    rw [hstates] at hne
    rw [hout, hdone g hr, hnounces, hstates, hencs]
    exact h.outstanding g i hr hne
  case distinct =>
    intro g i j hr
    rw [hisRead] at hr
    rw [hstates, hout]
    exact h.distinct g i j hr
  case answered =>
    intro out r hreq
    rw [hisRead, hstates, hout]
    exact h.answered out r hreq
  case counters =>
    intro g hr
    rw [hisRead] at hr
    have hle := h.counters g hr
    rw [hdone g hr]
    rcases hat g with heq | ⟨rfl, heq⟩
    · rw [heq]
      exact hle
    · rw [heq]
      exact hle.trans (hread hr).2
  case written => exact h.written
  case flushed => exact h.flushed

/-- No entry of the ring is in use. -/
def Idle (f : F) (s : World F A T) : Prop :=
  ∀ idx, (s.frontends f).pageStates idx = .EMPTY_PAGE

/-- A frontend without requests. -/
theorem Inv.update_idle (h : Inv slots hole s l) {f : F} (hidle : s.Idle f)
    {u : BatchFrontend A T → BatchFrontend A T}
    (hstates : (u (s.frontends f)).pageStates = (s.frontends f).pageStates)
    (hle : (u (s.frontends f)).isRead = true →
      (u (s.frontends f)).doneCounter ≤ (u (s.frontends f)).jobCounter) :
    Inv slots hole (s.update f u) l := by
  have hempty : ∀ idx, ((s.update f u).frontends f).pageStates idx = .EMPTY_PAGE := fun idx => by
    rw [update_self, hstates]
    exact hidle idx
  have hother : ∀ g idx, ((s.update f u).frontends g).pageStates idx ≠ .EMPTY_PAGE → g ≠ f := by
    rintro g idx hne rfl
    exact hne (hempty idx)
  constructor
  case readChunk =>
    intro ch hch
    obtain ⟨hr, hp, hoff⟩ := h.readChunk ch hch
    have hne : ch.frontend ≠ f := by
      rintro rfl
      rw [hidle] at hp
      cases hp
    rw [update_of_ne hne]
    exact ⟨hr, hp, hoff⟩
  case writeChunk =>
    intro ch hch
    obtain ⟨hr, hp, hoff⟩ := h.writeChunk ch hch
    have hne : ch.frontend ≠ f := by
      rintro rfl
      rw [hidle] at hp
      cases hp
    rw [update_of_ne hne]
    exact ⟨hr, hp, hoff⟩
  case pendingRead =>
    intro g idx hr hp
    rw [update_of_ne (hother g idx (by rw [hp]; simp))] at hr hp
    exact h.pendingRead g idx hr hp
  case pendingWrite =>
    intro g idx hr hp
    rw [update_of_ne (hother g idx (by rw [hp]; simp))] at hr hp
    exact h.pendingWrite g idx hr hp
  case outstanding =>
    intro g idx hr hne
    have hg := hother g idx hne
    rw [update_of_ne hg] at hr hne ⊢
    exact h.outstanding g idx hr hne
  case distinct =>
    intro g i j hr hi hj
    have hg := hother g i hi
    rw [update_of_ne hg] at hr hi hj ⊢
    exact h.distinct g i j hr hi hj
  case answered =>
    intro out r hreq
    rcases h.answered out r hreq with hval | ⟨idx, hr, hne, heq⟩
    · exact .inl hval
    · have hg : r.frontend ≠ f := fun hf => hne (by rw [hf]; exact hidle idx)
      refine .inr ⟨idx, ?_⟩
      rw [update_of_ne hg]
      exact ⟨hr, hne, heq⟩
  case counters =>
    intro g hr
    by_cases hg : g = f
    · subst hg
      rw [update_self] at hr ⊢
      exact hle hr
    · rw [update_of_ne hg] at hr ⊢
      exact h.counters g hr
  case written => exact h.written
  case flushed => exact h.flushed

end World

end EM
