import OblSort.Server.Proof.BatchFrontend

/-!
# Runs of the batching frontends

The four calls of the frontends keep `World.Inv`, each under its own condition. A run is a list of
calls of any frontends in any order; the ledger is kept along with it.
-/

namespace EM.World

variable {F A T : Type} [DecidableEq F] [DecidableEq A] {slots : Slots F T}
  {hole : Option (F × Fin bufferCapacity)} {s s' : World F A T} {l : Ledger F A T} {f : F}

omit [DecidableEq A] [DecidableEq F] in
theorem Idle.flushes (h : s.Idle f) (hs : Flushes s s') : s'.Idle f :=
  fun idx => hs.empty f idx (h idx)

/-! ## Flushes -/

/-- A read that is done is decrypted to its output. -/
theorem Inv.decrypt (h : Inv slots hole s l) (hr : (s.frontends f).isRead = true)
    {idx : Fin bufferCapacity} (hdone : (s.frontends f).pageStates idx = .DONE_PAGE) :
    ∃ s', s.decrypt f idx = some s' ∧ Inv slots hole s' l ∧ Flushes s s' ∧
      (s'.frontends f).pageStates idx = .EMPTY_PAGE := by
  obtain ⟨job, x, hreq, -, -, henc⟩ := h.outstanding f idx hr (by rw [hdone]; simp)
  have hdec : ((s.frontends f).encs idx).bind (·.decrypt ((s.frontends f).nounces idx)) =
    some x := by
    rw [henc hdone, Option.bind_some, FreshEncrypted.decrypt, if_pos rfl]
  refine ⟨_, by rw [World.decrypt, hdec, Option.map_some], h.setEmpty hdone ?_⟩
  intro out r hr' hor
  by_cases hout : out = (s.frontends f).outAddrs idx
  · subst hout
    obtain rfl := Option.some.inj (hr'.symm.trans hreq)
    exact Function.update_self ..
  · rw [Function.update_of_ne hout]
    exact hor.resolve_right fun hat => hout hat.2.2.symm

theorem Inv.flushReadAt (h : Inv slots none s l) (idx : Fin bufferCapacity)
    (hr : (s.frontends f).isRead = true ∨ (s.frontends f).pageStates idx = .EMPTY_PAGE) :
    ∃ s', s.flushReadAt f idx = some s' ∧ Inv slots none s' l ∧ Flushes s s' ∧
      (s'.frontends f).pageStates idx = .EMPTY_PAGE := by
  rw [World.flushReadAt]
  cases hst : (s.frontends f).pageStates idx with
  | EMPTY_PAGE =>
    refine ⟨s, ?_, h, .refl s, hst⟩
    simp only [reduceCtorEq, if_false, hst]
  | PENDING_PAGE =>
    have hr := hr.resolve_right (by rw [hst]; simp)
    obtain ⟨h₁, hfl, hdone⟩ := h.backendFlushRead
    have hdone := hdone f idx hr hst (by simp)
    obtain ⟨s₂, hdec, h₂, hfl₂, hempty⟩ := h₁.decrypt ((hfl.isRead f).trans hr) hdone
    exact ⟨s₂, by rw [if_pos rfl, if_pos hdone, hdec], h₂, hfl.trans hfl₂, hempty⟩
  | DONE_PAGE =>
    have hr := hr.resolve_right (by rw [hst]; simp)
    obtain ⟨s₂, hdec, h₂, hfl₂, hempty⟩ := h.decrypt hr hst
    refine ⟨s₂, ?_, h₂, hfl₂, hempty⟩
    simp only [reduceCtorEq, if_false, hst, if_true, hdec]

/-- The loop of `flushRead`. -/
theorem Inv.flushReadLoop (h : Inv slots none s l) (hr : (s.frontends f).isRead = true ∨ s.Idle f)
    (entries : List (Fin bufferCapacity)) :
    ∃ s', entries.foldlM (fun (s : World F A T) idx => s.flushReadAt f idx) s = some s' ∧
      Inv slots none s' l ∧ Flushes s s' ∧
      ∀ idx ∈ entries, (s'.frontends f).pageStates idx = .EMPTY_PAGE := by
  induction entries generalizing s with
  | nil => exact ⟨s, rfl, h, .refl s, by simp⟩
  | cons idx entries ih =>
    obtain ⟨s₁, hat, h₁, hfl₁, hempty⟩ := h.flushReadAt idx (hr.imp id fun hidle => hidle idx)
    obtain ⟨s₂, hloop, h₂, hfl₂, hall⟩ :=
      ih h₁ (hr.imp (fun hr => (hfl₁.isRead f).trans hr) fun hidle => hidle.flushes hfl₁)
    refine ⟨s₂, ?_, h₂, hfl₁.trans hfl₂, fun i hi => ?_⟩
    · rw [List.foldlM_cons, hat]
      exact hloop
    · rcases List.mem_cons.1 hi with rfl | hi
      · exact hfl₂.empty f i hempty
      · exact hall i hi

omit [DecidableEq A] in
/-- `doneCounter = jobCounter` of a frontend without requests. -/
theorem Inv.allDone (h : Inv slots none s l) (hidle : s.Idle f) :
    Inv slots none (s.allDone f) l ∧ Flushes s (s.allDone f) ∧
      ((s.allDone f).frontends f).doneCounter = ((s.allDone f).frontends f).jobCounter := by
  refine ⟨h.update_idle hidle rfl fun _ => Nat.le_refl _, ?_, ?_⟩
  · constructor <;> intro g <;> by_cases hg : g = f
    all_goals first
      | subst hg; rw [World.allDone, update_self]
      | rw [World.allDone, update_of_ne hg]
    all_goals exact fun _ he => he
  · rw [World.allDone, update_self]

/-- **`flushRead`** of a frontend that reads: all its requests are answered. -/
theorem Inv.flushRead (h : Inv slots none s l) (hr : (s.frontends f).isRead = true ∨ s.Idle f) :
    ∃ s', s.flushRead f = some s' ∧ Inv slots none s' l ∧ Flushes s s' ∧ s'.Idle f ∧
      (s'.frontends f).doneCounter = (s'.frontends f).jobCounter := by
  obtain ⟨s₁, hloop, h₁, hfl₁, hall⟩ := h.flushReadLoop hr (List.finRange bufferCapacity)
  have hidle : s₁.Idle f := fun idx => hall idx (List.mem_finRange idx)
  obtain ⟨h₂, hfl₂, hcount⟩ := h₁.allDone hidle
  exact ⟨_, by rw [World.flushRead, hloop, Option.map_some], h₂, hfl₁.trans hfl₂,
    hidle.flushes hfl₂, hcount⟩

omit [DecidableEq A] in
/-- A write that is done leaves its entry. -/
theorem Inv.setEmpty_write (h : Inv slots hole s l) (hr : (s.frontends f).isRead = false)
    {idx : Fin bufferCapacity} (hdone : (s.frontends f).pageStates idx = .DONE_PAGE) :
    Inv slots hole (s.setState f idx .EMPTY_PAGE) l ∧ Flushes s (s.setState f idx .EMPTY_PAGE) ∧
      ((s.setState f idx .EMPTY_PAGE).frontends f).pageStates idx = .EMPTY_PAGE := by
  refine h.setEmpty hdone fun out r hreq hor => hor.resolve_right fun hat => ?_
  rw [hr] at hat
  cases hat.1

omit [DecidableEq A] in
theorem Inv.flushWriteAt (h : Inv slots none s l) (idx : Fin bufferCapacity)
    (hr : (s.frontends f).isRead = false ∨ (s.frontends f).pageStates idx = .EMPTY_PAGE) :
    Inv slots none (s.flushWriteAt f idx) l ∧ Flushes s (s.flushWriteAt f idx) ∧
      ((s.flushWriteAt f idx).frontends f).pageStates idx = .EMPTY_PAGE := by
  rw [World.flushWriteAt]
  cases hst : (s.frontends f).pageStates idx with
  | EMPTY_PAGE =>
    simp only [reduceCtorEq, if_false, hst]
    exact ⟨h, .refl s, trivial⟩
  | PENDING_PAGE =>
    have hr := hr.resolve_right (by rw [hst]; simp)
    obtain ⟨h₁, hfl, hdone⟩ := h.backendFlushWrite
    have hdone := hdone f idx hr hst (by simp)
    rw [if_pos rfl, if_pos hdone]
    obtain ⟨h₂, hfl₂, hempty⟩ := h₁.setEmpty_write ((hfl.isRead f).trans hr) hdone
    exact ⟨h₂, hfl.trans hfl₂, hempty⟩
  | DONE_PAGE =>
    have hr := hr.resolve_right (by rw [hst]; simp)
    simp only [reduceCtorEq, if_false, hst, if_true]
    exact h.setEmpty_write hr hst

omit [DecidableEq A] in
/-- The loop of `flushWrite`. -/
theorem Inv.flushWriteLoop (h : Inv slots none s l)
    (hr : (s.frontends f).isRead = false ∨ s.Idle f) (entries : List (Fin bufferCapacity)) :
    Inv slots none (entries.foldl (fun (s : World F A T) idx => s.flushWriteAt f idx) s) l ∧
      Flushes s (entries.foldl (fun (s : World F A T) idx => s.flushWriteAt f idx) s) ∧
      ∀ idx ∈ entries,
      ((entries.foldl (fun (s : World F A T) idx => s.flushWriteAt f idx) s).frontends
        f).pageStates idx = .EMPTY_PAGE := by
  induction entries generalizing s with
  | nil => exact ⟨h, .refl s, by simp⟩
  | cons idx entries ih =>
    obtain ⟨h₁, hfl₁, hempty⟩ := h.flushWriteAt idx (hr.imp id fun hidle => hidle idx)
    obtain ⟨h₂, hfl₂, hall⟩ :=
      ih h₁ (hr.imp (fun hr => (hfl₁.isRead f).trans hr) fun hidle => hidle.flushes hfl₁)
    rw [List.foldl_cons]
    refine ⟨h₂, hfl₁.trans hfl₂, fun i hi => ?_⟩
    rcases List.mem_cons.1 hi with rfl | hi
    · exact hfl₂.empty f i hempty
    · exact hall i hi

omit [DecidableEq A] in
/-- **`flushWrite`** of a frontend that writes: all its requests are done. -/
theorem Inv.flushWrite (h : Inv slots none s l) (hr : (s.frontends f).isRead = false ∨ s.Idle f) :
    Inv slots none (s.flushWrite f) l ∧ Flushes s (s.flushWrite f) ∧ (s.flushWrite f).Idle f ∧
      ((s.flushWrite f).frontends f).doneCounter = ((s.flushWrite f).frontends f).jobCounter := by
  obtain ⟨h₁, hfl₁, hall⟩ := h.flushWriteLoop hr (List.finRange bufferCapacity)
  have hidle : Idle f _ := fun idx => hall idx (List.mem_finRange idx)
  obtain ⟨h₂, hfl₂, hcount⟩ := h₁.allDone hidle
  exact ⟨h₂, hfl₁.trans hfl₂, hidle.flushes hfl₂, hcount⟩

/-! ## Requests -/

/-- The entry that the next read takes. -/
theorem Inv.freeRead (h : Inv slots none s l) (hr : (s.frontends f).isRead = true) :
    ∃ s', s.freeRead f = some s' ∧ Inv slots none s' l ∧ Flushes s s' ∧
      (s'.frontends f).pageStates (s'.frontends f).bufferIdx = .EMPTY_PAGE := by
  rw [World.freeRead]
  cases hst : (s.frontends f).pageStates (s.frontends f).bufferIdx with
  | EMPTY_PAGE => exact ⟨s, rfl, h, .refl s, hst⟩
  | PENDING_PAGE =>
    obtain ⟨s₁, hrun, h₁, hfl, hidle, -⟩ := h.flushRead (.inl hr)
    exact ⟨s₁, hrun, h₁, hfl, hidle _⟩
  | DONE_PAGE =>
    obtain ⟨s₁, hrun, h₁, hfl, hempty⟩ := h.decrypt hr hst
    exact ⟨s₁, hrun, h₁, hfl, by rw [hfl.bufferIdx]; exact hempty⟩

omit [DecidableEq A] in
/-- The entry that the next write takes. -/
theorem Inv.freeWrite (h : Inv slots none s l) (hr : (s.frontends f).isRead = false) :
    Inv slots none (s.freeWrite f) l ∧ Flushes s (s.freeWrite f) ∧
      ((s.freeWrite f).frontends f).pageStates ((s.freeWrite f).frontends f).bufferIdx =
        .EMPTY_PAGE := by
  rw [World.freeWrite]
  cases hst : (s.frontends f).pageStates (s.frontends f).bufferIdx with
  | EMPTY_PAGE => exact ⟨h, .refl s, hst⟩
  | PENDING_PAGE =>
    obtain ⟨h₁, hfl, hidle, -⟩ := h.flushWrite (.inl hr)
    exact ⟨h₁, hfl, hidle _⟩
  | DONE_PAGE =>
    obtain ⟨h₁, hfl, hempty⟩ := h.setEmpty_write hr hst
    refine ⟨h₁.update_counters ⟨_, _, _, _, rfl, fun hr' => ?_⟩, hfl.trans ?_, ?_⟩
    · rw [hfl.isRead, hr] at hr'
      cases hr'
    · constructor <;> intro g <;> by_cases hg : g = f
      all_goals first
        | subst hg; rw [update_self]
        | rw [update_of_ne hg]
      all_goals exact fun _ he => he
    · rw [update_self]
      dsimp only
      rw [hfl.bufferIdx]
      exact hempty

omit [DecidableEq A] [DecidableEq F] in
/-- No read in the rings has this output address. -/
def Unused (out : A) (s : World F A T) : Prop :=
  ∀ g idx, (s.frontends g).isRead = true → (s.frontends g).pageStates idx ≠ .EMPTY_PAGE →
    (s.frontends g).outAddrs idx ≠ out

omit [DecidableEq A] [DecidableEq F] in
theorem Unused.flushes {out : A} (h : s.Unused out) (hs : Flushes s s') : s'.Unused out := by
  intro g idx hr hne
  rw [hs.isRead] at hr
  rw [hs.outAddrs]
  exact h g idx hr fun he => hne (hs.empty g idx he)

/-- An empty entry takes a read, which the backend does not have yet. -/
theorem Inv.placeRead (h : Inv slots none s l) (hr : (s.frontends f).isRead = true)
    {idx : Fin bufferCapacity} (hempty : (s.frontends f).pageStates idx = .EMPTY_PAGE) {out : A}
    (hunused : s.Unused out) (nounce : Nounce) {job : Nat} (hjob : (s.frontends f).jobCounter < job)
    (x : T) :
    Inv slots (some (f, idx)) (s.update f fun b =>
      { b with
        pageStates := Function.update b.pageStates idx .PENDING_PAGE
        outAddrs := Function.update b.outAddrs idx out
        nounces := Function.update b.nounces idx nounce })
      (l.request out (some ⟨f, job, x, false⟩)) := by
  set s₁ := s.update f fun b =>
      { b with
        pageStates := Function.update b.pageStates idx .PENDING_PAGE
        outAddrs := Function.update b.outAddrs idx out
        nounces := Function.update b.nounces idx nounce } with hs₁
  have hisRead : ∀ g, (s₁.frontends g).isRead = (s.frontends g).isRead ∧
      (s₁.frontends g).doneCounter = (s.frontends g).doneCounter ∧
      (s₁.frontends g).jobCounter = (s.frontends g).jobCounter ∧
      (s₁.frontends g).encs = (s.frontends g).encs := fun g =>
    ⟨update_keeps BatchFrontend.isRead f g s rfl, update_keeps BatchFrontend.doneCounter f g s rfl,
      update_keeps BatchFrontend.jobCounter f g s rfl, update_keeps BatchFrontend.encs f g s rfl⟩
  have hself : (s₁.frontends f).pageStates idx = .PENDING_PAGE ∧
    (s₁.frontends f).outAddrs idx = out := by
    rw [hs₁, update_self]
    exact ⟨Function.update_self .., Function.update_self ..⟩
  have hother : ∀ g i, ¬ (g = f ∧ i = idx) →
      (s₁.frontends g).pageStates i = (s.frontends g).pageStates i ∧
      (s₁.frontends g).outAddrs i = (s.frontends g).outAddrs i ∧
      (s₁.frontends g).nounces i = (s.frontends g).nounces i := fun g i hne => by
    by_cases hg : g = f
    · subst hg
      have hi : i ≠ idx := fun h => hne ⟨rfl, h⟩
      rw [hs₁, update_self]
      exact ⟨Function.update_of_ne hi .., Function.update_of_ne hi .., Function.update_of_ne hi ..⟩
    · rw [hs₁, update_of_ne hg]
      exact ⟨rfl, rfl, rfl⟩
  have hused : ∀ g i, (s.frontends g).pageStates i ≠ .EMPTY_PAGE → ¬ (g = f ∧ i = idx) := by
    rintro g i hne ⟨rfl, rfl⟩
    exact hne hempty
  constructor
  case readChunk =>
    intro ch hch
    obtain ⟨hr', hp, hoff⟩ := h.readChunk ch hch
    exact ⟨(hisRead _).1.trans hr', (hother _ _ (hused _ _ (by rw [hp]; simp))).1.trans hp, hoff⟩
  case writeChunk =>
    intro ch hch
    obtain ⟨hr', hp, hoff⟩ := h.writeChunk ch hch
    exact ⟨(hisRead _).1.trans hr', (hother _ _ (hused _ _ (by rw [hp]; simp))).1.trans hp, hoff⟩
  case pendingRead =>
    intro g i hr' hp hne
    have hat : ¬ (g = f ∧ i = idx) := by
      rintro ⟨rfl, rfl⟩
      exact hne rfl
    exact h.pendingRead g i ((hisRead g).1.symm.trans hr') ((hother g i hat).1.symm.trans hp)
      (by simp)
  case pendingWrite =>
    intro g i hr' hp hne
    have hat : ¬ (g = f ∧ i = idx) := by
      rintro ⟨rfl, rfl⟩
      exact hne rfl
    exact h.pendingWrite g i ((hisRead g).1.symm.trans hr') ((hother g i hat).1.symm.trans hp)
      (by simp)
  case outstanding =>
    intro g i hr' hne
    rw [(hisRead g).1] at hr'
    by_cases hat : g = f ∧ i = idx
    · obtain ⟨rfl, rfl⟩ := hat
      refine ⟨job, x, ?_, ?_, fun ch hch hf hi => ?_, fun hd => ?_⟩
      · rw [hself.2, Ledger.request_self]
      · rw [(hisRead g).2.1]
        exact Nat.lt_of_le_of_lt (h.counters g hr) hjob
      · have hp := (h.readChunk ch hch).2.1
        rw [hf, hi, hempty] at hp
        cases hp
      · rw [hself.1] at hd
        cases hd
    · obtain ⟨h1, h2, h3⟩ := hother g i hat
      rw [h1] at hne
      obtain ⟨job', x', hreq, hlt, hread, henc⟩ := h.outstanding g i hr' hne
      rw [h1, h2, h3, (hisRead g).2.1, (hisRead g).2.2.2]
      refine ⟨job', x', ?_, hlt, hread, henc⟩
      rw [Ledger.request_of_ne (hunused g i hr' hne)]
      exact hreq
  case distinct =>
    intro g i j hr' hi hj heq
    rw [(hisRead g).1] at hr'
    by_cases hati : g = f ∧ i = idx
    · by_cases hatj : g = f ∧ j = idx
      · exact hati.2.trans hatj.2.symm
      · rw [(hother g j hatj).1] at hj
        rw [(hother g j hatj).2.1, hati.1, hati.2, hself.2] at heq
        exact absurd heq.symm (hati.1 ▸ hunused g j hr' hj)
    · rw [(hother g i hati).1] at hi
      by_cases hatj : g = f ∧ j = idx
      · rw [(hother g i hati).2.1, hatj.1, hatj.2, hself.2] at heq
        exact absurd heq (hatj.1 ▸ hunused g i hr' hi)
      · rw [(hother g j hatj).1] at hj
        rw [(hother g i hati).2.1, (hother g j hatj).2.1] at heq
        exact h.distinct g i j hr' hi hj heq
  case answered =>
    intro out' r hreq
    by_cases hout : out' = out
    · subst hout
      rw [Ledger.request_self] at hreq
      obtain rfl := Option.some.inj hreq
      exact .inr ⟨idx, (hisRead f).1.trans hr, by rw [hself.1]; simp, hself.2⟩
    · rw [Ledger.request_of_ne hout] at hreq
      rcases h.answered out' r hreq with hval | ⟨i, hr', hne, heq⟩
      · exact .inl hval
      · obtain ⟨h1, h2, -⟩ := hother _ _ (hused _ _ hne)
        exact .inr ⟨i, (hisRead _).1.trans hr', by rw [h1]; exact hne, h2.trans heq⟩
  case counters =>
    intro g hr'
    rw [(hisRead g).1] at hr'
    rw [(hisRead g).2.1, (hisRead g).2.2.1]
    exact h.counters g hr'
  case written => exact h.written
  case flushed => exact h.flushed

omit [DecidableEq A] [DecidableEq F] in
/-- The backend gets the read. -/
theorem Inv.queueRead {idx : Fin bufferCapacity} (h : Inv slots (some (f, idx)) s l)
    (hr : (s.frontends f).isRead = true) (hp : (s.frontends f).pageStates idx = .PENDING_PAGE)
    {i : Nat} (hi : i < slots.numPage f) (size : Nat)
    (hdata : ∀ r, l.requests ((s.frontends f).outAddrs idx) = some r →
      s.data (slots.offset f i) = some ⟨(s.frontends f).nounces idx, r.value⟩) :
    Inv slots none { s with readChunks := s.readChunks ++
      [⟨f, idx, slots.offset f i, size⟩] } l where
  readChunk ch hch := by
    rcases List.mem_append.1 hch with hch | hch
    · exact h.readChunk ch hch
    · obtain rfl := List.mem_singleton.1 hch
      exact ⟨hr, hp, i, hi, rfl⟩
  writeChunk := h.writeChunk
  pendingRead g j hr' hp' _ := by
    by_cases hat : g = f ∧ j = idx
    · exact ⟨_, List.mem_append_right _ (List.mem_singleton_self _), hat.1.symm, hat.2.symm⟩
    · obtain ⟨ch, hch, hat'⟩ := h.pendingRead g j hr' hp' fun heq => hat (by
        obtain ⟨rfl, rfl⟩ := Prod.mk.inj (Option.some.inj heq)
        exact ⟨rfl, rfl⟩)
      exact ⟨ch, List.mem_append_left _ hch, hat'⟩
  pendingWrite g j hr' hp' _ := by
    refine h.pendingWrite g j hr' hp' fun heq => ?_
    obtain ⟨rfl, rfl⟩ := Prod.mk.inj (Option.some.inj heq)
    rw [hr] at hr'
    cases hr'
  outstanding g j hr' hne := by
    obtain ⟨job, x, hreq, hlt, hread, henc⟩ := h.outstanding g j hr' hne
    refine ⟨job, x, hreq, hlt, fun ch hch hf hj => ?_, henc⟩
    rcases List.mem_append.1 hch with hch | hch
    · exact hread ch hch hf hj
    · obtain rfl := List.mem_singleton.1 hch
      obtain rfl : f = g := hf
      obtain rfl : idx = j := hj
      exact hdata _ hreq
  distinct := h.distinct
  answered := h.answered
  counters := h.counters
  written := h.written
  flushed := h.flushed

omit [DecidableEq A] in
theorem Inv.advance (h : Inv slots hole s l) (f : F) : Inv slots hole (s.advance f) l :=
  h.update_counters ⟨_, _, _, _, rfl, fun _ => ⟨rfl, Nat.le_succ _⟩⟩

omit [DecidableEq A] in
theorem advance_jobCounter (f : F) (s : World F A T) :
    ((s.advance f).frontends f).jobCounter = (s.frontends f).jobCounter + 1 := by
  rw [World.advance, update_self]

omit [DecidableEq A] in
theorem advance_modified (f g : F) (s : World F A T) :
    ((s.advance f).frontends g).modified = (s.frontends g).modified :=
  update_keeps BatchFrontend.modified f g s rfl

omit [DecidableEq A] in
theorem advance_isRead (f g : F) (s : World F A T) :
    ((s.advance f).frontends g).isRead = (s.frontends g).isRead :=
  update_keeps BatchFrontend.isRead f g s rfl

/-- **The request of a read**, of a page that was last written with this counter. -/
theorem Inv.requestRead (h : Inv slots none s l) (hr : (s.frontends f).isRead = true)
    (hempty : (s.frontends f).pageStates (s.frontends f).bufferIdx = .EMPTY_PAGE) {out : A}
    (hunused : s.Unused out) {i : Nat} {w : LastWrite T} (hw : l.lastWrites f i = some w) :
    Inv slots none (s.requestRead slots f i out w.counter)
        (l.request out (some ⟨f, (s.frontends f).jobCounter + 1, w.value, false⟩)) ∧
      ((s.requestRead slots f i out w.counter).frontends f).jobCounter =
        (s.frontends f).jobCounter + 1 ∧
      ((s.requestRead slots f i out w.counter).frontends f).isRead = true ∧
      ∀ g, ((s.requestRead slots f i out w.counter).frontends g).modified =
        (s.frontends g).modified := by
  set idx := (s.frontends f).bufferIdx with hidx
  have h₁ := h.placeRead hr hempty hunused ((slots.nounce f).forPage i w.counter)
    (Nat.lt_succ_self (s.frontends f).jobCounter) w.value
  set s₁ := s.update f fun b =>
      { b with
        pageStates := Function.update b.pageStates idx .PENDING_PAGE
        outAddrs := Function.update b.outAddrs idx out
        nounces := Function.update b.nounces idx ((slots.nounce f).forPage i w.counter) } with hs₁
  have hself : (s₁.frontends f).isRead = true ∧ (s₁.frontends f).pageStates idx = .PENDING_PAGE ∧
      (s₁.frontends f).outAddrs idx = out ∧
      (s₁.frontends f).nounces idx = (slots.nounce f).forPage i w.counter ∧
      (s₁.frontends f).jobCounter = (s.frontends f).jobCounter := by
    rw [hs₁, update_self]
    exact ⟨hr, Function.update_self .., Function.update_self .., Function.update_self .., rfl⟩
  have hmod₁ : ∀ g, (s₁.frontends g).modified = (s.frontends g).modified := fun g =>
    update_keeps BatchFrontend.modified f g s rfl
  -- the queue may be flushed first; the entry of this read stays as it is
  obtain ⟨s₂, hs₂, h₂, hself₂, hjob₂, hmod₂⟩ : ∃ s₂, s₁.backendReadLazy
        ⟨f, idx, slots.offset f i, slots.sizeOfT f⟩ =
          { s₂ with readChunks := s₂.readChunks ++ [⟨f, idx, slots.offset f i, slots.sizeOfT f⟩] } ∧
      Inv slots (some (f, idx)) s₂
        (l.request out (some ⟨f, (s.frontends f).jobCounter + 1, w.value, false⟩)) ∧
      ((s₂.frontends f).isRead = true ∧ (s₂.frontends f).pageStates idx = .PENDING_PAGE ∧
        (s₂.frontends f).outAddrs idx = out ∧
        (s₂.frontends f).nounces idx = (slots.nounce f).forPage i w.counter) ∧
      (s₂.frontends f).jobCounter = (s₁.frontends f).jobCounter ∧
      ∀ g, (s₂.frontends g).modified = (s₁.frontends g).modified := by
    rw [backendReadLazy]
    dsimp only
    split
    · refine ⟨s₁.backendFlushRead, rfl, h₁.backendFlushRead.1, ?_, ?_⟩
      · obtain ⟨hrings, -, -, -, hentry⟩ := readsDone_foldl s₁.readChunks s₁
        refine ⟨(hrings.isRead f).trans hself.1, ?_, ?_, ?_⟩
        · rcases hentry f idx with ⟨-, ch, hch, hf, hi, -⟩ | ⟨hst, -, -⟩
          · have hp := (h.readChunk ch hch).2.1
            rw [hf, hi, hempty] at hp
            cases hp
          · exact hst.trans hself.2.1
        · exact (congrFun (hrings.outAddrs f) idx).trans hself.2.2.1
        · exact (congrFun (hrings.nounces f) idx).trans hself.2.2.2.1
      · have hfl := h₁.backendFlushRead.2.1
        exact ⟨hfl.jobCounter f, hfl.modified⟩
    · exact ⟨s₁, rfl, h₁, ⟨hself.1, hself.2.1, hself.2.2.1, hself.2.2.2.1⟩, rfl, fun _ => rfl⟩
  have hwritten := h₂.written f i w hw
  have hdata : s₂.data (slots.offset f i) = some (slots.enc f i w) := by
    rw [← hwritten.2]
    refine (h₂.settled_eq hwritten.1 fun ch hch hf => ?_).symm
    have hw := (h₂.writeChunk ch hch).1
    rw [hf, hself₂.1] at hw
    cases hw
  have h₃ := h₂.queueRead hself₂.1 hself₂.2.1 hwritten.1 (slots.sizeOfT f) fun r hreq => by
    rw [hself₂.2.2.1, Ledger.request_self] at hreq
    obtain rfl := Option.some.inj hreq
    rw [hdata, hself₂.2.2.2]
    rfl
  rw [← hs₂] at h₃
  have hfront : ∀ g, (s₁.backendReadLazy ⟨f, idx, slots.offset f i, slots.sizeOfT f⟩).frontends g =
      s₂.frontends g := fun g => by rw [hs₂]
  refine ⟨h₃.advance f, ?_, ?_, fun g => ?_⟩
  · rw [World.requestRead, advance_jobCounter, hfront, hjob₂, hself.2.2.2.2]
  · rw [World.requestRead, advance_isRead, hfront, hself₂.1]
  · rw [World.requestRead, advance_modified, hfront]
    exact (hmod₂ g).trans (hmod₁ g)

omit [DecidableEq A] in
/-- An empty entry takes a write, which the backend does not have yet. -/
theorem Inv.placeWrite (h : Inv slots none s l) (hr : (s.frontends f).isRead = false)
    {idx : Fin bufferCapacity} (hempty : (s.frontends f).pageStates idx = .EMPTY_PAGE)
    (enc : FreshEncrypted T) :
    Inv slots (some (f, idx)) (s.update f fun b =>
      { b with
        pageStates := Function.update b.pageStates idx .PENDING_PAGE
        encs := Function.update b.encs idx (some enc) }) l := by
  set s₁ := s.update f fun b =>
      { b with
        pageStates := Function.update b.pageStates idx .PENDING_PAGE
        encs := Function.update b.encs idx (some enc) } with hs₁
  have hother : ∀ g, g ≠ f → s₁.frontends g = s.frontends g := fun g hg => update_of_ne hg ..
  have hisRead : ∀ g, (s₁.frontends g).isRead = (s.frontends g).isRead := fun g =>
    update_keeps BatchFrontend.isRead f g s rfl
  have hread : ∀ g, (s₁.frontends g).isRead = true → g ≠ f := by
    rintro g hr' rfl
    rw [hisRead, hr] at hr'
    cases hr'
  have hstate : ∀ g i, ¬ (g = f ∧ i = idx) →
      (s₁.frontends g).pageStates i = (s.frontends g).pageStates i := fun g i hne => by
    by_cases hg : g = f
    · subst hg
      rw [hs₁, update_self]
      exact Function.update_of_ne (fun h => hne ⟨rfl, h⟩) ..
    · rw [hother g hg]
  have hused : ∀ g i, (s.frontends g).pageStates i ≠ .EMPTY_PAGE → ¬ (g = f ∧ i = idx) := by
    rintro g i hne ⟨rfl, rfl⟩
    exact hne hempty
  constructor
  case readChunk =>
    intro ch hch
    obtain ⟨hr', hp, hoff⟩ := h.readChunk ch hch
    exact ⟨(hisRead _).trans hr', (hstate _ _ (hused _ _ (by rw [hp]; simp))).trans hp, hoff⟩
  case writeChunk =>
    intro ch hch
    obtain ⟨hr', hp, hoff⟩ := h.writeChunk ch hch
    exact ⟨(hisRead _).trans hr', (hstate _ _ (hused _ _ (by rw [hp]; simp))).trans hp, hoff⟩
  case pendingRead =>
    intro g i hr' hp hne
    have hg := hread g hr'
    rw [hother g hg] at hr' hp
    exact h.pendingRead g i hr' hp (by simp)
  case pendingWrite =>
    intro g i hr' hp hne
    have hat : ¬ (g = f ∧ i = idx) := by
      rintro ⟨rfl, rfl⟩
      exact hne rfl
    rw [hisRead] at hr'
    rw [hstate g i hat] at hp
    exact h.pendingWrite g i hr' hp (by simp)
  case outstanding =>
    intro g i hr' hne
    have hg := hread g hr'
    rw [hother g hg] at hr' hne ⊢
    exact h.outstanding g i hr' hne
  case distinct =>
    intro g i j hr'
    have hg := hread g hr'
    rw [hother g hg] at hr' ⊢
    exact h.distinct g i j hr'
  case answered =>
    intro out r hreq
    rcases h.answered out r hreq with hval | ⟨i, hr', hne, heq⟩
    · exact .inl hval
    · have hg : r.frontend ≠ f := by
        rintro hf
        rw [hf, hr] at hr'
        cases hr'
      refine .inr ⟨i, ?_⟩
      rw [hother _ hg]
      exact ⟨hr', hne, heq⟩
  case counters =>
    intro g hr'
    have hg := hread g hr'
    rw [hother g hg] at hr' ⊢
    exact h.counters g hr'
  case written => exact h.written
  case flushed => exact h.flushed

omit [DecidableEq A] in
/-- The backend gets the write, and the ledger is updated. -/
theorem Inv.queueWrite {idx : Fin bufferCapacity} (h : Inv slots (some (f, idx)) s l)
    (hr : (s.frontends f).isRead = false) (hp : (s.frontends f).pageStates idx = .PENDING_PAGE)
    {i : Nat} (hi : i < slots.numPage f) (size : Nat) {w : LastWrite T} (hw : w.flushed = false) :
    Inv slots none { s with
      writeChunks := s.writeChunks ++ [⟨f, idx, slots.offset f i, size, slots.enc f i w⟩] }
      (l.write f i w) where
  readChunk := h.readChunk
  writeChunk ch hch := by
    rcases List.mem_append.1 hch with hch | hch
    · exact h.writeChunk ch hch
    · obtain rfl := List.mem_singleton.1 hch
      exact ⟨hr, hp, i, hi, rfl⟩
  pendingRead g j hr' hp' _ := by
    refine h.pendingRead g j hr' hp' fun heq => ?_
    obtain ⟨rfl, rfl⟩ := Prod.mk.inj (Option.some.inj heq)
    rw [hr] at hr'
    cases hr'
  pendingWrite g j hr' hp' _ := by
    by_cases hat : g = f ∧ j = idx
    · exact ⟨_, List.mem_append_right _ (List.mem_singleton_self _), hat.1.symm, hat.2.symm⟩
    · obtain ⟨ch, hch, hat'⟩ := h.pendingWrite g j hr' hp' fun heq => hat (by
        obtain ⟨rfl, rfl⟩ := Prod.mk.inj (Option.some.inj heq)
        exact ⟨rfl, rfl⟩)
      exact ⟨ch, List.mem_append_left _ hch, hat'⟩
  outstanding := h.outstanding
  distinct := h.distinct
  answered := h.answered
  counters := h.counters
  written g j w' hw' := by
    rw [settled, List.foldl_append, List.foldl_cons, List.foldl_nil]
    by_cases hat : g = f ∧ j = i
    · obtain ⟨rfl, rfl⟩ := hat
      rw [Ledger.write_self] at hw'
      obtain rfl := Option.some.inj hw'
      exact ⟨hi, Function.update_self ..⟩
    · rw [Ledger.write_of_ne hat] at hw'
      obtain ⟨hj, henc⟩ := h.written g j w' hw'
      refine ⟨hj, ?_⟩
      rw [Function.update_of_ne fun heq => hat (slots.offset_inj hj hi heq)]
      exact henc
  flushed g j w' hw' hfl := by
    by_cases hat : g = f ∧ j = i
    · obtain ⟨rfl, rfl⟩ := hat
      rw [Ledger.write_self] at hw'
      obtain rfl := Option.some.inj hw'
      rw [hw] at hfl
      cases hfl
    · rw [Ledger.write_of_ne hat] at hw'
      exact h.flushed g j w' hw' hfl

omit [DecidableEq A] in
/-- **The request of a write.** -/
theorem Inv.requestWrite (h : Inv slots none s l) (hr : (s.frontends f).isRead = false)
    (hempty : (s.frontends f).pageStates (s.frontends f).bufferIdx = .EMPTY_PAGE) {i : Nat}
    (hi : i < slots.numPage f) (x : T) (counter : Nat) :
    Inv slots none (s.requestWrite slots f i x counter) (l.write f i ⟨x, counter, false⟩) ∧
      ∀ g, ((s.requestWrite slots f i x counter).frontends g).modified =
        (s.frontends g).modified := by
  set idx := (s.frontends f).bufferIdx with hidx
  have h₁ := h.placeWrite hr hempty ⟨(slots.nounce f).forPage i counter, x⟩
  set s₁ := s.update f fun b =>
      { b with
        pageStates := Function.update b.pageStates idx .PENDING_PAGE
        encs := Function.update b.encs idx (some ⟨(slots.nounce f).forPage i counter, x⟩) } with hs₁
  have hself : (s₁.frontends f).isRead = false ∧ (s₁.frontends f).pageStates idx =
    .PENDING_PAGE := by
    rw [hs₁, update_self]
    exact ⟨hr, Function.update_self ..⟩
  have hmod₁ : ∀ g, (s₁.frontends g).modified = (s.frontends g).modified := fun g =>
    update_keeps BatchFrontend.modified f g s rfl
  -- the queue may be flushed first; the entry of this write stays as it is
  obtain ⟨s₂, hs₂, h₂, hself₂, hmod₂⟩ : ∃ s₂, s₁.backendWriteLazy
        ⟨f, idx, slots.offset f i, slots.sizeOfT f, ⟨(slots.nounce f).forPage i counter, x⟩⟩ =
          { s₂ with
            writeChunks := s₂.writeChunks ++ [⟨f, idx, slots.offset f i, slots.sizeOfT f,
              ⟨(slots.nounce f).forPage i counter, x⟩⟩] } ∧
      Inv slots (some (f, idx)) s₂ l ∧
      ((s₂.frontends f).isRead = false ∧ (s₂.frontends f).pageStates idx = .PENDING_PAGE) ∧
      ∀ g, (s₂.frontends g).modified = (s₁.frontends g).modified := by
    rw [backendWriteLazy]
    dsimp only
    split
    · refine ⟨s₁.backendFlushWrite, rfl, h₁.backendFlushWrite.1, ?_,
        h₁.backendFlushWrite.2.1.modified⟩
      obtain ⟨hrings, -, -, -, -, hentry⟩ := writesDone_foldl s₁.writeChunks s₁
      refine ⟨(hrings.isRead f).trans hself.1, ?_⟩
      rcases hentry f idx with ⟨-, ch, hch, hf, hi⟩ | ⟨hst, -⟩
      · have hp := (h.writeChunk ch hch).2.1
        rw [hf, hi, hempty] at hp
        cases hp
      · exact hst.trans hself.2
    · exact ⟨s₁, rfl, h₁, hself, fun _ => rfl⟩
  have h₃ := h₂.queueWrite hself₂.1 hself₂.2 hi (slots.sizeOfT f) (w := ⟨x, counter, false⟩) rfl
  rw [Slots.enc, ← hs₂] at h₃
  refine ⟨h₃.advance f, fun g => ?_⟩
  rw [World.requestWrite, advance_modified]
  refine Eq.trans ?_ ((hmod₂ g).trans (hmod₁ g))
  rw [hs₂]

/-! ## Calls -/

omit [DecidableEq A] in
/-- `isRead` is set once there are no requests of the other kind. -/
theorem Inv.setIsRead (h : Inv slots none s l) (hidle : s.Idle f) {isRead : Bool}
    (hle : isRead = true → (s.frontends f).doneCounter ≤ (s.frontends f).jobCounter) :
    Inv slots none (s.setIsRead f isRead) l := h.update_idle hidle rfl hle

omit [DecidableEq A] in
/-- The frontend before its next read: it reads. -/
theorem Inv.toRead (h : Inv slots none s l) {out : A} (hunused : s.Unused out) :
    ∃ s', (if (s.frontends f).isRead then s else s.flushWrite f).setIsRead f true = s' ∧
      Inv slots none s' l ∧ (s'.frontends f).isRead = true ∧ s'.Unused out ∧
      ∀ g, (s'.frontends g).modified = (s.frontends g).modified := by
  refine ⟨_, rfl, ?_⟩
  cases hr : (s.frontends f).isRead with
  | true =>
    rw [if_pos rfl]
    have hsame : s.setIsRead f true = s := by
      have : { s.frontends f with isRead := true } = s.frontends f := by rw [← hr]
      rw [World.setIsRead, World.update, this, Function.update_eq_self]
    rw [hsame]
    exact ⟨h, hr, hunused, fun _ => rfl⟩
  | false =>
    rw [if_neg Bool.false_ne_true]
    obtain ⟨h₁, hfl, hidle, hcount⟩ := h.flushWrite (.inl hr)
    refine ⟨h₁.setIsRead hidle fun _ => hcount.le, ?_, fun g idx hr' hne => ?_, fun g => ?_⟩
    · rw [World.setIsRead, update_self]
    · have hg : g ≠ f := by
        rintro rfl
        rw [World.setIsRead, update_self] at hne
        exact hne (hidle idx)
      rw [World.setIsRead, update_of_ne hg] at hr' hne ⊢
      exact hunused.flushes hfl g idx hr' hne
    · exact (update_keeps BatchFrontend.modified f g _ rfl).trans (hfl.modified g)

/-- **`ReadLazy`** of a page that was last written with this counter. -/
theorem Inv.readLazy (h : Inv slots none s l) {out : A} (hunused : s.Unused out) {i : Nat}
    {w : LastWrite T} (hw : l.lastWrites f i = some w)
    (hmod : slots.lateInit f = true → (s.frontends f).modified i = true) :
    ∃ job s', s.readLazy slots f i out w.counter = some (job, s') ∧
      Inv slots none s' (l.request out (some ⟨f, job, w.value, false⟩)) ∧
      (s'.frontends f).isRead = true ∧
      ∀ g, (s'.frontends g).modified = (s.frontends g).modified := by
  have hlate : (slots.lateInit f && !(s.frontends f).modified i) = false := by
    cases hl : slots.lateInit f with
    | false => rfl
    | true => rw [hmod hl]; rfl
  obtain ⟨s₁, hs₁, h₁, hr₁, hunused₁, hmod₁⟩ := h.toRead (f := f) hunused
  obtain ⟨s₂, hrun, h₂, hfl, hempty⟩ := h₁.freeRead hr₁
  obtain ⟨h₃, hjob, hr₃, hmod₃⟩ := h₂.requestRead ((hfl.isRead f).trans hr₁) hempty
    (hunused₁.flushes hfl) hw
  rw [← hjob] at h₃
  refine ⟨_, _, ?_, h₃, hr₃, fun g => ?_⟩
  · rw [World.readLazy, hlate, if_neg Bool.false_ne_true]
    dsimp only
    rw [hs₁, hrun, Option.map_some]
  · rw [hmod₃, hfl.modified, hmod₁]

/-- **`WriteLazy`.** -/
theorem Inv.writeLazy (h : Inv slots none s l) {i : Nat} (hi : i < slots.numPage f) (x : T)
    (counter : Nat) :
    ∃ s', s.writeLazy slots f i x counter = some s' ∧
      Inv slots none s' (l.write f i ⟨x, counter, false⟩) ∧
      ∀ g, (s'.frontends g).modified = if g = f ∧ slots.lateInit f = true then
        Function.update (s.frontends f).modified i true else (s.frontends g).modified := by
  rw [World.writeLazy]
  set s₀ := if slots.lateInit f then
    s.update f fun b => { b with modified := Function.update b.modified i true } else s with hs₀
  have h₀ : Inv slots none s₀ l := by
    rw [hs₀]
    split
    · exact h.update_counters ⟨_, _, _, _, rfl, fun _ => ⟨rfl, Nat.le_refl _⟩⟩
    · exact h
  have hmod₀ : ∀ g, (s₀.frontends g).modified = if g = f ∧ slots.lateInit f = true then
      Function.update (s.frontends f).modified i true else (s.frontends g).modified := fun g => by
    rw [hs₀]
    by_cases hl : slots.lateInit f = true
    · rw [if_pos hl]
      by_cases hg : g = f
      · subst hg
        rw [if_pos ⟨rfl, hl⟩, update_self]
      · rw [if_neg fun h => hg h.1, update_of_ne hg]
    · rw [if_neg hl, if_neg fun h => hl h.2]
  obtain ⟨s₁, hrun, h₁, hr₁, hmod₁⟩ : ∃ s₁, (if (s₀.frontends f).isRead then s₀.flushRead f else
      some s₀).map (World.setIsRead f false) = some s₁ ∧ Inv slots none s₁ l ∧
      (s₁.frontends f).isRead = false ∧ ∀ g, (s₁.frontends g).modified =
        (s₀.frontends g).modified := by
    cases hr : (s₀.frontends f).isRead with
    | true =>
      obtain ⟨s₁, hrun, h₁, hfl, hidle, -⟩ := h₀.flushRead (.inl hr)
      refine ⟨_, by rw [if_pos rfl, hrun, Option.map_some], h₁.setIsRead hidle (by simp), ?_,
        fun g => ?_⟩
      · rw [World.setIsRead, update_self]
      · exact (update_keeps BatchFrontend.modified f g _ rfl).trans (hfl.modified g)
    | false =>
      have hsame : s₀.setIsRead f false = s₀ := by
        have : { s₀.frontends f with isRead := false } = s₀.frontends f := by rw [← hr]
        rw [World.setIsRead, World.update, this, Function.update_eq_self]
      exact ⟨s₀, by rw [if_neg Bool.false_ne_true, Option.map_some, hsame], h₀, hr, fun _ => rfl⟩
  obtain ⟨h₂, hfl₂, hempty⟩ := h₁.freeWrite hr₁
  obtain ⟨h₃, hmod₃⟩ := h₂.requestWrite ((hfl₂.isRead f).trans hr₁) hempty hi x counter
  refine ⟨_, ?_, h₃, fun g => ?_⟩
  · obtain ⟨s', hs', rfl⟩ := Option.map_eq_some_iff.1 hrun
    rw [hs', Option.map_some]
  · rw [hmod₃, hfl₂.modified, hmod₁, hmod₀]

omit [DecidableEq A] [DecidableEq F] in
/-- A read that is done or flushed has given its value. -/
theorem Inv.mem_eq (h : Inv slots none s l) {out : A} {r : Request F T}
    (hreq : l.requests out = some r) (hdone : s.isJobDone r.frontend r.job = true ∨
      r.flushed = true) :
    s.mem out = r.value ∧ s.Unused out := by
  have hunused : s.Unused out := by
    rintro g idx hr hne rfl
    obtain ⟨job, x, hreq', hlt, -, -⟩ := h.outstanding g idx hr hne
    obtain rfl := Option.some.inj (hreq.symm.trans hreq')
    rcases hdone with hdone | hdone
    · exact absurd (of_decide_eq_true hdone) (Nat.not_le.2 hlt)
    · cases hdone
  refine ⟨?_, hunused⟩
  rcases h.answered out r hreq with hval | ⟨idx, hr, hne, heq⟩
  · exact hval
  · exact absurd heq (hunused _ idx hr hne)

omit [DecidableEq F] in
/-- A read into an output that no read in the rings has, which is answered at once. -/
theorem Inv.answer (h : Inv slots none s l) {out : A} (hunused : s.Unused out) (r : Request F T) :
    Inv slots none { s with mem := Function.update s.mem out r.value }
    (l.request out (some r)) where
  readChunk := h.readChunk
  writeChunk := h.writeChunk
  pendingRead := h.pendingRead
  pendingWrite := h.pendingWrite
  outstanding g idx hr hne := by
    obtain ⟨job, x, hreq, hrest⟩ := h.outstanding g idx hr hne
    exact ⟨job, x, by rw [Ledger.request_of_ne (hunused g idx hr hne)]; exact hreq, hrest⟩
  distinct := h.distinct
  answered out' r' hreq := by
    by_cases hout : out' = out
    · subst hout
      rw [Ledger.request_self] at hreq
      obtain rfl := Option.some.inj hreq
      exact .inl (Function.update_self ..)
    · rw [Ledger.request_of_ne hout] at hreq
      refine (h.answered out' r' hreq).imp (fun hval => ?_) id
      exact (Function.update_of_ne hout ..).trans hval
  counters := h.counters
  written := h.written
  flushed := h.flushed

end EM.World

/-! ## Runs -/

namespace EM

/-- A call of one of the frontends. -/
inductive BatchOp (F A T : Type)
  | readLazy (f : F) (i : Nat) (out : A) (counter : Nat)
  | writeLazy (f : F) (i : Nat) (x : T) (counter : Nat)
  | flushRead (f : F)
  | flushWrite (f : F)

/-- The process and what has been asked of it. -/
structure Session (F A T : Type) where
  world : World F A T
  ledger : Ledger F A T

variable {F A T : Type} [DecidableEq F] [DecidableEq A]

/-- The reads of a frontend are flushed. -/
def Ledger.flushReads (f : F) (l : Ledger F A T) : Ledger F A T :=
  { l with
    requests := fun out => (l.requests out).map fun r =>
      if r.frontend = f then { r with flushed := true } else r }

/-- The writes of a frontend are flushed. -/
def Ledger.flushWrites (f : F) (l : Ledger F A T) : Ledger F A T :=
  { l with
    lastWrites := fun g i => (l.lastWrites g i).map fun w =>
      if g = f then { w with flushed := true } else w }

namespace BatchOp

variable (slots : Slots F T)

def run : BatchOp F A T → Session F A T → Option (Session F A T)
  | .readLazy f i out counter, ⟨s, l⟩ =>
    (s.readLazy slots f i out counter).map fun (job, s) =>
      ⟨s, l.request out ((l.expected slots f i counter).map fun x => ⟨f, job, x, false⟩)⟩
  | .writeLazy f i x counter, ⟨s, l⟩ =>
    (s.writeLazy slots f i x counter).map fun s => ⟨s, l.write f i ⟨x, counter, false⟩⟩
  | .flushRead f, ⟨s, l⟩ => (s.flushRead f).map fun s => ⟨s, l.flushReads f⟩
  | .flushWrite f, ⟨s, l⟩ => some ⟨s.flushWrite f, l.flushWrites f⟩

/-- What the callers see to: a read has the counter of the last write to its page (or the page was
never written, with `LATE_INIT`), and its output is not that of a read that is not known to be
done. -/
def Admissible : BatchOp F A T → Session F A T → Prop
  | .readLazy f i out counter, ⟨s, l⟩ =>
    i < slots.numPage f ∧ (l.expected slots f i counter).isSome = true ∧
      ∀ r ∈ l.requests out, s.isJobDone r.frontend r.job = true ∨ r.flushed = true
  | .writeLazy f i _ _, _ => i < slots.numPage f
  | .flushRead _, _ => True
  | .flushWrite _, _ => True

/-- A flush is for the kind of requests that the frontend has, if it has any. -/
def Matched : BatchOp F A T → Session F A T → Prop
  | .readLazy .., _ => True
  | .writeLazy .., _ => True
  | .flushRead f, ⟨s, _⟩ => (s.frontends f).isRead = true ∨ s.Idle f
  | .flushWrite f, ⟨s, _⟩ => (s.frontends f).isRead = false ∨ s.Idle f

end BatchOp

variable (slots : Slots F T)

/-- The session after some calls. -/
def runOps : List (BatchOp F A T) → Session F A T → Option (Session F A T)
  | [], σ => some σ
  | op :: ops, σ => (op.run slots σ).bind (runOps ops)

/-- Every call of the run satisfies `P` when it is made. -/
def Along (P : BatchOp F A T → Session F A T → Prop) : List (BatchOp F A T) → Session F A T → Prop
  | [], _ => True
  | op :: ops, σ => P op σ ∧ ∀ σ' ∈ op.run slots σ, Along P ops σ'

/-- A process in which no request has been made yet. Pages may have been written before. -/
structure Session.Start (σ : Session F A T) : Prop where
  idle : ∀ f, σ.world.Idle f
  isRead : ∀ f, (σ.world.frontends f).isRead = false
  readChunks : σ.world.readChunks = []
  writeChunks : σ.world.writeChunks = []
  requests : ∀ out, σ.ledger.requests out = none
  written : ∀ f i w, σ.ledger.lastWrites f i = some w →
    i < slots.numPage f ∧ σ.world.data (slots.offset f i) = some (slots.enc f i w)
  modified : ∀ f i, slots.lateInit f = true →
    ((σ.world.frontends f).modified i = true ↔ (σ.ledger.lastWrites f i).isSome = true)

/-- What the frontends promise: a read that is done, or that was flushed, has given the value of its
page, and a write that was flushed is in the backend. -/
structure Session.Correct (σ : Session F A T) : Prop where
  reads : ∀ out r, σ.ledger.requests out = some r →
    σ.world.isJobDone r.frontend r.job = true ∨ r.flushed = true → σ.world.mem out = r.value
  writes : ∀ f i w, σ.ledger.lastWrites f i = some w → w.flushed = true →
    σ.world.data (slots.offset f i) = some (slots.enc f i w)

/-- The invariant of a session. -/
structure Session.Inv (σ : Session F A T) : Prop where
  world : World.Inv slots none σ.world σ.ledger
  modified : ∀ f i, slots.lateInit f = true →
    ((σ.world.frontends f).modified i = true ↔ (σ.ledger.lastWrites f i).isSome = true)

variable {slots} {σ : Session F A T}

omit [DecidableEq F] [DecidableEq A] in
theorem Session.Start.inv (h : σ.Start slots) : σ.Inv slots where
  world :=
    { readChunk := fun ch hch => by
        rw [h.readChunks] at hch
        cases hch
      writeChunk := fun ch hch => by
        rw [h.writeChunks] at hch
        cases hch
      pendingRead := fun f idx hr => by
        rw [h.isRead] at hr
        cases hr
      pendingWrite := fun f idx _ hp => by
        rw [h.idle f idx] at hp
        cases hp
      outstanding := fun f idx hr => by
        rw [h.isRead] at hr
        cases hr
      distinct := fun f idx idx' hr => by
        rw [h.isRead] at hr
        cases hr
      answered := fun out r hreq => by
        rw [h.requests] at hreq
        cases hreq
      counters := fun f hr => by
        rw [h.isRead] at hr
        cases hr
      written := fun f i w hw => by
        rw [World.settled, h.writeChunks]
        exact h.written f i w hw
      flushed := fun f i w hw _ => (h.written f i w hw).2 }
  modified := h.modified

omit [DecidableEq F] [DecidableEq A] in
theorem Session.Inv.correct (h : σ.Inv slots) : σ.Correct slots where
  reads _ _ hreq hdone := (h.world.mem_eq hreq hdone).1
  writes := h.world.flushed

omit [DecidableEq A] in
/-- The reads of a frontend without requests are all answered. -/
theorem World.Inv.flushReads {s : World F A T} {l : Ledger F A T}
    (h : World.Inv slots none s l) {f : F}
    (hidle : s.Idle f) : World.Inv slots none s (l.flushReads f) where
  readChunk := h.readChunk
  writeChunk := h.writeChunk
  pendingRead := h.pendingRead
  pendingWrite := h.pendingWrite
  outstanding g idx hr hne := by
    obtain ⟨job, x, hreq, hrest⟩ := h.outstanding g idx hr hne
    have hg : g ≠ f := by
      rintro rfl
      exact hne (hidle idx)
    refine ⟨job, x, ?_, hrest⟩
    simp [Ledger.flushReads, hreq, hg]
  distinct := h.distinct
  answered out r hreq := by
    obtain ⟨r', hreq', rfl⟩ := Option.map_eq_some_iff.1 hreq
    have hans := h.answered out r' hreq'
    split
    · exact hans
    · exact hans
  counters := h.counters
  written := h.written
  flushed := h.flushed

omit [DecidableEq A] in
/-- The writes of a frontend without requests are all in the backend. -/
theorem World.Inv.flushWrites {s : World F A T} {l : Ledger F A T}
    (h : World.Inv slots none s l) {f : F}
    (hidle : s.Idle f) : World.Inv slots none s (l.flushWrites f) where
  readChunk := h.readChunk
  writeChunk := h.writeChunk
  pendingRead := h.pendingRead
  pendingWrite := h.pendingWrite
  outstanding := h.outstanding
  distinct := h.distinct
  answered := h.answered
  counters := h.counters
  written g i w hw := by
    obtain ⟨w', hw', rfl⟩ := Option.map_eq_some_iff.1 hw
    have hwritten := h.written g i w' hw'
    split
    · exact hwritten
    · exact hwritten
  flushed g i w hw hfl := by
    obtain ⟨w', hw', rfl⟩ := Option.map_eq_some_iff.1 hw
    by_cases hg : g = f
    · subst hg
      rw [if_pos rfl]
      obtain ⟨hi, henc⟩ := h.written g i w' hw'
      rw [← h.settled_eq hi]
      · exact henc
      · intro ch hch hf
        have hp := (h.writeChunk ch hch).2.1
        rw [hf, hidle] at hp
        cases hp
    · rw [if_neg hg] at hfl ⊢
      exact h.flushed g i w' hw' hfl

/-- **One call** that the callers see to, and that is matched, does not abort and keeps the
invariant. -/
theorem Session.Inv.step (h : σ.Inv slots) {op : BatchOp F A T} (hadm : op.Admissible slots σ)
    (hmatch : op.Matched σ) : ∃ σ', op.run slots σ = some σ' ∧ σ'.Inv slots := by
  obtain ⟨s, l⟩ := σ
  cases op with
  | readLazy f i out counter =>
    obtain ⟨hi, hexp, hout⟩ := hadm
    have hunused : s.Unused out := by
      cases hreq : l.requests out with
      | none =>
        rintro g idx hr hne rfl
        obtain ⟨job, x, hreq', -⟩ := h.world.outstanding g idx hr hne
        cases hreq.symm.trans hreq'
      | some r => exact (h.world.mem_eq hreq (hout r hreq)).2
    cases hw : l.lastWrites f i with
    | some w =>
      have hcounter : w.counter = counter := by
        by_contra hne
        simp [Ledger.expected, hw, hne] at hexp
      subst hcounter
      obtain ⟨job, s', hrun, h', -, hmod⟩ := h.world.readLazy hunused hw fun hl =>
        (h.modified f i hl).2 (by rw [hw]; rfl)
      refine ⟨_, by rw [BatchOp.run, hrun, Option.map_some], ?_, fun g j hl => ?_⟩
      · simpa [Ledger.expected, hw] using h'
      · rw [hmod]
        exact h.modified g j hl
    | none =>
      have hlate : slots.lateInit f = true := by
        by_contra hl
        simp [Ledger.expected, hw, hl] at hexp
      have hmod : (s.frontends f).modified i = false := by
        have hiff := h.modified f i hlate
        rw [hw] at hiff
        simpa using hiff
      have hrun : s.readLazy slots f i out counter = some ((s.frontends f).doneCounter,
          { s with mem := Function.update s.mem out (slots.defaultVal f) }) := by
        rw [World.readLazy, hlate, hmod]
        rfl
      have h' := h.world.answer hunused ⟨f, (s.frontends f).doneCounter, slots.defaultVal f, false⟩
      refine ⟨⟨{ s with mem := Function.update s.mem out (slots.defaultVal f) }, l.request out
        (some ⟨f, (s.frontends f).doneCounter, slots.defaultVal f, false⟩)⟩, ?_, h', h.modified⟩
      rw [BatchOp.run, hrun, Option.map_some]
      simp [Ledger.expected, hw, hlate]
  | writeLazy f i x counter =>
    obtain ⟨s', hrun, h', hmod⟩ := h.world.writeLazy hadm x counter
    refine ⟨_, by rw [BatchOp.run, hrun, Option.map_some], h', fun g j hl => ?_⟩
    dsimp only
    rw [hmod]
    by_cases hat : g = f ∧ j = i
    · obtain ⟨rfl, rfl⟩ := hat
      rw [if_pos ⟨rfl, hl⟩, Function.update_self, Ledger.write_self]
      simp
    · rw [Ledger.write_of_ne hat, ← h.modified g j hl]
      by_cases hg : g = f
      · subst hg
        rw [if_pos ⟨rfl, hl⟩, Function.update_of_ne fun hj => hat ⟨rfl, hj⟩]
      · rw [if_neg fun h => hg h.1]
  | flushRead f =>
    obtain ⟨s', hrun, h', hfl, hidle, -⟩ := h.world.flushRead hmatch
    refine ⟨_, by rw [BatchOp.run, hrun, Option.map_some], h'.flushReads hidle, fun g j hl => ?_⟩
    dsimp only
    rw [hfl.modified]
    exact h.modified g j hl
  | flushWrite f =>
    have hs : World.Inv slots none s l := h.world
    obtain ⟨h', hfl, hidle, -⟩ := hs.flushWrite hmatch
    refine ⟨⟨s.flushWrite f, l.flushWrites f⟩, by rw [BatchOp.run], h'.flushWrites hidle,
      fun g j hl => ?_⟩
    rw [Ledger.flushWrites, hfl.modified g, Option.isSome_map]
    exact h.modified g j hl

/-- **Runs**: in every run that the callers see to, and in which every flush is for the kind of
requests that its frontend has, no call aborts, and afterwards reads and writes are as promised. -/
theorem Session.Inv.runOps (h : σ.Inv slots) {ops : List (BatchOp F A T)}
    (hops : Along slots (fun op σ => op.Admissible slots σ ∧ op.Matched σ) ops σ) :
    ∃ σ', runOps slots ops σ = some σ' ∧ σ'.Inv slots := by
  induction ops generalizing σ with
  | nil => exact ⟨σ, rfl, h⟩
  | cons op ops ih =>
    obtain ⟨⟨hadm, hmatch⟩, hrest⟩ := hops
    obtain ⟨σ₁, hrun, h₁⟩ := h.step hadm hmatch
    obtain ⟨σ₂, hrun₂, h₂⟩ := ih h₁ (hrest σ₁ hrun)
    exact ⟨σ₂, by rw [EM.runOps, hrun, Option.bind_some, hrun₂], h₂⟩

/-- **The batching frontends refine the direct one** in every run that the callers see to and in
which no frontend is flushed for the kind of requests that it does not have. -/
theorem runOps_correct (hstart : σ.Start slots) {ops : List (BatchOp F A T)}
    (hops : Along slots (fun op σ => op.Admissible slots σ ∧ op.Matched σ) ops σ) :
    ∃ σ', runOps slots ops σ = some σ' ∧ σ'.Correct slots := by
  obtain ⟨σ', hrun, h'⟩ := hstart.inv.runOps hops
  exact ⟨σ', hrun, h'.correct⟩

/-! ## Two frontends -/

instance (op : BatchOp F A T) (σ : Session F A T) : Decidable (op.Admissible slots σ) :=
  match op with
  | .readLazy .. => inferInstanceAs (Decidable (_ ∧ _ ∧ _))
  | .writeLazy .. => inferInstanceAs (Decidable (_ < _))
  | .flushRead _ => inferInstanceAs (Decidable True)
  | .flushWrite _ => inferInstanceAs (Decidable True)

omit [DecidableEq F] [DecidableEq A] in
instance (f : F) (s : World F A T) : Decidable (s.Idle f) :=
  inferInstanceAs (Decidable (∀ _, _))

instance (op : BatchOp F A T) (σ : Session F A T) : Decidable (op.Matched σ) :=
  match op with
  | .readLazy .. => inferInstanceAs (Decidable True)
  | .writeLazy .. => inferInstanceAs (Decidable True)
  | .flushRead _ => inferInstanceAs (Decidable (_ ∨ _))
  | .flushWrite _ => inferInstanceAs (Decidable (_ ∨ _))

instance decidableAlong (P : BatchOp F A T → Session F A T → Prop) [∀ op σ, Decidable (P op σ)] :
    (ops : List (BatchOp F A T)) → (σ : Session F A T) → Decidable (Along slots P ops σ)
  | [], _ => inferInstanceAs (Decidable True)
  | _ :: ops, _ =>
    have := decidableAlong P ops
    inferInstanceAs (Decidable (_ ∧ ∀ _ ∈ _, _))

/-- Two frontends with two pages each. -/
def twoSlots : Slots Bool Nat where
  nounce f := if f then ⟨1, 1⟩ else ⟨2, 2⟩
  lateInit _ := false
  defaultVal _ := 0
  base f := if f then 8 else 0
  sizeOfT _ := 4
  numPage _ := 2
  sizeOfT_pos _ := by decide
  sizeOfT_le _ := by decide
  disjoint := by decide

/-- Nothing has been read or written yet. -/
def twoFrontends : Session Bool Nat Nat where
  world :=
    { frontends := fun _ => ⟨fun _ => false, false, 0, 0, 0, fun _ => none, fun _ =>
      0, fun _ => ⟨0, 0⟩,
        fun _ => .EMPTY_PAGE⟩
      data := fun _ => none
      readChunks := []
      writeChunks := []
      mem := fun _ => 0 }
  ledger := ⟨fun _ _ => none, fun _ => none⟩

theorem twoFrontends_start : twoFrontends.Start twoSlots where
  idle _ _ := rfl
  isRead _ := rfl
  readChunks := rfl
  writeChunks := rfl
  requests _ := rfl
  written _ _ _ hw := by cases hw
  modified _ _ hl := by cases hl

/-- Each frontend writes a page and reads it; the flush of one completes the read of the other. -/
def twoReads : List (BatchOp Bool Nat Nat) :=
  [.writeLazy true 0 7 0, .writeLazy false 0 8 0, .readLazy true 0 0 0, .readLazy false 0 1 0,
    .flushRead false]

theorem runOps_correct_two :
    ∃ σ', runOps twoSlots (twoReads ++ [.flushRead true]) twoFrontends = some σ' ∧
      σ'.Correct twoSlots :=
  runOps_correct twoFrontends_start (by decide +kernel)

/-- The read of the first frontend is done when it is flushed for writing: it is dropped, and
counted as done. -/
theorem runOps_lost_read :
    Along twoSlots (fun op σ => op.Admissible twoSlots σ) (twoReads ++ [.flushWrite true])
    twoFrontends ∧
      ∃ σ', runOps twoSlots (twoReads ++ [.flushWrite true]) twoFrontends = some σ' ∧
        ¬ σ'.Correct twoSlots := by
  refine ⟨by decide +kernel, ?_⟩
  have hlost : ((runOps twoSlots (twoReads ++ [.flushWrite true]) twoFrontends).map fun σ =>
      ((σ.ledger.requests 0).map fun r => (r.frontend, r.job, r.value), σ.world.isJobDone true 2,
        σ.world.mem 0)) = some (some (true, 2, 7), true, 0) := by
    decide +kernel
  obtain ⟨σ', hrun, hσ'⟩ := Option.map_eq_some_iff.1 hlost
  refine ⟨σ', hrun, fun hcorrect => ?_⟩
  obtain ⟨hreq, hdone, hmem⟩ := Prod.mk.inj hσ' |>.imp id Prod.mk.inj
  obtain ⟨r, hr, heq⟩ := Option.map_eq_some_iff.1 hreq
  obtain ⟨hf, hjob, hval⟩ := Prod.mk.inj heq |>.imp id Prod.mk.inj
  have hread := hcorrect.reads 0 r hr (.inl (by rw [hf, hjob]; exact hdone))
  rw [hmem, hval] at hread
  cases hread

end EM
