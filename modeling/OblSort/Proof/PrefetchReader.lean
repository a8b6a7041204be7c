import OblSort.PrefetchReader
import OblSort.Server.Proof.BatchRuns
import OblSort.Proof.ReaderWriter

/-!
# Prefetching readers side by side

What the readers of a vector rely on is in the ledger of the batching frontend: a buffer is
`Requested` with the page that it will hold, and `Ready` once that read is known to be done. A call
of one reader keeps the buffers of the others (`Keeps`). `PrefetchInv` and `LazyInv` say which pages
are in the buffers of a reader, so that every `get` returns the element at the position of the
reader.
-/

namespace EM.NonCachedVector

open Paged

variable {F K : Type} [DecidableEq F] [DecidableEq K] {n : Nat} {α : Type}

/-! ## Buffers in the ledger -/

section Ledger

variable {A T : Type} {f : F} {l l₁ l₂ l₃ : Ledger F A T} {P Q : A → Prop} {out : A}

/-- The last read with this output address has this number, and is to give `x`. -/
def Requested (f : F) (l : Ledger F A T) (out : A) (job : Nat) (x : T) : Prop :=
  ∃ flushed, l.requests out = some ⟨f, job, x, flushed⟩

/-- The last read with this output address is known to have given `x`. -/
def Ready (f : F) (l : Ledger F A T) (out : A) (x : T) : Prop :=
  ∃ job, l.requests out = some ⟨f, job, x, true⟩

/-- No read with this output address is outstanding. -/
def Free (l : Ledger F A T) (out : A) : Prop := ∀ r, l.requests out = some r → r.flushed = true

/-- The pages and the reads outside of the addresses `P` are the same, some more of the reads are
known to be done. -/
structure Keeps (P : A → Prop) (l l' : Ledger F A T) : Prop where
  lastWrites : l'.lastWrites = l.lastWrites
  requests : ∀ out, ¬ P out → l'.requests out = l.requests out ∨
    l'.requests out = (l.requests out).map fun r => { r with flushed := true }

omit [DecidableEq F] in
theorem Keeps.refl (P : A → Prop) (l : Ledger F A T) : Keeps P l l := ⟨rfl, fun _ _ => .inl rfl⟩

omit [DecidableEq F] in
theorem Keeps.trans (h : Keeps P l₁ l₂) (h' : Keeps P l₂ l₃) : Keeps P l₁ l₃ where
  lastWrites := h'.lastWrites.trans h.lastWrites
  requests out hout := by
    rcases h'.requests out hout with h2 | h2 <;> rcases h.requests out hout with h1 | h1
    · exact .inl (h2.trans h1)
    · exact .inr (h2.trans h1)
    · exact .inr (by rw [h2, h1])
    · refine .inr (by rw [h2, h1, Option.map_map]; rfl)

omit [DecidableEq F] in
theorem Keeps.mono (h : Keeps P l₁ l₂) (hPQ : ∀ out, P out → Q out) : Keeps Q l₁ l₂ :=
  ⟨h.lastWrites, fun out hout => h.requests out fun hP => hout (hPQ out hP)⟩

omit [DecidableEq F] in
theorem Keeps.requested (h : Keeps P l₁ l₂) (hout : ¬ P out) {job : Nat} {x : T}
    (hreq : Requested f l₁ out job x) : Requested f l₂ out job x := by
  obtain ⟨fl, hreq⟩ := hreq
  rcases h.requests out hout with heq | heq
  · exact ⟨fl, heq.trans hreq⟩
  · exact ⟨true, by rw [heq, hreq]; rfl⟩

omit [DecidableEq F] in
theorem Keeps.ready (h : Keeps P l₁ l₂) (hout : ¬ P out) {x : T} (hready : Ready f l₁ out x) :
    Ready f l₂ out x := by
  obtain ⟨job, hready⟩ := hready
  rcases h.requests out hout with heq | heq
  · exact ⟨job, heq.trans hready⟩
  · exact ⟨job, by rw [heq, hready]; rfl⟩

omit [DecidableEq F] in
theorem Keeps.free (h : Keeps P l₁ l₂) (hout : ¬ P out) (hfree : Free l₁ out) : Free l₂ out := by
  intro r hr
  rcases h.requests out hout with heq | heq
  · exact hfree r (heq.symm.trans hr)
  · obtain ⟨r', -, rfl⟩ := Option.map_eq_some_iff.1 (heq.symm.trans hr)
    rfl

omit [DecidableEq F] in
theorem Ready.free {x : T} (h : Ready f l out x) : Free l out := by
  obtain ⟨job, h⟩ := h
  intro r hr
  obtain rfl := Option.some.inj (h.symm.trans hr)
  rfl

theorem keeps_flushReads (f : F) (P : A → Prop) (l : Ledger F A T) :
    Keeps P l (l.flushReads f) where
  lastWrites := rfl
  requests out _ := by
    cases hreq : l.requests out with
    | none => exact .inl (by simp [Ledger.flushReads, hreq])
    | some r =>
      by_cases hf : r.frontend = f
      · exact .inr (by simp [Ledger.flushReads, hreq, hf])
      · exact .inl (by simp [Ledger.flushReads, hreq, hf])

/-- After a flush all reads of the frontend are known to be done. -/
theorem Requested.flushReads {job : Nat} {x : T} (h : Requested f l out job x) :
    Ready f (l.flushReads f) out x := by
  obtain ⟨fl, h⟩ := h
  exact ⟨job, by simp [Ledger.flushReads, h]⟩

omit [DecidableEq F] in
theorem keeps_request [DecidableEq A] (l : Ledger F A T) (out : A) (r : Option (Request F T)) :
    Keeps (· = out) l (l.request out r) :=
  ⟨rfl, fun _ hne => .inl (Ledger.request_of_ne hne r l)⟩

end Ledger

variable {slots : Slots F (Page n α)} {f : F} {c N : Nat} {pages : Nat → Page n α}
  {w w' : Disk F K n α} {l l' : Ledger F (K × Nat) (Page n α)} {k : K}

/-- All pages of the vector were last written with the counter `c`. -/
def LastWritten (f : F) (c N : Nat) (pages : Nat → Page n α) (l : Ledger F (K × Nat) (Page n α)) :
    Prop :=
  ∀ p, p * n < N → ∃ flushed, l.lastWrites f p = some ⟨pages p, c, flushed⟩

omit [DecidableEq F] [DecidableEq K] in
theorem LastWritten.keeps {P : K × Nat → Prop} (h : LastWritten f c N pages l) (hl : Keeps P l l') :
    LastWritten f c N pages l' := by
  intro p hp
  rw [hl.lastWrites]
  exact h p hp

/-- **`ReadLazy`** of a page to a free buffer. -/
theorem readLazy_requested (h : Session.Inv slots ⟨w, l⟩) (hpages : LastWritten f c N pages l)
    {p : Nat} (hp : p * n < N) {out : K × Nat} (hfree : Free l out) :
    ∃ job w', w.readLazy slots f p out c = some (job, w') ∧
      Session.Inv slots ⟨w', l.request out (some ⟨f, job, pages p, false⟩)⟩ ∧
      (w'.frontends f).isRead = true := by
  obtain ⟨fl, hlast⟩ := hpages p hp
  have hunused : w.Unused out := by
    cases hreq : l.requests out with
    | none =>
      rintro g idx hr hne rfl
      obtain ⟨job, x, hreq', -⟩ := h.world.outstanding g idx hr hne
      cases hreq.symm.trans hreq'
    | some r => exact (h.world.mem_eq hreq (.inr (hfree r hreq))).2
  have hs : World.Inv slots none w l := h.world
  obtain ⟨job, w', hrun, h', hr', hmod⟩ := hs.readLazy hunused hlast fun hl =>
    (h.modified f p hl).2 (by rw [hlast]; rfl)
  refine ⟨job, w', hrun, ⟨h', fun g i hl => ?_⟩, hr'⟩
  rw [hmod]
  exact h.modified g i hl

/-- **`flushRead`** of the vector's frontend. -/
theorem flushRead_ready (h : Session.Inv slots ⟨w, l⟩) (hr : (w.frontends f).isRead = true) :
    ∃ w', w.flushRead f = some w' ∧ Session.Inv slots ⟨w', l.flushReads f⟩ ∧
      (w'.frontends f).isRead = true := by
  have hs : World.Inv slots none w l := h.world
  obtain ⟨w', hrun, h', hfl, hidle, -⟩ := hs.flushRead (.inl hr)
  refine ⟨w', hrun, ⟨h'.flushReads hidle, fun g i hl => ?_⟩, (hfl.isRead f).trans hr⟩
  rw [hfl.modified]
  exact h.modified g i hl

omit [DecidableEq F] in
/-- A read that `isJobDone` answers for is known to be done. -/
theorem isJobDone_ready (h : Session.Inv slots ⟨w, l⟩) {out : K × Nat} {job : Nat} {x : Page n α}
    (hreq : Requested f l out job x) (hdone : w.isJobDone f job = true) :
    Session.Inv slots ⟨w, l.request out (some ⟨f, job, x, true⟩)⟩ := by
  obtain ⟨fl, hreq⟩ := hreq
  have hs : World.Inv slots none w l := h.world
  obtain ⟨hmem, hunused⟩ := hs.mem_eq hreq (.inl hdone)
  have hans := hs.answer hunused ⟨f, job, x, true⟩
  have hsame : Function.update w.mem out x = w.mem := by
    rw [← show w.mem out = x from hmem, Function.update_eq_self]
  rw [hsame] at hans
  exact ⟨hans, h.modified⟩

omit [DecidableEq F] [DecidableEq K] in
/-- A buffer that is ready holds its page, and no request will write to it. -/
theorem Ready.mem (h : Session.Inv slots ⟨w, l⟩) {out : K × Nat} {x : Page n α}
    (hready : Ready f l out x) : w.mem out = x := by
  obtain ⟨job, hready⟩ := hready
  exact (h.world.mem_eq hready (.inr rfl)).1

/-- **Requests of pages in a row**, to buffers that are free. -/
theorem requestPages_requested (k : K) (count cacheIdx pageIdx : Nat) (jobCounters : Nat → Nat)
    (h : Session.Inv slots ⟨w, l⟩) (hpages : LastWritten f c N pages l)
    (hN : ∀ i < count, (pageIdx + i) * n < N) (hfree : ∀ i < count, Free l (k, cacheIdx + i)) :
    ∃ jobCounters' w' l', requestPages slots f k c count cacheIdx pageIdx jobCounters w =
        some (jobCounters', w') ∧ Session.Inv slots ⟨w', l'⟩ ∧
      Keeps (fun out => out.1 = k ∧ cacheIdx ≤ out.2 ∧ out.2 < cacheIdx + count) l l' ∧
      (∀ i < count, Requested f l' (k, cacheIdx + i) (jobCounters' (cacheIdx + i))
        (pages (pageIdx + i))) ∧
      (∀ j < cacheIdx, jobCounters' j = jobCounters j) ∧
      (0 < count ∨ (w.frontends f).isRead = true → (w'.frontends f).isRead = true) := by
  induction count generalizing cacheIdx pageIdx jobCounters w l with
  | zero =>
    refine ⟨jobCounters, w, l, rfl, h, .refl _ l, fun i hi => by omega, fun _ _ => rfl, ?_⟩
    rintro (hlt | hr)
    · omega
    · exact hr
  | succ count ih =>
    obtain ⟨job, w₁, hread, h₁, hr₁⟩ := readLazy_requested h hpages (hN 0 (Nat.succ_pos _))
      (hfree 0 (Nat.succ_pos _))
    have hkeeps := keeps_request l (k, cacheIdx) (some ⟨f, job, pages pageIdx, false⟩)
    have hnot : ∀ i, ¬ ((k, cacheIdx + 1 + i) = (k, cacheIdx)) := fun i heq => by
      have := congrArg Prod.snd heq
      dsimp only at this
      omega
    obtain ⟨jobs, w₂, l₂, hrun, h₂, hkeeps₂, hreq₂, hjobs, hr₂⟩ :=
      ih (cacheIdx + 1) (pageIdx + 1) (Function.update jobCounters cacheIdx job) h₁
        (hpages.keeps hkeeps)
        (fun i hi => by
          have := hN (i + 1) (by omega)
          rwa [show pageIdx + 1 + i = pageIdx + (i + 1) by omega])
        (fun i hi => hkeeps.free (hnot i) (by
          have := hfree (i + 1) (by omega)
          rwa [show cacheIdx + (i + 1) = cacheIdx + 1 + i by omega] at this))
    have hself : jobs cacheIdx = job := by
      rw [hjobs cacheIdx (Nat.lt_succ_self _), Function.update_self]
    refine ⟨jobs, w₂, l₂, ?_, h₂, ?_, fun i hi => ?_, fun j hj => ?_, fun _ => hr₂ (.inr hr₁)⟩
    · rw [requestPages, show w.readLazy slots f pageIdx (k, cacheIdx) c = _ from hread]
      exact hrun
    · refine (hkeeps.mono ?_).trans (hkeeps₂.mono ?_)
      · rintro out rfl
        exact ⟨rfl, by omega, by omega⟩
      · rintro out ⟨h1, h2, h3⟩
        exact ⟨h1, by omega, by omega⟩
    · cases i with
      | zero =>
        refine hkeeps₂.requested (fun hat => by omega) ⟨false, ?_⟩
        rw [Nat.add_zero, Nat.add_zero, Ledger.request_self, hself]
      | succ i =>
        have := hreq₂ i (by omega)
        rwa [show cacheIdx + 1 + i = cacheIdx + (i + 1) by omega,
          show pageIdx + 1 + i = pageIdx + (i + 1) by omega] at this
    · rw [hjobs j (by omega), Function.update_of_ne (by omega)]

/-- A batch of pages that is requested to the front of a cache and flushed: all its buffers are
ready. -/
theorem requestPages_flushed (k : K) {count : Nat} (pageIdx : Nat) (hpos : 0 < count)
    (jobCounters : Nat → Nat) (h : Session.Inv slots ⟨w, l⟩) (hpages : LastWritten f c N pages l)
    (hN : ∀ i < count, (pageIdx + i) * n < N) (hfree : ∀ i, Free l (k, i)) :
    ∃ jobs w₁ w₂ l', requestPages slots f k c count 0 pageIdx jobCounters w = some (jobs, w₁) ∧
      w₁.flushRead f = some w₂ ∧ Session.Inv slots ⟨w₂, l'⟩ ∧ (w₂.frontends f).isRead = true ∧
      Keeps (fun out => out.1 = k) l l' ∧
      (∀ i < count, Requested f l' (k, i) (jobs i) (pages (pageIdx + i))) ∧
      (∀ i < count, Ready f l' (k, i) (pages (pageIdx + i))) ∧ ∀ i, Free l' (k, i) := by
  obtain ⟨jobs, w₁, l₁, hrun, h₁, hkeeps₁, hreq₁, -, hr₁⟩ :=
    requestPages_requested k count 0 pageIdx jobCounters h hpages hN fun i _ => hfree _
  obtain ⟨w₂, hflush, h₂, hr₂⟩ := flushRead_ready h₁ (hr₁ (.inl hpos))
  have hflushed := keeps_flushReads f (fun _ : K × Nat => False) l₁
  simp only [Nat.zero_add] at hreq₁
  refine ⟨jobs, w₁, w₂, l₁.flushReads f, hrun, hflush, h₂, hr₂,
    (hkeeps₁.mono fun out hout => hout.1).trans (keeps_flushReads f _ l₁),
    fun i hi => hflushed.requested (by simp) (hreq₁ i hi), fun i hi => (hreq₁ i hi).flushReads,
    fun i => ?_⟩
  by_cases hi : i < count
  · exact (hreq₁ i hi).flushReads.free
  · exact hflushed.free (by simp) (hkeeps₁.free (fun hat => hi (by omega)) (hfree i))

/-! ## `PrefetchReader` -/

variable {e : Nat}

/-- The buffers hold the pages from some page on, as far as the range goes. -/
structure PrefetchInv (f : F) (c : Nat) (pages : Nat → Page n α) (e : Nat) (k : K)
    (r : PrefetchReader) (l : Ledger F (K × Nat) (Page n α)) : Prop where
  counter : r.counter = c
  endPtr : r.endPtr = e
  endPageIdx : r.endPageIdx = (e - 1) / n + 1
  it_le : r.it ≤ e
  curr : ∀ ptr, r.curr = some ptr → ∃ first, r.it = first * n + ptr ∧ ptr ≤ bufferCapacity * n ∧
    ∀ j < bufferCapacity, first + j < r.endPageIdx → Ready f l (k, j) (pages (first + j))
  free : ∀ j, Free l (k, j)

omit [DecidableEq F] [DecidableEq K] in
theorem PrefetchInv.keeps {r : PrefetchReader} {P : K × Nat → Prop}
    (h : PrefetchInv f c pages e k r l) (hl : Keeps P l l') (hP : ∀ j, ¬ P (k, j)) :
    PrefetchInv f c pages e k r l' where
  counter := h.counter
  endPtr := h.endPtr
  endPageIdx := h.endPageIdx
  it_le := h.it_le
  curr ptr hptr := by
    obtain ⟨first, hit, hle, hready⟩ := h.curr ptr hptr
    exact ⟨first, hit, hle, fun j hj hlt => hl.ready (hP j) (hready j hj hlt)⟩
  free j := hl.free (hP j) (h.free j)

/-- The page of a position of a range is not past its last one, and is a page of the vector. -/
theorem page_lt_of_it [NeZero n] {i : Nat} (hi : i < e) : i / n < (e - 1) / n + 1 :=
  Nat.lt_succ_of_le (Nat.div_le_div_right (by omega))

theorem mul_lt_of_page {p : Nat} (hp : p < (e - 1) / n + 1) (he : 0 < e) (heN : e ≤ N) :
    p * n < N := by
  have h1 := Nat.mul_le_mul_right n (Nat.le_of_lt_succ hp)
  have h2 := Nat.div_mul_le_self (e - 1) n
  omega

/-- **`PrefetchReader::get`.** -/
theorem PrefetchInv.get [NeZero n] {r : PrefetchReader} (h : PrefetchInv f c pages e k r l)
    (hs : Session.Inv slots ⟨w, l⟩) (hpages : LastWritten f c N pages l) (heN : e ≤ N)
    (hit : r.it < e) :
    ∃ r' w' l' ptr, r.get slots f k w = some (r', w') ∧ Session.Inv slots ⟨w', l'⟩ ∧
      Keeps (fun out => out.1 = k) l l' ∧
      ((w.frontends f).isRead = true → (w'.frontends f).isRead = true) ∧
      PrefetchInv f c pages e k r' l' ∧ r'.it = r.it ∧ r'.curr = some ptr ∧
      ptr < bufferCapacity * n ∧
      ptr % n = r.it % n ∧ Ready f l' (k, ptr / n) (pages (r.it / n)) := by
  have hn := pos_itemPerPage n
  have hpage : r.it / n < r.endPageIdx := by
    rw [h.endPageIdx]
    exact page_lt_of_it hit
  rw [PrefetchReader.get]
  by_cases hall : r.curr.all (bufferCapacity * n ≤ ·) = true
  · -- a new batch of pages
    rw [if_pos hall]
    have hoff : (if r.curr ≠ some (bufferCapacity * n) then r.it % n else 0) = r.it % n := by
      split
      · rfl
      · next hcurr =>
        obtain ⟨first, heq, -, -⟩ := h.curr _ (not_not.1 hcurr)
        rw [heq, ← Nat.add_mul, Nat.mul_mod_left]
    have hcap : bufferCapacity = 16 := rfl
    have hcapn : bufferCapacity * n = 16 * n := rfl
    set count := min (r.it / n + bufferCapacity) r.endPageIdx - r.it / n with hcount
    obtain ⟨jobs, w₁, w₂, l', hrun, hflush, h₂, hr₂, hkeeps, -, hready, hfree⟩ :=
      requestPages_flushed k (r.it / n) (show 0 < count by omega) (fun _ => 0) hs hpages
        (fun i hi => mul_lt_of_page (e := e) (by rw [← h.endPageIdx]; omega) (by omega) heN) h.free
    refine ⟨{ r with curr := some (r.it % n) }, w₂, l', r.it % n, ?_, h₂, hkeeps, fun _ => hr₂,
      ?_, rfl, rfl, ?_, Nat.mod_mod _ _, ?_⟩
    · dsimp only
      rw [hoff, h.counter, ← hcount, hrun, Option.bind_some]
      dsimp only
      rw [hflush, Option.map_some]
    · refine ⟨h.counter, h.endPtr, h.endPageIdx, h.it_le, fun ptr hptr => ?_, hfree⟩
      obtain rfl := Option.some.inj hptr
      have hdiv := Nat.div_add_mod r.it n
      have hmod := Nat.mod_lt r.it hn
      refine ⟨r.it / n,
        by rw [Nat.mul_comm]; exact hdiv.symm, by omega, fun j hj hlt => hready j ?_⟩
      dsimp only at hlt
      omega
    · have hmod := Nat.mod_lt r.it hn
      omega
    · rw [Nat.div_eq_of_lt (Nat.mod_lt r.it hn)]
      exact hready 0 (by omega)
  · -- the page is there
    rw [if_neg hall]
    cases hcurr : r.curr with
    | none =>
      rw [hcurr] at hall
      exact absurd rfl hall
    | some ptr =>
      have hlt : ptr < bufferCapacity * n := by
        rw [hcurr] at hall
        simpa using hall
      obtain ⟨first, heq, -, hready⟩ := h.curr ptr hcurr
      have hdiv : r.it / n = first + ptr / n := by
        rw [heq, Nat.add_comm, Nat.add_mul_div_right _ _ hn, Nat.add_comm]
      have hmod : ptr % n = r.it % n := by rw [heq, Nat.add_comm, Nat.add_mul_mod_self_right]
      refine ⟨r, w, l, ptr, rfl, hs, .refl _ l, id, h, rfl, hcurr, hlt, hmod, ?_⟩
      rw [hdiv]
      exact hready _ (Nat.div_lt_of_lt_mul (by rw [Nat.mul_comm]; exact hlt))
        (by rw [← hdiv]; exact hpage)

/-! ## `LazyPrefetchReader` -/

/-- Pages that are less than the capacity of a ring apart are in different buffers. -/
theorem ring_ne {cap i j : Nat} (hij : i < j) (hj : j < i + cap) : j % cap ≠ i % cap := by
  intro heq
  have hdvd : cap ∣ j - i := Nat.dvd_of_mod_eq_zero (Nat.sub_mod_eq_zero_of_mod_eq heq)
  have := Nat.le_of_dvd (by omega) hdvd
  omega

/-- A reader before `init`. -/
structure LazyNew (n b c e : Nat) (k : K) (r : LazyPrefetchReader)
    (l : Ledger F (K × Nat) (Page n α)) :
    Prop where
  counter : r.counter = c
  endPtr : r.endPtr = e
  endPageIdx : r.endPageIdx = (e - 1) / n + 1
  capacity : 2 ≤ r.cacheCapacity
  it : r.it = b
  curr : r.curr = none
  currPageEnd : r.currPageEnd = none
  free : ∀ j, Free l (k, j)

/-- A reader after `init`, at the offset `off` of page `p`; `first` is the page that its range
begins in. The page `p` is ready, the pages after it are requested as far as the ring and the range
go, and nothing else is. -/
structure LazyInv (f : F) (c : Nat) (pages : Nat → Page n α) (first e : Nat) (k : K)
    (r : LazyPrefetchReader) (w : Disk F K n α) (l : Ledger F (K × Nat) (Page n α)) (p off : Nat) :
    Prop where
  counter : r.counter = c
  endPtr : r.endPtr = e
  endPageIdx : r.endPageIdx = (e - 1) / n + 1
  capacity : 2 ≤ r.cacheCapacity
  isRead : (w.frontends f).isRead = true
  first_le : first ≤ p
  off_le : off ≤ n
  it : r.it = p * n + off
  it_le : r.it ≤ e
  curr : r.curr = some ((p - first) % r.cacheCapacity * n + off)
  currPageEnd : r.currPageEnd = some ((p - first) % r.cacheCapacity * n + n)
  ready : Ready f l (k, (p - first) % r.cacheCapacity) (pages p)
  ahead : ∀ q, p < q → q < p + r.cacheCapacity → q < r.endPageIdx →
    Requested f l (k, (q - first) % r.cacheCapacity) (r.jobCounters ((q - first) % r.cacheCapacity))
      (pages q)
  free : ∀ j, (∀ q, p < q → q < p + r.cacheCapacity → q < r.endPageIdx →
    j ≠ (q - first) % r.cacheCapacity) → Free l (k, j)

omit [DecidableEq F] [DecidableEq K] in
theorem LazyInv.keeps {r : LazyPrefetchReader} {first p off : Nat} {P : K × Nat → Prop}
    (h : LazyInv f c pages first e k r w l p off) (hl : Keeps P l l') (hP : ∀ j, ¬ P (k, j))
    (hr : (w'.frontends f).isRead = true) : LazyInv f c pages first e k r w' l' p off where
  counter := h.counter
  endPtr := h.endPtr
  endPageIdx := h.endPageIdx
  capacity := h.capacity
  isRead := hr
  first_le := h.first_le
  off_le := h.off_le
  it := h.it
  it_le := h.it_le
  curr := h.curr
  currPageEnd := h.currPageEnd
  ready := hl.ready (hP _) h.ready
  ahead q h1 h2 h3 := hl.requested (hP _) (h.ahead q h1 h2 h3)
  free j hj := hl.free (hP j) (h.free j hj)

/-- **`LazyPrefetchReader::init`.** -/
theorem LazyNew.init [NeZero n] {b : Nat} {r : LazyPrefetchReader}
    (h : LazyNew n b c e k r l) (hs : Session.Inv slots ⟨w, l⟩) (hpages : LastWritten f c N pages l)
    (heN : e ≤ N) (hbe : b < e) :
    ∃ r' w' l', r.init slots f k w = some (r', w') ∧ Session.Inv slots ⟨w', l'⟩ ∧
      Keeps (fun out => out.1 = k) l l' ∧ (w'.frontends f).isRead = true ∧
      LazyInv f c pages (b / n) e k r' w' l' (b / n) (b % n) ∧ r'.it = b := by
  have hcap := h.capacity
  have hpage : b / n < r.endPageIdx := by
    rw [h.endPageIdx]
    exact page_lt_of_it hbe
  set count := min r.cacheCapacity (r.endPageIdx - b / n) with hcount
  obtain ⟨jobs, w₁, w₂, l', hrun, hflush, h₂, hr₂, hkeeps, hreq, hready, hfree⟩ :=
    requestPages_flushed k (b / n) (show 0 < count by omega) r.jobCounters hs hpages
      (fun i hi => mul_lt_of_page (e := e) (by rw [← h.endPageIdx]; omega) (by omega) heN) h.free
  refine ⟨{ r with jobCounters := jobs, curr := some (b % n), currPageEnd := some n },
    w₂, l', ?_, h₂, hkeeps, hr₂, ?_, h.it⟩
  · rw [LazyPrefetchReader.init, h.it, h.counter]
    dsimp only
    rw [← hcount, hrun, Option.bind_some]
    dsimp only
    rw [hflush, Option.map_some]
  · have hdiv := Nat.div_add_mod b n
    rw [Nat.mul_comm] at hdiv
    have hmod := Nat.mod_lt b (pos_itemPerPage n)
    refine ⟨h.counter, h.endPtr, h.endPageIdx, hcap, hr₂, Nat.le_refl _, hmod.le, ?_,
      ?_, ?_, ?_, ?_, fun q h1 h2 h3 => ?_, fun j _ => hfree j⟩
    · exact h.it.trans hdiv.symm
    · exact h.it.le.trans hbe.le
    · dsimp only
      rw [Nat.sub_self, Nat.zero_mod, Nat.zero_mul, Nat.zero_add]
    · dsimp only
      rw [Nat.sub_self, Nat.zero_mod, Nat.zero_mul, Nat.zero_add]
    · dsimp only
      rw [Nat.sub_self, Nat.zero_mod]
      exact hready 0 (by omega)
    · dsimp only at h2 h3 ⊢
      rw [Nat.mod_eq_of_lt (by omega)]
      have := hreq (q - b / n) (by omega)
      rwa [Nat.add_sub_cancel' h1.le] at this

/-- The page that the reader moves on to is there. -/
theorem await_ready (hs : Session.Inv slots ⟨w, l⟩) (hr : (w.frontends f).isRead = true)
    {out : K × Nat} {job : Nat} {x : Page n α} (hreq : Requested f l out job x) :
    ∃ w' l', LazyPrefetchReader.await f job w = some w' ∧ Session.Inv slots ⟨w', l'⟩ ∧
      Keeps (fun _ => False) l l' ∧ (w'.frontends f).isRead = true ∧ Ready f l' out x := by
  rw [LazyPrefetchReader.await]
  cases hdone : w.isJobDone f job with
  | true =>
    refine ⟨w, _, if_pos rfl, isJobDone_ready hs hreq hdone, ⟨rfl, fun out' _ => ?_⟩, hr,
      ⟨job, Ledger.request_self ..⟩⟩
    by_cases hout : out' = out
    · subst hout
      obtain ⟨fl, hreq⟩ := hreq
      exact .inr (by rw [Ledger.request_self, hreq]; rfl)
    · exact .inl (Ledger.request_of_ne hout ..)
  | false =>
    obtain ⟨w', hflush, h', hr'⟩ := flushRead_ready hs hr
    exact ⟨w', _, by rw [if_neg Bool.false_ne_true, hflush], h', keeps_flushReads f _ l, hr',
      hreq.flushReads⟩

/-- **`LazyPrefetchReader::get`** at the end of a page. -/
theorem LazyInv.nextPage [NeZero n] {r : LazyPrefetchReader} {first p : Nat}
    (h : LazyInv f c pages first e k r w l p n) (hs : Session.Inv slots ⟨w, l⟩)
    (hpages : LastWritten f c N pages l) (heN : e ≤ N) (hit : r.it < e) :
    ∃ r' w' l', r.nextPage slots f k ((p - first) % r.cacheCapacity * n + n) w = some (r', w') ∧
      Session.Inv slots ⟨w', l'⟩ ∧ Keeps (fun out => out.1 = k) l l' ∧
      LazyInv f c pages first e k r' w' l' (p + 1) 0 ∧ r'.it = r.it := by
  have hn := pos_itemPerPage n
  have hcap := h.capacity
  have hfirst := h.first_le
  have hit' : r.it = (p + 1) * n := by rw [h.it, Nat.succ_mul]
  have hdiv : r.it / n = p + 1 := by rw [hit', Nat.mul_div_cancel _ hn]
  have hpage : p + 1 < r.endPageIdx := by
    rw [h.endPageIdx, ← hdiv]
    exact page_lt_of_it hit
  set cap := r.cacheCapacity with hcapdef
  set prev := (p - first) % cap with hprev
  have hprevIdx : (prev * n + n) / n - 1 = prev := by
    rw [← Nat.succ_mul, Nat.mul_div_cancel _ hn, Nat.succ_sub_one]
  have hcurrIdx : (prev + 1) % cap = (p + 1 - first) % cap := by
    rw [hprev, Nat.mod_add_mod, Nat.sub_add_comm hfirst]
  have hother : ∀ q, p < q → q < p + cap → (q - first) % cap ≠ prev := fun q h1 h2 =>
    ring_ne (by omega) (by omega)
  have hlast : (p + cap - first) % cap = prev := by
    rw [show p + cap - first = p - first + cap by omega, Nat.add_mod_right]
  obtain ⟨w₁, l₁, hawait, h₁, hkeeps₁, hr₁, hready₁⟩ := await_ready hs h.isRead
    (h.ahead (p + 1) (by omega) (by omega) hpage)
  have hkeeps₁' : Keeps (fun out : K × Nat => out.1 = k) l l₁ := hkeeps₁.mono fun _ hF => hF.elim
  have hnextIdx : r.it / n + cap - 1 = p + cap := by omega
  have hfree₁ : ∀ j, (∀ q, p < q → q < p + cap → q < r.endPageIdx → j ≠ (q - first) % cap) →
      Free l₁ (k, j) := fun j hj => hkeeps₁.free (by simp) (h.free j hj)
  have hahead₁ : ∀ q, p < q → q < p + cap → q < r.endPageIdx →
      Requested f l₁ (k, (q - first) % cap) (r.jobCounters ((q - first) % cap)) (pages q) :=
    fun q h1 h2 h3 => hkeeps₁.requested (by simp) (h.ahead q h1 h2 h3)
  have hprev₁ : Free l₁ (k, prev) := hfree₁ prev fun q h1 h2 _ => (hother q h1 h2).symm
  rw [LazyPrefetchReader.nextPage]
  dsimp only
  rw [hprevIdx, hcurrIdx, hawait, Option.bind_some, hnextIdx]
  by_cases hnext : p + cap < r.endPageIdx
  · -- the buffer of page `p` takes the page `p + cap`
    obtain ⟨job, w₂, hread, h₂, hr₂⟩ := readLazy_requested h₁ (hpages.keeps hkeeps₁)
      (mul_lt_of_page (e := e) (by rw [← h.endPageIdx]; exact hnext) (by omega) heN) hprev₁
    have hkeeps₂ := keeps_request l₁ (k, prev) (some ⟨f, job, pages (p + cap), false⟩)
    have hout : ∀ j, j ≠ prev → ¬ ((k, j) = (k, prev)) := fun j hj heq => hj (congrArg Prod.snd heq)
    rw [← h.counter] at hread
    refine ⟨{ r with
        jobCounters := Function.update r.jobCounters prev job
        curr := some ((p + 1 - first) % cap * n)
        currPageEnd := some ((p + 1 - first) % cap * n + n) }, w₂, _, ?_, h₂,
      hkeeps₁'.trans (hkeeps₂.mono fun out hout => by rw [hout]), ?_, rfl⟩
    · rw [if_pos hnext, hread, Option.map_some, Option.map_some]
    refine ⟨h.counter, h.endPtr, h.endPageIdx, hcap, hr₂,
      by omega, Nat.zero_le _, ?_, h.it_le, rfl, rfl, ?_, fun q h1 h2 h3 => ?_, fun j hj => ?_⟩
    · exact hit'
    · exact hkeeps₂.ready (hout _ (hother (p + 1) (by omega) (by omega))) hready₁
    · dsimp only at h2 h3 ⊢
      by_cases hq : q = p + cap
      · subst hq
        rw [hlast, Function.update_self]
        exact ⟨false, Ledger.request_self ..⟩
      · have hne := hother q (by omega) (by omega)
        rw [Function.update_of_ne hne]
        exact hkeeps₂.requested (hout _ hne) (hahead₁ q (by omega) (by omega) h3)
    · dsimp only at hj
      have hjp : j ≠ prev := fun heq => hj (p + cap) (by omega) (by omega) hnext
        (by rw [hlast, heq])
      by_cases hjn : j = (p + 1 - first) % cap
      · subst hjn
        exact hkeeps₂.free (hout _ hjp) hready₁.free
      · refine hkeeps₂.free (hout _ hjp) (hfree₁ j fun q h1 h2 h3 => ?_)
        by_cases hq : q = p + 1
        · subst hq
          exact hjn
        · exact hj q (by omega) (by omega) h3
  · refine ⟨{ r with
        curr := some ((p + 1 - first) % cap * n)
        currPageEnd := some ((p + 1 - first) % cap * n + n) }, w₁, l₁, ?_, h₁, hkeeps₁', ?_, rfl⟩
    · rw [if_neg hnext, Option.map_some]
    refine ⟨h.counter, h.endPtr, h.endPageIdx, hcap, hr₁,
      by omega, Nat.zero_le _, ?_, h.it_le, rfl, rfl, hready₁, fun q h1 h2 h3 => ?_, fun j hj => ?_⟩
    · exact hit'
    · dsimp only at h2 h3 ⊢
      exact hahead₁ q (by omega) (by omega) h3
    · by_cases hjn : j = (p + 1 - first) % cap
      · subst hjn
        exact hready₁.free
      · refine hfree₁ j fun q h1 h2 h3 => ?_
        by_cases hq : q = p + 1
        · subst hq
          exact hjn
        · exact hj q (by omega) (show q < p + 1 + cap by omega) h3

/-- **`LazyPrefetchReader::get`.** -/
theorem LazyInv.get [NeZero n] {r : LazyPrefetchReader} {first p off : Nat}
    (h : LazyInv f c pages first e k r w l p off) (hs : Session.Inv slots ⟨w, l⟩)
    (hpages : LastWritten f c N pages l) (heN : e ≤ N) (hit : r.it < e) :
    ∃ r' w' l' p' off', r.get slots f k w = some (r', w') ∧ Session.Inv slots ⟨w', l'⟩ ∧
      Keeps (fun out => out.1 = k) l l' ∧ LazyInv f c pages first e k r' w' l' p' off' ∧ off' < n ∧
      r'.it = r.it := by
  rw [LazyPrefetchReader.get, h.currPageEnd, Option.bind_some]
  by_cases hoff : off = n
  · subst hoff
    obtain ⟨r', w', l', hrun, h', hkeeps, hinv, hit'⟩ := h.nextPage hs hpages heN hit
    exact ⟨r', w', l', p + 1, 0,
      by rw [if_pos h.curr, hrun], h', hkeeps, hinv, pos_itemPerPage off, hit'⟩
  · have hlt : off < n := Nat.lt_of_le_of_ne h.off_le hoff
    refine ⟨r, w, l, p, off, if_neg ?_, hs, .refl _ l, h, hlt, rfl⟩
    rw [h.curr]
    intro heq
    have := Option.some.inj heq
    omega

/-! ## Readers side by side -/

variable {b : Nat}

/-- A reader of either kind over the range from `b` up to `e`. -/
def ReaderInv (f : F) (c : Nat) (pages : Nat → Page n α) (b e : Nat) (k : K) (r : DiskReader)
    (w : Disk F K n α) (l : Ledger F (K × Nat) (Page n α)) : Prop :=
  match r with
  | .prefetch r => PrefetchInv f c pages e k r l
  | .lazyPrefetch r => LazyNew n b c e k r l ∨ ∃ p off, LazyInv f c pages (b / n) e k r w l p off

/-- Whether `get` may be called: `init` has been. -/
def DiskReader.started : DiskReader → Bool
  | .prefetch _ => true
  | .lazyPrefetch r => r.curr.isSome

omit [DecidableEq F] [DecidableEq K] in
theorem ReaderInv.keeps {r : DiskReader} {P : K × Nat → Prop}
    (h : ReaderInv f c pages b e k r w l) (hl : Keeps P l l') (hP : ∀ j, ¬ P (k, j))
    (hr : (w.frontends f).isRead = true → (w'.frontends f).isRead = true) :
    ReaderInv f c pages b e k r w' l' := by
  cases r with
  | prefetch r => exact PrefetchInv.keeps h hl hP
  | lazyPrefetch r =>
    rcases h with h | ⟨p, off, h⟩
    · exact .inl ⟨h.counter, h.endPtr, h.endPageIdx, h.capacity, h.it, h.curr, h.currPageEnd,
        fun j => hl.free (hP j) (h.free j)⟩
    · exact .inr ⟨p, off, h.keeps hl hP (hr h.isRead)⟩

omit [DecidableEq F] [DecidableEq K] in
theorem ReaderInv.eof_iff {r : DiskReader} (h : ReaderInv f c pages b e k r w l) :
    r.eof = decide (e ≤ r.it) := by
  cases r with
  | prefetch r => rw [DiskReader.eof, PrefetchReader.eof, PrefetchInv.endPtr h, DiskReader.it]
  | lazyPrefetch r =>
    rcases h with h | ⟨p, off, h⟩
    · rw [DiskReader.eof, LazyPrefetchReader.eof, h.endPtr, DiskReader.it]
    · rw [DiskReader.eof, LazyPrefetchReader.eof, h.endPtr, DiskReader.it]

/-- **What `get` does** before it returns: the buffer that `curr` points into is ready with the page
of the position. -/
theorem ReaderInv.load [NeZero n] {r : DiskReader} (h : ReaderInv f c pages b e k r w l)
    (hs : Session.Inv slots ⟨w, l⟩) (hpages : LastWritten f c N pages l) (heN : e ≤ N)
    (hstarted : r.started = true) (hit : r.it < e) :
    ∃ r' w' l' ptr, r.load slots f k w = some (r', w') ∧ Session.Inv slots ⟨w', l'⟩ ∧
      Keeps (fun out => out.1 = k) l l' ∧
      ((w.frontends f).isRead = true → (w'.frontends f).isRead = true) ∧
      ReaderInv f c pages b e k r' w' l' ∧ ReaderInv f c pages b e k r'.next w' l' ∧
      r'.it = r.it ∧ r'.curr = some ptr ∧ ptr % n = r.it % n ∧
      Ready f l' (k, ptr / n) (pages (r.it / n)) := by
  have hn := pos_itemPerPage n
  cases r with
  | prefetch r =>
    obtain ⟨r', w', l', ptr, hrun, h', hkeeps, hr', hinv, hit', hcurr, hlt, hmod, hready⟩ :=
      PrefetchInv.get h hs hpages heN hit
    refine ⟨.prefetch r', w', l', ptr,
      by rw [DiskReader.load, hrun, Option.map_some], h', hkeeps, hr',
      hinv, ?_, hit', hcurr, hmod, hready⟩
    refine ⟨hinv.counter, hinv.endPtr, hinv.endPageIdx, ?_, fun ptr' hptr' => ?_, hinv.free⟩
    · exact Nat.succ_le_of_lt (by rw [hit']; exact hit)
    · dsimp only at hptr' ⊢
      rw [hcurr] at hptr'
      obtain rfl : ptr + 1 = ptr' := Option.some.inj hptr'
      obtain ⟨first, heq, -, hall⟩ := hinv.curr ptr hcurr
      exact ⟨first, by rw [heq, Nat.add_assoc], hlt, hall⟩
  | lazyPrefetch r =>
    rcases h with h | ⟨p, off, h⟩
    · rw [DiskReader.started, h.curr] at hstarted
      cases hstarted
    · obtain ⟨r', w', l', p', off', hrun, h', hkeeps, hinv, hoff, hit'⟩ := h.get hs hpages heN hit
      have hpos := hinv.it.symm.trans hit'
      obtain ⟨hdiv, hmod⟩ := div_mod_of_lt (p := p') hoff
      rw [hpos] at hdiv hmod
      obtain ⟨hdiv', hmod'⟩ := div_mod_of_lt (p := (p' - b / n) % r'.cacheCapacity) hoff
      refine ⟨.lazyPrefetch r', w', l', _,
        by rw [DiskReader.load, hrun, Option.map_some], h', hkeeps,
        fun _ => hinv.isRead, .inr ⟨p', off', hinv⟩, .inr ⟨p', off' + 1, ?_⟩, hit', hinv.curr,
        hmod'.trans hmod.symm, ?_⟩
      · refine ⟨hinv.counter, hinv.endPtr, hinv.endPageIdx, hinv.capacity, hinv.isRead,
          hinv.first_le, hoff, ?_, ?_, ?_, hinv.currPageEnd, hinv.ready, hinv.ahead, hinv.free⟩
        · exact (congrArg (· + 1) hinv.it).trans (Nat.add_assoc ..)
        · exact Nat.succ_le_of_lt (by rw [hit']; exact hit)
        · exact congrArg (Option.map (· + 1)) hinv.curr
      · rw [hdiv', show (DiskReader.lazyPrefetch r).it / n = p' from hdiv]
        exact hinv.ready

/-! ## Runs of the readers -/

/-- Every call is one that the source asserts to be allowed: `init` once for each
`LazyPrefetchReader`, before its other calls, and none past the end of a range. -/
def ReadersAlong [NeZero n] (slots : Slots F (Page n α)) (f : F) :
    List (ReaderOp K) → (K → DiskReader) → Disk F K n α → Prop
  | [], _, _ => True
  | .init k :: ops, readers, w => (readers k).started = false ∧
    ∀ rw ∈ (readers k).init slots f k w, ReadersAlong slots f ops
      (Function.update readers k rw.1) rw.2
  | .get k :: ops, readers, w => (readers k).started = true ∧ (readers k).eof = false ∧
    ∀ xrw ∈ (readers k).get slots f k w,
      ReadersAlong slots f ops (Function.update readers k xrw.2.1) xrw.2.2
  | .read k :: ops, readers, w => (readers k).started = true ∧ (readers k).eof = false ∧
    ∀ xrw ∈ (readers k).read slots f k w,
      ReadersAlong slots f ops (Function.update readers k xrw.2.1) xrw.2.2

/-- The elements that `read` has returned for a reader. -/
def returned (k : K) (events : List (K × Bool × α)) : List α :=
  events.filterMap fun (k', isRead, x) => if k' = k ∧ isRead = true then some x else none

/-- The readers, and plain readers at the same positions. -/
structure SideBySide (slots : Slots F (Page n α)) (f : F) (c N : Nat) (pages : Nat → Page n α)
    (data : List α) (begins ends : K → Nat) (readers : K → DiskReader) (plain : K → Reader n α)
    (w : Disk F K n α) (l : Ledger F (K × Nat) (Page n α)) : Prop where
  session : Session.Inv slots ⟨w, l⟩
  lastWritten : LastWritten f c N pages l
  inv : ∀ k, ReaderInv f c pages (begins k) (ends k) k (readers k) w l
  position : ∀ k, Reading data c (plain k) ∧ (plain k).it = (readers k).it

section Runs

variable [NeZero n] {data : List α} {begins ends : K → Nat} {readers : K → DiskReader}
  {plain : K → Reader n α} {v : Vector n α}

omit [DecidableEq F] [NeZero n] in
/-- One reader has moved, in step with its plain reader. -/
theorem SideBySide.update (h : SideBySide slots f c N pages data begins ends readers plain w l)
    {r : DiskReader} {q : Reader n α} (hs : Session.Inv slots ⟨w', l'⟩)
    (hkeeps : Keeps (fun out => out.1 = k) l l')
    (hr : (w.frontends f).isRead = true → (w'.frontends f).isRead = true)
    (hinv : ReaderInv f c pages (begins k) (ends k) k r w' l') (hq : Reading data c q)
    (hit : q.it = r.it) :
    SideBySide slots f c N pages data begins ends (Function.update readers k r)
      (Function.update plain k q) w' l' where
  session := hs
  lastWritten := h.lastWritten.keeps hkeeps
  inv k' := by
    by_cases hk : k' = k
    · subst hk
      rw [Function.update_self]
      exact hinv
    · rw [Function.update_of_ne hk]
      exact (h.inv k').keeps hkeeps (fun _ => hk) hr
  position k' := by
    by_cases hk : k' = k
    · subst hk
      rw [Function.update_self, Function.update_self]
      exact ⟨hq, hit⟩
    · rw [Function.update_of_ne hk, Function.update_of_ne hk]
      exact h.position k'

/-- **`get` and `read`** return the element at the position, as the plain reader does. -/
theorem SideBySide.get (h : SideBySide slots f c N pages data begins ends readers plain w l)
    (hv : Stores v c data) (hvN : v.N = N)
    (hagrees : ∀ p, p * n < N → Agrees data p (pages p) 0 (N - p * n))
    (hends : ∀ k, ends k ≤ N) (hstarted : (readers k).started = true)
    (heof : (readers k).eof = false) :
    ∃ x r q w' l', (readers k).get slots f k w = some (x, r, w') ∧ (plain k).get v = some q ∧
      q.next.1 = x ∧ data[(readers k).it]? = some x ∧ r.it = (readers k).it ∧
      SideBySide slots f c N pages data begins ends (Function.update readers k r)
        (Function.update plain k q) w' l' ∧
      SideBySide slots f c N pages data begins ends (Function.update readers k r.next)
        (Function.update plain k q.next.2) w' l' := by
  have hlt : (readers k).it < ends k := by
    rw [(h.inv k).eof_iff] at heof
    simpa using heof
  have hltN := Nat.lt_of_lt_of_le hlt (hends k)
  obtain ⟨r, w', l', ptr, hload, hs', hkeeps, hr, hinv, hnext, hit, hcurr, hmod, hready⟩ :=
    (h.inv k).load h.session h.lastWritten (hends k) hstarted hlt
  obtain ⟨hreading, hplain⟩ := h.position k
  obtain ⟨cache, hget, hcache⟩ := hreading.get hv (by rw [hplain, hvN]; exact hltN)
  have hreading' : Reading data c { plain k with cache, curr := some ((plain k).it % n) } := by
    refine ⟨hreading.counter, fun j hj => ?_⟩
    obtain rfl := Option.some.inj hj
    exact ⟨(Nat.mod_lt _ (pos_itemPerPage n)).le, Nat.mod_mod _ _, fun _ => hcache⟩
  have hdiv := Nat.div_add_mod (readers k).it n
  rw [Nat.mul_comm] at hdiv
  have hx : data[(readers k).it]? = some (deref k ptr w') := by
    have hofNat : Fin.ofNat n ptr = Fin.ofNat n ((readers k).it % n) :=
      Fin.ext (show ptr % n = (readers k).it % n % n by rw [Nat.mod_mod, hmod])
    rw [deref, hready.mem hs', hofNat]
    exact agrees_getElem? (hagrees _ (by omega)) (by omega)
  have hsame : cache (Fin.ofNat n ((plain k).it % n)) = deref k ptr w' := by
    have hplainx := agrees_getElem? hcache (by
      have := Nat.div_mul_le_self (plain k).it n
      have := Nat.div_add_mod (plain k).it n
      rw [Nat.mul_comm] at this
      rw [hv.size, hvN]
      omega)
    rw [hplain] at hplainx ⊢
    exact Option.some.inj (hplainx.symm.trans hx)
  refine ⟨deref k ptr w', r, _, w', l', ?_, hget, hsame, hx, hit, ?_, ?_⟩
  · rw [DiskReader.get, hload, Option.map_some]
    dsimp only
    rw [hcurr, Option.getD_some]
  · exact h.update hs' hkeeps hr hinv hreading' (by rw [hit]; exact hplain)
  · refine h.update hs' hkeeps hr hnext ?_ ?_
    · obtain ⟨x, q', hread, -, -, -, hq'⟩ := hreading.read hv (by rw [hplain, hvN]; exact hltN)
      rw [Reader.read, hget, Option.map_some] at hread
      rw [congrArg Prod.snd (Option.some.inj hread)]
      exact hq'
    · have hnextit : r.next.it = r.it + 1 := by cases r <;> rfl
      rw [hnextit, hit, ← hplain]
      rfl

/-- **`init`.** -/
theorem SideBySide.init (h : SideBySide slots f c N pages data begins ends readers plain w l)
    (hends : ∀ k, ends k ≤ N) (hranges : ∀ k, begins k < ends k)
    (hstarted : (readers k).started = false) :
    ∃ r w' l', (readers k).init slots f k w = some (r, w') ∧ r.it = (readers k).it ∧
      SideBySide slots f c N pages data begins ends (Function.update readers k r) plain w' l' := by
  have hk := h.inv k
  obtain ⟨hreading, hplain⟩ := h.position k
  cases hreader : readers k with
  | prefetch r =>
    rw [hreader] at hstarted
    cases hstarted
  | lazyPrefetch r =>
    rw [hreader] at hk hstarted hplain
    rcases hk with hk | ⟨p, off, hk⟩
    · obtain ⟨r', w', l', hrun, hs', hkeeps, hr, hinv, hit⟩ :=
        hk.init h.session h.lastWritten (hends k) (hranges k)
      have hsame : (DiskReader.lazyPrefetch r').it = (DiskReader.lazyPrefetch r).it :=
        hit.trans hk.it.symm
      refine ⟨.lazyPrefetch r', w', l', by rw [DiskReader.init, hrun, Option.map_some], hsame, ?_⟩
      have hupdate := h.update hs' hkeeps (fun _ => hr) (r := .lazyPrefetch r') (.inr ⟨_, _, hinv⟩)
        hreading (hplain.trans hsame.symm)
      rwa [Function.update_eq_self] at hupdate
    · rw [DiskReader.started, hk.curr] at hstarted
      cases hstarted

omit [NeZero n] in
/-- The elements that a reader returns after its next one. -/
theorem returned_cons_take {k k' : K} {x : α} {events : List (K × Bool × α)} {i i' j : Nat}
    (hx : k' = k → data[i]? = some x) (hi : i' = if k' = k then i + 1 else i) (hij : i' ≤ j)
    (h : returned k events = (data.drop i').take (j - i')) :
    i ≤ j ∧ returned k ((k', true, x) :: events) = (data.drop i).take (j - i) := by
  by_cases hk : k' = k
  · rw [if_pos hk] at hi
    subst hi
    obtain ⟨hlt, hget⟩ := List.getElem?_eq_some_iff.1 (hx hk)
    refine ⟨by omega, ?_⟩
    rw [returned, List.filterMap_cons]
    dsimp only
    rw [if_pos ⟨hk, rfl⟩]
    dsimp only
    rw [show j - i = (j - (i + 1)) + 1 by omega, List.drop_eq_getElem_cons hlt,
      List.take_succ_cons, hget, ← h]
    rfl
  · rw [if_neg hk] at hi
    subst hi
    refine ⟨hij, ?_⟩
    rw [returned, List.filterMap_cons]
    dsimp only
    rw [if_neg fun hat => hk hat.1]
    exact h

/-- **Runs of the readers**: they do not abort, and return what the plain readers return. -/
theorem SideBySide.runReaders (h : SideBySide slots f c N pages data begins ends readers plain w l)
    (hv : Stores v c data) (hvN : v.N = N)
    (hagrees : ∀ p, p * n < N → Agrees data p (pages p) 0 (N - p * n))
    (hends : ∀ k, ends k ≤ N) (hranges : ∀ k, begins k < ends k) {ops : List (ReaderOp K)}
    (hops : ReadersAlong slots f ops readers w) :
    ∃ events readers' plain' w' l', runReaders slots f ops readers w = some (events, readers', w') ∧
      runPlainReaders v ops plain = some (events, plain') ∧
      SideBySide slots f c N pages data begins ends readers' plain' w' l' ∧
      ∀ k, (readers k).it ≤ (readers' k).it ∧
        returned k events = (data.drop (readers k).it).take ((readers' k).it - (readers k).it) := by
  induction ops generalizing readers plain w l with
  | nil =>
    refine ⟨[], readers, plain, w, l, rfl, rfl, h, fun k => ⟨Nat.le_refl _, ?_⟩⟩
    rw [Nat.sub_self, List.take_zero]
    rfl
  | cons op ops ih =>
    cases op with
    | init k =>
      obtain ⟨hstarted, hrest⟩ := hops
      obtain ⟨r, w₁, l₁, hrun, hit, h₁⟩ := h.init hends hranges hstarted
      obtain ⟨events, readers', plain', w', l', hrun', hplain', h', hret⟩ := ih h₁ (hrest _ hrun)
      refine ⟨events, readers', plain', w', l', ?_, hplain', h', fun k' => ?_⟩
      · rw [NonCachedVector.runReaders, hrun, Option.bind_some]
        exact hrun'
      · have hsame : (Function.update readers k r k').it = (readers k').it := by
          by_cases hk : k' = k
          · subst hk
            rw [Function.update_self, hit]
          · rw [Function.update_of_ne hk]
        rw [← hsame]
        exact hret k'
    | get k =>
      obtain ⟨hstarted, heof, hrest⟩ := hops
      obtain ⟨x, r, q, w₁, l₁, hrun, hplain, hq, -, hit, h₁, -⟩ :=
        h.get hv hvN hagrees hends hstarted heof
      obtain ⟨events, readers', plain', w', l', hrun', hplain', h', hret⟩ := ih h₁ (hrest _ hrun)
      refine ⟨(k, false, x) :: events, readers', plain', w', l', ?_, ?_, h', fun k' => ?_⟩
      · rw [NonCachedVector.runReaders, hrun, Option.bind_some]
        dsimp only
        rw [hrun', Option.map_some]
      · rw [runPlainReaders, hplain, Option.bind_some, hplain', Option.map_some, hq]
      · have hsame : (Function.update readers k r k').it = (readers k').it := by
          by_cases hk : k' = k
          · subst hk
            rw [Function.update_self, hit]
          · rw [Function.update_of_ne hk]
        have hcons : returned k' ((k, false, x) :: events) = returned k' events := by
          rw [returned, List.filterMap_cons]
          dsimp only
          rw [if_neg (by simp)]
          rfl
        rw [hcons, ← hsame]
        exact hret k'
    | read k =>
      obtain ⟨hstarted, heof, hrest⟩ := hops
      obtain ⟨x, r, q, w₁, l₁, hrun, hplain, hq, hx, hit, -, h₁⟩ :=
        h.get hv hvN hagrees hends hstarted heof
      have hread : (readers k).read slots f k w = some (x, r.next, w₁) := by
        rw [DiskReader.read, hrun, Option.map_some]
      obtain ⟨events, readers', plain', w', l', hrun', hplain', h', hret⟩ := ih h₁ (hrest _ hread)
      refine ⟨(k, true, x) :: events, readers', plain', w', l', ?_, ?_, h', fun k' => ?_⟩
      · rw [NonCachedVector.runReaders, hread, Option.bind_some]
        dsimp only
        rw [hrun', Option.map_some]
      · rw [runPlainReaders, Reader.read, hplain, Option.map_some, Option.bind_some]
        dsimp only
        rw [hplain', Option.map_some, hq]
      · obtain ⟨hle, heq⟩ := hret k'
        refine returned_cons_take (fun hk => hk ▸ hx) ?_ hle heq
        by_cases hk : k = k'
        · subst hk
          have hnext : r.next.it = r.it + 1 := by cases r <;> rfl
          rw [if_pos rfl, Function.update_self, hnext, hit]
        · rw [if_neg hk, Function.update_of_ne fun heq => hk heq.symm]

/-- The vector as the plain reader sees it: its pages are in the backend. -/
def Disk.vector (slots : Slots F (Page n α)) (f : F) (N : Nat) (cachePage : Page n α)
    (w : Disk F K n α) : Vector n α :=
  ⟨N, slots.lateInit f, cachePage, ⟨slots.nounce f, slots.defaultVal f, (w.frontends f).modified,
    fun i => w.data (slots.offset f i), []⟩⟩

omit [DecidableEq F] [DecidableEq K] [NeZero n] in
theorem ReaderInv.it_le {r : DiskReader} (h : ReaderInv f c pages b e k r w l) (hbe : b < e) :
    r.it ≤ e := by
  cases r with
  | prefetch r => exact PrefetchInv.it_le h
  | lazyPrefetch r =>
    rcases h with h | ⟨p, off, h⟩
    · exact h.it.le.trans hbe.le
    · exact h.it_le

end Runs

/-! ## Two readers of three elements -/

instance decidableReadersAlong [NeZero n] (slots : Slots F (Page n α)) (f : F) :
    (ops : List (ReaderOp K)) → (readers : K → DiskReader) → (w : Disk F K n α) →
    Decidable (ReadersAlong slots f ops readers w)
  | [], _, _ => inferInstanceAs (Decidable True)
  | .init _ :: ops, _, _ =>
    have := decidableReadersAlong slots f ops
    inferInstanceAs (Decidable (_ ∧ ∀ _ ∈ _, _))
  | .get _ :: ops, _, _ =>
    have := decidableReadersAlong slots f ops
    inferInstanceAs (Decidable (_ ∧ _ ∧ ∀ _ ∈ _, _))
  | .read _ :: ops, _, _ =>
    have := decidableReadersAlong slots f ops
    inferInstanceAs (Decidable (_ ∧ _ ∧ ∀ _ ∈ _, _))

/-- One frontend with two pages of two elements. -/
def threeSlots : Slots Unit (Page 2 Nat) where
  nounce _ := ⟨1, 1⟩
  lateInit _ := false
  defaultVal _ := fun _ => 0
  base _ := 0
  sizeOfT _ := 4
  numPage _ := 2
  sizeOfT_pos _ := by decide
  sizeOfT_le _ := by decide
  disjoint f g hne := absurd rfl hne

/-- The pages that hold 5, 6 and 7. -/
def threePages (p : Nat) : Page 2 Nat := fun o => 5 + p * 2 + o

/-- The two pages were written with the counter 3, and nothing has been requested yet. -/
def threeElements : Session Unit (Bool × Nat) (Page 2 Nat) where
  world :=
    { frontends := fun _ => ⟨fun _ => false, false, 0, 0, 0, fun _ => none, fun _ => (true, 0),
        fun _ => ⟨0, 0⟩, fun _ => .EMPTY_PAGE⟩
      data := fun off =>
        if off = 0 then some (threeSlots.enc () 0 ⟨threePages 0, 3, true⟩)
        else if off = 4 then some (threeSlots.enc () 1 ⟨threePages 1, 3, true⟩) else none
      readChunks := []
      writeChunks := []
      mem := fun _ _ => 0 }
  ledger := ⟨fun _ p => if p < 2 then some ⟨threePages p, 3, true⟩ else none, fun _ => none⟩

end EM.NonCachedVector
