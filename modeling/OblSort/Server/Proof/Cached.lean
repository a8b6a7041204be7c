import OblSort.Server.Cached
import Mathlib.Data.List.Basic

/-!
# The direct-mapped cache against the uncached store

`Coherent c m`: the cache `c` over a page store presents the pages `m`. An access keeps it and
exposes `m i` (`Coherent.access`), so a coherent cache answers every access history as the
uncached store does (`Coherent.run`).

A new cache need not be coherent: its slot 0 claims to hold page 0, with a zero page in place of
the backend's content (`Fresh`). The wrong content is exposed exactly when page 0 is the first
page accessed in slot 0; any other page of the slot evicts it unseen. `run_new_iff` is the exact
condition.
-/

namespace CACHE.Cached

open Function

variable {n : Nat} [NeZero n] {T : Type}

/-- The cache presents the pages `m`: a slot that holds a page of its own holds its current
content, every other page is in the server, and a slot that is not dirty agrees with the server. -/
structure Coherent (c : Cached n T (Nat → T)) (m : Nat → T) : Prop where
  home : ∀ k, (c.cache k).dirty = true → mappedSlot n (c.cache k).idx = k
  hit : ∀ k, mappedSlot n (c.cache k).idx = k → (c.cache k).val = m (c.cache k).idx
  miss : ∀ i, (c.cache (mappedSlot n i)).idx ≠ i → c.server i = m i
  clean : ∀ k, mappedSlot n (c.cache k).idx = k → (c.cache k).dirty = false →
    c.server (c.cache k).idx = (c.cache k).val

/-! ## One access -/

omit [NeZero n] in
theorem store_deref {σ : Type} (k : Fin n) (c : Cached n T σ) :
    Cached.store k (deref k c) c = c := by
  simp [Cached.store, deref, setSlot]

/-- Both kinds of access of a client: a read-only access stores back what it sees. -/
theorem step_eq {σ : Type} (S : Server σ T) (op : Op T) (c : Cached n T σ) :
    Cached.step S op c = (accessDM S op.isDirty false true op.idx c).map fun p =>
      (deref p.1 p.2, Cached.store p.1 (op.modify (deref p.1 p.2)) p.2) := by
  cases op with
  | access i f => rfl
  | accessReadOnly i =>
    simp [Cached.step, accessReadOnly, Op.isDirty, Op.idx, Op.modify, store_deref]

/-- The server after slot `k` is written back, if it is dirty. -/
def writtenBack {σ : Type} (S : Server σ T) (k : Fin n) (c : Cached n T σ) : σ :=
  if (c.cache k).dirty then S.write (c.cache k).idx (c.cache k).val c.server else c.server

/-- A hit (`skip_read` off, `writeBack` on) changes only the dirty flag. -/
theorem accessDM_hit {σ : Type} (S : Server σ T) (dirty : Bool) {i : Nat} {c : Cached n T σ}
    (h : (c.cache (mappedSlot n i)).idx = i) :
    accessDM S dirty false true i c = some (mappedSlot n i,
      c.setSlot (mappedSlot n i) ⟨(c.cache (mappedSlot n i)).val, i,
        (c.cache (mappedSlot n i)).dirty || dirty⟩) := by
  simp only [accessDM, h, ne_eq, not_true_eq_false, ↓reduceIte, Bool.and_true]

/-- A miss writes the slot back and reads page `i` over it. -/
theorem accessDM_miss {σ : Type} (S : Server σ T) (dirty : Bool) {i : Nat} {c : Cached n T σ}
    (h : (c.cache (mappedSlot n i)).idx ≠ i) :
    accessDM S dirty false true i c = (S.read i (writtenBack S (mappedSlot n i) c)).map fun v =>
      (mappedSlot n i, setSlot { c with server := writtenBack S (mappedSlot n i) c }
        (mappedSlot n i) ⟨v, i, dirty⟩) := by
  simp only [accessDM, h, ne_eq, not_false_eq_true, ↓reduceIte, Bool.false_or, Bool.and_true,
    Bool.false_eq_true, writtenBack]

/-- Putting page `i` with its content into its slot keeps a cache coherent, if every other page
of the slot is in the server. -/
theorem Coherent.setSlot {c : Cached n T (Nat → T)} {m : Nat → T} {i : Nat} {v : T} {d : Bool}
    {srv : Nat → T}
    (home : ∀ k ≠ mappedSlot n i, (c.cache k).dirty = true → mappedSlot n (c.cache k).idx = k)
    (hit : ∀ k ≠ mappedSlot n i, mappedSlot n (c.cache k).idx = k →
      (c.cache k).val = m (c.cache k).idx)
    (miss : ∀ j ≠ i, (mappedSlot n j = mappedSlot n i ∨ (c.cache (mappedSlot n j)).idx ≠ j) →
      srv j = m j)
    (clean : ∀ k ≠ mappedSlot n i, mappedSlot n (c.cache k).idx = k → (c.cache k).dirty = false →
      srv (c.cache k).idx = (c.cache k).val)
    (hv : v = m i) (hd : d = false → srv i = v) :
    Coherent (Cached.setSlot { c with server := srv } (mappedSlot n i) ⟨v, i, d⟩) m := by
  refine ⟨fun k hk => ?_, fun k hk => ?_, fun j hj => ?_, fun k hk hk' => ?_⟩ <;>
    simp only [Cached.setSlot] at *
  · by_cases e : k = mappedSlot n i
    · subst e; simp
    · simp only [update_of_ne e] at hk ⊢; exact home k e hk
  · by_cases e : k = mappedSlot n i
    · subst e; simpa using hv
    · simp only [update_of_ne e] at hk ⊢; exact hit k e hk
  · by_cases e : mappedSlot n j = mappedSlot n i
    · rw [e, update_self] at hj
      exact miss j (Ne.symm hj) (.inl e)
    · rw [update_of_ne e] at hj
      exact miss j (fun he => e (by rw [he])) (.inr hj)
  · by_cases e : k = mappedSlot n i
    · subst e; simp only [update_self] at hk' ⊢; exact hd hk'
    · simp only [update_of_ne e] at hk hk' ⊢; exact clean k e hk hk'

/-- An access to a coherent cache succeeds, leaves page `i` in its slot with its current content,
and keeps the cache coherent. -/
theorem Coherent.access {c : Cached n T (Nat → T)} {m : Nat → T} (h : Coherent c m) (dirty : Bool)
    (i : Nat) : ∃ (c' : Cached n T (Nat → T)) (d : Bool),
      accessDM (pageStore T) dirty false true i c = some (mappedSlot n i, c') ∧
      c'.cache (mappedSlot n i) = ⟨m i, i, d⟩ ∧ (dirty = true → d = true) ∧ Coherent c' m := by
  by_cases hi : (c.cache (mappedSlot n i)).idx = i
  · have he := accessDM_hit (pageStore T) dirty hi
    have hval : (c.cache (mappedSlot n i)).val = m i := by
      rw [h.hit _ (by rw [hi]), hi]
    refine ⟨_, (c.cache (mappedSlot n i)).dirty || dirty, he, by simp [Cached.setSlot, hval],
      by simp_all, ?_⟩
    refine Coherent.setSlot (fun k _ => h.home k) (fun k _ => h.hit k) (fun j hj hjj => ?_)
      (fun k _ => h.clean k) hval (fun hd => ?_)
    · refine h.miss j fun hc => ?_
      rcases hjj with e | e
      · rw [e, hi] at hc; exact hj hc.symm
      · exact e hc
    · simp only [Bool.or_eq_false_iff] at hd
      have := h.clean (mappedSlot n i) (by rw [hi]) hd.1
      rwa [hi] at this
  · have he := accessDM_miss (pageStore T) dirty hi
    generalize hsrv : writtenBack (pageStore T) (mappedSlot n i) c = srv at he
    simp only [writtenBack, pageStore] at hsrv
    -- after the write-back the server holds the evicted page's content, dirty or not
    have hold : mappedSlot n (c.cache (mappedSlot n i)).idx = mappedSlot n i →
        srv (c.cache (mappedSlot n i)).idx = m (c.cache (mappedSlot n i)).idx := fun hh => by
      rw [← h.hit _ hh, ← hsrv]
      split
      · exact update_self ..
      · rename_i hd; exact h.clean _ hh (by simpa using hd)
    have hother : ∀ j, j ≠ (c.cache (mappedSlot n i)).idx → srv j = c.server j := fun j hj => by
      rw [← hsrv]; split
      · exact update_of_ne hj ..
      · rfl
    have hslot : ∀ j, mappedSlot n j = mappedSlot n i → srv j = m j := fun j hj => by
      by_cases e : j = (c.cache (mappedSlot n i)).idx
      · rw [e]; exact hold (by rw [← e, hj])
      · rw [hother j e]; exact h.miss j (by rw [hj]; exact Ne.symm e)
    refine ⟨_, dirty, he, by simp [Cached.setSlot, hslot i rfl], fun hd => hd, ?_⟩
    refine Coherent.setSlot (fun k _ => h.home k) (fun k _ => h.hit k) (fun j hj hjj => ?_)
      (fun k hk hh hd => ?_) (hslot i rfl) (fun _ => rfl)
    · rcases hjj with e | e
      · exact hslot j e
      · by_cases ej : j = (c.cache (mappedSlot n i)).idx
        · by_cases e2 : mappedSlot n j = mappedSlot n i
          · exact hslot j e2
          · -- a dirty slot holds a page of its own, so here nothing was written
            have hd : (c.cache (mappedSlot n i)).dirty = false := by
              by_contra hd
              exact e2 (by rw [ej]; exact h.home _ (by simpa using hd))
            rw [← hsrv, hd]
            exact h.miss j e
        · rw [hother j ej]; exact h.miss j e
    · by_cases e : (c.cache k).idx = (c.cache (mappedSlot n i)).idx
      · have hd' : (c.cache (mappedSlot n i)).dirty = false := by
          by_contra hd'
          exact hk (by rw [← hh, e]; exact h.home _ (by simpa using hd'))
        rw [← hsrv, hd']
        exact h.clean k hh hd
      · rw [hother _ e]; exact h.clean k hh hd

/-- Assignment through the reference to a dirty page. -/
theorem Coherent.store {c : Cached n T (Nat → T)} {m : Nat → T} (h : Coherent c m) {i : Nat}
    {w : T} (hc : c.cache (mappedSlot n i) = ⟨w, i, true⟩) (v : T) :
    Coherent (Cached.store (mappedSlot n i) v c) (update m i v) := by
  have he : Cached.store (mappedSlot n i) v c =
      Cached.setSlot { c with server := c.server } (mappedSlot n i) ⟨v, i, true⟩ := by
    simp [Cached.store, hc]
  have hne : ∀ k ≠ mappedSlot n i, mappedSlot n (c.cache k).idx = k → (c.cache k).idx ≠ i :=
    fun k hk hh e => hk (by rw [← hh, e])
  rw [he]
  refine Coherent.setSlot (fun k _ => h.home k) (fun k hk hh => ?_) (fun j hj hjj => ?_)
    (fun k _ => h.clean k) (by simp) (by simp)
  · rw [update_of_ne (hne k hk hh)]; exact h.hit k hh
  · rw [update_of_ne hj]
    refine h.miss j fun hcj => ?_
    rcases hjj with e | e
    · rw [e, hc] at hcj; exact hj hcj.symm
    · exact e hcj

/-- One access of a client to a coherent cache. -/
theorem Coherent.step {c : Cached n T (Nat → T)} {m : Nat → T} (h : Coherent c m) (op : Op T) :
    ∃ c', Cached.step (pageStore T) op c = some (m op.idx, c') ∧
      Coherent c' (update m op.idx (op.modify (m op.idx))) := by
  obtain ⟨c', d, he, hc, hd, h'⟩ := h.access op.isDirty op.idx
  refine ⟨Cached.store (mappedSlot n op.idx) (op.modify (m op.idx)) c', ?_, ?_⟩
  · rw [step_eq, he]
    simp [deref, hc]
  · cases op with
    | access i f =>
      obtain rfl := hd rfl
      exact h'.store hc _
    | accessReadOnly i =>
      have hv : deref (mappedSlot n i) c' = m i := congrArg CacheEntry.val hc
      have hs : Cached.store (mappedSlot n i) (m i) c' = c' := by rw [← hv, store_deref]
      simpa [Op.modify, Op.idx, hs] using h'

/-- **A coherent cache answers every access history as the uncached store does.** -/
theorem Coherent.run {c : Cached n T (Nat → T)} {m : Nat → T} (h : Coherent c m)
    (ops : List (Op T)) : ∃ c', Cached.run (pageStore T) ops c = some (exposed ops m, c') := by
  induction ops generalizing c m with
  | nil => exact ⟨c, rfl⟩
  | cons op ops ih =>
    obtain ⟨c', hs, h'⟩ := h.step op
    obtain ⟨c'', hr⟩ := ih h'
    exact ⟨c'', by simp [Cached.run, hs, hr, exposed]⟩

/-! ## The state after construction -/

/-- Slot 0 is as the constructor left it and would be coherent with page 0's content in it. -/
def Fresh [Inhabited T] (c : Cached n T (Nat → T)) (m : Nat → T) : Prop :=
  c.cache 0 = ⟨default, 0, false⟩ ∧ Coherent (c.setSlot 0 ⟨m 0, 0, false⟩) m

theorem mappedSlot_eq_zero {i : Nat} : mappedSlot n i = 0 ↔ i % n = 0 := by
  simp [mappedSlot, Fin.ext_iff]

/-- An access that does not use slot 0 does not see it. -/
theorem accessDM_setSlot_zero (dirty : Bool) {i : Nat} (hi : mappedSlot n i ≠ 0)
    (c : Cached n T (Nat → T)) (e : CacheEntry T) :
    accessDM (pageStore T) dirty false true i (c.setSlot 0 e) =
      (accessDM (pageStore T) dirty false true i c).map fun p => (p.1, p.2.setSlot 0 e) := by
  simp only [accessDM, setSlot, update_of_ne hi, pageStore]
  split <;> simp [update_comm hi.symm]

/-- Another page of slot 0 evicts the slot, whatever it held. -/
theorem accessDM_evict_zero (dirty : Bool) {i : Nat} (hi : mappedSlot n i = 0) (hne : i ≠ 0)
    {c : Cached n T (Nat → T)} {v : T} (hc : c.cache 0 = ⟨v, 0, false⟩) (w : T) :
    accessDM (pageStore T) dirty false true i (c.setSlot 0 ⟨w, 0, false⟩) =
      accessDM (pageStore T) dirty false true i c := by
  simp only [accessDM, setSlot, hi, update_self, pageStore, hc]
  simp [hne.symm]

theorem step_setSlot_zero (op : Op T) (hi : mappedSlot n op.idx ≠ 0) (c : Cached n T (Nat → T))
    (e : CacheEntry T) : Cached.step (pageStore T) op (c.setSlot 0 e) =
      (Cached.step (pageStore T) op c).map fun p => (p.1, p.2.setSlot 0 e) := by
  rw [step_eq, step_eq, accessDM_setSlot_zero _ hi]
  by_cases hit : (c.cache (mappedSlot n op.idx)).idx = op.idx
  · rw [accessDM_hit _ _ hit]
    simp [deref, Cached.store, setSlot, update_comm hi]
  · rw [accessDM_miss _ _ hit]
    simp [deref, Cached.store, setSlot, update_comm hi, pageStore]

variable [Inhabited T]

theorem fresh_new (init : Nat → T) : Fresh (Cached.new init : Cached n T (Nat → T)) init := by
  refine ⟨rfl, ?_⟩
  have he : (Cached.new init : Cached n T (Nat → T)).setSlot 0 ⟨init 0, 0, false⟩ =
      Cached.setSlot { (Cached.new init : Cached n T (Nat → T)) with server := init }
        (mappedSlot n 0) ⟨init 0, 0, false⟩ := rfl
  rw [he]
  refine Coherent.setSlot (fun _ _ hd => ?_) (fun k hk hh => ?_) (fun _ _ _ => rfl)
    (fun k hk hh => ?_) rfl (fun _ => rfl)
  · cases hd
  · exact absurd hh.symm hk
  · exact absurd hh.symm hk

/-- A zero page in the backend is what slot 0 already holds. -/
theorem Fresh.coherent {c : Cached n T (Nat → T)} {m : Nat → T} (h : Fresh c m)
    (h0 : m 0 = default) : Coherent c m := by
  have : c.setSlot 0 ⟨m 0, 0, false⟩ = c := by
    rw [h0, ← h.1]; simp [setSlot]
  rw [← this]; exact h.2

/-- An access that does not use slot 0 keeps a fresh cache fresh and exposes the right value. -/
theorem Fresh.step {c : Cached n T (Nat → T)} {m : Nat → T} (h : Fresh c m) (op : Op T)
    (hi : mappedSlot n op.idx ≠ 0) : ∃ c', Cached.step (pageStore T) op c = some (m op.idx, c') ∧
      Fresh c' (update m op.idx (op.modify (m op.idx))) := by
  obtain ⟨c₁, hs, h₁⟩ := h.2.step op
  have hne : (0 : Nat) ≠ op.idx := fun e => hi (by rw [← e]; rfl)
  rw [step_setSlot_zero op hi] at hs
  cases hs' : Cached.step (pageStore T) op c with
  | none => rw [hs'] at hs; cases hs
  | some p =>
    obtain ⟨v, c'⟩ := p
    rw [hs'] at hs
    obtain ⟨rfl, rfl⟩ : v = m op.idx ∧ c'.setSlot 0 ⟨m 0, 0, false⟩ = c₁ := by simpa using hs
    refine ⟨c', rfl, ?_, by rw [update_of_ne hne]; exact h₁⟩
    -- slot 0 itself is untouched: stepping commutes with overwriting it by its own content
    have h0 := step_setSlot_zero op hi c (c.cache 0)
    rw [show c.setSlot 0 (c.cache 0) = c by simp [setSlot], hs'] at h0
    simp only [Option.map_some, Option.some.injEq, Prod.mk.injEq, true_and] at h0
    rw [h0, ← h.1]
    simp [setSlot]

/-- Another page of slot 0 makes a fresh cache coherent. -/
theorem Fresh.step_evict {c : Cached n T (Nat → T)} {m : Nat → T} (h : Fresh c m) (op : Op T)
    (hi : mappedSlot n op.idx = 0) (hne : op.idx ≠ 0) :
    ∃ c', Cached.step (pageStore T) op c = some (m op.idx, c') ∧
      Coherent c' (update m op.idx (op.modify (m op.idx))) := by
  obtain ⟨c₁, hs, h₁⟩ := h.2.step op
  refine ⟨c₁, ?_, h₁⟩
  rw [← hs, step_eq, step_eq, accessDM_evict_zero _ hi hne h.1]

/-- Page 0 read from a fresh slot 0 is a zero page. -/
theorem Fresh.step_zero {c : Cached n T (Nat → T)} {m : Nat → T} (h : Fresh c m) (op : Op T)
    (h0 : op.idx = 0) : ∃ c', Cached.step (pageStore T) op c = some (default, c') := by
  have hk : mappedSlot n op.idx = 0 := by rw [h0]; rfl
  have ha : accessDM (pageStore T) op.isDirty false true op.idx c =
      some (0, c.setSlot 0 ⟨default, 0, op.isDirty⟩) := by
    rw [accessDM_hit _ _ (by rw [hk, h.1, h0]), hk, h.1, h0]
    simp
  refine ⟨Cached.store 0 (op.modify default) (c.setSlot 0 ⟨default, 0, op.isDirty⟩), ?_⟩
  rw [step_eq, ha]
  simp [deref, setSlot]

/-- The first page accessed in slot 0. -/
def firstInSlotZero (n : Nat) (ops : List (Op T)) : Option Nat :=
  (ops.map Op.idx).find? (· % n = 0)

theorem Fresh.run_iff {c : Cached n T (Nat → T)} {m : Nat → T} (h : Fresh c m)
    (ops : List (Op T)) :
    (∃ c', Cached.run (pageStore T) ops c = some (exposed ops m, c')) ↔
      m 0 = default ∨ firstInSlotZero n ops ≠ some 0 := by
  by_cases hm : m 0 = default
  · exact iff_of_true ((h.coherent hm).run ops) (.inl hm)
  simp only [hm, false_or]
  induction ops generalizing c m with
  | nil => exact iff_of_true ⟨c, rfl⟩ (by simp [firstInSlotZero])
  | cons op ops ih =>
    by_cases hi : mappedSlot n op.idx = 0
    · have hmod := mappedSlot_eq_zero.1 hi
      have hfirst : firstInSlotZero n (op :: ops) = some op.idx := by
        simp [firstInSlotZero, hmod]
      rw [hfirst]
      by_cases h0 : op.idx = 0
      · refine iff_of_false ?_ (by simp [h0])
        rintro ⟨c', hc⟩
        obtain ⟨c₁, hs⟩ := h.step_zero op h0
        simp only [Cached.run, hs, exposed, h0] at hc
        cases hr : Cached.run (pageStore T) ops c₁ with
        | none => simp [hr] at hc
        | some p =>
          simp only [hr, Option.bind_eq_bind, Option.bind_some, Option.pure_def,
            Option.some.injEq, Prod.mk.injEq, List.cons.injEq] at hc
          exact hm hc.1.1.symm
      · refine iff_of_true ?_ (by simp [h0])
        obtain ⟨c₁, hs, h₁⟩ := h.step_evict op hi h0
        obtain ⟨c₂, hr⟩ := h₁.run ops
        exact ⟨c₂, by simp [Cached.run, hs, hr, exposed]⟩
    · have hmod : ¬ op.idx % n = 0 := fun e => hi (mappedSlot_eq_zero.2 e)
      have hfirst : firstInSlotZero n (op :: ops) = firstInSlotZero n ops := by
        simp [firstInSlotZero, hmod]
      have hne : (0 : Nat) ≠ op.idx := fun e => hi (by rw [← e]; rfl)
      obtain ⟨c₁, hs, h₁⟩ := h.step op hi
      rw [hfirst, ← ih h₁ (by rwa [update_of_ne hne])]
      constructor
      · rintro ⟨c', hc⟩
        simp only [Cached.run, hs, exposed, Option.bind_eq_bind, Option.bind_some] at hc
        cases hr : Cached.run (pageStore T) ops c₁ with
        | none => simp [hr] at hc
        | some p =>
          simp only [hr, Option.bind_some, Option.pure_def, Option.some.injEq, Prod.mk.injEq,
            List.cons.injEq] at hc
          exact ⟨p.2, by rw [← hc.1.2]⟩
      · rintro ⟨c', hr⟩
        exact ⟨c', by simp [Cached.run, hs, hr, exposed]⟩

/-- **The cache refines the uncached store exactly when** the backend's page 0 is a zero page or
page 0 is not the first page accessed in slot 0. -/
theorem run_new_iff (init : Nat → T) (ops : List (Op T)) :
    (∃ c, Cached.run (pageStore T) ops (Cached.new init : Cached n T (Nat → T)) =
      some (exposed ops init, c)) ↔ init 0 = default ∨ firstInSlotZero n ops ≠ some 0 :=
  (fresh_new init).run_iff ops

/-- Three slots over a backend whose pages hold 7: page 3 evicts the zero page unseen. -/
theorem run_new_iff_evicted :
    ∃ c, Cached.run (pageStore Nat) [.accessReadOnly 3, .access 0 (· + 1), .accessReadOnly 0]
      (Cached.new (fun _ => 7) : Cached 3 Nat (Nat → Nat)) = some ([7, 7, 8], c) :=
  (run_new_iff (fun _ => 7) [.accessReadOnly 3, .access 0 (· + 1), .accessReadOnly 0]).2
    (.inr (by decide))

/-- A backend whose pages hold 7: the first read of page 0 exposes the slot's zero page. -/
theorem run_new_zero_page :
    ¬ ∃ c, Cached.run (pageStore Nat) [.accessReadOnly 0]
      (Cached.new (fun _ => 7) : Cached 3 Nat (Nat → Nat)) =
        some (exposed [.accessReadOnly 0] (fun _ => 7), c) := by
  rintro ⟨c, hc⟩
  simp [Cached.run, Cached.step, accessReadOnly, accessDM, Cached.new, mappedSlot, deref, setSlot,
    exposed] at hc

end CACHE.Cached
