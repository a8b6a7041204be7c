import OblSort.Server.Frontend
import OblSort.Server.Proof.Cached

/-!
# Nonces of the cached authenticated vector

`Cached` writes a dirty page back with `Write(i, in)`, which always passes counter 0, and the
constructor has encrypted the default page at every index with counter 0 already. So a page's
nonce never changes, and it is used for two contents as soon as one write-back carries a page that
is not the default page. `encryptions_unique_iff`: this is the only way.
-/

namespace EM.ExtVector

open CACHE Function

variable {n : Nat} [NeZero n] {T : Type}

/-- No nonce was used for two different pages. -/
def NonceUnique (log : List (FreshEncrypted T)) : Prop :=
  ∀ e ∈ log, ∀ e' ∈ log, e.nounce = e'.nounce → e.data = e'.data

/-- The access misses and evicts a dirty slot whose page is not `p`. -/
def EvictsOther (p : T) (op : Op T) (c : Cached n T (Frontend T)) : Prop :=
  (c.cache (Cached.mappedSlot n op.idx)).idx ≠ op.idx ∧
    (c.cache (Cached.mappedSlot n op.idx)).dirty = true ∧
    (c.cache (Cached.mappedSlot n op.idx)).val ≠ p

/-- Every access of the history finds a state in which it does not evict a dirty page other than
`p`. -/
def EvictsOnly (p : T) : List (Op T) → Cached n T (Frontend T) → Prop
  | [], _ => True
  | op :: ops, c => ¬ EvictsOther p op c ∧
      ∀ v c', Cached.step (Frontend.server T) op c = some (v, c') → EvictsOnly p ops c'

/-! ## The frontend's pages -/

/-- The pages below `P` are in the backend under their nonce of counter 0, and each of them was
once encrypted as the page `p`. -/
structure Encrypted (nn : Nounce) (P : Nat) (p : T) (f : Frontend T) : Prop where
  base : f.nounce = nn
  stored : ∀ i < P, ∃ v, f.pages i = some ⟨nn.forPage i 0, v⟩
  logged : ∀ i < P, ⟨nn.forPage i 0, p⟩ ∈ f.encryptions

variable {nn : Nounce} {P : Nat} {p : T} {f : Frontend T}

theorem Encrypted.write (h : Encrypted nn P p f) (i : Nat) (v : T) :
    Encrypted nn P p (f.write false i v 0) := by
  refine ⟨h.base, fun j hj => ?_, fun j hj => List.mem_cons_of_mem _ (h.logged j hj)⟩
  by_cases e : j = i
  · subst e; exact ⟨v, by simp [Frontend.write, h.base]⟩
  · simpa [Frontend.write, update_of_ne e] using h.stored j hj

theorem Encrypted.read (h : Encrypted nn P p f) {i : Nat} (hi : i < P) :
    ∃ v, f.read false i 0 = some v := by
  obtain ⟨v, hv⟩ := h.stored i hi
  exact ⟨v, by simp [Frontend.read, hv, FreshEncrypted.decrypt, h.base]⟩

/-- One iteration of the constructor's loop. -/
theorem Encrypted.write_next {k : Nat} (h : Encrypted nn k p f) :
    Encrypted nn (k + 1) p (f.write false k p 0) := by
  refine ⟨h.base, fun j hj => ?_, fun j hj => ?_⟩
  · by_cases e : j = k
    · subst e; exact ⟨p, by simp [Frontend.write, h.base]⟩
    · simpa [Frontend.write, update_of_ne e] using h.stored j (by omega)
  · by_cases e : j = k
    · subst e; simp [Frontend.write, h.base]
    · exact List.mem_cons_of_mem _ (h.logged j (by omega))

/-- The constructor's loop, `k` pages in. -/
theorem encrypted_loop (nn : Nounce) (p : T) (k : Nat) :
    Encrypted nn k p ((List.range k).foldl (fun f i => f.write false i p 0)
      ⟨nn, p, fun _ => false, fun _ => none, []⟩) ∧
    ∀ e ∈ ((List.range k).foldl (fun f i => f.write false i p 0)
      (⟨nn, p, fun _ => false, fun _ => none, []⟩ : Frontend T)).encryptions, e.data = p := by
  induction k with
  | zero => exact ⟨⟨rfl, by simp, by simp⟩, by simp⟩
  | succ k ih =>
    rw [List.range_succ, List.foldl_append]
    refine ⟨ih.1.write_next, fun e he => ?_⟩
    rcases List.mem_cons.1 he with rfl | he
    · rfl
    · exact ih.2 e he

/-! ## One access -/

/-- The cache's slots refer to pages of the vector. -/
structure Inv (nn : Nounce) (P : Nat) (p : T) (c : Cached n T (Frontend T)) : Prop where
  enc : Encrypted nn P p c.server
  idx : ∀ k, (c.cache k).idx < P

/-- One access to a page of the vector: it succeeds, and it encrypts nothing or, when it evicts a
dirty slot, the page of that slot under the slot's own nonce. -/
theorem Inv.step {c : Cached n T (Frontend T)} (h : Inv nn P p c) {op : Op T} (ho : op.idx < P) :
    ∃ v c', Cached.step (Frontend.server T) op c = some (v, c') ∧ Inv nn P p c' ∧
      c'.server.encryptions =
        (if (c.cache (Cached.mappedSlot n op.idx)).idx ≠ op.idx ∧
            (c.cache (Cached.mappedSlot n op.idx)).dirty = true then
          [⟨nn.forPage (c.cache (Cached.mappedSlot n op.idx)).idx 0,
            (c.cache (Cached.mappedSlot n op.idx)).val⟩] else []) ++ c.server.encryptions := by
  -- the reference's slot gets page `op.idx`; the other slots keep theirs
  have hidx : ∀ (f : Frontend T) (v w : T) (d : Bool) k, ((Cached.store (Cached.mappedSlot n op.idx)
      w (Cached.setSlot { c with server := f } (Cached.mappedSlot n op.idx)
        ⟨v, op.idx, d⟩)).cache k).idx < P := fun f v w d k => by
    simp only [Cached.store, Cached.setSlot]
    by_cases ek : k = Cached.mappedSlot n op.idx
    · subst ek; simpa using ho
    · simpa [update_of_ne ek] using h.idx k
  rw [Cached.step_eq]
  by_cases hi : (c.cache (Cached.mappedSlot n op.idx)).idx = op.idx
  · rw [Cached.accessDM_hit _ _ hi]
    refine ⟨_, _, rfl, ⟨h.enc, hidx c.server _ _ _⟩, ?_⟩
    simp [Cached.store, Cached.setSlot, hi]
  · have henc : Encrypted nn P p (Cached.writtenBack (Frontend.server T)
        (Cached.mappedSlot n op.idx) c) := by
      unfold Cached.writtenBack
      split
      · exact h.enc.write _ _
      · exact h.enc
    obtain ⟨v, hv⟩ := henc.read ho
    rw [Cached.accessDM_miss _ _ hi, show (Frontend.server T).read op.idx _ = some v from hv]
    refine ⟨_, _, rfl, ⟨henc, hidx _ _ _ _⟩, ?_⟩
    simp only [hi, ne_eq, not_false_eq_true, true_and, Cached.store, Cached.setSlot,
      Cached.writtenBack]
    split
    · simp [Frontend.server, Frontend.write, h.enc.base]
    · rfl

/-! ## Access histories -/

/-- From a state whose encryptions so far are all of the page `p`. -/
theorem Inv.run {c : Cached n T (Frontend T)} (h : Inv nn P p c) :
    ∀ {ops : List (Op T)}, (∀ op ∈ ops, op.idx < P) →
    ∃ vs c', Cached.run (Frontend.server T) ops c = some (vs, c') ∧
      c.server.encryptions ⊆ c'.server.encryptions ∧
      (EvictsOnly p ops c → (∀ e ∈ c.server.encryptions, e.data = p) →
        ∀ e ∈ c'.server.encryptions, e.data = p) ∧
      (NonceUnique c'.server.encryptions → EvictsOnly p ops c) := by
  intro ops
  induction ops generalizing c with
  | nil => exact fun _ => ⟨[], c, rfl, fun _ he => he, fun _ hd => hd, fun _ => trivial⟩
  | cons op ops ih =>
    intro ho
    obtain ⟨v, c₁, hs, h₁, hlog⟩ := h.step (ho op (.head _))
    obtain ⟨vs, c₂, hr, hsub, hkeep, huniq⟩ := ih h₁ fun o hm => ho o (.tail _ hm)
    refine ⟨v :: vs, c₂, by simp [Cached.run, hs, hr], fun e he => ?_, fun hev hd => ?_,
      fun hu => ⟨?_, fun v' c' hs' => ?_⟩⟩
    · exact hsub (by rw [hlog]; exact List.mem_append_right _ he)
    · refine hkeep (hev.2 v c₁ hs) fun e he => ?_
      rw [hlog] at he
      rcases List.mem_append.1 he with he | he
      · split at he
        · rename_i hc
          rw [List.mem_singleton.1 he]
          by_contra hne
          exact hev.1 ⟨hc.1, hc.2, hne⟩
        · cases he
      · exact hd e he
    · -- the write-back and the constructor's encryption share the slot's nonce
      rintro ⟨hi, hdirty, hne⟩
      have h1 : ⟨nn.forPage (c.cache (Cached.mappedSlot n op.idx)).idx 0,
          (c.cache (Cached.mappedSlot n op.idx)).val⟩ ∈ c₁.server.encryptions := by
        rw [hlog, if_pos ⟨hi, hdirty⟩]; exact .head _
      have h2 := h₁.enc.logged _ (h.idx (Cached.mappedSlot n op.idx))
      exact hne (hu _ (hsub h1) _ (hsub h2) rfl)
    · rw [hs] at hs'
      obtain ⟨rfl, rfl⟩ : v = v' ∧ c₁ = c' := by simpa using hs'
      exact huniq hu

variable [Inhabited T]

theorem inv_new (nn : Nounce) (itemPerPage N : Nat) (p : T) :
    Inv nn (pageCount itemPerPage N) p (ExtVector.new n nn itemPerPage N p) :=
  ⟨(encrypted_loop nn p _).1, fun _ => Nat.succ_pos _⟩

/-- **No nonce is used for two pages exactly when** no access evicts a dirty page that differs from
the default page the vector was built with. -/
theorem encryptions_unique_iff (nn : Nounce) (itemPerPage N : Nat) (p : T) (ops : List (Op T))
    (ho : ∀ op ∈ ops, op.idx < pageCount itemPerPage N) :
    ∃ vs c, Cached.run (Frontend.server T) ops (ExtVector.new n nn itemPerPage N p) =
        some (vs, c) ∧
      (NonceUnique c.server.encryptions ↔
        EvictsOnly p ops (ExtVector.new n nn itemPerPage N p)) := by
  obtain ⟨vs, c, hr, -, hkeep, huniq⟩ := (inv_new (n := n) nn itemPerPage N p).run ho
  refine ⟨vs, c, hr, huniq, fun hev e he e' he' _ => ?_⟩
  have hd := hkeep hev (encrypted_loop nn p _).2
  rw [hd e he, hd e' he']

/-- Reads never make a page dirty: two pages of one slot, read in turn. -/
theorem encryptions_unique_iff_reads :
    ∃ vs c, Cached.run (Frontend.server Nat) [.accessReadOnly 0, .accessReadOnly 1]
        (ExtVector.new 1 ⟨0, 0⟩ 1 1 0) = some (vs, c) ∧
      NonceUnique c.server.encryptions := by
  obtain ⟨vs, c, hr, h⟩ := encryptions_unique_iff (n := 1) ⟨0, 0⟩ 1 1 0
    [.accessReadOnly 0, .accessReadOnly 1] (by decide)
  refine ⟨vs, c, hr, h.2 ⟨?_, fun v c' hs => ⟨?_, fun _ _ _ => trivial⟩⟩⟩
  · rintro ⟨-, hd, -⟩
    cases hd
  · obtain rfl : _ = c' := (Prod.ext_iff.1 (Option.some.inj hs)).2
    rintro ⟨-, hd, -⟩
    cases hd

/-- One page is changed and then evicted by the other: its nonce, already used for the default
page, encrypts the changed page. -/
theorem encryptions_nonce_reused :
    ∃ vs c, Cached.run (Frontend.server Nat) [.access 0 (· + 1), .accessReadOnly 1]
        (ExtVector.new 1 ⟨0, 0⟩ 1 1 0) = some (vs, c) ∧
      ¬ NonceUnique c.server.encryptions := by
  refine ⟨_, _, rfl, fun h => ?_⟩
  have := h ⟨⟨0, 0⟩, 1⟩ (by decide) ⟨⟨0, 0⟩, 0⟩ (by decide) rfl
  exact absurd this (by decide)

end EM.ExtVector
