import OblSort.Lib.Loop
import OblSort.Lib.Store

/-!
# Versions of pages

Every write of a page has a counter, and a read says which counter it expects. A history of such
operations is newest first. `Reads` says that every read asks for the last write of its page and
gives what was written, unless it fails; `Rising` that the counters of a page go up, so that no page
is written twice with one counter (`Rising.nodup`).

`Stamps` says that some pages have got a value. When they are divided into parts, a loop that gives
it to the parts, one after the other, gives it to all of them (`Parts.loop`).
-/

namespace Schedule

open Loop Store

/-! ## Histories -/

section Histories

variable {P : Type}

/-- An operation on a page; a read that fails has no result. -/
inductive Event (P : Type) where
  | write (page counter : Nat) (value : P)
  | read (page counter : Nat) (result : Option P)
  deriving Repr, DecidableEq

/-- The last write of a page: its counter and its value. -/
def lastWrite (page : Nat) : List (Event P) → Option (Nat × P)
  | [] => none
  | .write q counter value :: es => if q = page then some (counter, value) else lastWrite page es
  | .read _ _ _ :: es => lastWrite page es

/-- The pages and the counters of the writes. -/
def writes : List (Event P) → List (Nat × Nat)
  | [] => []
  | .write page counter _ :: es => (page, counter) :: writes es
  | .read _ _ _ :: es => writes es

/-- Every read has the counter of the last write of its page, and it fails or gives the value. -/
def Reads : List (Event P) → Prop
  | [] => True
  | .write _ _ _ :: es => Reads es
  | .read page counter result :: es =>
    (∃ value, lastWrite page es = some (counter, value) ∧ (result = none ∨ result = some value)) ∧
      Reads es

/-- Every write has a greater counter than the last write of its page. -/
def Rising : List (Event P) → Prop
  | [] => True
  | .write page counter _ :: es =>
    (∀ last, lastWrite page es = some last → last.1 < counter) ∧ Rising es
  | .read _ _ _ :: es => Rising es

variable {es : List (Event P)} {page counter : Nat} {value : P}

theorem mem_writes : (page, counter) ∈ writes es ↔ ∃ value, .write page counter value ∈ es := by
  induction es with
  | nil => simp [writes]
  | cons e es ih =>
    cases e with
    | write q c v =>
      rw [writes, List.mem_cons, ih]
      constructor
      · rintro (h | ⟨value, h⟩)
        · cases h
          exact ⟨v, List.mem_cons_self⟩
        · exact ⟨value, List.mem_cons_of_mem _ h⟩
      · rintro ⟨value, h⟩
        rcases List.mem_cons.1 h with h | h
        · cases h
          exact .inl rfl
        · exact .inr ⟨value, h⟩
    | read q c r => simp [writes, ih]

/-- The last write of a page has the greatest counter, and no other one has it. -/
theorem Rising.last (h : Rising es) (hmem : .write page counter value ∈ es) :
    ∃ last, lastWrite page es = some last ∧ counter ≤ last.1 ∧
    (counter = last.1 → value = last.2) := by
  induction es with
  | nil => cases hmem
  | cons e es ih =>
    cases e with
    | write q c v =>
      rw [lastWrite]
      rcases List.mem_cons.1 hmem with heq | hmem
      · cases heq
        exact ⟨_, if_pos rfl, Nat.le_refl _, fun _ => rfl⟩
      · obtain ⟨last, hlast, hle, hval⟩ := ih h.2 hmem
        by_cases hq : q = page
        · subst hq
          have hlt := h.1 last hlast
          exact ⟨_, if_pos rfl, by dsimp only; omega, fun heq => by dsimp only at heq; omega⟩
        · exact ⟨last, by rwa [if_neg hq], hle, hval⟩
    | read q c r =>
      rcases List.mem_cons.1 hmem with heq | hmem
      · cases heq
      · exact ih h hmem

/-- **No page is written twice with one counter.** -/
theorem Rising.nodup (h : Rising es) : (writes es).Nodup := by
  induction es with
  | nil => exact List.nodup_nil
  | cons e es ih =>
    cases e with
    | write page counter value =>
      refine List.nodup_cons.2 ⟨fun hmem => ?_, ih h.2⟩
      obtain ⟨value', hmem⟩ := mem_writes.1 hmem
      obtain ⟨last, hlast, hle, -⟩ := Rising.last h.2 hmem
      have := h.1 last hlast
      omega
    | read page counter result => exact ih h

theorem mem_of_lastWrite (h : lastWrite page es = some (counter, value)) :
    .write page counter value ∈ es := by
  induction es with
  | nil => cases h
  | cons e es ih =>
    cases e with
    | write q c v =>
      rw [lastWrite] at h
      split at h
      · rename_i hq
        cases h
        rw [hq]
        exact List.mem_cons_self
      · exact List.mem_cons_of_mem _ (ih h)
    | read q c r => exact List.mem_cons_of_mem _ (ih h)

end Histories

/-! ## Parts -/

section Parts

variable {β : Type} {pos : Nat → Nat} {n : Nat} {v : β} {m m' : Nat → β}

/-- The `n` pages have got the value `v`; the others are as they were. -/
structure Stamps (pos : Nat → Nat) (n : Nat) (v : β) (m m' : Nat → β) : Prop where
  here : ∀ k < n, m' (pos k) = v
  frame : ∀ p, (∀ k < n, pos k ≠ p) → m' p = m p

theorem Stamps.zero : Stamps pos 0 v m m :=
    ⟨fun _ hk => absurd hk (Nat.not_lt_zero _), fun _ _ => rfl⟩

/-- One page more. -/
theorem Stamps.succ (h : Stamps pos n v m m') :
    Stamps pos (n + 1) v m (Function.update m' (pos n) v) where
  here k hk := by
    by_cases hp : pos k = pos n
    · rw [hp, Function.update_self]
    · have hkn : k ≠ n := fun hkn => hp (hkn ▸ rfl)
      rw [Function.update_of_ne hp, h.here k (by omega)]
  frame p hp := by
    rw [Function.update_of_ne (hp n (by omega)).symm, h.frame p fun k hk => hp k (by omega)]

/-- The same pages get another value. -/
theorem Stamps.again {v' : β} {m'' : Nat → β} (h : Stamps pos n v m m')
    (h' : Stamps pos n v' m' m'') :
    Stamps pos n v' m m'' where
  here := h'.here
  frame p hp := (h'.frame p hp).trans (h.frame p hp)

/-- `N` pages are divided into `R` parts of `W`: page `j` of part `r` is `idx r j`. -/
structure Parts (idx : Nat → Nat → Nat) (R W N : Nat) : Prop where
  lt : ∀ r < R, ∀ j < W, idx r j < N
  cover : ∀ q < N, ∃ r < R, ∃ j < W, idx r j = q
  disjoint : ∀ r < R, ∀ j < W, ∀ r' < R, ∀ j' < W, idx r j = idx r' j' → r = r'

/-- The rows of a grid. -/
theorem parts_rows (R W : Nat) : Parts (fun r j => r * W + j) R W (R * W) where
  lt _ hr _ hj := grid_lt hr hj
  cover q hq := by
    have hW : 0 < W := Nat.pos_of_ne_zero fun h => by simp [h] at hq
    exact ⟨q / W, (Nat.div_lt_iff_lt_mul hW).2 hq, q % W, Nat.mod_lt _ hW, Nat.div_add_mod' q W⟩
  disjoint r _ j hj r' _ j' hj' h := by
    have h : 0 + r * W + j = 0 + r' * W + j' := by simpa using h
    exact (grid_inj hj hj' h).1

/-- The columns of a grid. -/
theorem parts_columns (R W : Nat) : Parts (fun r j => j * R + r) R W (W * R) where
  lt _ hr _ hj := grid_lt hj hr
  cover q hq := by
    obtain ⟨j, hj, r, hr, h⟩ := (parts_rows W R).cover q hq
    exact ⟨r, hr, j, hj, h⟩
  disjoint r hr j _ r' hr' j' _ h := by
    have h : 0 + j * R + r = 0 + j' * R + r' := by simpa using h
    exact (grid_inj hr hr' h).2

variable {ε S : Type} {idx : Nat → Nat → Nat} {R W N : Nat}

/-- **A loop over the parts**, each round of which gives its part the value `new`. -/
theorem Parts.loop (hparts : Parts idx R W N) (pos : Nat → Nat) (old new : β) (Inv : S → Prop)
    (cur : S → Nat → β) (hpos : ∀ q < N, ∀ q' < N, pos q = pos q' → q = q')
    {E : ε → Prop} {body : Nat → S → Except ε S}
    (hbody : ∀ r < R, ∀ s, Inv s → (∀ j < W, cur s (pos (idx r j)) = old) →
      Ends (fun s' => Inv s' ∧ Stamps (fun j => pos (idx r j)) W new (cur s) (cur s')) E (body r s))
    {s : S} (hs : Inv s) (hold : ∀ q < N, cur s (pos q) = old) :
    Ends (fun s' => Inv s' ∧ Stamps pos N new (cur s) (cur s')) E (forRange R body s) := by
  refine (forRange_ends (fun n s' => Inv s' ∧ (∀ r < n, ∀ j < W, cur s' (pos (idx r j)) = new) ∧
    ∀ p, (∀ r < n, ∀ j < W, pos (idx r j) ≠ p) → cur s' p = cur s p)
    ⟨hs, fun _ hr => absurd hr (Nat.not_lt_zero _), fun _ _ => rfl⟩ ?_).mono ?_ fun _ he => he
  · rintro n hn s₁ ⟨hs₁, hdone, hframe⟩
    have hne : ∀ r < n, ∀ j < W, ∀ j' < W, pos (idx r j) ≠ pos (idx n j') :=
      fun r hr j hj j' hj' h => by
      have hidx := hpos _ (hparts.lt r (by omega) j hj) _ (hparts.lt n hn j' hj') h
      have := hparts.disjoint r (by omega) j hj n hn j' hj' hidx
      omega
    refine (hbody n hn s₁ hs₁ fun j hj => ?_).mono (fun s₂ hrow => ⟨hrow.1, fun r hr j hj => ?_,
      fun p hp => ?_⟩) fun _ he => he
    · rw [hframe _ fun r hr j' hj' => hne r hr j' hj' j hj, hold _ (hparts.lt n hn j hj)]
    · by_cases hrn : r = n
      · subst hrn
        exact hrow.2.here j hj
      · rw [hrow.2.frame _ fun j' hj' h => hne r (by omega) j hj j' hj' h.symm,
          hdone r (by omega) j hj]
    · rw [hrow.2.frame p fun j hj => hp n (by omega) j hj, hframe p fun r hr j hj =>
        hp r (by omega) j hj]
  · rintro s' ⟨hs', hdone, hframe⟩
    refine ⟨hs', fun q hq => ?_, fun p hp => ?_⟩
    · obtain ⟨r, hr, j, hj, rfl⟩ := hparts.cover q hq
      exact hdone r hr j hj
    · exact hframe p fun r hr j hj => hp _ (hparts.lt r hr j hj)

end Parts

end Schedule
