import OblSort.Proof.ReplayVector

/-!
# Vectors that do the same

`Tracks` relates two vectors: on the image of a state, the second does what the first does on the
state. `Vector.witnessed` carries plain pages along with a vector and notes whether its reads have
agreed with them. A replaying vector that is used as `Versioned` says agrees with its plain pages
(`witnessed_versioned`), so what a program computes on it is what it computes on plain pages.
-/

namespace EM.DynamicPageVector

open Loop Schedule

variable {σ σ' P : Type}

/-- `V'` does on the image of a state what `V` does on the state, when that leaves a `good` state
behind. Reads that fail are left open unless `fails`. -/
structure Tracks (V : Vector σ P) (V' : Vector σ' P) (π : σ → σ') (good : σ → Prop) (fails : Prop) :
    Prop where
  write : ∀ i p c s, V'.write i p c (π s) = π (V.write i p c s)
  write_good : ∀ i p c s, good (V.write i p c s) → good s
  read : ∀ i c s, good (V.read i c s).2 → ((V.read i c s).1 = none → fails) →
    V'.read i c (π s) = ((V.read i c s).1, π (V.read i c s).2)
  read_good : ∀ i c s, good (V.read i c s).2 → good s

/-! ## Plain pages alongside -/

/-- A state with plain pages, and whether what was read has agreed with them. -/
structure Witnessed (σ P : Type) where
  state : σ
  pages : Nat → P
  agreed : Prop

/-- A vector with plain pages alongside. -/
def Vector.witnessed (V : Vector σ P) : Vector (Witnessed σ P) P where
  write i p counter w := ⟨V.write i p counter w.state, Function.update w.pages i p, w.agreed⟩
  read i counter w :=
    let r := V.read i counter w.state
    (r.1, ⟨r.2, w.pages, w.agreed ∧ ∀ p, r.1 = some p → p = w.pages i⟩)

theorem witnessed_tracks (V : Vector σ P) :
    Tracks V.witnessed V Witnessed.state (fun _ => True) True where
  write _ _ _ _ := rfl
  write_good _ _ _ _ h := h
  read _ _ _ _ _ := rfl
  read_good _ _ _ h := h

/-- Plain pages do the same, as long as what is read agrees with them. -/
theorem witnessed_tracks_plain (V : Vector σ P) :
    Tracks V.witnessed (.plain P) Witnessed.pages Witnessed.agreed False where
  write _ _ _ _ := rfl
  write_good _ _ _ _ h := h
  read i c w h hread := by
    cases hr : (V.read i c w.state).1 with
    | none => exact (hread hr).elim
    | some p =>
      have hp : p = w.pages i := h.2 p hr
      simp only [Vector.plain, Vector.witnessed, hr, hp]
  read_good _ _ _ h := h.1

/-! ## Replaying vectors -/

/-- A replaying server that is used as `Versioned` says, with plain pages that hold what was last
written to each page. -/
structure Mirrored (w : Witnessed (ReplayServer P) P) : Prop where
  kept : w.state.Kept
  pages : ∀ i c p, lastWrite i w.state.events = some (c, p) → w.pages i = p
  agreed : w.agreed

theorem mirrored_new (nounce : Nounce) (pages : Nat → P) :
    Mirrored (⟨.new nounce, pages, True⟩ : Witnessed (ReplayServer P) P) :=
  ⟨ReplayServer.kept_new nounce, fun _ _ _ h =>
    absurd h (by simp [ReplayServer.new, lastWrite]), trivial⟩

/-- **A replaying vector agrees with plain pages** when every read has the current counter of its
page. -/
theorem witnessed_versioned (answer : Backend P) :
    Versioned (Vector.replaying answer).witnessed Mirrored (fun w => w.state.counter)
      (answer ≠ Backend.honest P) where
  write {w i c} p h hi hc hlt := by
    obtain ⟨hkept, hcur⟩ := (replaying_versioned answer).write p h.kept hi hc hlt
    refine ⟨⟨hkept, fun j c' p' hlast => ?_, h.agreed⟩, hcur⟩
    rw [Vector.witnessed] at hlast ⊢
    change lastWrite j (.write i c p :: w.state.events) = _ at hlast
    rw [lastWrite] at hlast
    by_cases hj : i = j
    · subst hj
      rw [if_pos rfl] at hlast
      cases hlast
      exact Function.update_self ..
    · rw [if_neg hj] at hlast
      exact (Function.update_of_ne (Ne.symm hj) ..).trans (h.pages j c' p' hlast)
  read {w i c} h hcur := by
    obtain ⟨hkept, hkeep, hnone⟩ := (replaying_versioned answer).read h.kept hcur
    refine ⟨⟨hkept, h.pages, h.agreed, fun p hp => ?_⟩, hkeep, hnone⟩
    obtain ⟨⟨value, hlast, hresult⟩, -⟩ := hkept.reads
    rw [h.pages i c value hlast]
    rcases hresult with hresult | hresult
    · exact absurd (hp.symm.trans hresult) (Option.some_ne_none p)
    · exact Option.some.inj (hp.symm.trans hresult)

/-- Answers with what was stored last, at whatever place. -/
def Backend.newest (P : Type) : Backend P := fun _ _ _ => 0

end EM.DynamicPageVector
