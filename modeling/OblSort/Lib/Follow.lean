import OblSort.Lib.Loop

/-!
# Computations that follow another one

Two programs with one control flow, over states of which one is an image of the other. `Follows`
says that the second does on the image what the first does, as far as the first ends or stops in a
state that counts: when what a step has left behind counts, so does what it began with. What ends or
stops in other states is left open, so the first program may go its own way once it has left the
states that count.
-/

namespace Loop

variable {ε S T : Type}

/-- From `π s`, `f'` ends or stops in the image of where `f` does from `s`, if that is a `good`
state, or a stop that `halts` says to count; and `s` is good then. -/
structure Follows (π : S → T) (good : S → Prop) (halts : ε → S → Prop) (f : S → Except (ε × S) S)
    (f' : T → Except (ε × T) T) : Prop where
  ends : ∀ s, Ends (fun s' => good s' → good s ∧ f' (π s) = .ok (π s'))
    (fun e => halts e.1 e.2 → good s ∧ f' (π s) = .error (e.1, π e.2)) (f s)

variable {π : S → T} {good : S → Prop} {halts : ε → S → Prop} {f g : S → Except (ε × S) S}
  {f' g' : T → Except (ε × T) T}

/-- A step that does not fail. -/
theorem Follows.step {h : S → S} {h' : T → T} (hgood : ∀ s, good (h s) → good s)
    (himage : ∀ s, h' (π s) = π (h s)) :
    Follows π good halts (fun s => .ok (h s)) (fun t => .ok (h' t)) :=
  ⟨fun s hs => ⟨hgood s hs, congrArg Except.ok (himage s)⟩⟩

theorem Follows.skip : Follows π good halts .ok .ok := ⟨fun _ hs => ⟨hs, rfl⟩⟩

/-- **The rule of composition.** -/
theorem Follows.comp (hf : Follows π good halts f f') (hg : Follows π good halts g g') :
    Follows π good halts (fun s => f s >>= g) (fun t => f' t >>= g') := by
  constructor
  intro s
  refine Ends.bind ((hf.ends s).mono (fun s₁ h₁ => h₁) fun e he hhalts => ?_) fun s₁ h₁ =>
    (hg.ends s₁).mono (fun s₂ h₂ hs₂ => ?_) fun e he hhalts => ?_
  · obtain ⟨hs, heq⟩ := he hhalts
    exact ⟨hs, congrArg (· >>= g') heq⟩
  · obtain ⟨hs₁, heq₂⟩ := h₂ hs₂
    obtain ⟨hs, heq₁⟩ := h₁ hs₁
    exact ⟨hs, (congrArg (· >>= g') heq₁).trans heq₂⟩
  · obtain ⟨hs₁, heq₂⟩ := he hhalts
    obtain ⟨hs, heq₁⟩ := h₁ hs₁
    exact ⟨hs, (congrArg (· >>= g') heq₁).trans heq₂⟩

theorem Follows.ite {c : Prop} [Decidable c] (hf : Follows π good halts f f')
    (hg : Follows π good halts g g') :
    Follows π good halts (fun s => if c then f s else g s) (fun t => if c then f' t else g' t) := by
  split
  · exact hf
  · exact hg

/-- The same requirement on both sides. -/
theorem require_follows {c : Prop} [Decidable c] {e : ε} (hhalts : ∀ s, halts e s → good s) :
    Follows π good halts (require c e) (require c e) :=
  Follows.ite .skip ⟨fun s hs => ⟨hhalts s hs, rfl⟩⟩

/-- **The rule of counting loops.** -/
theorem forRange_follows {n : Nat} {body : Nat → S → Except (ε × S) S}
    {body' : Nat → T → Except (ε × T) T} (h : ∀ i, Follows π good halts (body i) (body' i)) :
    Follows π good halts (forRange n body) (forRange n body') := by
  induction n with
  | zero => exact .skip
  | succ n ih => exact ih.comp (h n)

/-- **The rule of loops with a stride**, for a loop that is stuck for one reason. -/
theorem forStride_follows {advance : Nat → Nat} {endPtr : Nat} {stuck : ε}
    {body : Nat → Nat → S → Except (ε × S) S} {body' : Nat → Nat → T → Except (ε × T) T}
    (hstuck : ∀ s, halts stuck s → good s) (h : ∀ p c, Follows π good halts (body p c) (body' p c))
    (fuel p c : Nat) :
    Follows π good halts (forStride advance endPtr (fun s => (stuck, s)) body fuel p c)
      (forStride advance endPtr (fun s => (stuck, s)) body' fuel p c) := by
  induction fuel generalizing p c with
  | zero => exact ⟨fun s hs => ⟨hstuck s hs, rfl⟩⟩
  | succ fuel ih => exact ((h p c).comp (ih (advance p) (c + 1))).ite .skip

end Loop
