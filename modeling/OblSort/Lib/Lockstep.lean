import OblSort.Lib.Loop

/-!
# Two computations in lockstep

`Lockstep R E c c'`: two computations both end, in states that are related by `R`, or both stop, in
errors that are related by `E`. The rules take two runs of one program through its steps, branches
and loops: where the relation says that the two states look the same from outside, the runs look the
same from outside.
-/

namespace Loop

variable {ε ε' S S' T T' : Type}

def Lockstep (R : S → S' → Prop) (E : ε → ε' → Prop) : Except ε S → Except ε' S' → Prop
  | .ok s, .ok s' => R s s'
  | .error e, .error e' => E e e'
  | _, _ => False

variable {R : S → S' → Prop} {E : ε → ε' → Prop} {c : Except ε S} {c' : Except ε' S'}

theorem Lockstep.mono {Q : S → S' → Prop} (h : Lockstep R E c c') (hRQ : ∀ s s', R s s' → Q s s') :
    Lockstep Q E c c' := by
  cases c with
  | ok s =>
    cases c' with
    | ok s' => exact hRQ s s' h
    | error e' => exact h
  | error e => cases c' <;> exact h

/-- **The rule of composition.** -/
theorem Lockstep.bind {Q : T → T' → Prop} {f : S → Except ε T} {f' : S' → Except ε' T'}
    (h : Lockstep R E c c') (hf : ∀ s s', R s s' → Lockstep Q E (f s) (f' s')) :
    Lockstep Q E (c >>= f) (c' >>= f') := by
  cases c with
  | ok s =>
    cases c' with
    | ok s' => exact hf s s' h
    | error e' => exact h.elim
  | error e =>
    cases c' with
    | ok s' => exact h.elim
    | error e' => exact h

/-- The same requirement on both sides. -/
theorem require_lockstep {c : Prop} [Decidable c] {E : ε × S → ε' × S' → Prop} {e : ε} {e' : ε'}
    {s : S} {s' : S'} (h : R s s') (hE : E (e, s) (e', s')) :
    Lockstep R E (require c e s) (require c e' s') := by
  unfold require
  split
  · exact h
  · exact hE

/-- How the first computation ends, when it is known how the second one does. -/
theorem Lockstep.ends {Q : S' → Prop} {F : ε' → Prop} (h : Lockstep R E c c') (h' : Ends Q F c') :
    Ends (fun s => ∃ s', R s s' ∧ Q s') (fun e => ∃ e', E e e' ∧ F e') c := by
  cases c with
  | ok s =>
    cases c' with
    | ok s' => exact ⟨s', h, h'⟩
    | error e' => exact h.elim
  | error e =>
    cases c' with
    | ok s' => exact h.elim
    | error e' => exact ⟨e', h, h'⟩

/-- **The rule of counting loops**: what every round keeps, for a relation that may depend on the
round. -/
theorem forRange_lockstep {n : Nat} {body : Nat → S → Except ε S} {body' : Nat → S' → Except ε' S'}
    (I : Nat → S → S' → Prop) {s : S} {s' : S'} (h0 : I 0 s s')
    (hstep : ∀ i < n, ∀ s s', I i s s' → Lockstep (I (i + 1)) E (body i s) (body' i s')) :
    Lockstep (I n) E (forRange n body s) (forRange n body' s') := by
  induction n with
  | zero => exact h0
  | succ n ih => exact (ih fun i hi => hstep i (by omega)).bind (hstep n (by omega))

/-- **The rule of loops with a stride**, for a relation that every round keeps. -/
theorem forStride_lockstep {advance : Nat → Nat} {endPtr : Nat} {stuck : S → ε} {stuck' : S' → ε'}
    {body : Nat → Nat → S → Except ε S} {body' : Nat → Nat → S' → Except ε' S'}
    (hstuck : ∀ s s', R s s' → E (stuck s) (stuck' s'))
    (hstep : ∀ p < endPtr, ∀ c s s', R s s' → Lockstep R E (body p c s) (body' p c s'))
    {fuel p c : Nat} {s : S} {s' : S'} (h : R s s') :
    Lockstep R E (forStride advance endPtr stuck body fuel p c s)
      (forStride advance endPtr stuck' body' fuel p c s') := by
  induction fuel generalizing p c s s' with
  | zero => exact hstuck s s' h
  | succ fuel ih =>
    unfold forStride
    by_cases hp : p < endPtr
    · rw [if_pos hp, if_pos hp]
      exact (hstep p hp c s s' h).bind fun _ _ h => ih h
    · rw [if_neg hp, if_neg hp]
      exact h

end Loop
