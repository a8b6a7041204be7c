import Mathlib.Data.List.Forall2

/-!
# Loops that may stop early

A step takes a state to the next one or to an error. `Ends Q E` says how a computation ends: in a
state with `Q`, or in an error with `E`. `forRange_ends` is the invariant rule of a counting loop.
`Checks I C` says that it goes on exactly where `C` holds.
-/

namespace Loop

variable {ε S : Type}

/-- The computation ends in a state with `Q` or in an error with `E`. -/
def Ends (Q : S → Prop) (E : ε → Prop) : Except ε S → Prop
  | .ok s => Q s
  | .error e => E e

@[simp] theorem ends_ok {Q : S → Prop} {E : ε → Prop} {s : S} : Ends Q E (.ok s) ↔ Q s := Iff.rfl

@[simp] theorem ends_error {Q : S → Prop} {E : ε → Prop} {e : ε} : Ends Q E (.error e) ↔ E e :=
  Iff.rfl

@[simp] theorem ok_bind {T : Type} (s : S) (f : S → Except ε T) : (.ok s >>= f) = f s := rfl

theorem Ends.mono {Q Q' : S → Prop} {E E' : ε → Prop} {c : Except ε S} (h : Ends Q E c)
    (hQ : ∀ s, Q s → Q' s) (hE : ∀ e, E e → E' e) : Ends Q' E' c := by
  cases c with
  | ok s => exact hQ s h
  | error e => exact hE e h

theorem Ends.bind {T : Type} {Q : S → Prop} {R : T → Prop} {E : ε → Prop} {c : Except ε S}
    {f : S → Except ε T} (h : Ends Q E c) (hf : ∀ s, Q s → Ends R E (f s)) :
    Ends R E (c >>= f) := by
  cases c with
  | ok s => exact hf s h
  | error e => exact h

theorem Ends.and {Q Q' : S → Prop} {E E' : ε → Prop} {c : Except ε S} (h : Ends Q E c)
    (h' : Ends Q' E' c) : Ends (fun s => Q s ∧ Q' s) (fun e => E e ∧ E' e) c := by
  cases c with
  | ok s => exact ⟨h, h'⟩
  | error e => exact ⟨h, h'⟩

theorem Ends.of_ok {Q : S → Prop} {E : ε → Prop} {c : Except ε S} (h : Ends Q E c) {s : S}
    (hs : c = .ok s) : Q s := by
  subst hs
  exact h

/-- A computation that does not stop. -/
theorem Ends.exists_ok {Q : S → Prop} {E : ε → Prop} {c : Except ε S} (h : Ends Q E c)
    (hno : ∀ e, c = .error e → ¬ E e) : ∃ s, c = .ok s ∧ Q s := by
  cases c with
  | ok s => exact ⟨s, rfl, h⟩
  | error e => exact absurd h (hno e rfl)

/-- A computation that ends in a state went through one. -/
theorem bind_eq_ok {T : Type} {c : Except ε S} {f : S → Except ε T} {t : T}
    (h : (c >>= f) = .ok t) :
    ∃ s, c = .ok s ∧ f s = .ok t := by
  cases c with
  | ok s => exact ⟨s, rfl, h⟩
  | error e => cases h

/-- Go on if `c` holds, and stop for the reason `e` otherwise. -/
def require (c : Prop) [Decidable c] (e : ε) (s : S) : Except (ε × S) S :=
  if c then .ok s else .error (e, s)

theorem require_pos {c : Prop} [Decidable c] (hc : c) (e : ε) (s : S) : require c e s = .ok s :=
  if_pos hc

theorem require_neg {c : Prop} [Decidable c] (hc : ¬ c) (e : ε) (s : S) :
    require c e s = .error (e, s) := if_neg hc

theorem require_ends {c : Prop} [Decidable c] {Q : S → Prop} {E : ε × S → Prop} {e : ε} {s : S}
    (hpos : c → Q s) (hneg : ¬ c → E (e, s)) : Ends Q E (require c e s) := by
  unfold require
  split
  · exact hpos ‹c›
  · exact hneg ‹¬ c›

/-- A computation that goes on past a requirement meets it. -/
theorem of_require_bind {c : Prop} [Decidable c] {T : Type} {e : ε} {s : S}
    {f : S → Except (ε × S) T} {t : T} (h : (require c e s >>= f) = .ok t) : c ∧ f s = .ok t := by
  unfold require at h
  split at h
  · exact ⟨‹c›, h⟩
  · cases h

/-- A list of computations, one after the other. -/
theorem mapM_ends {T : Type} {f : T → Except ε S} {E : ε → Prop} {xs : List T}
    (h : ∀ x ∈ xs, Ends (fun _ => True) E (f x)) :
    Ends (List.Forall₂ (fun x y => f x = .ok y) xs) E (xs.mapM f) := by
  induction xs with
  | nil => exact .nil
  | cons x xs ih =>
    rw [List.mapM_cons]
    have hx := h x List.mem_cons_self
    cases hf : f x with
    | error e =>
      rw [hf] at hx
      exact hx
    | ok y =>
      exact (ih fun x hx => h x (List.mem_cons_of_mem _ hx)).bind fun ys hys => .cons hf hys

/-! ## Counting loops -/

/-- `for (i = 0; i < n; ++i)`. -/
def forRange : (n : Nat) → (Nat → S → Except ε S) → S → Except ε S
  | 0, _, s => .ok s
  | n + 1, body, s => forRange n body s >>= body n

@[simp] theorem forRange_zero (body : Nat → S → Except ε S) (s : S) :
    forRange 0 body s = .ok s := rfl

theorem forRange_succ (n : Nat) (body : Nat → S → Except ε S) (s : S) :
    forRange (n + 1) body s = forRange n body s >>= body n := rfl

/-- **The invariant rule**: what every step keeps holds at the end. -/
theorem forRange_ends {n : Nat} {body : Nat → S → Except ε S} {s : S} (I : Nat → S → Prop)
    {E : ε → Prop} (h0 : I 0 s) (hstep : ∀ i < n, ∀ s, I i s → Ends (I (i + 1)) E (body i s)) :
    Ends (I n) E (forRange n body s) := by
  induction n with
  | zero => exact h0
  | succ n ih =>
    exact (ih fun i hi => hstep i (by omega)).bind fun s hs => hstep n (by omega) s hs

theorem forRange_succ_left (n : Nat) (body : Nat → S → Except ε S) (s : S) :
    forRange (n + 1) body s = body 0 s >>= forRange n fun i => body (i + 1) := by
  induction n with
  | zero =>
    rw [forRange_succ, forRange_zero, ok_bind]
    exact (bind_pure (body 0 s)).symm
  | succ n ih => rw [forRange_succ, ih, bind_assoc]; rfl

/-- A loop that comes to its end went through its first round. -/
theorem forRange_first {n : Nat} {body : Nat → S → Except ε S} {s s' : S} (hn : 0 < n)
    (h : forRange n body s = .ok s') : ∃ s₁, body 0 s = .ok s₁ := by
  cases n with
  | zero => omega
  | succ n =>
    rw [forRange_succ_left] at h
    obtain ⟨s₁, h₁, -⟩ := bind_eq_ok h
    exact ⟨s₁, h₁⟩

/-- A loop that fails in its first round. -/
theorem forRange_eq_error {n : Nat} {body : Nat → S → Except ε S} {s : S} {e : ε} (hn : 0 < n)
    (h : body 0 s = .error e) : forRange n body s = .error e := by
  induction n with
  | zero => omega
  | succ n ih =>
    rw [forRange_succ]
    cases n with
    | zero => exact h
    | succ n =>
      rw [ih (by omega)]
      rfl

/-! ## Loops with a stride -/

/-- `for (p = begin, c = 0; p < end; p = advance(p), ++c)`, for `fuel` rounds at most: with none
left the loop ends in `stuck`. -/
def forStride (advance : Nat → Nat) (endPtr : Nat) (stuck : S → ε)
    (body : Nat → Nat → S → Except ε S) :
    (fuel p c : Nat) → S → Except ε S
  | 0, _, _, s => .error (stuck s)
  | fuel + 1, p, c, s =>
    if p < endPtr then
      body p c s >>= forStride advance endPtr stuck body fuel (advance p) (c + 1)
    else .ok s

/-- **The invariant rule**, for a property that does not depend on the round. -/
theorem forStride_keeps {advance : Nat → Nat} {endPtr : Nat} {stuck : S → ε}
    {body : Nat → Nat → S → Except ε S} {I : S → Prop} {E : ε → Prop}
    (hstuck : ∀ s, I s → E (stuck s)) (hstep : ∀ p < endPtr, ∀ c s, I s → Ends I E (body p c s))
    {fuel p c : Nat} {s : S} (h : I s) :
    Ends I E (forStride advance endPtr stuck body fuel p c s) := by
  induction fuel generalizing p c s with
  | zero => exact hstuck s h
  | succ fuel ih =>
    rw [forStride]
    by_cases hp : p < endPtr
    · rw [if_pos hp]
      exact (hstep p hp c s h).bind fun s hs => ih hs
    · rw [if_neg hp]
      exact h

/-- A loop that goes through `n` positions is a counting loop. -/
theorem forStride_eq_forRange {advance : Nat → Nat} {endPtr : Nat} {stuck : S → ε}
    {body : Nat → Nat → S → Except ε S} (pos : Nat → Nat) {n fuel : Nat}
    (hlt : ∀ k < n, pos k < endPtr) (hadv : ∀ k < n, advance (pos k) = pos (k + 1))
    (hend : endPtr ≤ pos n) (hfuel : n < fuel) (c : Nat) (s : S) :
    forStride advance endPtr stuck body fuel (pos 0) c s =
      forRange n (fun k => body (pos k) (c + k)) s := by
  induction n generalizing pos fuel c s with
  | zero =>
    obtain ⟨fuel, rfl⟩ := Nat.exists_eq_add_of_lt hfuel
    rw [forStride, if_neg (by omega)]
    rfl
  | succ n ih =>
    obtain ⟨fuel, rfl⟩ := Nat.exists_eq_add_of_lt hfuel
    rw [forStride, if_pos (hlt 0 (by omega)), hadv 0 (by omega), forRange_succ_left, Nat.add_zero]
    congr 1
    funext s
    rw [ih (fun k => pos (k + 1)) (fun k hk => hlt (k + 1) (by omega))
      (fun k hk => hadv (k + 1) (by omega)) hend (by omega)]
    congr 1
    funext k
    rw [Nat.add_assoc, Nat.add_comm 1]

/-- A loop whose steps never fail. -/
theorem forRange_eq_ok {n : Nat} {body : Nat → S → Except ε S} {s : S} (f : Nat → S)
    (h0 : f 0 = s) (hstep : ∀ i < n, body i (f i) = .ok (f (i + 1))) :
    forRange n body s = .ok (f n) := by
  induction n with
  | zero => rw [forRange_zero, h0]
  | succ n ih =>
    rw [forRange_succ, ih fun i hi => hstep i (by omega)]
    exact hstep n (by omega)

/-! ## Loops with a fixed step -/

/-- `for (; i < bound; i += step)`, for a positive step. -/
def forUp (bound step : Nat) (body : Nat → S → Except ε S) (i : Nat) (s : S) : Except ε S :=
  if i < bound ∧ 0 < step then body i s >>= forUp bound step body (i + step) else .ok s
termination_by bound - i

/-- `for (; i >= bound; i -= step)`, for a positive step. -/
def forDown (bound step : Nat) (body : Nat → S → Except ε S) (i : Nat) (s : S) : Except ε S :=
  if bound ≤ i ∧ 0 < step ∧ 0 < i then body i s >>= forDown bound step body (i - step) else .ok s
termination_by i

/-! ## Checks -/

/-- The computation goes on, in a state with `I`, where `C` holds, and stops where it does not. -/
def Checks (I : S → Prop) (C : Prop) (c : Except ε S) : Prop :=
  Ends (fun s => I s ∧ C) (fun _ => ¬ C) c

theorem Checks.congr {I : S → Prop} {C D : Prop} {c : Except ε S} (h : Checks I C c) (hCD : C ↔ D) :
    Checks I D c :=
  Ends.mono h (fun _ hs => ⟨hs.1, hCD.1 hs.2⟩) fun _ he hD => he (hCD.2 hD)

theorem Checks.ok {I : S → Prop} {s : S} (h : I s) : Checks I True (.ok s : Except ε S) :=
    ⟨h, trivial⟩

theorem Checks.bind {I : S → Prop} {C D : Prop} {c : Except ε S} {f : S → Except ε S}
    (h : Checks I C c) (hf : ∀ s, I s → Checks I D (f s)) : Checks I (C ∧ D) (c >>= f) := by
  cases c with
  | error e => exact fun hCD => h hCD.1
  | ok s =>
    obtain ⟨hs, hC⟩ := h
    exact (hf s hs).congr ⟨fun hD => ⟨hC, hD⟩, And.right⟩

theorem Checks.map {T : Type} {I : S → Prop} {J : T → Prop} {C : Prop} {c : Except ε S}
    (h : Checks I C c) (f : S → T) (hf : ∀ s, I s → J (f s)) : Checks J C (c.map f) := by
  cases c with
  | error e => exact h
  | ok s => exact ⟨hf s h.1, h.2⟩

theorem Checks.exists_ok_iff {I : S → Prop} {C : Prop} {c : Except ε S} (h : Checks I C c) :
    (∃ s, c = .ok s ∧ I s) ↔ C := by
  cases c with
  | error e =>
    refine ⟨?_, fun hC => absurd hC h⟩
    rintro ⟨_, he, _⟩
    cases he
  | ok s => exact ⟨fun _ => h.2, fun _ => ⟨s, rfl, h.1⟩⟩

theorem forRange_checks {n : Nat} {body : Nat → S → Except ε S} {I : S → Prop} {C : Nat → Prop}
    (h : ∀ i < n, ∀ s, I s → Checks I (C i) (body i s)) {s : S} (hs : I s) :
    Checks I (∀ i < n, C i) (forRange n body s) := by
  induction n with
  | zero => exact ⟨hs, fun i hi => absurd hi (Nat.not_lt_zero i)⟩
  | succ n ih =>
    refine ((ih fun i hi => h i (by omega)).bind (h n (by omega))).congr
      ⟨fun hc i hi => ?_, fun hc => ?_⟩
    · obtain hi | rfl : i < n ∨ i = n := by omega
      · exact hc.1 i hi
      · exact hc.2
    · exact ⟨fun i hi => hc i (by omega), hc n (by omega)⟩

theorem forUp_checks {bound step : Nat} {body : Nat → S → Except ε S} {I : S → Prop}
    {C : Nat → Prop}
    (hstep : 0 < step) (h : ∀ i, ∀ s, I s → Checks I (C i) (body i s)) (i : Nat)
    {s : S} (hs : I s) :
    Checks I (∀ k, i + k * step < bound → C (i + k * step)) (forUp bound step body i s) := by
  induction hd : bound - i using Nat.strongRecOn generalizing i s with
  | ind d ih =>
    unfold forUp
    by_cases hi : i < bound
    · rw [if_pos ⟨hi, hstep⟩]
      refine ((h i s hs).bind fun s hs => ih _ (by omega) (i + step) hs rfl).congr
        ⟨fun hc k hk => ?_, fun hc => ⟨?_, fun k hk => ?_⟩⟩
      · cases k with
        | zero => simpa using hc.1
        | succ k =>
          have hpos : i + (k + 1) * step = i + step + k * step := by rw [Nat.succ_mul]; omega
          rw [hpos] at hk ⊢
          exact hc.2 k hk
      · simpa using hc 0 (by simpa using hi)
      · have hpos : i + (k + 1) * step = i + step + k * step := by rw [Nat.succ_mul]; omega
        rw [← hpos] at hk ⊢
        exact hc (k + 1) hk
    · rw [if_neg fun hc => hi hc.1]
      exact ⟨hs, fun k hk => absurd (Nat.lt_of_le_of_lt (Nat.le_add_right ..) hk) hi⟩

theorem forDown_checks {bound step : Nat} {body : Nat → S → Except ε S} {I : S → Prop}
    {C : Nat → Prop} (hbound : 0 < bound) (hstep : 0 < step)
    (h : ∀ i, bound ≤ i → ∀ s, I s → Checks I (C i) (body i s)) (i : Nat) {s : S} (hs : I s) :
    Checks I (∀ k, k * step + bound ≤ i → C (i - k * step)) (forDown bound step body i s) := by
  induction hd : i using Nat.strongRecOn generalizing i s with
  | ind d ih =>
    subst hd
    unfold forDown
    by_cases hi : bound ≤ i
    · rw [if_pos ⟨hi, hstep, by omega⟩]
      refine ((h i hi s hs).bind fun s hs => ih _ (by omega) (i - step) hs rfl).congr
        ⟨fun hc k hk => ?_, fun hc => ⟨?_, fun k hk => ?_⟩⟩
      · cases k with
        | zero => simpa using hc.1
        | succ k =>
          rw [Nat.succ_mul] at hk ⊢
          rw [Nat.add_comm (k * step), ← Nat.sub_sub]
          exact hc.2 k (by omega)
      · simpa using hc 0 (by simpa using hi)
      · have hsucc := hc (k + 1)
        rw [Nat.succ_mul, Nat.add_comm (k * step), ← Nat.sub_sub] at hsucc
        exact hsucc (by omega)
    · rw [if_neg fun hc => hi hc.1]
      exact ⟨hs, fun k hk => by omega⟩

end Loop
