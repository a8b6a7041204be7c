import Mathlib.Logic.Basic

/-!
# Computations that record events

`Traced ε β`: a computation with a result in `β` that records events of `ε` as it goes; it may stop
without a result. `Agree R` compares two runs: if both have a result they record the same events,
and their results are related by `R`. Its rules follow the structure of the computation, so that
secret values may flow everywhere except into what is recorded.
-/

namespace Trace

/-- The result with the events recorded, or nothing when the computation stops. -/
def Traced (ε β : Type) : Type := Option (β × List ε)

namespace Traced

variable {ε β γ : Type}

protected def pure (b : β) : Traced ε β := some (b, [])

protected def bind (c : Traced ε β) (f : β → Traced ε γ) : Traced ε γ :=
  match c with
  | none => none
  | some (b, es) =>
    match f b with
    | none => none
    | some (r, es') => some (r, es ++ es')

instance : Monad (Traced ε) where
  pure := Traced.pure
  bind := Traced.bind

/-- Record an event. -/
def record (e : ε) : Traced ε Unit := some ((), [e])

/-- Stop without a result. -/
def stop : Traced ε β := none

/-- The same computation with its events under other names. -/
def relabel {ε' : Type} (f : ε → ε') (c : Traced ε β) : Traced ε' β :=
  Option.map (fun r => (r.1, r.2.map f)) c

/-- The result. -/
def value (c : Traced ε β) : Option β := Option.map Prod.fst c

/-- The events of a computation with a result. -/
def trace (c : Traced ε β) : Option (List ε) := Option.map Prod.snd c

/-! ## Results -/

@[simp] theorem value_pure (b : β) : (pure b : Traced ε β).value = some b := rfl

@[simp] theorem value_record (e : ε) : (record e).value = some () := rfl

@[simp] theorem value_stop : (stop : Traced ε β).value = none := rfl

@[simp] theorem value_bind (c : Traced ε β) (f : β → Traced ε γ) :
    (c >>= f).value = c.value.bind fun b => (f b).value := by
  cases c with
  | none => rfl
  | some r =>
    obtain ⟨b, es⟩ := r
    change Option.map Prod.fst (Traced.bind (some (b, es)) f) = Option.map Prod.fst (f b)
    cases h : f b with
    | none => simp [Traced.bind, h]
    | some r' => simp [Traced.bind, h]

@[simp] theorem value_relabel {ε' : Type} (f : ε → ε') (c : Traced ε β) :
    (c.relabel f).value = c.value := by
  cases c <;> rfl

/-- Both parts of a composition have a result. -/
theorem bind_of_eq {c : Traced ε β} {f : β → Traced ε γ} {b : β} {r : γ} {es es' : List ε}
    (hc : c = some (b, es)) (hf : f b = some (r, es')) : (c >>= f) = some (r, es ++ es') := by
  subst hc
  change Traced.bind (some (b, es)) f = _
  simp only [Traced.bind, hf]
  rfl

theorem exists_trace {c : Traced ε β} {b : β} (h : c.value = some b) : ∃ es, c.trace = some es := by
  cases c with
  | none => cases h
  | some r => exact ⟨r.2, rfl⟩

/-! ## Two runs -/

/-- If both computations have a result, they record the same, and the results are related. -/
def Agree (R : β → γ → Prop) (c : Traced ε β) (c' : Traced ε γ) : Prop :=
  ∀ b es b' es', c = some (b, es) → c' = some (b', es') → es = es' ∧ R b b'

theorem Agree.pure {R : β → γ → Prop} {b : β} {b' : γ} (h : R b b') :
    Agree R (pure b : Traced ε β) (pure b') := by
  rintro _ _ _ _ ⟨⟩ ⟨⟩
  exact ⟨rfl, h⟩

theorem Agree.record {R : Unit → Unit → Prop} (e : ε) (h : R () ()) :
    Agree R (record e) (record e) := by
  rintro _ _ _ _ ⟨⟩ ⟨⟩
  exact ⟨rfl, h⟩

theorem Agree.stop_left {R : β → γ → Prop} {c : Traced ε γ} : Agree R (stop : Traced ε β) c := by
  rintro _ _ _ _ ⟨⟩

theorem Agree.stop_right {R : β → γ → Prop} {c : Traced ε β} : Agree R c (stop : Traced ε γ) := by
  rintro _ _ _ _ _ ⟨⟩

theorem bind_eq_some {c : Traced ε β} {f : β → Traced ε γ} {r : γ} {es : List ε}
    (h : (c >>= f) = some (r, es)) :
    ∃ b es₁ es₂, c = some (b, es₁) ∧ f b = some (r, es₂) ∧ es = es₁ ++ es₂ := by
  cases c with
  | none => cases h
  | some p =>
    obtain ⟨b, es₁⟩ := p
    change Traced.bind (some (b, es₁)) f = _ at h
    cases hf : f b with
    | none => simp [Traced.bind, hf] at h
    | some q =>
      obtain ⟨r', es₂⟩ := q
      simp only [Traced.bind, hf] at h
      cases h
      exact ⟨b, es₁, es₂, rfl, hf, rfl⟩

/-- **The rule of composition.** -/
theorem Agree.bind {β' γ' : Type} {R : β → β' → Prop} {Q : γ → γ' → Prop} {c : Traced ε β}
    {c' : Traced ε β'} {f : β → Traced ε γ} {f' : β' → Traced ε γ'} (h : Agree R c c')
    (hf : ∀ b b', R b b' → Agree Q (f b) (f' b')) : Agree Q (c >>= f) (c' >>= f') := by
  intro r es r' es' hr hr'
  obtain ⟨b, es₁, es₂, hc, hb, rfl⟩ := bind_eq_some hr
  obtain ⟨b', es₁', es₂', hc', hb', rfl⟩ := bind_eq_some hr'
  obtain ⟨rfl, hR⟩ := h _ _ _ _ hc hc'
  obtain ⟨rfl, hQ⟩ := hf b b' hR _ _ _ _ hb hb'
  exact ⟨rfl, hQ⟩

/-- An event that both record. -/
theorem Agree.step {R : β → γ → Prop} {f : Unit → Traced ε β} {f' : Unit → Traced ε γ} (e : ε)
    (h : Agree R (f ()) (f' ())) :
    Agree R (Traced.record e >>= f) (Traced.record e >>= f') :=
  (Agree.record (R := fun _ _ => True) e trivial).bind fun _ _ _ => h

theorem Agree.relabel {ε' : Type} {R : β → γ → Prop} {c : Traced ε β} {c' : Traced ε γ}
    (h : Agree R c c') (f : ε → ε') : Agree R (c.relabel f) (c'.relabel f) := by
  intro b es b' es' hb hb'
  obtain ⟨r, hr, heq⟩ := Option.map_eq_some_iff.1 hb
  obtain ⟨r', hr', heq'⟩ := Option.map_eq_some_iff.1 hb'
  cases heq
  cases heq'
  obtain ⟨hes, hR⟩ := h r.1 r.2 r'.1 r'.2 hr hr'
  exact ⟨congrArg (List.map f) hes, hR⟩

/-- What is known of the results of both. -/
theorem Agree.values {R : β → γ → Prop} {c : Traced ε β} {c' : Traced ε γ} (h : Agree R c c')
    {x : β} {x' : γ}
    (hx : c.value = some x) (hx' : c'.value = some x') : Agree
      (fun b b' => b = x ∧ b' = x') c c' := by
  intro b es b' es' hb hb'
  subst hb hb'
  exact ⟨(h b es b' es' rfl rfl).1, Option.some.inj hx, Option.some.inj hx'⟩

/-- Two runs with a result have recorded the same. -/
theorem Agree.trace_eq {R : β → γ → Prop} {c : Traced ε β} {c' : Traced ε γ} (h : Agree R c c')
    {es es' : List ε} (hes : c.trace = some es) (hes' : c'.trace = some es') : es = es' := by
  cases c with
  | none => cases hes
  | some p =>
    cases c' with
    | none => cases hes'
    | some q =>
      cases hes
      cases hes'
      exact (h p.1 p.2 q.1 q.2 rfl rfl).1

/-- Two runs of computations that never stop have recorded the same. -/
theorem Agree.trace_eq_of_value {R : β → γ → Prop} {c : Traced ε β} {c' : Traced ε γ}
    (h : Agree R c c') {b : β} {b' : γ} (hb : c.value = some b) (hb' : c'.value = some b') :
    c.trace = c'.trace := by
  obtain ⟨es, hes⟩ := exists_trace hb
  obtain ⟨es', hes'⟩ := exists_trace hb'
  rw [hes, hes', h.trace_eq hes hes']

/-! ## Loops -/

theorem value_foldlM {ι : Type} {f : β → ι → Traced ε β} {g : β → ι → β}
    (h : ∀ b i, (f b i).value = some (g b i)) (is : List ι) (b : β) :
    (is.foldlM f b).value = some (is.foldl g b) := by
  induction is generalizing b with
  | nil => rfl
  | cons i is ih =>
    rw [List.foldlM_cons, value_bind, h]
    exact ih (g b i)

/-- **The rule of loops**: what every round keeps. -/
theorem Agree.foldlM {ι : Type} {R : β → γ → Prop} {f : β → ι → Traced ε β}
    {f' : γ → ι → Traced ε γ}
    (h : ∀ i b b', R b b' → Agree R (f b i) (f' b' i)) (is : List ι) {b : β} {b' : γ}
    (hb : R b b') :
    Agree R (is.foldlM f b) (is.foldlM f' b') := by
  induction is generalizing b b' with
  | nil => exact .pure hb
  | cons i is ih =>
    rw [List.foldlM_cons, List.foldlM_cons]
    exact (h i b b' hb).bind fun _ _ => ih

end Traced

end Trace
