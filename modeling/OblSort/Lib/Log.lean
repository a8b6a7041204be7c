import Mathlib.Data.List.Infix
import OblSort.Lib.Loop
import OblSort.Lib.Store

/-!
# Computations with a fixed log

`Logs log es f`: the steps of `f` append the events `es` to the log of the state, whatever the state
is; a computation that stops has appended some first part of them. So the log says nothing about the
state, except how far the computation has come.
-/

namespace Loop

open Store

variable {ε S E : Type}

structure Logs (log : S → List E) (es : List E) (f : S → Except (ε × S) S) : Prop where
  ends : ∀ s, Ends (fun s' => log s' = log s ++ es) (fun e => ∃ done, done <+: es ∧
    log e.2 = log s ++ done) (f s)

variable {log : S → List E} {es es' : List E} {f g : S → Except (ε × S) S}

/-- A computation that leaves the log as it is. -/
theorem Logs.nothing (h : ∀ s, Ends (fun s' => log s' = log s) (fun e => log e.2 = log s) (f s)) :
    Logs log [] f := by
  refine ⟨fun s => (h s).mono (fun s' hs => ?_) fun e he => ⟨[], List.prefix_rfl, ?_⟩⟩
  · rw [hs, List.append_nil]
  · rw [he, List.append_nil]

theorem Logs.skip : Logs (ε := ε) log [] .ok := .nothing fun _ => rfl

theorem require_logs {c : Prop} [Decidable c] (e : ε) : Logs log [] (require c e) :=
  .nothing fun _ => require_ends (fun _ => rfl) fun _ => rfl

/-- **The rule of composition.** -/
theorem Logs.comp (hf : Logs log es f) (hg : Logs log es' g) :
    Logs log (es ++ es') (fun s => f s >>= g) := by
  refine ⟨fun s => ((hf.ends s).mono (fun s₁ h₁ => h₁) ?_).bind fun s₁ h₁ =>
    (hg.ends s₁).mono ?_ ?_⟩
  · rintro e ⟨done, hdone, he⟩
    exact ⟨done, hdone.trans (List.prefix_append ..), he⟩
  · intro s₂ h₂
    rw [h₂, h₁, List.append_assoc]
  · rintro e ⟨done, hdone, he⟩
    exact ⟨es ++ done, List.prefix_append_right_inj es |>.2 hdone,
      by rw [he, h₁, List.append_assoc]⟩

/-- A computation that leaves the log as it is, before another one. -/
theorem Logs.after (hf : Logs log [] f) (hg : Logs log es g) : Logs log es (fun s => f s >>= g) :=
  hf.comp hg

/-- A computation that leaves the log as it is, after another one. -/
theorem Logs.before (hf : Logs log es f) (hg : Logs log [] g) :
    Logs log es (fun s => f s >>= g) := by
  simpa only [List.append_nil] using hf.comp hg

theorem Logs.ite {c : Prop} [Decidable c] (hf : Logs log es f) (hg : Logs log es' g) :
    Logs log (if c then es else es') (fun s => if c then f s else g s) := by
  split
  · exact hf
  · exact hg

/-- **The rule of counting loops.** -/
theorem forRange_logs {n : Nat} {body : Nat → S → Except (ε × S) S} {es : Nat → List E}
    (h : ∀ i < n, Logs log (es i) (body i)) : Logs log (gather n es) (forRange n body) := by
  induction n with
  | zero => exact .skip
  | succ n ih =>
    rw [gather_succ]
    exact (ih fun i hi => h i (by omega)).comp (h n (by omega))

/-- A loop each round of which logs one event. -/
theorem forRange_logs_map {n : Nat} {body : Nat → S → Except (ε × S) S} {event : Nat → E}
    (h : ∀ i < n, Logs log [event i] (body i)) : Logs log ((List.range n).map event)
    (forRange n body) := by
  rw [← List.flatMap_pure_eq_map]
  exact forRange_logs h

end Loop
