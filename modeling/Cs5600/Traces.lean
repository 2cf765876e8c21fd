import Mathlib.Data.Nat.Notation
import Mathlib.Logic.Basic

/-!
# Traces

A system takes steps, and each of them shows a label. A trace is what a run shows. If every
step of one system is a step of another one with the same label, between states that are
related, then every trace of the one is a trace of the other (`Trace.simulate`).
-/

namespace Traces

variable {σ τ ε : Type*} {step : σ → ε → σ → Prop} {step' : τ → ε → τ → Prop} {s s' : σ}
  {es : List ε}

/-- The runs from `s`, with the labels of their steps. -/
inductive Trace (step : σ → ε → σ → Prop) (s : σ) : List ε → σ → Prop
  | nil : Trace step s [] s
  | snoc {es : List ε} {e : ε} {s' s'' : σ} : Trace step s es s' → step s' e s'' →
      Trace step s (es ++ [e]) s''

theorem Trace.single {e : ε} (h : step s e s') : Trace step s [e] s' := .snoc .nil h

theorem Trace.append {es' : List ε} {s'' : σ} (h : Trace step s es s') (h' : Trace step s' es' s'') :
    Trace step s (es ++ es') s'' := by
  induction h' with
  | nil => rwa [List.append_nil]
  | snoc _ he ih =>
    rw [← List.append_assoc]
    exact ih.snoc he

/-- What a step keeps, a run keeps. -/
theorem Trace.invariant {I : σ → Prop} (hstep : ∀ s e s', I s → step s e s' → I s') (h0 : I s)
    (h : Trace step s es s') : I s' := by
  induction h with
  | nil => exact h0
  | snoc _ he ih => exact hstep _ _ _ ih he

/-- What every label has, the labels of a trace have. -/
theorem Trace.forall_mem {P : ε → Prop} (hstep : ∀ s e s', step s e s' → P e)
    (h : Trace step s es s') : ∀ e ∈ es, P e := by
  induction h with
  | nil => exact fun e he => absurd he List.not_mem_nil
  | snoc _ he ih =>
    intro e' he'
    rcases List.mem_append.1 he' with he' | he'
    · exact ih e' he'
    · rw [List.mem_singleton.1 he']
      exact hstep _ _ _ he

/-- If every step decreases a measure, a run has at most as many steps. -/
theorem Trace.length_add_le {I : σ → Prop} {m : σ → ℕ}
    (hstep : ∀ s e s', I s → step s e s' → I s')
    (hm : ∀ s e s', I s → step s e s' → m s' < m s) (h0 : I s) (h : Trace step s es s') :
    es.length + m s' ≤ m s := by
  induction h with
  | nil => exact Nat.le_of_eq (Nat.zero_add _)
  | snoc h he ih =>
    have hlt := hm _ _ _ (h.invariant hstep h0) he
    rw [List.length_append, List.length_singleton]
    omega

/-- A system that simulates another one has its traces. -/
theorem Trace.simulate {R : σ → τ → Prop}
    (hR : ∀ s a e s', R s a → step s e s' → ∃ a', step' a e a' ∧ R s' a') {a : τ} (h0 : R s a)
    (h : Trace step s es s') : ∃ a', Trace step' a es a' ∧ R s' a' := by
  induction h with
  | nil => exact ⟨a, .nil, h0⟩
  | snoc _ he ih =>
    obtain ⟨a', ha, hr⟩ := ih
    obtain ⟨a'', he', hr'⟩ := hR _ _ _ _ hr he
    exact ⟨a'', ha.snoc he', hr'⟩

end Traces
