import Mathlib.Logic.Relation

/-!
# Traces and simulations

A system is a relation `step s e s'` between a state, an event and the next state.  `Trace` collects
the events on the way from a state to another one.  When the steps of one system are answered by
steps of another one with the same events (`Simulates`), every trace of the first system is a trace
of the second one (`Trace.simulate`).
-/

namespace Simulation

variable {σ τ υ ε : Type*} {step : σ → ε → σ → Prop} {step' : τ → ε → τ → Prop}
  {step'' : υ → ε → υ → Prop} {rel : σ → τ → Prop} {rel' : τ → υ → Prop} {s₀ s s' : σ} {t₀ t : τ}
  {l l' : List ε} {e : ε}

/-- The events on the way from `s₀` to a state, the last one first. -/
inductive Trace (step : σ → ε → σ → Prop) (s₀ : σ) : List ε → σ → Prop
  | nil : Trace step s₀ [] s₀
  | snoc {l : List ε} {s s' : σ} {e : ε} :
    Trace step s₀ l s → step s e s' → Trace step s₀ (e :: l) s'

/-- The steps of the first system are answered by steps of the second one. -/
def Simulates (step : σ → ε → σ → Prop) (step' : τ → ε → τ → Prop) (rel : σ → τ → Prop) : Prop :=
  ∀ ⦃s s' e t⦄, rel s t → step s e s' → ∃ t', step' t e t' ∧ rel s' t'

theorem Simulates.comp (h : Simulates step step' rel) (h' : Simulates step' step'' rel') :
    Simulates step step'' fun s u => ∃ t, rel s t ∧ rel' t u := by
  rintro s s' e u ⟨t, hst, htu⟩ hstep
  obtain ⟨t', hstep', hst'⟩ := h hst hstep
  obtain ⟨u', hstep'', htu'⟩ := h' htu hstep'
  exact ⟨u', hstep'', t', hst', htu'⟩

/-- Every trace of the first system is one of the second. -/
theorem Trace.simulate (htrace : Trace step s₀ l s) (h : Simulates step step' rel)
    (h₀ : rel s₀ t₀) : ∃ t, Trace step' t₀ l t ∧ rel s t := by
  induction htrace with
  | nil => exact ⟨t₀, .nil, h₀⟩
  | snoc _ hstep ih =>
    obtain ⟨t, ht, hrel⟩ := ih
    obtain ⟨t', hstep', hrel'⟩ := h hrel hstep
    exact ⟨t', ht.snoc hstep', hrel'⟩

/-- A trace can be cut at every event. -/
theorem Trace.split (h : Trace step s₀ (l' ++ l) s') :
    ∃ s, Trace step s₀ l s ∧ Trace step s l' s' := by
  induction l' generalizing s' with
  | nil => exact ⟨s', h, .nil⟩
  | cons e l' ih =>
    cases h with
    | snoc htrace hstep =>
      obtain ⟨s, hl, hl'⟩ := ih htrace
      exact ⟨s, hl, hl'.snoc hstep⟩

end Simulation
