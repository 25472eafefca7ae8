import Mathlib.Tactic.Common

/-! Runs of a labelled system, and the simulation of one system by another. -/

namespace Trace
universe u v w
variable {σ : Type u} {τ : Type v} {ℓ : Type w}

inductive Run (step : σ → ℓ → σ → Prop) : σ → List ℓ → σ → Prop
  | nil (s : σ) : Run step s [] s
  | cons {s t r : σ} {a : ℓ} {as : List ℓ} (head : step s a t) (tail : Run step t as r) :
    Run step s (a :: as) r

variable {step : σ → ℓ → σ → Prop} {step' : τ → ℓ → τ → Prop}

/-- If every step from related states has its like, so has every run. -/
theorem Run.simulated {R : σ → τ → Prop} (hstep : ∀ s t a s', R s t → step s a s' → ∃ t',
      step' t a t' ∧ R s' t')
    {s s' : σ} {as : List ℓ} (h : Run step s as s') {t : τ} (hR : R s t) : ∃ t', Run step' t as t' ∧
    R s' t' := by
  induction h generalizing t with
  | nil s => exact ⟨t, .nil t, hR⟩
  | cons head _ ih =>
    obtain ⟨t', hhead, hR'⟩ := hstep _ _ _ _ hR head
    obtain ⟨t'', htail, hR''⟩ := ih hR'
    exact ⟨t'', .cons hhead htail, hR''⟩

end Trace
