import HopDns.ForStd.Run

/-!
# Simulation

A system simulates another one when a relation between their states goes along with every
step: a step that shows is answered by a step with the label it shows as, and one that
does not show leaves the other state where it was.

## Key results

- `Simulates.run`: what runs show
- `Run.lockstep`: two systems that take steps of the same labels
-/

namespace ForStd

variable {σ τ ℓ m : Type} {step : σ → ℓ → σ → Prop} {step' : τ → m → τ → Prop}

/-- Steps of the one system are steps of the other, as far as they show. -/
def Simulates (step : σ → ℓ → σ → Prop) (step' : τ → m → τ → Prop) (shows : ℓ → Option m)
    (R : σ → τ → Prop) : Prop :=
  ∀ s l s' t, R s t → step s l s' →
    (shows l = none ∧ R s' t) ∨ ∃ k t', shows l = some k ∧ step' t k t' ∧ R s' t'

namespace Simulates

variable {shows : ℓ → Option m} {R : σ → τ → Prop}

/-- What a run shows is a run of the other system. -/
theorem run (h : Simulates step step' shows R) {s s' : σ} {t : τ} {ls : List ℓ} (hs : R s t)
    (hrun : Run step s ls s') : ∃ t', Run step' t (ls.filterMap shows) t' ∧ R s' t' := by
  induction hrun generalizing t with
  | nil s => exact ⟨t, .nil t, hs⟩
  | @cons s s' u l ls hstep _ ih =>
    obtain ⟨hnone, hs'⟩ | ⟨k, t₁, hsome, hstep', hs'⟩ := h s l s' t hs hstep
    · rw [List.filterMap_cons_none hnone]
      exact ih hs'
    · obtain ⟨t', hrun', ht'⟩ := ih hs'
      rw [List.filterMap_cons_some hsome]
      exact ⟨t', .cons hstep' hrun', ht'⟩

end Simulates

/-- What two systems keep in steps of one label, they keep in runs of the same labels. -/
theorem Run.lockstep {step' : τ → ℓ → τ → Prop} {R : σ → τ → Prop}
    (h : ∀ s t l s' t', R s t → step s l s' → step' t l t' → R s' t') {s s' : σ} {t t' : τ}
    {ls : List ℓ} (hrun : Run step s ls s') (hrun' : Run step' t ls t') (hs : R s t) : R s' t' := by
  induction hrun generalizing t with
  | nil s =>
    cases hrun'
    exact hs
  | cons hstep _ ih =>
    cases hrun' with
    | cons hstep' hrest => exact ih hrest (h _ _ _ _ _ hs hstep hstep')

end ForStd
