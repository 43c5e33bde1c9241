import Mathlib.Data.List.Basic

/-!
# Traces

Systems whose steps are visible, with a label, or silent. Two systems have the same traces when
each of them simulates the other up to silent steps, and the same finished ones when neither can go
on silently for ever.
-/

namespace Traces

variable {σ τ ε : Type}

/-- A finite run, with the labels of its visible steps. -/
inductive Run (step : σ → Option ε → σ → Prop) : σ → List ε → σ → Prop where
  | refl (s : σ) : Run step s [] s
  | head {s t u : σ} {label : Option ε} {labels : List ε} (hstep : step s label t)
      (hrun : Run step t labels u) : Run step s (label.toList ++ labels) u

/-- A state from which there is no step. -/
def Final (step : σ → Option ε → σ → Prop) (s : σ) : Prop :=
  ∀ label t, ¬ step s label t

/-- The labels of a run, whether it is finished or not. -/
def Trace (step : σ → Option ε → σ → Prop) (s : σ) (labels : List ε) : Prop :=
  ∃ t, Run step s labels t

/-- The labels of a run that is finished. -/
def Finishes (step : σ → Option ε → σ → Prop) (s : σ) (labels : List ε) : Prop :=
  ∃ t, Run step s labels t ∧ Final step t

/-- A state from which there are only finitely many silent steps in a row. -/
def Settles (step : σ → Option ε → σ → Prop) (s : σ) : Prop :=
  Acc (fun t s => step s none t) s

variable {step : σ → Option ε → σ → Prop} {step' : τ → Option ε → τ → Prop}

/-! ### Runs -/

theorem Run.single {s t : σ} {label : Option ε} (h : step s label t) :
  Run step s label.toList t
  := by
  rw [← List.append_nil label.toList]
  apply Run.head h (Run.refl t)

theorem Run.silent {s t u : σ} {labels : List ε} (h : step s none t) (hrun : Run step t labels u) :
  Run step s labels u
  := Run.head h hrun

theorem Run.trans {s t u : σ} {labels labels' : List ε} (h : Run step s labels t)
    (h' : Run step t labels' u) :
  Run step s (labels ++ labels') u
  := by
  induction h with
  | refl s => apply h'
  | head hstep _ ih =>
      rw [List.append_assoc]
      apply Run.head hstep (ih h')

/-- Nothing comes after a state from which there is no step. -/
theorem Run.of_final {s t : σ} {labels : List ε} (h : Run step s labels t) (hfinal : Final step s) :
  labels = [] ∧ t = s
  := by
  cases h with
  | refl s => exact ⟨rfl, rfl⟩
  | head hstep _ => apply absurd hstep (hfinal _ _)

/-! ### Simulations -/

/-- Every step of the first system is a run of the second one. -/
def Simulates (step : σ → Option ε → σ → Prop) (step' : τ → Option ε → τ → Prop)
    (R : σ → τ → Prop) : Prop :=
  ∀ ⦃s t label s'⦄, R s t → step s label s' → ∃ t', Run step' t label.toList t' ∧ R s' t'

/-- Every run of the first system is a run of the second one. -/
theorem Simulates.run {R : σ → τ → Prop} (h : Simulates step step' R) {s s' : σ} {t : τ}
    {labels : List ε} (hR : R s t) (hrun : Run step s labels s') :
  ∃ t', Run step' t labels t' ∧ R s' t'
  := by
  induction hrun generalizing t with
  | refl s => exact ⟨t, Run.refl t, hR⟩
  | head hstep _ ih =>
      obtain ⟨t₁, hfirst, hR₁⟩ := h hR hstep
      obtain ⟨t₂, hothers, hR₂⟩ := ih hR₁
      exact ⟨t₂, hfirst.trans hothers, hR₂⟩

/-- Each of two systems simulates the other one, and neither goes on silently for ever. -/
structure Bisimulation (step : σ → Option ε → σ → Prop) (step' : τ → Option ε → τ → Prop)
    (R : σ → τ → Prop) : Prop where
  forth : Simulates step step' R
  back : Simulates step' step (flip R)
  settles : ∀ ⦃s t⦄, R s t → Settles step s ∧ Settles step' t

namespace Bisimulation

variable {R : σ → τ → Prop}

theorem symm (h : Bisimulation step step' R) :
  Bisimulation step' step (flip R)
  := ⟨h.back, h.forth, fun _ _ hR => (h.settles hR).symm⟩

theorem trace_of_trace (h : Bisimulation step step' R) {s : σ} {t : τ} (hR : R s t)
    {labels : List ε} (htrace : Trace step s labels) :
  Trace step' t labels
  := by
  obtain ⟨s', hrun⟩ := htrace
  obtain ⟨t', hrun', _⟩ := h.forth.run hR hrun
  exact ⟨t', hrun'⟩

/-- What is related to a state from which there is no step comes silently to such a state. -/
theorem exists_final (h : Bisimulation step step' R) {s : σ} {t : τ} (hR : R s t)
    (hfinal : Final step s) :
  ∃ t', Run step' t [] t' ∧ Final step' t'
  := by
  have hsettles := (h.settles hR).2
  induction hsettles with
  | intro t _ ih =>
      by_cases hsteps : Final step' t
      · exact ⟨t, Run.refl t, hsteps⟩
      · simp only [Final, not_forall, not_not] at hsteps
        obtain ⟨label, u, hstep⟩ := hsteps
        obtain ⟨s', hrun, hR'⟩ := h.back hR hstep
        obtain ⟨hlabels, rfl⟩ := hrun.of_final hfinal
        obtain rfl : label = none := Option.toList_eq_nil_iff.mp hlabels
        obtain ⟨t', hrun', hfinal'⟩ := ih u hstep hR'
        exact ⟨t', Run.silent hstep hrun', hfinal'⟩

theorem finishes_of_finishes (h : Bisimulation step step' R) {s : σ} {t : τ} (hR : R s t)
    {labels : List ε} (hfinishes : Finishes step s labels) :
  Finishes step' t labels
  := by
  obtain ⟨s', hrun, hfinal⟩ := hfinishes
  obtain ⟨t', hrun', hR'⟩ := h.forth.run hR hrun
  obtain ⟨t'', hsilent, hfinal'⟩ := h.exists_final hR' hfinal
  refine ⟨t'', ?_, hfinal'⟩
  rw [← List.append_nil labels]
  apply hrun'.trans hsilent

/-- Related states have the same traces. -/
theorem trace_iff (h : Bisimulation step step' R) {s : σ} {t : τ} (hR : R s t)
    (labels : List ε) :
  Trace step s labels ↔ Trace step' t labels
  := ⟨h.trace_of_trace hR, h.symm.trace_of_trace hR⟩

/-- Related states have the same finished traces. -/
theorem finishes_iff (h : Bisimulation step step' R) {s : σ} {t : τ} (hR : R s t)
    (labels : List ε) :
  Finishes step s labels ↔ Finishes step' t labels
  := ⟨h.finishes_of_finishes hR, h.symm.finishes_of_finishes hR⟩

end Bisimulation

end Traces
