import Mathlib.Logic.Basic

/-!
# Noninterference by unwinding

Two runs of one system that have the same events, but that each may have events of one part of the
system in between. What the part does stays with it when a relation between the states of the two
runs is kept by an event of both, and by an event of the part in either.
-/

namespace Unwinding

variable {σ ε : Type*} (step : σ → ε → σ)

/-- `ok` holds of every event of a run in the state it finds. -/
def Along (ok : σ → ε → Prop) : σ → List ε → Prop
  | _, [] => True
  | s, e :: es => ok s e ∧ Along ok (step s e) es

/-- Two runs with the same events but those that are `own`. -/
inductive Corresponds (own : σ → ε → Prop) : σ → σ → List ε → List ε → Prop
  | nil (s s' : σ) : Corresponds own s s' [] []
  | same {s s' : σ} {es es' : List ε} (e : ε)
    (h : Corresponds own (step s e) (step s' e) es es') :
    Corresponds own s s' (e :: es) (e :: es')
  | left {s s' : σ} {es es' : List ε} {e : ε} (he : own s e)
    (h : Corresponds own (step s e) s' es es') : Corresponds own s s' (e :: es) es'
  | right {s s' : σ} {es es' : List ε} {e : ε} (he : own s' e)
    (h : Corresponds own s (step s' e) es es') : Corresponds own s s' es (e :: es')

/-- `I` is kept by every event, and `R` by an event of both runs or of the part in one. -/
structure Unwinds (own ok : σ → ε → Prop) (I : σ → Prop) (R : σ → σ → Prop) : Prop where
  keeps : ∀ s e, I s → ok s e → I (step s e)
  same : ∀ s s' e, I s → I s' → R s s' → ok s e → ok s' e → R (step s e) (step s' e)
  left : ∀ s s' e, I s → I s' → R s s' → own s e → ok s e → R (step s e) s'
  symm : ∀ s s', R s s' → R s' s

variable {step} {own ok : σ → ε → Prop} {I : σ → Prop} {R : σ → σ → Prop} {s s' : σ}
  {es es' : List ε}

/-- Events in front that are the same in both. -/
theorem Corresponds.prepend {s s' : σ} (l : List ε)
    (h : Corresponds step own (l.foldl step s) (l.foldl step s') es es') :
    Corresponds step own s s' (l ++ es) (l ++ es') := by
  induction l generalizing s s' with
  | nil => exact h
  | cons e l ih => exact .same e (ih h)

theorem Unwinds.run (h : Unwinds step own ok I R) (hc : Corresponds step own s s' es es')
    (hs : I s) (hs' : I s') (hR : R s s') (hes : Along step ok s es)
    (hes' : Along step ok s' es') :
    I (es.foldl step s) ∧ I (es'.foldl step s') ∧ R (es.foldl step s) (es'.foldl step s') := by
  induction hc with
  | nil s s' => exact ⟨hs, hs', hR⟩
  | @same s s' _ _ e _ ih =>
    exact ih (h.keeps s e hs hes.1) (h.keeps s' e hs' hes'.1)
      (h.same s s' e hs hs' hR hes.1 hes'.1) hes.2 hes'.2
  | @left s s' _ _ e he _ ih =>
    exact ih (h.keeps s e hs hes.1) hs' (h.left s s' e hs hs' hR he hes.1) hes.2 hes'
  | @right s s' _ _ e he _ ih =>
    have hR' := h.symm _ _ (h.left s' s e hs' hs (h.symm _ _ hR) he hes'.1)
    exact ih hs (h.keeps s' e hs' hes'.1) hR' hes hes'.2

end Unwinding
