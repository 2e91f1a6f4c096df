import Mathlib.Data.List.Basic
import Mathlib.Data.List.Infix

/-!
# Runs of a partial step

Runs of a system whose step can be undefined. A condition on steps is met along a run if it is met by
each event in the state the event finds; there is one induction on the run, for an invariant that the
steps that meet the condition keep.
-/

namespace PartialRun

variable {σ ε : Type*} (step : σ → ε → Option σ)

/-- Where a run with these events ends; `none` if a step of it is undefined. -/
def run (s : σ) (es : List ε) : Option σ := es.foldlM step s

/-- Each step of the run meets the condition, as far as the run is defined. -/
def Along (P : σ → ε → Prop) : σ → List ε → Prop
  | _, [] => True
  | s, e :: es => P s e ∧ ∀ s', step s e = some s' → Along P s' es

instance decidableAlong {P : σ → ε → Prop} [∀ s e, Decidable (P s e)] :
    ∀ (es : List ε) (s : σ), Decidable (Along step P s es)
  | [], _ => isTrue trivial
  | e :: es, s =>
    match h : step s e with
    | none => decidable_of_iff (P s e) ⟨fun hP => ⟨hP, fun s' hs' => by rw [h] at hs'; cases hs'⟩, And.left⟩
    | some s₁ =>
      have : Decidable (Along step P s₁ es) := decidableAlong es s₁
      decidable_of_iff (P s e ∧ Along step P s₁ es)
        ⟨fun hP => ⟨hP.1, fun s' hs' => by rw [h] at hs'; cases hs'; exact hP.2⟩,
          fun hP => ⟨hP.1, hP.2 s₁ h⟩⟩

variable {step} {P : σ → ε → Prop} {I : σ → Prop} {s s' : σ} {es pre : List ε}

theorem run_cons (s : σ) (e : ε) (es : List ε) :
    run step s (e :: es) = (step s e).bind fun s' => run step s' es := List.foldlM_cons

theorem run_append (s : σ) (es es' : List ε) :
    run step s (es ++ es') = (run step s es).bind fun s' => run step s' es' := List.foldlM_append

/-- What every step keeps holds where a run ends. -/
theorem run_invariant (hstep : ∀ s e s', I s → step s e = some s' → I s') (hI : I s)
    (hrun : run step s es = some s') : I s' := by
  induction es generalizing s with
  | nil =>
    cases hrun
    exact hI
  | cons e es ih =>
    rw [run_cons] at hrun
    obtain ⟨s₁, hs₁, hrest⟩ := Option.bind_eq_some_iff.mp hrun
    exact ih (hstep s e s₁ hI hs₁) hrest

theorem Along.initial (h : Along step P s es) (hpre : pre <+: es) : Along step P s pre := by
  induction es generalizing s pre with
  | nil =>
    obtain rfl := List.prefix_nil.mp hpre
    trivial
  | cons e es ih =>
    rcases List.prefix_cons_iff.mp hpre with rfl | ⟨pre', rfl, hpre'⟩
    · trivial
    · exact ⟨h.1, fun s' hs' => ih (h.2 s' hs') hpre'⟩

/-- A condition that each event meets where the events in front of it lead is met along the run. -/
theorem along_of_prefixes
    (h : ∀ pre e, pre ++ [e] <+: es → ∀ s', run step s pre = some s' → P s' e) :
    Along step P s es := by
  induction es generalizing s with
  | nil => trivial
  | cons e es ih =>
    refine ⟨h [] e ⟨es, rfl⟩ s rfl, fun s₁ hs₁ => ih fun pre e' hpre s' hs' => ?_⟩
    refine h (e :: pre) e' ?_ s' ?_
    · exact List.cons_prefix_cons.mpr ⟨rfl, hpre⟩
    · rw [run_cons, hs₁]
      exact hs'

theorem Along.and_forall {Q : ε → Prop} (h : Along step P s es) (hQ : ∀ e ∈ es, Q e) :
    Along step (fun s e => Q e ∧ P s e) s es := by
  induction es generalizing s with
  | nil => trivial
  | cons e es ih =>
    refine ⟨⟨hQ e List.mem_cons_self, h.1⟩, fun s' hs' => ?_⟩
    exact ih (h.2 s' hs') fun x hx => hQ x (List.mem_cons_of_mem e hx)

/-- An invariant holds where the run ends. -/
theorem Along.invariant (hstep : ∀ s e s', I s → P s e → step s e = some s' → I s') (hI : I s)
    (h : Along step P s es) (hrun : run step s es = some s') : I s' := by
  induction es generalizing s with
  | nil =>
    cases hrun
    exact hI
  | cons e es ih =>
    rw [run_cons] at hrun
    obtain ⟨s₁, hs₁, hrest⟩ := Option.bind_eq_some_iff.mp hrun
    exact ih (hstep s e s₁ hI h.1 hs₁) (h.2 s₁ hs₁) hrest

/-- Conditions that agree under an invariant are met along the same runs. -/
theorem along_iff {A Q : σ → ε → Prop}
    (hstep : ∀ s e s', I s → A s e → step s e = some s' → I s')
    (hiff : ∀ s e, I s → A s e → (P s e ↔ Q s e)) (hI : I s) (hA : Along step A s es) :
    Along step P s es ↔ Along step Q s es := by
  induction es generalizing s with
  | nil => exact Iff.rfl
  | cons e es ih =>
    refine and_congr (hiff s e hI hA.1) (forall_congr' fun s' => ?_)
    exact imp_congr_right fun hs' => ih (hstep s e s' hI hA.1 hs') (hA.2 s' hs')

/-- With an invariant under which the steps are defined the run is. -/
theorem Along.defined (hstep : ∀ s e, I s → P s e → ∃ s', step s e = some s' ∧ I s') (hI : I s)
    (h : Along step P s es) : ∃ s', run step s es = some s' ∧ I s' := by
  induction es generalizing s with
  | nil => exact ⟨s, rfl, hI⟩
  | cons e es ih =>
    obtain ⟨s₁, hs₁, hI₁⟩ := hstep s e hI h.1
    obtain ⟨s', hs', hI'⟩ := ih hI₁ (h.2 s₁ hs₁)
    refine ⟨s', ?_, hI'⟩
    rw [run_cons, hs₁]
    exact hs'

/-- A run is defined just as long as its steps meet the condition under which they are. -/
theorem isSome_run_iff {A : σ → ε → Prop} (hstep : ∀ s e, I s → A s e → P s e →
      ∃ s', step s e = some s' ∧ I s')
    (honly : ∀ s e s', step s e = some s' → P s e) (hI : I s) (hA : Along step A s es) :
    (run step s es).isSome = true ↔ Along step P s es := by
  induction es generalizing s with
  | nil => exact iff_of_true rfl trivial
  | cons e es ih =>
    rw [run_cons]
    cases hs : step s e with
    | none =>
      refine iff_of_false Bool.false_ne_true fun hP => ?_
      obtain ⟨s', hs', -⟩ := hstep s e hI hA.1 hP.1
      rw [hs] at hs'
      cases hs'
    | some s₁ =>
      have hP := honly s e s₁ hs
      obtain ⟨s', hs', hI'⟩ := hstep s e hI hA.1 hP
      obtain rfl := Option.some.inj (hs.symm.trans hs')
      rw [Option.bind_some, ih hI' (hA.2 s₁ hs)]
      constructor
      · intro hrest
        refine ⟨hP, fun s'' hs'' => ?_⟩
        obtain rfl := Option.some.inj (hs.symm.trans hs'')
        exact hrest
      · intro hall
        exact hall.2 s₁ hs

end PartialRun
