import Mathlib.Logic.Relation

/-!
# Loops that may run for ever

A loop is its body: a function from the state at the start of an iteration to the state of the
next one, or to the result the loop ends with. `run` gives it fuel.

The results are about when a loop ends. `run_of_measure` is the usual one: a measure that every
iteration lowers bounds the iterations. `halts_iff` is for a loop that can spin: when an iteration
either lowers the measure or leaves its state exactly as it was, the loop ends if and only if no
state it reaches is one it would leave as it was.
-/

namespace Loop

variable {σ ρ : Type*} {body : σ → σ ⊕ ρ}

/-- At most `fuel` iterations from `s`. -/
def run (body : σ → σ ⊕ ρ) : Nat → σ → Option ρ
  | 0, _ => none
  | fuel + 1, s =>
    match body s with
    | .inl s' => run body fuel s'
    | .inr r => some r

/-- An iteration that starts in `s` and goes on with `s'`. -/
def Goes (body : σ → σ ⊕ ρ) (s s' : σ) : Prop := body s = .inl s'

/-- `s'` is the state at the start of some iteration of the loop from `s`. -/
def Reaches (body : σ → σ ⊕ ρ) : σ → σ → Prop := Relation.ReflTransGen (Goes body)

/-- The loop from `s` ends. -/
def Halts (body : σ → σ ⊕ ρ) (s : σ) : Prop := ∃ fuel r, run body fuel s = some r

/-- The loop from `s` ends, with `r`. -/
def Ends (body : σ → σ ⊕ ρ) (s : σ) (r : ρ) : Prop := ∃ fuel, run body fuel s = some r

theorem run_succ_of_goes {s s' : σ} (h : Goes body s s') (fuel : Nat) :
    run body (fuel + 1) s = run body fuel s' := by
  rw [run, show body s = .inl s' from h]

theorem run_succ_of_ends {s : σ} {r : ρ} (h : body s = .inr r) (fuel : Nat) :
    run body (fuel + 1) s = some r := by
  rw [run, h]

/-- What holds at the start and is kept by every iteration holds of every state reached. -/
theorem Reaches.invariant {I : σ → Prop} (hstep : ∀ s s', I s → Goes body s s' → I s') {s s' : σ}
    (h : Reaches body s s') (hs : I s) : I s' := by
  induction h with
  | refl => exact hs
  | tail _ hgo ih => exact hstep _ _ ih hgo

/-- A relation between the start of the loop and its result that every iteration carries back
holds of the loop. -/
theorem run_induction {P : σ → ρ → Prop} (hend : ∀ s r, body s = .inr r → P s r)
    (hstep : ∀ s s' r, Goes body s s' → P s' r → P s r) {fuel : Nat} {s : σ} {r : ρ}
    (h : run body fuel s = some r) : P s r := by
  induction fuel generalizing s with
  | zero => exact absurd h (by rw [run]; exact Option.some_ne_none r ∘ Eq.symm)
  | succ fuel ih =>
    cases hb : body s with
    | inl s' =>
      rw [run_succ_of_goes hb] at h
      exact hstep s s' r hb (ih h)
    | inr r' =>
      rw [run_succ_of_ends hb] at h
      obtain rfl : r' = r := Option.some.inj h
      exact hend s r' hb

/-- A measure that every iteration lowers, under an invariant, is fuel enough. -/
theorem run_of_measure {I : σ → Prop} {μ : σ → Nat}
    (hstep : ∀ s s', I s → Goes body s s' → I s' ∧ μ s' < μ s) {fuel : Nat} {s : σ} (hs : I s)
    (hf : μ s < fuel) : ∃ r, run body fuel s = some r := by
  induction fuel generalizing s with
  | zero => exact absurd hf (Nat.not_lt_zero _)
  | succ fuel ih =>
    cases hb : body s with
    | inl s' =>
      obtain ⟨hs', hμ⟩ := hstep s s' hs hb
      rw [run_succ_of_goes hb]
      exact ih hs' (Nat.lt_of_lt_of_le hμ (Nat.le_of_lt_succ hf))
    | inr r => exact ⟨r, run_succ_of_ends hb fuel⟩

/-- A function that follows the loop with fuel gives what the loop ends with, when a measure that every
iteration lowers is no greater than the fuel. -/
theorem ends_of_fuel {f : Nat → σ → ρ} {μ : σ → Nat}
    (hzero : ∀ s, μ s = 0 → body s = .inr (f 0 s))
    (hsucc : ∀ fuel s, f (fuel + 1) s =
      match body s with
      | .inl s' => f fuel s'
      | .inr r => r)
    (hstep : ∀ s s', Goes body s s' → μ s' < μ s) {fuel : Nat} {s : σ} (hf : μ s ≤ fuel) :
    Ends body s (f fuel s) := by
  induction fuel generalizing s with
  | zero => exact ⟨1, run_succ_of_ends (hzero s (Nat.le_zero.mp hf)) 0⟩
  | succ fuel ih =>
    rw [hsucc]
    cases hb : body s with
    | inl s' =>
      have hlt := hstep s s' hb
      obtain ⟨n, hn⟩ := ih (s := s') (by omega)
      exact ⟨n + 1, (run_succ_of_goes hb n).trans hn⟩
    | inr r => exact ⟨1, run_succ_of_ends hb 0⟩

/-- A loop that reaches a state it leaves as it is does not end. -/
theorem run_eq_none_of_reaches {s s' : σ} (h : Reaches body s s') (hs' : Goes body s' s')
    (fuel : Nat) : run body fuel s = none := by
  induction h using Relation.ReflTransGen.head_induction_on generalizing fuel with
  | refl =>
    induction fuel with
    | zero => rfl
    | succ fuel ih => rw [run_succ_of_goes hs', ih]
  | head hgo _ ih =>
    cases fuel with
    | zero => rfl
    | succ fuel => rw [run_succ_of_goes hgo, ih]

/-- A loop that reaches a state from which it ends does end. -/
theorem Halts.head {s s' : σ} (h : Reaches body s s') (hs' : Halts body s') : Halts body s := by
  induction h using Relation.ReflTransGen.head_induction_on with
  | refl => exact hs'
  | head hgo _ ih =>
    obtain ⟨fuel, r, hrun⟩ := ih
    exact ⟨fuel + 1, r, (run_succ_of_goes hgo fuel).trans hrun⟩

theorem halts_of_ends {s : σ} {r : ρ} (h : body s = .inr r) : Halts body s :=
  ⟨1, r, run_succ_of_ends h 0⟩

/-- A condition on the result that every iteration splits into one on the state it starts in and the
same condition on the rest holds just if it holds in every state reached. -/
theorem run_iff {I C D : σ → Prop} {P : ρ → Prop}
    (hgoes : ∀ s s', I s → Goes body s s' → I s' ∧ (D s' ↔ D s ∧ C s))
    (hends : ∀ s r, I s → body s = .inr r → (P r ↔ D s ∧ C s)) {fuel : Nat} {s : σ} {r : ρ}
    (hs : I s) (h : run body fuel s = some r) : P r ↔ D s ∧ ∀ s', Reaches body s s' → C s' := by
  refine run_induction (P := fun s r => I s → (P r ↔ D s ∧ ∀ s', Reaches body s s' → C s')) ?_ ?_ h hs
  · intro s r hend hs
    rw [hends s r hs hend]
    refine and_congr_right fun _ => ⟨fun hC s' hreach => ?_, fun hall => hall s .refl⟩
    rcases Relation.ReflTransGen.cases_head hreach with rfl | ⟨s₁, hgo, -⟩
    · exact hC
    · cases hend.symm.trans hgo
  · intro s s₁ r hgo ih hs
    obtain ⟨hs₁, hD⟩ := hgoes s s₁ hs hgo
    rw [ih hs₁, hD, and_assoc]
    refine and_congr_right fun _ => ⟨fun ⟨hC, hall⟩ s' hreach => ?_, fun hall => ?_⟩
    · rcases Relation.ReflTransGen.cases_head hreach with rfl | ⟨s₂, hgo', hreach'⟩
      · exact hC
      · obtain rfl : s₁ = s₂ := Sum.inl.inj (hgo.symm.trans hgo')
        exact hall s' hreach'
    · exact ⟨hall s .refl, fun s' hreach => hall s' (hreach.head hgo)⟩

section Stuck

variable {I Stuck : σ → Prop} {μ : σ → Nat}

/-- When no state reached is stuck, a measure that is lowered from the others is fuel enough. -/
theorem run_of_never_stuck
    (hstep : ∀ s s', I s → ¬Stuck s → Goes body s s' → I s' ∧ μ s' < μ s) {s : σ} (hs : I s)
    (hfree : ∀ s', Reaches body s s' → ¬Stuck s') {fuel : Nat} (hf : μ s < fuel) :
    ∃ r, run body fuel s = some r := by
  refine run_of_measure (I := fun s' => I s' ∧ Reaches body s s') ?_
    ⟨hs, Relation.ReflTransGen.refl⟩ hf
  rintro a b ⟨ha, hreach⟩ hgo
  obtain ⟨hb, hμ⟩ := hstep a b ha (hfree a hreach) hgo
  exact ⟨⟨hb, hreach.tail hgo⟩, hμ⟩

/-- A loop whose iterations lower a measure except in a stuck state, which they leave as it is,
ends exactly when it reaches no stuck state. -/
theorem halts_iff (hstuck : ∀ s, I s → Stuck s → Goes body s s)
    (hstep : ∀ s s', I s → ¬Stuck s → Goes body s s' → I s' ∧ μ s' < μ s) {s : σ} (hs : I s) :
    Halts body s ↔ ∀ s', Reaches body s s' → ¬Stuck s' := by
  have hinv : ∀ s s', I s → Goes body s s' → I s' := by
    intro s s' hs hgo
    by_cases hst : Stuck s
    · obtain rfl : s = s' := Sum.inl.inj ((hstuck s hs hst).symm.trans hgo)
      exact hs
    · exact (hstep s s' hs hst hgo).1
  constructor
  · rintro ⟨fuel, r, hr⟩ s' hreach hst
    have hnone := run_eq_none_of_reaches hreach (hstuck s' (hreach.invariant hinv hs) hst) fuel
    rw [hnone] at hr
    exact Option.some_ne_none r hr.symm
  · intro hfree
    obtain ⟨r, hr⟩ := run_of_never_stuck hstep hs hfree (Nat.lt_succ_self (μ s))
    exact ⟨_, r, hr⟩

/-- When the measure at the start does not suffice as fuel, nothing does. -/
theorem halts_iff_run (hstuck : ∀ s, I s → Stuck s → Goes body s s)
    (hstep : ∀ s s', I s → ¬Stuck s → Goes body s s' → I s' ∧ μ s' < μ s) {s : σ} (hs : I s)
    {fuel : Nat} (hf : μ s < fuel) : Halts body s ↔ ∃ r, run body fuel s = some r := by
  refine ⟨fun hhalts => ?_, fun ⟨r, hr⟩ => ⟨fuel, r, hr⟩⟩
  exact run_of_never_stuck hstep hs ((halts_iff hstuck hstep hs).mp hhalts) hf

end Stuck

end Loop
