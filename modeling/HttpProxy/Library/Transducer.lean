import Mathlib.Data.List.Basic

/-!
# Transducers over streams

A deterministic machine that reads its input one symbol at a time and emits a list of output
symbols for each. Three things are proved of it once, for any machine:

- a run over appended input is the run over the first part followed by the run over the second
  (`run_append`), so a machine cannot see where its input was cut;
- `Yields` is the notion of progress a program with lookahead needs: it relates a state and its
  remaining input to a later state and a shorter remaining input, and it composes
  (`Yields.trans`). A program that peeks at a symbol and leaves it for its next phase is an
  equation between two steps, not a step (`Yields.handOver`);
- what holds of a run's states and the symbols they read next (`Along`) is put together from the
  run's parts (`along_append`);
- a run that emits nothing (`Silent`) leads to where its end leads (`Silent.run_append`), which is what
  a program has of the input it keeps to read again.
-/

/-- A machine that reads symbols of `α` and emits, for each, a list of symbols of `β`. -/
structure Transducer (σ : Type*) (α : Type*) (β : Type*) where
  /-- One symbol read: the state after it, and what was emitted on it. -/
  step : σ → α → σ × List β

namespace Transducer

variable {σ α β γ : Type*} (M : Transducer σ α β)

/-- The run over a list of symbols: the last state and everything emitted on the way. -/
def run : σ → List α → σ × List β
  | q, [] => (q, [])
  | q, a :: as =>
    let r := M.step q a
    let rest := run r.1 as
    (rest.1, r.2 ++ rest.2)

/-- The state a run ends in. -/
def stateAfter (q : σ) (as : List α) : σ := (M.run q as).1

/-- What a run emits. -/
def emitted (q : σ) (as : List α) : List β := (M.run q as).2

@[simp] theorem run_nil (q : σ) : M.run q [] = (q, []) := rfl

theorem run_cons (q : σ) (a : α) (as : List α) :
    M.run q (a :: as) =
      ((M.run (M.step q a).1 as).1, (M.step q a).2 ++ (M.run (M.step q a).1 as).2) := rfl

@[simp] theorem stateAfter_nil (q : σ) : M.stateAfter q [] = q := rfl

@[simp] theorem emitted_nil (q : σ) : M.emitted q [] = [] := rfl

theorem stateAfter_cons (q : σ) (a : α) (as : List α) :
    M.stateAfter q (a :: as) = M.stateAfter (M.step q a).1 as := rfl

theorem emitted_cons (q : σ) (a : α) (as : List α) :
    M.emitted q (a :: as) = (M.step q a).2 ++ M.emitted (M.step q a).1 as := rfl

/-- The run over appended input is the two runs in sequence. -/
theorem run_append (q : σ) (as bs : List α) :
    M.run q (as ++ bs) =
      ((M.run (M.run q as).1 bs).1, (M.run q as).2 ++ (M.run (M.run q as).1 bs).2) := by
  induction as generalizing q with
  | nil => simp only [List.nil_append, run_nil]
  | cons a as ih =>
    simp only [List.cons_append, run_cons, ih, List.append_assoc]

/-- The state behind two inputs is that behind the second, from where the first one led. -/
theorem stateAfter_append (q : σ) (as bs : List α) :
    M.stateAfter q (as ++ bs) = M.stateAfter (M.stateAfter q as) bs := by
  simp only [stateAfter, run_append]

/-- The outputs of two inputs come one after the other. -/
theorem emitted_append (q : σ) (as bs : List α) :
    M.emitted q (as ++ bs) = M.emitted q as ++ M.emitted (M.stateAfter q as) bs := by
  simp only [emitted, stateAfter, run_append]

/-- An invariant of the states and of the symbols read so far that every step keeps holds at
the end of every run. -/
theorem run_invariant {I : List α → σ → Prop}
    (hstep : ∀ past q a, I past q → I (past ++ [a]) (M.step q a).1)
    (past : List α) (q : σ) (h : I past q) (as : List α) :
    I (past ++ as) (M.stateAfter q as) := by
  induction as generalizing past q with
  | nil => simpa only [List.append_nil, stateAfter_nil] using h
  | cons a as ih =>
    have := ih (past ++ [a]) _ (hstep past q a h)
    simpa only [List.append_assoc, List.singleton_append, stateAfter_cons] using this

/-- The run over appended input, from the two runs. -/
theorem run_append_eq {q q' q'' : σ} {as bs : List α} {e e' : List β} (h : M.run q as = (q', e))
    (h' : M.run q' bs = (q'', e')) : M.run q (as ++ bs) = (q'', e ++ e') := by
  rw [run_append, h, h']

/-- `P` holds of every state a run goes through and the symbol read in it. -/
def Along (P : σ → α → Prop) : σ → List α → Prop
  | _, [] => True
  | q, a :: as => P q a ∧ Along P (M.step q a).1 as

/-- A property along two inputs is one along each of them. -/
theorem along_append {P : σ → α → Prop} (q : σ) (as bs : List α) :
    M.Along P q (as ++ bs) ↔ M.Along P q as ∧ M.Along P (M.stateAfter q as) bs := by
  induction as generalizing q with
  | nil => exact ⟨fun h => ⟨trivial, h⟩, And.right⟩
  | cons a as ih =>
    rw [List.cons_append, Along, Along, ih, and_assoc]
    rfl

/-- A property along an input holds in front of each of its elements. -/
theorem along_iff {P : σ → α → Prop} (q : σ) (l : List α) :
    M.Along P q l ↔ ∀ as a bs, l = as ++ a :: bs → P (M.stateAfter q as) a := by
  constructor
  · rintro h as a bs rfl
    rw [along_append] at h
    exact h.2.1
  · intro h
    induction l generalizing q with
    | nil => trivial
    | cons a l ih =>
      refine ⟨h [] a l rfl, ih _ fun as b bs hl => ?_⟩
      exact h (a :: as) b bs (congrArg (a :: ·) hl)

/-! ## Silent runs -/

/-- The machine reads `as` from `q` to `q'` and emits nothing. -/
def Silent (q : σ) (as : List α) (q' : σ) : Prop := M.run q as = (q', [])

variable {M}

theorem Silent.nil (q : σ) : M.Silent q [] q := rfl

/-- A silent step and a silent run behind it. -/
theorem Silent.cons {q q' q'' : σ} {a : α} {as : List α} (h : M.step q a = (q', []))
    (h' : M.Silent q' as q'') : M.Silent q (a :: as) q'' := by
  have hrun : M.run q' as = (q'', []) := h'
  rw [Silent, run_cons, h, hrun, List.append_nil]

/-- Silent runs one after the other are silent. -/
theorem Silent.append {q q' q'' : σ} {as bs : List α} (h : M.Silent q as q')
    (h' : M.Silent q' bs q'') : M.Silent q (as ++ bs) q'' := M.run_append_eq h h'

/-- What follows a silent run is read as from where it ends. -/
theorem Silent.run_append {q q' : σ} {as : List α} (h : M.Silent q as q') (bs : List α) :
    M.run q (as ++ bs) = M.run q' bs := by
  rw [M.run_append_eq h rfl, List.nil_append]

/-! ## Cuts -/

variable (M) in
/-- `P` holds at every cut between the parts of an input: of the state there and of what is to
come. -/
def AtEveryCut (P : σ → List α → Prop) : σ → List (List α) → Prop
  | _, [] => True
  | q, as :: rest =>
    (rest ≠ [] → P (M.stateAfter q as) rest.flatten) ∧ AtEveryCut P (M.stateAfter q as) rest

/-! ## Progress with lookahead -/

/-- State `q` with the input `l` still to read yields state `q'` with `l'` still to read, having
emitted `e`: the two runs end alike, and `l'` is what is left of `l`. -/
structure Yields (q : σ) (l : List α) (e : List β) (q' : σ) (l' : List α) : Prop where
  run_eq : M.run q l = ((M.run q' l').1, e ++ (M.run q' l').2)
  suffix : l' <:+ l

theorem Yields.refl (q : σ) (l : List α) : M.Yields q l [] q l :=
  ⟨by simp only [List.nil_append], List.suffix_rfl⟩

/-- Partial runs one after the other are one partial run. -/
theorem Yields.trans {q q' q'' : σ} {l l' l'' : List α} {e e' : List β}
    (h : M.Yields q l e q' l') (h' : M.Yields q' l' e' q'' l'') :
    M.Yields q l (e ++ e') q'' l'' :=
  ⟨by rw [h.run_eq, h'.run_eq, List.append_assoc], h'.suffix.trans h.suffix⟩

/-- Reading one symbol is progress. -/
theorem Yields.step {q q' : σ} {a : α} {e : List β} (l : List α) (h : M.step q a = (q', e)) :
    M.Yields q (a :: l) e q' l :=
  ⟨by rw [run_cons, h], List.suffix_cons a l⟩

/-- A symbol one state leaves to another: two states that step alike on the next symbol, one of
them emitting `e` in front, are interchangeable in front of it. -/
theorem Yields.handOver {q q' : σ} {a : α} {e : List β} (l : List α)
    (h : M.step q a = ((M.step q' a).1, e ++ (M.step q' a).2)) :
    M.Yields q (a :: l) e q' (a :: l) :=
  ⟨by rw [run_cons, run_cons, h, List.append_assoc], List.suffix_rfl⟩

/-- A partial run ends where the rest of the input leads to the same state. -/
theorem Yields.stateAfter_eq {q q' : σ} {l l' : List α} {e : List β}
    (h : M.Yields q l e q' l') : M.stateAfter q l = M.stateAfter q' l' := by
  rw [stateAfter, h.run_eq]
  rfl

/-- The outputs of a run are those of a part of it and those of the rest. -/
theorem Yields.emitted_eq {q q' : σ} {l l' : List α} {e : List β}
    (h : M.Yields q l e q' l') : M.emitted q l = e ++ M.emitted q' l' := by
  rw [emitted, h.run_eq]
  rfl

end Transducer
