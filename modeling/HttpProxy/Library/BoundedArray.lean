import Mathlib.Data.List.TakeWhile

/-!
# Loops over arrays that may leave them

An index is used, or the loop that would use one outside an array is over with `none`. The loops are
those that look for the end of a word: `scan` reads while the elements are of a kind, and does not look
at the length; `copy` copies while there are elements that are not of a kind, and looks at the length of
the array it reads, not at that of the one it writes.

A loop that reads an array from `i` on is given what the array holds from there on.
-/

namespace BoundedArray

variable {α : Type*} {n : Nat}

/-- `a[i] = c`. -/
def store (a : Vector α n) (i : Nat) (c : α) : Option (Vector α n) :=
  if h : i < n then some (a.set i c) else none

/-- `while (p(a[i])) i++`. -/
def scan (p : α → Bool) : List α → Nat → Option Nat
  | [], _ => none
  | c :: l, i => if p c then scan p l (i + 1) else some i

/-- `for (; i < length && !stop(a[i]); i++) dst[j++] = a[i]`: both counters and what was written. -/
def copy (stop : α → Bool) : List α → Nat → Nat → Vector α n → Option (Nat × Nat × Vector α n)
  | [], i, j, dst => some (i, j, dst)
  | c :: l, i, j, dst =>
    if stop c then some (i, j, dst) else (store dst j c).bind (copy stop l (i + 1) (j + 1))

theorem store_isSome_iff {a : Vector α n} {i : Nat} {c : α} : (store a i c).isSome ↔ i < n := by
  unfold store
  split
  · next h => exact iff_of_true rfl h
  · next h => exact iff_of_false Bool.false_ne_true h

/-- A scan that goes on to the end of the array leaves it. -/
theorem scan_eq_none {p : α → Bool} {l : List α} {i : Nat} : scan p l i = none ↔ ∀ c ∈ l, p c = true := by
  induction l generalizing i with
  | nil => exact iff_of_true rfl fun c hc => absurd hc List.not_mem_nil
  | cons c l ih =>
    rw [scan, List.forall_mem_cons]
    split
    · next hc => exact ih.trans ⟨fun h => ⟨hc, h⟩, fun h => h.2⟩
    · next hc => exact iff_of_false (Option.some_ne_none i) fun h => hc h.1

/-- A scan stops at the first element that is not of the kind. -/
theorem scan_eq_some {p : α → Bool} {l : List α} {i k : Nat} (h : scan p l i = some k) :
    ∃ c rest, l = l.takeWhile p ++ c :: rest ∧ p c = false ∧ k = i + (l.takeWhile p).length := by
  induction l generalizing i with
  | nil => cases h
  | cons c l ih =>
    rw [scan] at h
    split at h
    · next hc =>
      obtain ⟨d, rest, hl, hd, hk⟩ := ih h
      refine ⟨d, rest, ?_, hd, ?_⟩
      · rw [List.takeWhile_cons_of_pos hc, List.cons_append, ← hl]
      · rw [List.takeWhile_cons_of_pos hc, List.length_cons, hk]
        omega
    · next hc =>
      cases h
      rw [List.takeWhile_cons_of_neg hc]
      exact ⟨c, l, rfl, Bool.eq_false_iff.mpr hc, rfl⟩

/-- A copy stays in the array it writes while there is room for what it copies, and moves both counters
by as much. -/
theorem copy_eq_some (stop : α → Bool) {l : List α} (i : Nat) {j : Nat} (dst : Vector α n)
    (hroom : j + (l.takeWhile (!stop ·)).length ≤ n) : ∃ dst',
      copy stop l i j dst =
        some (i + (l.takeWhile (!stop ·)).length, j + (l.takeWhile (!stop ·)).length, dst') ∧
      dst'.toList.take (j + (l.takeWhile (!stop ·)).length) =
        dst.toList.take j ++ l.takeWhile (!stop ·) := by
  induction l generalizing i j dst with
  | nil => exact ⟨dst, rfl, (List.append_nil _).symm⟩
  | cons c l ih =>
    cases hc : stop c with
    | true =>
      rw [List.takeWhile_cons_of_neg (by rw [hc]; exact Bool.false_ne_true), List.append_nil]
      exact ⟨dst, by rw [copy, if_pos hc]; rfl, rfl⟩
    | false =>
      rw [List.takeWhile_cons_of_pos (by rw [hc]; rfl), List.length_cons] at hroom ⊢
      have hlt : j < n := by omega
      have hroom' : j + 1 + (l.takeWhile (!stop ·)).length ≤ n := by omega
      obtain ⟨dst', hcopy, htake⟩ := ih (i + 1) (dst.set j c) hroom'
      refine ⟨dst', ?_, ?_⟩
      · rw [copy, hc, if_neg Bool.false_ne_true, store, dif_pos hlt, Option.bind_some, hcopy]
        simp only [Option.some.injEq, Prod.mk.injEq, and_true]
        omega
      · rw [show j + ((l.takeWhile (!stop ·)).length + 1) = j + 1 + (l.takeWhile (!stop ·)).length by omega,
          htake, Vector.toList_set, List.take_set, List.take_succ_eq_append_getElem (by simpa using hlt),
          List.set_append_right _ _ (by rw [List.length_take]; omega)]
        simp only [List.length_take, Vector.length_toList, Nat.min_eq_left (Nat.le_of_lt hlt), Nat.sub_self,
          List.set_cons_zero, List.append_assoc, List.singleton_append]

/-! ## Where a loop stops -/

section Sublists

variable {a : α} {l l' m : List α}

/-- What begins with an element that a part does not have comes behind that part. -/
theorem sublist_of_not_mem (ha : a ∉ l) (h : (a :: m).Sublist (l ++ l')) : (a :: m).Sublist l' := by
  induction l with
  | nil => exact h
  | cons c l ih =>
    rw [List.mem_cons, not_or] at ha
    apply ih ha.2
    cases h with
    | cons _ h => exact h
    | cons_cons _ _ => exact absurd rfl ha.1

variable [BEq α] [LawfulBEq α]

/-- What comes behind an element comes behind the first one like it. -/
theorem cons_sublist_iff (hm : m ≠ []) :
    (a :: m).Sublist l ↔ m.Sublist (l.drop ((l.takeWhile (· != a)).length + 1)) := by
  induction l with
  | nil =>
    refine iff_of_false (fun h => ?_) fun h => ?_
    · cases h
    · exact hm (List.sublist_nil.mp h)
  | cons c l ih =>
    by_cases hc : c = a
    · subst hc
      rw [List.takeWhile_cons_of_neg (by rw [bne_self_eq_false]; exact Bool.false_ne_true)]
      exact List.cons_sublist_cons
    · rw [List.takeWhile_cons_of_pos (p := (· != a)) (bne_iff_ne.mpr hc), List.length_cons,
        List.drop_succ_cons, ← ih]
      constructor
      · intro h
        cases h with
        | cons _ h => exact h
        | cons_cons _ _ => exact absurd rfl hc
      · intro h
        exact h.cons c

end Sublists

end BoundedArray
