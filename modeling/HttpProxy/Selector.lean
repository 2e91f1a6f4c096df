import Mathlib.Logic.Function.Basic

/-!
# The selector

`selector.c`: a table of the descriptors the program waits for, indexed by descriptor. What an item
holds besides its interest, the handlers and the pointer they are given, is a parameter.

The table here has an item or none for each descriptor and is never full: `main` makes it as large
as the platform's limit, so `selector_register` finds room for every descriptor it accepts.
-/

namespace HttpProxy

/-- `FD_SETSIZE`. -/
abbrev ITEMS_MAX_SIZE : Int := 1024

inductive SelectorStatus
  | SELECTOR_SUCCESS
  | SELECTOR_ENOMEM
  | SELECTOR_MAXFD
  | SELECTOR_IARGS
  | SELECTOR_FDINUSE
  | SELECTOR_IO
deriving DecidableEq, Repr

/-- `fd_interest`, a set of bits. -/
structure FdInterest where
  OP_READ : Bool := false
  OP_WRITE : Bool := false
deriving DecidableEq, Repr

abbrev OP_NOOP : FdInterest := {}
abbrev OP_READ : FdInterest := { OP_READ := true }
abbrev OP_WRITE : FdInterest := { OP_WRITE := true }

structure Item (η : Type) where
  interest : FdInterest
  handler : η
deriving DecidableEq, Repr

structure Selector (η : Type) where
  fds : Int → Option (Item η) := fun _ => none
  maxFd : Int := 0
  masterR : Int → Bool := fun _ => false
  masterW : Int → Bool := fun _ => false

variable {η : Type}

/-- `INVALID_FD`. -/
def invalidFd (fd : Int) : Bool := fd < 0 || ITEMS_MAX_SIZE ≤ fd

namespace Selector

/-- The largest of the used descriptors up to `max_fd`. -/
def itemsMaxFd (s : Selector η) : Int :=
  (List.range (s.maxFd.toNat + 1)).foldl
    (fun (max : Int) (i : Nat) => if (s.fds i).isSome ∧ (i : Int) > max then (i : Int) else max) 0

/-- `items_update_fdset_for_fd` for an item with the interest `i`. -/
def updateFdset (s : Selector η) (fd : Int) (i : FdInterest) : Selector η :=
  { s with
    masterR := Function.update s.masterR fd i.OP_READ
    masterW := Function.update s.masterW fd i.OP_WRITE }

def register (s : Selector η) (fd : Int) (handler : η) (interest : FdInterest) :
    SelectorStatus × Selector η :=
  if invalidFd fd then (.SELECTOR_IARGS, s)
  else if (s.fds fd).isSome then (.SELECTOR_FDINUSE, s)
  else
    (.SELECTOR_SUCCESS,
      { s with
        fds := Function.update s.fds fd (some ⟨interest, handler⟩)
        maxFd := max fd s.maxFd }.updateFdset fd interest)

def setInterest (s : Selector η) (fd : Int) (i : FdInterest) : SelectorStatus × Selector η :=
  if invalidFd fd then (.SELECTOR_IARGS, s)
  else
    match s.fds fd with
    | none => (.SELECTOR_IARGS, s)
    | some item =>
      (.SELECTOR_SUCCESS,
        { s with fds := Function.update s.fds fd (some { item with interest := i }) }.updateFdset
          fd i)

/-- What `selector_unregister_fd` does after `handle_close`. -/
def clear (s : Selector η) (fd : Int) : Selector η :=
  let s := { s.updateFdset fd OP_NOOP with fds := Function.update s.fds fd none }
  { s with maxFd := s.itemsMaxFd }

/-- The handlers registered for a descriptor. -/
def handlerAt (s : Selector η) (fd : Int) : Option η := (s.fds fd).map (·.handler)

variable {s : Selector η} {fd : Int}

@[simp] theorem handlerAt_updateFdset (s : Selector η) (fd fd' : Int) (i : FdInterest) :
    (s.updateFdset fd i).handlerAt fd' = s.handlerAt fd' := rfl

@[simp] theorem fds_clear (s : Selector η) (fd : Int) :
    (s.clear fd).fds = Function.update s.fds fd none := rfl

theorem handlerAt_clear (s : Selector η) (fd : Int) :
    (s.clear fd).handlerAt = Function.update s.handlerAt fd none := by
  funext fd'
  by_cases h : fd' = fd
  · subst h
    simp only [handlerAt, clear, Function.update_self, Option.map_none]
  · simp only [handlerAt, clear, updateFdset, Function.update_of_ne h]

/-- An interest changes no handler. -/
theorem handlerAt_setInterest (s : Selector η) (fd : Int) (i : FdInterest) :
    (s.setInterest fd i).2.handlerAt = s.handlerAt := by
  funext fd'
  unfold setInterest
  split
  · rfl
  · split
    · rfl
    · next item hitem =>
      by_cases h : fd' = fd
      · subst h
        simp only [handlerAt, updateFdset, Function.update_self, hitem, Option.map_some]
      · simp only [handlerAt, updateFdset, Function.update_of_ne h]

theorem fds_setInterest (s : Selector η) {fd fd' : Int} (i : FdInterest) (h : fd' ≠ fd) :
    (s.setInterest fd i).2.fds fd' = s.fds fd' := by
  unfold setInterest
  split
  · rfl
  · split
    · rfl
    · exact Function.update_of_ne h _ _

theorem setInterest_success (s : Selector η) {fd : Int} (i : FdInterest)
    (hv : invalidFd fd = false) (h : s.handlerAt fd ≠ none) :
    (s.setInterest fd i).1 = .SELECTOR_SUCCESS := by
  unfold setInterest
  rw [hv, if_neg Bool.false_ne_true]
  split
  · next hnone => exact absurd (by rw [handlerAt, hnone, Option.map_none]) h
  · rfl

/-- A descriptor is registered when it is valid and not in use, and else nothing happens. -/
theorem register_eq (s : Selector η) (fd : Int) (handler : η) (interest : FdInterest) :
    (invalidFd fd = false ∧ s.handlerAt fd = none ∧
        (s.register fd handler interest).1 = .SELECTOR_SUCCESS ∧
        (s.register fd handler interest).2.handlerAt =
          Function.update s.handlerAt fd (some handler) ∧
        ∀ fd', fd' ≠ fd → (s.register fd handler interest).2.fds fd' = s.fds fd') ∨
      ((invalidFd fd = true ∨ s.handlerAt fd ≠ none) ∧
        (s.register fd handler interest).1 ≠ .SELECTOR_SUCCESS ∧
        (s.register fd handler interest).2 = s) := by
  unfold register
  split
  · next h => exact .inr ⟨.inl h, by simp, rfl⟩
  · next hfd =>
    split
    · next h =>
      obtain ⟨item, hitem⟩ := Option.isSome_iff_exists.mp h
      refine .inr ⟨.inr ?_, by simp, rfl⟩
      simp only [handlerAt, hitem, Option.map_some, ne_eq, reduceCtorEq, not_false_eq_true]
    · next h =>
      have hnone := Option.not_isSome_iff_eq_none.mp h
      refine .inl ⟨Bool.eq_false_iff.mpr hfd, ?_, rfl, ?_, fun fd' h' => ?_⟩
      · simp only [handlerAt, hnone, Option.map_none]
      · funext fd'
        by_cases h' : fd' = fd
        · subst h'
          simp only [handlerAt, updateFdset, Function.update_self, Option.map_some]
        · simp only [handlerAt, updateFdset, Function.update_of_ne h']
      · exact Function.update_of_ne h' _ _

/-- An interest and a registration look at the slot of their descriptor alone. -/
theorem setInterest_congr {s s' : Selector η} {fd : Int} (h : s'.fds fd = s.fds fd)
    (i : FdInterest) :
    (s'.setInterest fd i).1 = (s.setInterest fd i).1 ∧
      (s'.setInterest fd i).2.fds fd = (s.setInterest fd i).2.fds fd := by
  unfold setInterest
  rw [h]
  split
  · exact ⟨rfl, h⟩
  · split
    · exact ⟨rfl, h⟩
    · simp only [updateFdset, Function.update_self, and_self]

theorem register_congr {s s' : Selector η} {fd : Int} (h : s'.fds fd = s.fds fd) (handler : η)
    (i : FdInterest) :
    (s'.register fd handler i).1 = (s.register fd handler i).1 ∧
      (s'.register fd handler i).2.fds fd = (s.register fd handler i).2.fds fd := by
  unfold register
  rw [h]
  split
  · exact ⟨rfl, h⟩
  · split
    · exact ⟨rfl, h⟩
    · simp only [updateFdset, Function.update_self, and_self]

theorem fds_register (s : Selector η) {fd fd' : Int} (handler : η) (i : FdInterest)
    (h : fd' ≠ fd) : (s.register fd handler i).2.fds fd' = s.fds fd' := by
  rcases s.register_eq fd handler i with ⟨-, -, -, -, hrest⟩ | ⟨-, -, hsame⟩
  · exact hrest fd' h
  · rw [hsame]

end Selector

end HttpProxy
