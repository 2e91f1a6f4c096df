import HttpProxy.Selector
import Mathlib.Algebra.Group.Nat.Defs
import Mathlib.Data.List.Basic

/-!
# The table of the selector

`selector.c` with the table as it is: an array that is made larger when a descriptor is registered that
it has no item for. An operation that looks at an item the array does not have is undefined, and so is
one that clears descriptor `-1` in a set.

`toSelector` is the selector the rest of the proxy is modelled on, which has an item for every
descriptor: the operations of the table do what the operations of that one do.
-/

namespace HttpProxy

variable {η : Type}

/-! ## The table -/

/-- `struct item`; the descriptor is `FD_UNUSED` when it is not in use. -/
structure FdItem (η : Type) where
  fd : Int
  interest : FdInterest := {}
  handler : Option η := none
deriving DecidableEq, Repr

abbrev FD_UNUSED : Int := -1

/-- `ITEM_USED`. -/
def FdItem.used (item : FdItem η) : Bool := FD_UNUSED ≠ item.fd

/-- An item after `item_init`. -/
def FdItem.unused : FdItem η := { fd := FD_UNUSED }

/-- `fd_size` is the length of the table, which is `NULL` as long as it is empty. -/
structure FdSelector (η : Type) where
  fds : List (FdItem η) := []
  maxFd : Int := 0
  masterR : Int → Bool := fun _ => false
  masterW : Int → Bool := fun _ => false

/-- How often `tmp` can be shifted before it is 0, with `fuel` for the loop. -/
def shifts : Nat → Nat → Nat
  | 0, _ => 0
  | fuel + 1, tmp => if tmp = 0 then 0 else shifts fuel (tmp / 2) + 1

def nextCapacity (n : Nat) : Nat :=
  let tmp := 2 ^ shifts n n
  (if tmp > ITEMS_MAX_SIZE.toNat then ITEMS_MAX_SIZE.toNat else tmp) + 1

namespace FdSelector

/-- `memory` says for how many items there is memory. -/
def ensureCapacity (memory : Nat → Bool) (s : FdSelector η) (n : Nat) :
    SelectorStatus × FdSelector η :=
  if n < s.fds.length then (.SELECTOR_SUCCESS, s)
  else if n > ITEMS_MAX_SIZE.toNat then (.SELECTOR_MAXFD, s)
  else if memory (nextCapacity n) then
    (.SELECTOR_SUCCESS,
      { s with fds := s.fds ++ List.replicate (nextCapacity n - s.fds.length) .unused })
  else (.SELECTOR_ENOMEM, s)

/-- `selector_new`; `none` is `NULL`. -/
def new (memory : Nat → Bool) (initialElements : Nat) : Option (FdSelector η) :=
  let (status, s) := ensureCapacity memory {} initialElements
  if status = .SELECTOR_SUCCESS then some s else none

/-- `items_max_fd`. -/
def itemsMaxFd (s : FdSelector η) : Option Int :=
  (List.range (s.maxFd.toNat + 1)).foldlM
    (fun max i => s.fds[i]?.map fun item => if item.used ∧ item.fd > max then item.fd else max) 0

/-- `items_update_fdset_for_fd`. -/
def updateFdset (s : FdSelector η) (item : FdItem η) : FdSelector η :=
  { s with
    masterR := Function.update s.masterR item.fd (item.used && item.interest.OP_READ)
    masterW := Function.update s.masterW item.fd (item.used && item.interest.OP_WRITE) }

/-- The second half of `selector_register`, when there should be room for the item. -/
def registerItem (s : FdSelector η) (fd : Int) (handler : Option η) (interest : FdInterest) :
    Option (SelectorStatus × FdSelector η) :=
  s.fds[fd.toNat]?.map fun item =>
    if item.used then (.SELECTOR_FDINUSE, s)
    else
      let item := { fd := fd, interest := interest, handler := handler }
      (.SELECTOR_SUCCESS,
        { s with
          fds := s.fds.set fd.toNat item
          maxFd := if fd > s.maxFd then fd else s.maxFd }.updateFdset item)

/-- `selector_register`; a handler that is `none` is `NULL`. -/
def register (memory : Nat → Bool) (s : FdSelector η) (fd : Int) (handler : Option η)
    (interest : FdInterest) : Option (SelectorStatus × FdSelector η) :=
  if invalidFd fd || handler.isNone then some (.SELECTOR_IARGS, s)
  else if fd.toNat > s.fds.length then
    let (ret, s) := s.ensureCapacity memory fd.toNat
    if ret ≠ .SELECTOR_SUCCESS then some (ret, s) else s.registerItem fd handler interest
  else s.registerItem fd handler interest

def setInterest (s : FdSelector η) (fd : Int) (i : FdInterest) :
    Option (SelectorStatus × FdSelector η) :=
  if invalidFd fd then some (.SELECTOR_IARGS, s)
  else
    s.fds[fd.toNat]?.map fun item =>
      if ¬item.used then (.SELECTOR_IARGS, s)
      else
        let item := { item with interest := i }
        (.SELECTOR_SUCCESS, { s with fds := s.fds.set fd.toNat item }.updateFdset item)

/-- `selector_unregister_fd` before it calls `handle_close`: the item, if it goes on to that. -/
def unregisterItem (s : FdSelector η) (fd : Int) : Option (SelectorStatus ⊕ FdItem η) :=
  if invalidFd fd then some (.inl .SELECTOR_IARGS)
  else s.fds[fd.toNat]?.map fun item => if ¬item.used then .inl .SELECTOR_IARGS else .inr item

/-- `selector_unregister_fd` after `handle_close`, which may have changed the item. -/
def clear (s : FdSelector η) (fd : Int) : Option (FdSelector η) :=
  s.fds[fd.toNat]?.bind fun item =>
    if ¬item.used then none
    else
      let s := s.updateFdset { item with interest := OP_NOOP }
      let s := { s with fds := s.fds.set fd.toNat .unused }
      s.itemsMaxFd.map fun max => { s with maxFd := max }

end FdSelector

/-! ## Capacities -/

/-- A number is below the power of two that it can be shifted by. -/
theorem lt_pow_shifts {fuel n : Nat} (h : n ≤ fuel) : n < 2 ^ shifts fuel n := by
  induction fuel generalizing n with
  | zero =>
    obtain rfl := Nat.le_zero.mp h
    exact Nat.one_pos
  | succ fuel ih =>
    unfold shifts
    split
    · next hzero =>
      rw [hzero]
      exact Nat.one_pos
    · have hhalf := @ih (n / 2) (by omega)
      rw [Nat.pow_succ]
      omega

/-- A table that is made for `n` elements has an item for descriptor `n`. -/
theorem lt_nextCapacity {n : Nat} (h : n ≤ ITEMS_MAX_SIZE.toNat) : n < nextCapacity n := by
  have hpow := lt_pow_shifts (Nat.le_refl n)
  unfold nextCapacity
  simp only
  split <;> omega

/-- From half of the descriptors on, a table is made for all of them. -/
theorem nextCapacity_eq {n : Nat} (h : 512 ≤ n) : nextCapacity n = ITEMS_MAX_SIZE.toNat + 1 := by
  have hpow := lt_pow_shifts (Nat.le_refl n)
  have hshifts : 10 ≤ shifts n n := by
    by_contra hlt
    have hle : 2 ^ shifts n n ≤ 2 ^ 9 := Nat.pow_le_pow_right (by decide) (by omega)
    omega
  have hbig : 2 ^ 10 ≤ 2 ^ shifts n n := Nat.pow_le_pow_right (by decide) hshifts
  unfold nextCapacity ITEMS_MAX_SIZE
  simp only
  split <;> omega

/-! ## The largest descriptor -/

/-- `max` is the largest of the used descriptors below `k`, or 0. -/
structure IsMaxBelow (used : Int → Prop) (k : Nat) (max : Int) : Prop where
  nonneg : 0 ≤ max
  upper : ∀ i : Nat, i < k → used i → (i : Int) ≤ max
  used : max = 0 ∨ used max

/-- One more item of the table, for the greatest descriptor in use. -/
theorem isMaxBelow_succ {used : Int → Prop} {k : Nat} {max max' : Int} (h : IsMaxBelow used k max)
    (hused : used k → (k : Int) > max → max' = k) (hkeep : ¬(used k ∧ (k : Int) > max) → max' = max) :
    IsMaxBelow used (k + 1) max' := by
  by_cases hk : used k ∧ (k : Int) > max
  · rw [hused hk.1 hk.2]
    refine ⟨Int.natCast_nonneg k, fun i hi hu => ?_, .inr hk.1⟩
    exact Int.ofNat_le.mpr (Nat.lt_succ_iff.mp hi)
  · rw [hkeep hk]
    refine ⟨h.nonneg, fun i hi hu => ?_, h.used⟩
    rcases Nat.lt_succ_iff_lt_or_eq.mp hi with hi | rfl
    · exact h.upper i hi hu
    · exact Int.not_lt.mp fun hlt => hk ⟨hu, hlt⟩

namespace Selector

/-- What is derived from the table of a selector. -/
structure Derived (s : Selector η) : Prop where
  valid : ∀ fd, s.fds fd ≠ none → 0 ≤ fd
  reads : ∀ fd, s.masterR fd = true ↔ ∃ item, s.fds fd = some item ∧ item.interest.OP_READ = true
  writes : ∀ fd, s.masterW fd = true ↔ ∃ item, s.fds fd = some item ∧ item.interest.OP_WRITE = true
  upper : ∀ fd, s.fds fd ≠ none → fd ≤ s.maxFd
  max : (s.maxFd = 0 ∧ ∀ fd, s.fds fd = none) ∨ s.fds s.maxFd ≠ none

variable {s : Selector η} {fd : Int}

/-- `items_max_fd` is the greatest descriptor in use. -/
theorem isMaxBelow_itemsMaxFd (s : Selector η) :
    IsMaxBelow (fun fd => s.fds fd ≠ none) (s.maxFd.toNat + 1) s.itemsMaxFd := by
  unfold itemsMaxFd
  generalize s.maxFd.toNat + 1 = k
  induction k with
  | zero => exact ⟨Int.le_refl 0, nofun, .inl rfl⟩
  | succ k ih =>
    rw [List.range_succ, List.foldl_append]
    apply isMaxBelow_succ ih
    · intro hused hgt
      exact if_pos ⟨Option.isSome_iff_ne_none.mpr hused, hgt⟩
    · intro hno
      exact if_neg fun h => hno ⟨Option.isSome_iff_ne_none.mp h.1, h.2⟩

/-- An empty selector derives its sets from its items. -/
theorem derived_empty : ({} : Selector η).Derived :=
  ⟨nofun, fun _ => iff_of_false Bool.false_ne_true nofun, fun _ => iff_of_false Bool.false_ne_true nofun,
    nofun, .inl ⟨rfl, fun _ => rfl⟩⟩

/-- The sets after an item is put into the table. -/
theorem update_iff {fds : Int → Option (Item η)} {set : Int → Bool} {bit : FdInterest → Bool}
    (h : ∀ fd, set fd = true ↔ ∃ item, fds fd = some item ∧ bit item.interest = true) (fd : Int)
    (item : Item η) (fd' : Int) :
    Function.update set fd (bit item.interest) fd' = true ↔
      ∃ x, Function.update fds fd (some item) fd' = some x ∧ bit x.interest = true := by
  by_cases hfd : fd' = fd
  · subst hfd
    rw [Function.update_self, Function.update_self]
    constructor
    · intro hbit
      exact ⟨item, rfl, hbit⟩
    · rintro ⟨x, hx, hbit⟩
      cases hx
      exact hbit
  · rw [Function.update_of_ne hfd, Function.update_of_ne hfd]
    exact h fd'

/-- Clearing a bit of a set, where the item is emptied. -/
theorem update_none_iff {fds : Int → Option (Item η)} {set : Int → Bool} {bit : FdInterest → Bool}
    (h : ∀ fd, set fd = true ↔ ∃ item, fds fd = some item ∧ bit item.interest = true) (fd fd' : Int) :
    Function.update set fd false fd' = true ↔
      ∃ x, Function.update fds fd none fd' = some x ∧ bit x.interest = true := by
  by_cases hfd : fd' = fd
  · subst hfd
    rw [Function.update_self, Function.update_self]
    exact iff_of_false Bool.false_ne_true nofun
  · rw [Function.update_of_ne hfd, Function.update_of_ne hfd]
    exact h fd'

/-- Registering a descriptor keeps what the sets are derived from. -/
theorem Derived.register (h : s.Derived) (fd : Int) (handler : η) (interest : FdInterest) :
    (s.register fd handler interest).2.Derived := by
  unfold Selector.register
  split
  · exact h
  split
  · exact h
  next hvalid _ =>
  have hnonneg : 0 ≤ fd := by
    rw [Bool.not_eq_true] at hvalid
    unfold invalidFd at hvalid
    rw [Bool.or_eq_false_iff, decide_eq_false_iff_not] at hvalid
    exact Int.not_lt.mp hvalid.1
  have hused : ∀ fd', Function.update s.fds fd (some ⟨interest, handler⟩) fd' ≠ none →
      fd' = fd ∨ s.fds fd' ≠ none := by
    intro fd' hne
    by_cases hfd : fd' = fd
    · exact .inl hfd
    · rw [Function.update_of_ne hfd] at hne
      exact .inr hne
  constructor
  · intro fd' hne
    rcases hused fd' hne with rfl | hne
    · exact hnonneg
    · exact h.valid fd' hne
  · exact update_iff h.reads fd ⟨interest, handler⟩
  · exact update_iff h.writes fd ⟨interest, handler⟩
  · intro fd' hne
    rcases hused fd' hne with rfl | hne
    · exact Int.le_max_left _ _
    · exact Int.le_trans (h.upper fd' hne) (Int.le_max_right fd s.maxFd)
  · right
    change Function.update s.fds fd (some ⟨interest, handler⟩) (Max.max fd s.maxFd) ≠ none
    rcases Int.le_total fd s.maxFd with hle | hle
    · rw [Int.max_eq_right hle]
      by_cases hfd : s.maxFd = fd
      · rw [hfd, Function.update_self]
        exact Option.some_ne_none _
      · rw [Function.update_of_ne hfd]
        rcases h.max with ⟨hzero, -⟩ | hmax
        · omega
        · exact hmax
    · rw [Int.max_eq_left hle, Function.update_self]
      exact Option.some_ne_none _

/-- Setting an interest keeps what the sets are derived from. -/
theorem Derived.setInterest (h : s.Derived) (fd : Int) (i : FdInterest) :
    (s.setInterest fd i).2.Derived := by
  unfold Selector.setInterest
  split
  · exact h
  split
  · exact h
  next item hitem =>
  have hused : ∀ fd', Function.update s.fds fd (some { item with interest := i }) fd' ≠ none ↔
      s.fds fd' ≠ none := by
    intro fd'
    by_cases hfd : fd' = fd
    · subst hfd
      rw [Function.update_self, hitem]
      exact iff_of_true (Option.some_ne_none _) (Option.some_ne_none _)
    · rw [Function.update_of_ne hfd]
  constructor
  · exact fun fd' hne => h.valid fd' ((hused fd').mp hne)
  · exact update_iff h.reads fd { item with interest := i }
  · exact update_iff h.writes fd { item with interest := i }
  · exact fun fd' hne => h.upper fd' ((hused fd').mp hne)
  · rcases h.max with ⟨-, hnone⟩ | hmax
    · rw [hnone fd] at hitem
      cases hitem
    · exact .inr ((hused s.maxFd).mpr hmax)

/-- Clearing a slot keeps what the sets are derived from. -/
theorem Derived.clear (h : s.Derived) (fd : Int) : (s.clear fd).Derived := by
  have hmax := isMaxBelow_itemsMaxFd
    { s.updateFdset fd OP_NOOP with fds := Function.update s.fds fd none }
  have hused : ∀ fd', Function.update s.fds fd none fd' ≠ none → s.fds fd' ≠ none := by
    intro fd' hne
    by_cases hfd : fd' = fd
    · subst hfd
      rw [Function.update_self] at hne
      exact absurd rfl hne
    · rwa [Function.update_of_ne hfd] at hne
  have hupper : ∀ fd', Function.update s.fds fd none fd' ≠ none → fd' ≤ (s.clear fd).maxFd := by
    intro fd' hne
    have hnonneg := h.valid fd' (hused fd' hne)
    have hle := h.upper fd' (hused fd' hne)
    have hcast : ((fd'.toNat : Nat) : Int) = fd' := Int.toNat_of_nonneg hnonneg
    rw [← hcast] at hne ⊢
    apply hmax.upper fd'.toNat ?_ hne
    change fd'.toNat < s.maxFd.toNat + 1
    omega
  constructor
  · exact fun fd' hne => h.valid fd' (hused fd' hne)
  · exact update_none_iff h.reads fd
  · exact update_none_iff h.writes fd
  · exact hupper
  · by_cases hne : Function.update s.fds fd none (s.clear fd).maxFd = none
    · left
      rcases hmax.used with hzero | hsome
      · refine ⟨hzero, fun fd' => ?_⟩
        by_contra hsome
        have hle := hupper fd' hsome
        have hnonneg := h.valid fd' (hused fd' hsome)
        have heq : fd' = (s.clear fd).maxFd := Int.le_antisymm hle (by
          rw [show (s.clear fd).maxFd = 0 from hzero]
          exact hnonneg)
        rw [heq] at hsome
        exact hsome hne
      · exact absurd hne hsome
    · exact .inr hne

end Selector

/-! ## The selector the table stands for -/

/-- What an item in use holds. -/
def FdItem.toItem (item : FdItem η) : Option (Item η) :=
  if item.used then item.handler.map fun handler => ⟨item.interest, handler⟩ else none

namespace FdSelector

def toSelector (s : FdSelector η) : Selector η where
  fds fd := if 0 ≤ fd then s.fds[fd.toNat]?.bind FdItem.toItem else none
  maxFd := s.maxFd
  masterR := s.masterR
  masterW := s.masterW

/-- A used item is that of the descriptor at its index, and has handlers. -/
def Indexed (s : FdSelector η) : Prop :=
  ∀ (i : Nat) item, s.fds[i]? = some item → item.used = true → item.fd = i ∧ item.handler.isSome = true

variable {s s' : FdSelector η} {fd : Int} {item : FdItem η}

theorem toItem_unused : (FdItem.unused : FdItem η).toItem = none := rfl

/-- An item with a descriptor is in use. -/
theorem used_of_nonneg (h : 0 ≤ item.fd) : item.used = true := by
  unfold FdItem.used FD_UNUSED
  rw [decide_eq_true_eq]
  omega

/-- A descriptor is valid exactly when the table can be large enough for it. -/
theorem valid_iff : invalidFd fd = false ↔ 0 ≤ fd ∧ fd < ITEMS_MAX_SIZE := by
  unfold invalidFd
  rw [Bool.or_eq_false_iff, decide_eq_false_iff_not, decide_eq_false_iff_not, Int.not_lt, Int.not_le]

/-- Another item in the table is another item for its descriptor. -/
theorem fds_set (s : FdSelector η) (hfd : 0 ≤ fd) (hlt : fd.toNat < s.fds.length) (item : FdItem η) :
    ({ s with fds := s.fds.set fd.toNat item } : FdSelector η).toSelector.fds =
      Function.update s.toSelector.fds fd item.toItem := by
  funext fd'
  by_cases hsame : fd' = fd
  · subst hsame
    rw [Function.update_self]
    unfold toSelector
    simp only [if_pos hfd, List.getElem?_set_self hlt, Option.bind_some]
  · rw [Function.update_of_ne hsame]
    unfold toSelector
    simp only
    split
    · next hfd' =>
      have hne : fd.toNat ≠ fd'.toNat := by omega
      rw [List.getElem?_set_ne hne]
    · rfl

/-- Writing an item at its own place keeps every item at its place. -/
theorem Indexed.set (h : s.Indexed) {i : Nat} (hitem : item.used = true → item.fd = i ∧
    item.handler.isSome = true) : ({ s with fds := s.fds.set i item } : FdSelector η).Indexed := by
  intro j item' hitem' hused
  simp only [List.getElem?_set] at hitem'
  split at hitem'
  · next hij =>
    split at hitem'
    · cases hitem'
      subst hij
      exact hitem hused
    · cases hitem'
  · exact h j item' hitem' hused

/-- An item in use has a handler. -/
theorem Indexed.toItem (h : s.Indexed) {i : Nat} (hitem : s.fds[i]? = some item)
    (hused : item.used = true) :
    ∃ handler, item.handler = some handler ∧ item.toItem = some ⟨item.interest, handler⟩ := by
  obtain ⟨handler, hhandler⟩ := Option.isSome_iff_exists.mp (h i item hitem hused).2
  refine ⟨handler, hhandler, ?_⟩
  unfold FdItem.toItem
  rw [if_pos hused, hhandler]
  rfl

/-- The slot of a descriptor is its item. -/
theorem fds_eq (hfd : 0 ≤ fd) (hitem : s.fds[fd.toNat]? = some item) :
    s.toSelector.fds fd = item.toItem := by
  unfold toSelector
  simp only [if_pos hfd, hitem, Option.bind_some]

/-- An item that is not in use is an empty slot. -/
theorem fds_eq_none (hfd : 0 ≤ fd) (hitem : s.fds[fd.toNat]? = some item)
    (hunused : ¬item.used = true) : s.toSelector.fds fd = none := by
  rw [fds_eq hfd hitem]
  unfold FdItem.toItem
  exact if_neg hunused

/-! ### More items -/

/-- The table only grows. -/
theorem length_ensureCapacity (memory : Nat → Bool) (s : FdSelector η) (n : Nat) :
    s.fds.length ≤ (s.ensureCapacity memory n).2.fds.length := by
  unfold ensureCapacity
  split
  · exact Nat.le_refl _
  split
  · exact Nat.le_refl _
  split
  · simp only [List.length_append]
    exact Nat.le_add_right _ _
  · exact Nat.le_refl _

/-- A table that is made larger keeps its items. -/
theorem getElem?_ensureCapacity (memory : Nat → Bool) (s : FdSelector η) (n : Nat) {i : Nat}
    (h : s.fds[i]? = some item) : (s.ensureCapacity memory n).2.fds[i]? = some item := by
  have hlt : i < s.fds.length := (List.getElem?_eq_some_iff.mp h).1
  unfold ensureCapacity
  split
  · exact h
  split
  · exact h
  split
  · simp only [List.getElem?_append_left hlt]
    exact h
  · exact h

/-- A table that was made larger has an item for the descriptor, and stands for the same
selector. -/
theorem ensureCapacity_spec (memory : Nat → Bool) (h : s.Indexed) (n : Nat) :
    (s.ensureCapacity memory n).2.toSelector = s.toSelector ∧ (s.ensureCapacity memory n).2.Indexed ∧
      (s.ensureCapacity memory n).2.maxFd = s.maxFd ∧
      ((s.ensureCapacity memory n).1 = .SELECTOR_SUCCESS →
        n < (s.ensureCapacity memory n).2.fds.length) ∧
      ((s.ensureCapacity memory n).1 ≠ .SELECTOR_SUCCESS → (s.ensureCapacity memory n).2 = s) := by
  unfold ensureCapacity
  split
  · next hlt => exact ⟨rfl, h, rfl, fun _ => hlt, fun _ => rfl⟩
  split
  · exact ⟨rfl, h, rfl, nofun, fun _ => rfl⟩
  next hge hmax =>
  split
  · refine ⟨?_, ?_, rfl, fun _ => ?_, fun hne => absurd rfl hne⟩
    · unfold toSelector
      simp only [Selector.mk.injEq, and_true]
      funext fd
      split
      · rw [List.getElem?_append]
        split
        · rfl
        · next hout =>
          rw [List.getElem?_eq_none (Nat.not_lt.mp hout), List.getElem?_replicate]
          split <;> rfl
      · rfl
    · intro i item hitem hused
      rw [List.getElem?_append] at hitem
      split at hitem
      · exact h i item hitem hused
      · rw [List.getElem?_replicate] at hitem
        split at hitem
        · cases hitem
          cases hused
        · cases hitem
    · have hcap := lt_nextCapacity (Nat.not_lt.mp hmax)
      simp only [List.length_append, List.length_replicate]
      omega
  · exact ⟨rfl, h, rfl, nofun, fun _ => rfl⟩

/-- A new table has the next capacity. -/
theorem length_new {memory : Nat → Bool} {n : Nat} (h : new memory n = some s) :
    s.fds.length = nextCapacity n := by
  unfold new at h
  cases hs : ensureCapacity memory ({} : FdSelector η) n with
  | mk status s₁ =>
    simp only [hs] at h
    split at h
    · next hstatus =>
      cases h
      rw [hstatus] at hs
      unfold ensureCapacity at hs
      simp only [List.length_nil, Nat.not_lt_zero, if_false, Nat.sub_zero, List.nil_append] at hs
      split at hs
      · cases hs
      split at hs
      · cases hs
        exact List.length_replicate
      · cases hs
    · cases h

/-! ### The operations -/

/-- The sets of the table are those of the selector. -/
theorem toSelector_updateFdset (s : FdSelector η) (item : FdItem η) (hused : item.used = true) :
    (s.updateFdset item).toSelector = s.toSelector.updateFdset item.fd item.interest := by
  unfold updateFdset Selector.updateFdset toSelector
  simp only [hused, Bool.true_and]

/-- Registering an item is registering its descriptor. -/
theorem registerItem_spec (h : s.Indexed) (hvalid : invalidFd fd = false)
    (hlt : fd.toNat < s.fds.length) (handler : η) (interest : FdInterest) :
    ∃ s', s.registerItem fd (some handler) interest =
        some ((s.toSelector.register fd handler interest).1, s') ∧
      s'.toSelector = (s.toSelector.register fd handler interest).2 ∧ s'.Indexed ∧
      s'.fds.length = s.fds.length ∧
      ((s.toSelector.register fd handler interest).1 ≠ .SELECTOR_SUCCESS → s' = s) := by
  obtain ⟨hnonneg, -⟩ := valid_iff.mp hvalid
  have hitem := List.getElem?_eq_getElem hlt
  unfold registerItem Selector.register
  rw [hitem, hvalid, if_neg Bool.false_ne_true, Option.map_some]
  split
  · next hused =>
    obtain ⟨x, -, hx⟩ := h.toItem hitem hused
    have hsome : (s.toSelector.fds fd).isSome = true := by rw [fds_eq hnonneg hitem, hx]; rfl
    rw [if_pos hsome]
    exact ⟨s, rfl, rfl, h, rfl, fun _ => rfl⟩
  · next hunused =>
    have hnone : ¬(s.toSelector.fds fd).isSome = true := by
      rw [fds_eq_none hnonneg hitem hunused]
      exact Bool.false_ne_true
    rw [if_neg hnone]
    have hused : (⟨fd, interest, some handler⟩ : FdItem η).used = true := used_of_nonneg hnonneg
    refine ⟨_, rfl, ?_, ?_, List.length_set, fun hne => absurd rfl hne⟩
    · rw [toSelector_updateFdset _ _ hused]
      have hmax : (if fd > s.maxFd then fd else s.maxFd) = Max.max fd s.maxFd := by
        split <;> omega
      have hfds := fds_set s hnonneg hlt ⟨fd, interest, some handler⟩
      unfold FdItem.toItem at hfds
      rw [if_pos hused, Option.map_some] at hfds
      unfold Selector.updateFdset
      rw [← hfds, hmax]
      rfl
    · exact h.set fun _ => ⟨(Int.toNat_of_nonneg hnonneg).symm, rfl⟩

/-- Setting the interest of an item is setting that of its descriptor. -/
theorem setInterest_spec (h : s.Indexed) (hroom : invalidFd fd = false → fd.toNat < s.fds.length)
    (i : FdInterest) :
    ∃ s', s.setInterest fd i = some ((s.toSelector.setInterest fd i).1, s') ∧
      s'.toSelector = (s.toSelector.setInterest fd i).2 ∧ s'.Indexed ∧
      s'.fds.length = s.fds.length ∧
      ((s.toSelector.setInterest fd i).1 ≠ .SELECTOR_SUCCESS → s' = s) := by
  unfold setInterest Selector.setInterest
  split
  · exact ⟨s, rfl, rfl, h, rfl, fun _ => rfl⟩
  next hvalid =>
  rw [Bool.not_eq_true] at hvalid
  obtain ⟨hnonneg, -⟩ := valid_iff.mp hvalid
  have hlt := hroom hvalid
  obtain ⟨item, hitem⟩ : ∃ item, s.fds[fd.toNat]? = some item := ⟨_, List.getElem?_eq_getElem hlt⟩
  rw [hitem, Option.map_some]
  by_cases hused : item.used = true
  · obtain ⟨handler, hhandler, hx⟩ := h.toItem hitem hused
    have hindex := (h _ _ hitem hused).1
    rw [Int.toNat_of_nonneg hnonneg] at hindex
    rw [if_neg (not_not.mpr hused), fds_eq hnonneg hitem, hx]
    have hset := h _ _ hitem hused
    refine ⟨_, rfl, ?_, h.set fun _ => hset, List.length_set, fun hne => absurd rfl hne⟩
    obtain ⟨f, interest, hdl⟩ := item
    cases hindex
    cases hhandler
    have hused' : (⟨f, i, some handler⟩ : FdItem η).used = true := hused
    have hfds := fds_set s hnonneg hlt ⟨f, i, some handler⟩
    unfold FdItem.toItem at hfds
    rw [if_pos hused', Option.map_some] at hfds
    simp only
    rw [toSelector_updateFdset _ _ hused']
    unfold Selector.updateFdset
    simp only at hfds ⊢
    rw [← hfds]
    rfl
  · rw [if_pos hused, fds_eq_none hnonneg hitem hused]
    exact ⟨s, rfl, rfl, h, rfl, fun _ => rfl⟩

/-- The greatest descriptor in the table is that of the selector. -/
theorem itemsMaxFd_spec (h : s.Indexed) (hmax : s.maxFd.toNat < s.fds.length) :
    s.itemsMaxFd = some s.toSelector.itemsMaxFd := by
  unfold itemsMaxFd Selector.itemsMaxFd
  have hrange : ∀ i ∈ List.range (s.maxFd.toNat + 1), i < s.fds.length := fun i hi =>
    Nat.lt_of_le_of_lt (Nat.lt_succ_iff.mp (List.mem_range.mp hi)) hmax
  change _ = some (List.foldl _ 0 (List.range (s.maxFd.toNat + 1)))
  generalize List.range (s.maxFd.toNat + 1) = l at hrange
  generalize (0 : Int) = max
  induction l generalizing max with
  | nil => rfl
  | cons i l ih =>
    have hlt := hrange i List.mem_cons_self
    have hitem := List.getElem?_eq_getElem hlt
    have hitem' : s.fds[((i : Int)).toNat]? = some s.fds[i] := by rwa [Int.toNat_natCast]
    rw [List.foldlM_cons, List.foldl_cons, hitem, Option.map_some]
    refine (ih (fun x hx => hrange x (List.mem_cons_of_mem i hx)) _).trans ?_
    congr 2
    by_cases hused : (s.fds[i]).used = true
    · obtain ⟨handler, -, hx⟩ := h.toItem hitem hused
      rw [fds_eq (Int.natCast_nonneg i) hitem', hx, (h _ _ hitem hused).1]
      simp only [hused, Option.isSome_some]
    · rw [fds_eq_none (Int.natCast_nonneg i) hitem' hused]
      rw [if_neg fun hx => hused hx.1, if_neg fun hx => Bool.false_ne_true hx.1]

/-- Clearing an item is clearing its slot. -/
theorem clear_spec (h : s.Indexed) (hnonneg : 0 ≤ fd) (hused : s.toSelector.fds fd ≠ none)
    (hmax : s.maxFd.toNat < s.fds.length) :
    ∃ s', s.clear fd = some s' ∧ s'.toSelector = s.toSelector.clear fd ∧ s'.Indexed ∧
      s'.fds.length = s.fds.length := by
  cases hitem : s.fds[fd.toNat]? with
  | none =>
    unfold toSelector at hused
    simp only [if_pos hnonneg, hitem, Option.bind_none] at hused
    exact absurd rfl hused
  | some item =>
    by_cases hu : item.used = true
    · have hlt : fd.toNat < s.fds.length := (List.getElem?_eq_some_iff.mp hitem).1
      have hindex := (h _ _ hitem hu).1
      rw [Int.toNat_of_nonneg hnonneg] at hindex
      obtain ⟨f, interest, hdl⟩ := item
      cases hindex
      unfold clear
      rw [hitem, Option.bind_some, if_neg (not_not.mpr hu)]
      simp only
      have hused' : (⟨f, OP_NOOP, hdl⟩ : FdItem η).used = true := hu
      have hset : (⟨s.fds.set f.toNat .unused, s.maxFd, (s.updateFdset ⟨f, OP_NOOP, hdl⟩).masterR,
          (s.updateFdset ⟨f, OP_NOOP, hdl⟩).masterW⟩ : FdSelector η).Indexed := h.set nofun
      have hstands : (⟨s.fds.set f.toNat .unused, s.maxFd, (s.updateFdset ⟨f, OP_NOOP, hdl⟩).masterR,
          (s.updateFdset ⟨f, OP_NOOP, hdl⟩).masterW⟩ : FdSelector η).toSelector =
          { s.toSelector.updateFdset f OP_NOOP with
            fds := Function.update s.toSelector.fds f none } := by
        have hfds := fds_set s hnonneg hlt .unused
        rw [toItem_unused] at hfds
        rw [← hfds, ← toSelector_updateFdset s ⟨f, OP_NOOP, hdl⟩ hused']
        rfl
      have hitems := itemsMaxFd_spec hset (by
        change s.maxFd.toNat < (s.fds.set f.toNat .unused).length
        rwa [List.length_set])
      refine ⟨_, congrArg _ hitems, ?_, hset, List.length_set⟩
      rw [hstands]
      unfold Selector.clear
      rw [← hstands]
      rfl
    · rw [fds_eq_none hnonneg hitem hu] at hused
      exact absurd rfl hused

end FdSelector

end HttpProxy
