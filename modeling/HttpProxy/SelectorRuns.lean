import HttpProxy.Library.PartialRun
import HttpProxy.SelectorTable

/-!
# Runs of the selector

Calls of `selector_register`, `selector_set_interest` and `selector_unregister_fd`, the last of which
calls `handle_close` half way through, and that may unregister other descriptors before it returns.

`selector_matches`: the sets and the maximum of the selector `main` makes are those of its table after
every call, also while a `handle_close` runs. `inTable_iff`: which calls look at an item the table
does not have, for a selector of any size.
-/

namespace HttpProxy

variable {η : Type}

/-- A selector, and the calls of `selector_unregister_fd` that are not done. -/
structure SelectorState (η : Type) where
  selector : FdSelector η
  /-- The descriptors whose `handle_close` runs, the innermost first. -/
  closing : List Int := []
  /-- What the last call returned, if it has. -/
  returned : Option SelectorStatus := none

inductive SelectorCall (η : Type)
  | register (memory : Nat → Bool) (fd : Int) (handler : Option η) (interest : FdInterest)
  | setInterest (fd : Int) (i : FdInterest)
  | unregister (fd : Int)
  /-- The innermost `handle_close` returns. -/
  | closed

namespace SelectorState

/-- A call that returned at once. -/
def returns (m : SelectorState η) (r : Option (SelectorStatus × FdSelector η)) :
    Option (SelectorState η) :=
  r.map fun r => { m with selector := r.2, returned := some r.1 }

/-- The rest of `selector_unregister_fd`, after `handle_close`. -/
def clear (m : SelectorState η) (fd : Int) (closing : List Int) : Option (SelectorState η) :=
  (m.selector.clear fd).map fun selector =>
    { selector := selector, closing := closing, returned := some .SELECTOR_SUCCESS }

/-- `hasClose` says of which handlers the `handle_close` is not `NULL`. -/
def unregister (hasClose : η → Bool) (m : SelectorState η) (fd : Int) : Option (SelectorState η) :=
  (m.selector.unregisterItem fd).bind fun
    | .inl status => m.returns (some (status, m.selector))
    | .inr item =>
      if item.handler.any hasClose then some { m with closing := fd :: m.closing, returned := none }
      else m.clear fd m.closing

def closed (m : SelectorState η) : Option (SelectorState η) :=
  match m.closing with
  | [] => none
  | fd :: closing => m.clear fd closing

def step (hasClose : η → Bool) (m : SelectorState η) : SelectorCall η → Option (SelectorState η)
  | .register memory fd handler interest =>
    m.returns (m.selector.register memory fd handler interest)
  | .setInterest fd i => m.returns (m.selector.setInterest fd i)
  | .unregister fd => m.unregister hasClose fd
  | .closed => m.closed

/-- A `handle_close` unregisters only descriptors that are not being unregistered. -/
def Allowed (m : SelectorState η) : SelectorCall η → Prop
  | .register .. | .setInterest .. => m.closing = []
  | .unregister fd => fd ∉ m.closing
  | .closed => m.closing ≠ []

/-- The table has room for the item that is registered, or is made to have it, and has the items of
the other calls. -/
def InTable (m : SelectorState η) : SelectorCall η → Prop
  | .register _ fd handler _ =>
    invalidFd fd = false → handler.isSome = true → fd.toNat ≠ m.selector.fds.length
  | .setInterest fd _ | .unregister fd => invalidFd fd = false → fd.toNat < m.selector.fds.length
  | .closed => True

instance (m : SelectorState η) : DecidablePred m.Allowed
  | .register .. | .setInterest .. => inferInstanceAs (Decidable (m.closing = []))
  | .unregister fd => inferInstanceAs (Decidable (fd ∉ m.closing))
  | .closed => inferInstanceAs (Decidable (m.closing ≠ []))

/-! ## The invariant -/

structure Inv (m : SelectorState η) : Prop where
  indexed : m.selector.Indexed
  derived : m.selector.toSelector.Derived
  table : 0 < m.selector.fds.length
  nodup : m.closing.Nodup
  closing : ∀ fd ∈ m.closing, 0 ≤ fd ∧ m.selector.toSelector.fds fd ≠ none

/-- A call from `m`: where it ends, and that nothing happened if it failed. -/
structure Called (m m' : SelectorState η) : Prop where
  inv : m'.Inv
  larger : m.selector.fds.length ≤ m'.selector.fds.length
  unchanged : ∀ status, m'.returned = some status → status ≠ .SELECTOR_SUCCESS →
    m'.selector = m.selector

variable {hasClose : η → Bool} {m m' : SelectorState η} {fd : Int}

/-- The greatest descriptor has an item. -/
theorem Inv.maxFd_lt (h : m.Inv) : m.selector.maxFd.toNat < m.selector.fds.length := by
  have hpos := h.table
  rcases h.derived.max with ⟨hzero, -⟩ | hused
  · change m.selector.maxFd = 0 at hzero
    rw [hzero]
    exact hpos
  · by_contra hge
    apply hused
    unfold FdSelector.toSelector
    simp only [List.getElem?_eq_none (Nat.not_lt.mp hge), Option.bind_none, ite_self]

/-- What is registered when there is room for it, or it can be made. -/
theorem register_spec {s : FdSelector η} (h : s.Indexed) (hd : s.toSelector.Derived)
    (memory : Nat → Bool) (handler : Option η) (interest : FdInterest)
    (hroom : invalidFd fd = false → handler.isSome = true → fd.toNat ≠ s.fds.length) :
    ∃ status s', s.register memory fd handler interest = some (status, s') ∧ s'.Indexed ∧
      s'.toSelector.Derived ∧ s.fds.length ≤ s'.fds.length ∧
      (status ≠ .SELECTOR_SUCCESS → s' = s) := by
  unfold FdSelector.register
  split
  · exact ⟨_, s, rfl, h, hd, Nat.le_refl _, fun _ => rfl⟩
  next hargs =>
  rw [Bool.or_eq_true, not_or, Bool.not_eq_true, Bool.not_eq_true] at hargs
  obtain ⟨hvalid, hhandler⟩ := hargs
  cases handler with
  | none => cases hhandler
  | some handler =>
    split
    · next hbeyond =>
      obtain ⟨hstands, hindexed, -, hfits, hfails⟩ :=
        FdSelector.ensureCapacity_spec memory h fd.toNat
      have hlarger := FdSelector.length_ensureCapacity memory s fd.toNat
      generalize s.ensureCapacity memory fd.toNat = r at *
      obtain ⟨ret, s₁⟩ := r
      simp only at *
      split
      · next hret => exact ⟨ret, s₁, rfl, hindexed, by rwa [hstands], hlarger, fun _ => hfails hret⟩
      · next hret =>
        obtain ⟨s', hs', hstands', hindexed', hlen, -⟩ :=
          FdSelector.registerItem_spec hindexed hvalid (hfits (not_not.mp hret)) handler interest
        -- the item of the descriptor is new, so it is not in use
        have hnone : s.toSelector.fds fd = none := by
          unfold FdSelector.toSelector
          simp only [List.getElem?_eq_none (Nat.le_of_lt hbeyond), Option.bind_none, ite_self]
        have hsuccess : (s.toSelector.register fd handler interest).1 = .SELECTOR_SUCCESS := by
          unfold Selector.register
          rw [hvalid, hnone]
          rfl
        rw [hstands] at hs' hstands'
        rw [hsuccess] at hs'
        refine ⟨_, s', hs', hindexed', ?_, by rwa [hlen], fun hne => absurd rfl hne⟩
        rw [hstands']
        exact hd.register fd handler interest
    · next hbeyond =>
      have hlt : fd.toNat < s.fds.length :=
        Nat.lt_of_le_of_ne (Nat.not_lt.mp hbeyond) (hroom hvalid rfl)
      obtain ⟨s', hs', hstands, hindexed, hlen, hfails⟩ :=
        FdSelector.registerItem_spec h hvalid hlt handler interest
      refine ⟨_, s', hs', hindexed, ?_, Nat.le_of_eq hlen.symm, hfails⟩
      rw [hstands]
      exact hd.register fd handler interest

/-- A call that returns leaves the selector as it should be. -/
theorem called_returns (h : m.Inv) {status : SelectorStatus} {s' : FdSelector η}
    (hindexed : s'.Indexed) (hderived : s'.toSelector.Derived)
    (hlarger : m.selector.fds.length ≤ s'.fds.length)
    (hfails : status ≠ .SELECTOR_SUCCESS → s' = m.selector)
    (hclosing : m.closing = [] ∨ s' = m.selector) :
    ∃ m', m.returns (some (status, s')) = some m' ∧ Called m m' := by
  refine ⟨_, rfl, ⟨hindexed, hderived, Nat.lt_of_lt_of_le h.table hlarger, h.nodup, ?_⟩, hlarger, ?_⟩
  · rcases hclosing with hnone | hsame
    · simp only [hnone]
      nofun
    · simp only [hsame]
      exact h.closing
  · intro status' hstatus hne
    cases hstatus
    exact hfails hne

/-- The item of a descriptor that is unregistered, after its `handle_close`. -/
theorem called_clear (h : m.Inv) (hnonneg : 0 ≤ fd) (hused : m.selector.toSelector.fds fd ≠ none)
    {closing : List Int} (hnodup : closing.Nodup) (hfd : fd ∉ closing)
    (hsub : ∀ g ∈ closing, g ∈ m.closing) : ∃ m', m.clear fd closing = some m' ∧ Called m m' := by
  obtain ⟨s', hs', hstands, hindexed, hlen⟩ :=
    FdSelector.clear_spec h.indexed hnonneg hused h.maxFd_lt
  refine ⟨⟨s', closing, some .SELECTOR_SUCCESS⟩, ?_, ⟨hindexed, ?_, ?_, hnodup, ?_⟩,
    Nat.le_of_eq hlen.symm, ?_⟩
  · unfold clear
    rw [hs']
    rfl
  · rw [hstands]
    exact h.derived.clear fd
  · rw [hlen]
    exact h.table
  · intro g hg
    obtain ⟨hg₀, hgused⟩ := h.closing g (hsub g hg)
    refine ⟨hg₀, ?_⟩
    have hne : g ≠ fd := fun heq => hfd (heq ▸ hg)
    rw [hstands, Selector.fds_clear, Function.update_of_ne hne]
    exact hgused
  · intro status hstatus hne
    cases hstatus
    exact absurd rfl hne

/-- Unregistering a descriptor that is not being closed is allowed, and leaves the close to its
handler. -/
theorem called_unregister (hasClose : η → Bool) (h : m.Inv) (hallowed : fd ∉ m.closing)
    (hin : invalidFd fd = false → fd.toNat < m.selector.fds.length) :
    ∃ m', m.unregister hasClose fd = some m' ∧ Called m m' := by
  have hfails : ∃ m', m.returns (some (.SELECTOR_IARGS, m.selector)) = some m' ∧ Called m m' :=
    called_returns h h.indexed h.derived (Nat.le_refl _) (fun _ => rfl) (.inr rfl)
  unfold unregister FdSelector.unregisterItem
  split
  · exact hfails
  next hvalid =>
  rw [Bool.not_eq_true] at hvalid
  obtain ⟨hnonneg, -⟩ := FdSelector.valid_iff.mp hvalid
  obtain ⟨item, hitem⟩ : ∃ item, m.selector.fds[fd.toNat]? = some item :=
    ⟨_, List.getElem?_eq_getElem (hin hvalid)⟩
  rw [hitem, Option.map_some, Option.bind_some]
  by_cases hused : item.used = true
  · rw [if_neg (not_not.mpr hused)]
    obtain ⟨handler, -, hx⟩ := h.indexed.toItem hitem hused
    have hsome : m.selector.toSelector.fds fd ≠ none := by
      rw [FdSelector.fds_eq hnonneg hitem, hx]
      exact Option.some_ne_none _
    simp only
    split
    · refine ⟨_, rfl, ⟨h.indexed, h.derived, h.table, List.nodup_cons.mpr ⟨hallowed, h.nodup⟩, ?_⟩,
        Nat.le_refl _, nofun⟩
      intro g hg
      rcases List.mem_cons.mp hg with rfl | hg
      · exact ⟨hnonneg, hsome⟩
      · exact h.closing g hg
    · exact called_clear h hnonneg hsome h.nodup hallowed fun _ hg => hg
  · rw [if_pos hused]
    exact hfails

/-- The end of a close clears the item. -/
theorem called_closed (h : m.Inv) (hallowed : m.closing ≠ []) :
    ∃ m', m.closed = some m' ∧ Called m m' := by
  unfold closed
  cases hclosing : m.closing with
  | nil => exact absurd hclosing hallowed
  | cons fd closing =>
    have hnodup := h.nodup
    rw [hclosing] at hnodup
    obtain ⟨hfd, hnodup⟩ := List.nodup_cons.mp hnodup
    obtain ⟨hnonneg, hused⟩ := h.closing fd (by rw [hclosing]; exact List.mem_cons_self)
    apply called_clear h hnonneg hused hnodup hfd
    intro g hg
    rw [hclosing]
    exact List.mem_cons_of_mem fd hg

/-- One call. -/
theorem called_step (hasClose : η → Bool) (h : m.Inv) {c : SelectorCall η} (hallowed : m.Allowed c)
    (hin : m.InTable c) : ∃ m', m.step hasClose c = some m' ∧ Called m m' := by
  cases c with
  | register memory fd handler interest =>
    obtain ⟨status, s', hs', hindexed, hderived, hlen, hfails⟩ :=
      register_spec h.indexed h.derived memory handler interest hin
    unfold step
    simp only [hs']
    exact called_returns h hindexed hderived hlen hfails (.inl hallowed)
  | setInterest fd i =>
    obtain ⟨s', hs', hstands, hindexed, hlen, hfails⟩ := FdSelector.setInterest_spec h.indexed hin i
    have hderived : s'.toSelector.Derived := by
      rw [hstands]
      exact h.derived.setInterest fd i
    unfold step
    simp only [hs']
    exact called_returns h hindexed hderived (Nat.le_of_eq hlen.symm) hfails (.inl hallowed)
  | unregister fd => exact called_unregister hasClose h hallowed hin
  | closed => exact called_closed h hallowed

/-! ## Calls that leave the table -/

/-- Registering a descriptor without an item is undefined. -/
theorem register_eq_none {s : FdSelector η} {memory : Nat → Bool} {handler : Option η}
    {interest : FdInterest} (hvalid : invalidFd fd = false) (hhandler : handler.isSome = true)
    (hfd : fd.toNat = s.fds.length) : s.register memory fd handler interest = none := by
  have hargs : (invalidFd fd || handler.isNone) = false := by
    rw [hvalid, Bool.false_or, ← Option.not_isSome, hhandler]
    rfl
  unfold FdSelector.register FdSelector.registerItem
  rw [hargs, if_neg Bool.false_ne_true, if_neg (by omega), List.getElem?_eq_none (by omega)]
  rfl

/-- A call that the table has no item for is undefined. -/
theorem inTable_of_step {hasClose : η → Bool} {c : SelectorCall η} (h : m.step hasClose c = some m') :
    m.InTable c := by
  cases c with
  | register memory fd handler interest =>
    intro hvalid hhandler hfd
    unfold step at h
    simp only [register_eq_none hvalid hhandler hfd] at h
    cases h
  | setInterest fd i =>
    intro hvalid
    by_contra hge
    unfold step FdSelector.setInterest at h
    simp only [hvalid, Bool.false_eq_true, if_false, List.getElem?_eq_none (Nat.not_lt.mp hge),
      Option.map_none] at h
    cases h
  | unregister fd =>
    intro hvalid
    by_contra hge
    unfold step unregister FdSelector.unregisterItem at h
    simp only [hvalid, Bool.false_eq_true, if_false, List.getElem?_eq_none (Nat.not_lt.mp hge),
      Option.map_none, Option.bind_none] at h
    cases h
  | closed => trivial

/-! ## New selectors -/

/-- A selector that was just made. -/
def made (s : FdSelector η) : SelectorState η := { selector := s }

/-- A new selector is as it should be, with more items than it was asked for. -/
theorem new_spec {memory : Nat → Bool} {n : Nat} {s : FdSelector η}
    (h : FdSelector.new memory n = some s) : (made s).Inv ∧ n < s.fds.length := by
  have hempty : ({} : FdSelector η).Indexed := fun i item hitem => by cases hitem
  obtain ⟨hstands, hindexed, -, hfits, -⟩ := FdSelector.ensureCapacity_spec memory hempty n
  unfold FdSelector.new at h
  generalize FdSelector.ensureCapacity memory ({} : FdSelector η) n = r at *
  obtain ⟨status, s₁⟩ := r
  simp only at *
  split at h
  · next hstatus =>
    cases h
    have hlt := hfits hstatus
    refine ⟨⟨hindexed, ?_, Nat.zero_lt_of_lt hlt, List.nodup_nil, nofun⟩, hlt⟩
    change s.toSelector.Derived
    rw [hstands]
    refine cast (congrArg Selector.Derived ?_) (Selector.derived_empty (η := η))
    unfold FdSelector.toSelector
    simp only [List.getElem?_nil, Option.bind_none, ite_self]
  · cases h

end SelectorState

/-! ## What a run keeps -/

/-- The sets and the maximum of the selector are those of its table. -/
structure FdSelector.Matches (s : FdSelector η) : Prop where
  index : ∀ (i : Nat) item, s.fds[i]? = some item → item.used = true → item.fd = i
  reads : ∀ fd, s.masterR fd = true ↔
    ∃ item ∈ s.fds, item.used = true ∧ item.fd = fd ∧ item.interest.OP_READ = true
  writes : ∀ fd, s.masterW fd = true ↔
    ∃ item ∈ s.fds, item.used = true ∧ item.fd = fd ∧ item.interest.OP_WRITE = true
  max : (s.maxFd = 0 ∧ ∀ item ∈ s.fds, ¬item.used = true) ∨
    ((∃ item ∈ s.fds, item.used = true ∧ item.fd = s.maxFd) ∧
      ∀ item ∈ s.fds, item.used = true → item.fd ≤ s.maxFd)

namespace SelectorState

variable {hasClose : η → Bool} {m m' : SelectorState η} {fd : Int}

/-- An item in use is in the selector the table stands for. -/
theorem fds_of_mem {s : FdSelector η} (h : s.Indexed) {item : FdItem η} (hmem : item ∈ s.fds)
    (hused : item.used = true) : 0 ≤ item.fd ∧
      ∃ x, s.toSelector.fds item.fd = some x ∧ x.interest = item.interest := by
  obtain ⟨i, hi⟩ := List.mem_iff_getElem?.mp hmem
  have hindex := (h i item hi hused).1
  have hnonneg : 0 ≤ item.fd := by omega
  obtain ⟨handler, -, hx⟩ := h.toItem hi hused
  have hi' : s.fds[item.fd.toNat]? = some item := by rwa [hindex, Int.toNat_natCast]
  exact ⟨hnonneg, _, (FdSelector.fds_eq hnonneg hi').trans hx, rfl⟩

/-- What is in a slot is in the table. -/
theorem mem_of_fds {s : FdSelector η} (h : s.Indexed) {x : Item η}
    (hx : s.toSelector.fds fd = some x) :
    ∃ item ∈ s.fds, item.used = true ∧ item.fd = fd ∧ item.interest = x.interest := by
  unfold FdSelector.toSelector at hx
  simp only at hx
  split at hx
  · next hnonneg =>
    obtain ⟨item, hitem, hto⟩ := Option.bind_eq_some_iff.mp hx
    unfold FdItem.toItem at hto
    split at hto
    · next hused =>
      obtain ⟨handler, -, rfl⟩ := Option.map_eq_some_iff.mp hto
      have hindex := (h _ item hitem hused).1
      rw [Int.toNat_of_nonneg hnonneg] at hindex
      exact ⟨item, List.mem_of_getElem? hitem, hused, hindex, rfl⟩
    · cases hto
  · cases hx

/-- A slot is of interest exactly when an item of the table is. -/
theorem exists_item_iff {s : FdSelector η} (h : s.Indexed) (bit : FdInterest → Bool) (fd : Int) :
    (∃ x, s.toSelector.fds fd = some x ∧ bit x.interest = true) ↔
      ∃ item ∈ s.fds, item.used = true ∧ item.fd = fd ∧ bit item.interest = true := by
  constructor
  · rintro ⟨x, hx, hbit⟩
    obtain ⟨item, hmem, hused, hfd, hinterest⟩ := mem_of_fds h hx
    exact ⟨item, hmem, hused, hfd, by rwa [hinterest]⟩
  · rintro ⟨item, hmem, hused, rfl, hbit⟩
    obtain ⟨-, x, hx, hinterest⟩ := fds_of_mem h hmem hused
    exact ⟨x, hx, by rwa [hinterest]⟩

/-- A selector as it should be has the table that its sets say. -/
theorem Inv.matches (h : m.Inv) : m.selector.Matches := by
  constructor
  · intro i item hi hused
    exact (h.indexed i item hi hused).1
  · intro fd
    exact (h.derived.reads fd).trans (exists_item_iff h.indexed (·.OP_READ) fd)
  · intro fd
    exact (h.derived.writes fd).trans (exists_item_iff h.indexed (·.OP_WRITE) fd)
  · rcases h.derived.max with ⟨hzero, hnone⟩ | hsome
    · refine .inl ⟨hzero, fun item hmem hused => ?_⟩
      obtain ⟨-, x, hx, -⟩ := fds_of_mem h.indexed hmem hused
      rw [hnone] at hx
      cases hx
    · obtain ⟨x, hx⟩ := Option.ne_none_iff_exists'.mp hsome
      obtain ⟨item, hmem, hused, hfd, -⟩ := mem_of_fds h.indexed hx
      refine .inr ⟨⟨item, hmem, hused, hfd⟩, fun item' hmem' hused' => ?_⟩
      obtain ⟨-, x', hx', -⟩ := fds_of_mem h.indexed hmem' hused'
      apply h.derived.upper
      rw [hx']
      exact Option.some_ne_none x'

/-- A table for all the descriptors there may be has an item for each call. -/
theorem inTable_of_full (h : ITEMS_MAX_SIZE.toNat ≤ m.selector.fds.length) (c : SelectorCall η) :
    m.InTable c := by
  have hlt : ∀ fd, invalidFd fd = false → fd.toNat < m.selector.fds.length := by
    intro fd hvalid
    obtain ⟨hnonneg, hmax⟩ := FdSelector.valid_iff.mp hvalid
    omega
  cases c with
  | register memory fd handler interest => exact fun hvalid _ => Nat.ne_of_lt (hlt fd hvalid)
  | setInterest fd i => exact hlt fd
  | unregister fd => exact hlt fd
  | closed => trivial

/-- No run leaves such a table. -/
theorem run_of_full (hasClose : η → Bool) (h : m.Inv)
    (hfull : ITEMS_MAX_SIZE.toNat ≤ m.selector.fds.length) {cs : List (SelectorCall η)}
    (hallowed : PartialRun.Along (step hasClose) Allowed m cs) :
    ∃ m', PartialRun.run (step hasClose) m cs = some m' ∧ m'.Inv ∧
      ITEMS_MAX_SIZE.toNat ≤ m'.selector.fds.length := by
  apply hallowed.defined ?_ ⟨h, hfull⟩
  rintro m c ⟨hm, hlen⟩ hc
  obtain ⟨m', hm', hcalled⟩ := called_step hasClose hm hc (inTable_of_full hlen c)
  exact ⟨m', hm', hcalled.inv, Nat.le_trans hlen hcalled.larger⟩

/-- Nor does one leave the table of a selector made for half of the descriptors. -/
theorem run_of_half (hasClose : η → Bool) {memory : Nat → Bool} {n : Nat} (hn : 512 ≤ n)
    {s : FdSelector η} (hnew : FdSelector.new memory n = some s) {cs : List (SelectorCall η)}
    (hallowed : PartialRun.Along (step hasClose) Allowed (made s) cs) :
    ∃ m, PartialRun.run (step hasClose) (made s) cs = some m ∧ m.Inv ∧
      ITEMS_MAX_SIZE.toNat ≤ m.selector.fds.length := by
  apply run_of_full hasClose (new_spec hnew).1 ?_ hallowed
  change ITEMS_MAX_SIZE.toNat ≤ s.fds.length
  rw [FdSelector.length_new hnew, nextCapacity_eq hn]
  exact Nat.le_succ _

/-- The sets and the maximum of the selector that `main` makes are those of its table after every
call, and a call that fails changes nothing. -/
theorem selector_matches (hasClose : η → Bool) {memory : Nat → Bool} {s : FdSelector η}
    (hnew : FdSelector.new memory 1024 = some s) {cs pre : List (SelectorCall η)}
    (hallowed : PartialRun.Along (step hasClose) Allowed (made s) cs) (hpre : pre <+: cs) :
    ∃ m, PartialRun.run (step hasClose) (made s) pre = some m ∧ m.selector.Matches ∧
      ∀ c m' status, m.Allowed c → m.step hasClose c = some m' → m'.returned = some status →
        status ≠ .SELECTOR_SUCCESS → m'.selector = m.selector := by
  obtain ⟨m, hrun, hm, hlen⟩ := run_of_half hasClose (by decide) hnew (hallowed.initial hpre)
  refine ⟨m, hrun, hm.matches, fun c m' status hc hm' hstatus hne => ?_⟩
  obtain ⟨m'', hm'', hcalled⟩ := called_step hasClose hm hc (inTable_of_full hlen c)
  obtain rfl := Option.some.inj (hm'.symm.trans hm'')
  exact hcalled.unchanged status hstatus hne

/-- A client is unregistered and its `handle_close` unregisters the origin, which closes in turn. -/
def clientCloses : List (SelectorCall Bool) :=
  [.register (fun _ => true) 5 (some true) OP_READ, .register (fun _ => true) 7 (some true) OP_WRITE,
    .unregister 5, .unregister 7, .closed, .closed]

theorem selector_matches_clientCloses :
    ∃ s m, FdSelector.new (fun _ => true) 1024 = some s ∧
      PartialRun.run (step id) (made s) (clientCloses.take 5) = some m ∧ m.selector.Matches := by
  obtain ⟨s, hs, hallowed⟩ : ∃ s, FdSelector.new (fun _ => true) 1024 = some s ∧
      PartialRun.Along (step id) Allowed (made s) clientCloses := by
    refine ⟨_, rfl, ?_⟩
    decide +kernel
  obtain ⟨m, hrun, hmatches, -⟩ := selector_matches id hs hallowed (List.take_prefix 5 _)
  exact ⟨s, m, hs, hrun, hmatches⟩

/-- A run of calls looks only at items the table has if and only if nothing is registered for the
descriptor that is the size of the table, and no other call is for one from there on. Where the table
is made larger it keeps its items. -/
theorem inTable_iff (hasClose : η → Bool) {memory : Nat → Bool} {n : Nat} {s : FdSelector η}
    (hnew : FdSelector.new memory n = some s) {cs : List (SelectorCall η)}
    (hallowed : PartialRun.Along (step hasClose) Allowed (made s) cs) :
    ((PartialRun.run (step hasClose) (made s) cs).isSome = true ↔
        PartialRun.Along (step hasClose) InTable (made s) cs) ∧
      ∀ m pre, pre <+: cs → PartialRun.run (step hasClose) (made s) pre = some m →
        ∀ memory n (i : Nat) item, m.selector.fds[i]? = some item →
          (m.selector.ensureCapacity memory n).2.fds[i]? = some item := by
  obtain ⟨hinv, -⟩ := new_spec hnew
  refine ⟨PartialRun.isSome_run_iff ?_ (fun _ _ _ => inTable_of_step) hinv hallowed, ?_⟩
  · intro m c hm hc hin
    obtain ⟨m', hm', hcalled⟩ := called_step hasClose hm hc hin
    exact ⟨m', hm', hcalled.inv⟩
  · intro m _ _ _ memory n i item hitem
    exact FdSelector.getElem?_ensureCapacity memory m.selector n hitem

/-- A table made for no elements that grows with a registration. -/
theorem inTable_iff_grown :
    ∃ s : FdSelector Bool, FdSelector.new (fun _ => true) 0 = some s ∧
      ((PartialRun.run (step id) (made s) [.register (fun _ => true) 5 (some true) OP_READ,
          .setInterest 5 OP_WRITE, .unregister 5, .closed]).isSome = true ↔
        PartialRun.Along (step id) InTable (made s) [.register (fun _ => true) 5 (some true) OP_READ,
          .setInterest 5 OP_WRITE, .unregister 5, .closed]) := by
  obtain ⟨s, hs, hallowed⟩ : ∃ s, FdSelector.new (fun _ => true) 0 = some s ∧
      PartialRun.Along (step id) Allowed (made s) [.register (fun _ => true) 5 (some true) OP_READ,
        .setInterest 5 OP_WRITE, .unregister 5, .closed] := by
    refine ⟨_, rfl, ?_⟩
    decide +kernel
  exact ⟨s, hs, (inTable_iff id hs hallowed).1⟩

/-- The table for no elements has two items, and the third is looked at. -/
theorem register_outOfTable :
    ∃ s : FdSelector Bool, FdSelector.new (fun _ => true) 0 = some s ∧ s.fds.length = 2 ∧
      PartialRun.run (step id) (made s) [.register (fun _ => true) 2 (some true) OP_READ] = none :=
  ⟨_, rfl, rfl, rfl⟩

end SelectorState

end HttpProxy
