import HttpProxy.Ownership
import Mathlib.Data.Finset.Card
import Mathlib.Order.Interval.Finset.Defs
import Mathlib.Data.Int.Interval

/-!
# The connections' metrics

`client_new` counts a connection before the selector has it, and `client_close` discounts it when
the selector gives it up. The counts agree as long as the registration between the two succeeds:
`listen_read_handler` does not look at its result.
-/

namespace HttpProxy

def Handlers.isClient : Handlers → Bool
  | .client _ => true
  | _ => false

/-- The clients closed, with how long each was connected. -/
def endings (trace : List Action) : List (ClientId × Int) :=
  trace.filterMap fun
    | .ended i seconds => some (i, seconds)
    | _ => none

/-- A client that was closed is among the endings. -/
theorem mem_endings {trace : List Action} {i : ClientId} {seconds : Int} :
    (i, seconds) ∈ endings trace ↔ .ended i seconds ∈ trace := by
  unfold endings
  rw [List.mem_filterMap]
  constructor
  · rintro ⟨a, ha, heq⟩
    cases a with
    | ended j d =>
      obtain ⟨rfl, rfl⟩ := Prod.mk.inj (Option.some.inj heq)
      exact ha
    | _ => cases heq
  · intro h
    exact ⟨_, h, rfl⟩

/-- Actions that end nobody add no ending. -/
theorem endings_append_of_none {l : List Action} (h : ∀ i seconds, .ended i seconds ∉ l)
    (trace : List Action) : endings (l ++ trace) = endings trace := by
  have hnil : endings l = [] := by
    refine List.eq_nil_iff_forall_not_mem.mpr fun p hp => ?_
    exact h p.1 p.2 (mem_endings.mp hp)
  unfold endings at hnil ⊢
  rw [List.filterMap_append, hnil, List.nil_append]

namespace Proxy

/-- The clients' descriptors in the selector. -/
def clientFds (s : Proxy) : Finset Int :=
  (@Finset.Ico Int _ Int.instLocallyFiniteOrder 0 ITEMS_MAX_SIZE).filter fun fd => (s.sel.handlerAt fd).any Handlers.isClient

/-- Accepted connections have descriptors the selector has room for. -/
def Registers (_ : Proxy) : Call → Prop
  | .accept o => ∀ fd ∈ o.accept, fd < ITEMS_MAX_SIZE
  | _ => True

instance (s : Proxy) : ∀ c, Decidable (s.Registers c)
  | .accept _ => inferInstanceAs (Decidable (∀ fd ∈ _, _))
  | .clientBlock _ _ _ | .clientRead _ _ | .clientWrite _ _ | .remoteRead _ _ | .remoteWrite _ _ =>
    .isTrue trivial

/-- What the metrics count. -/
structure Counts (s : Proxy) : Prop where
  connections : s.metrics.INST_CONCURRENT_CONNECTIONS = s.clientFds.card
  accesses : s.metrics.ACCESSES = (endings s.trace).length
  sum : s.metrics.connectionTimeSum = ((endings s.trace).map (·.2)).sum
  average : s.metrics.AVG_CONNECTION_TIME * s.metrics.ACCESSES = s.metrics.connectionTimeSum
  once : ((endings s.trace).map (·.1)).Nodup

variable {s s' : Proxy} {i : ClientId}

/-- The clients' descriptors are those with a client's slot. -/
theorem mem_clientFds (h : Slots s) {fd : Int} :
    fd ∈ s.clientFds ↔ ∃ i, s.sel.handlerAt fd = some (.client i) := by
  unfold clientFds
  rw [Finset.mem_filter, Finset.mem_Ico]
  constructor
  · rintro ⟨-, hany⟩
    cases hslot : s.sel.handlerAt fd with
    | none =>
      rw [hslot] at hany
      cases hany
    | some handlers =>
      cases handlers with
      | client i => exact ⟨i, rfl⟩
      | remote i =>
        rw [hslot] at hany
        cases hany
      | other =>
        rw [hslot] at hany
        cases hany
  · rintro ⟨i, hi⟩
    have hv := h.valid fd (by rw [hi]; exact Option.some_ne_none _)
    unfold invalidFd at hv
    rw [hi]
    refine ⟨?_, rfl⟩
    simpa using hv

namespace Counts

/-- The clients' slots and the metrics' counters are the same. -/
theorem same (h : Counts s)
    (hmetrics : s'.metrics = { s.metrics with TRANSFERED_BYTES := s'.metrics.TRANSFERED_BYTES })
    (hfds : s'.clientFds = s.clientFds) (htrace : endings s'.trace = endings s.trace) :
    Counts s' where
  connections := by
    rw [hfds, hmetrics]
    exact h.connections
  accesses := by
    rw [htrace, hmetrics]
    exact h.accesses
  sum := by
    rw [htrace, hmetrics]
    exact h.sum
  average := by
    rw [hmetrics]
    exact h.average
  once := by
    rw [htrace]
    exact h.once

/-- A quiet part counts nothing but bytes. -/
theorem quiet (h : Counts s) (hq : Quiet i s s') : Counts s' := by
  obtain ⟨l, hl, hquiet⟩ := hq.trace
  refine h.same hq.metrics ?_ ?_
  · unfold clientFds
    rw [hq.handlers]
  · rw [hl]
    exact endings_append_of_none (fun j seconds hmem => hquiet _ hmem) s.trace

/-- The end of a client takes one connection away and adds its time. -/
theorem ends (h : Counts s) (howned : OwnedBy i s) (hi : s.Live i) (he : Ends i s s')
    (hslot : s.sel.handlerAt (s.clients i).clientFd = some (.client i)) : Counts s' := by
  have hslots' := howned.slots.closing he.closing
  have hmem : (s.clients i).clientFd ∈ s.clientFds := (mem_clientFds howned.slots).mpr ⟨i, hslot⟩
  have hfds : s'.clientFds = s.clientFds.erase (s.clients i).clientFd := by
    ext fd
    rw [Finset.mem_erase, mem_clientFds howned.slots, mem_clientFds hslots']
    constructor
    · rintro ⟨j, hj⟩
      obtain ⟨hold, hne, -⟩ := he.slot_before hj
      exact ⟨hne, j, hold⟩
    · rintro ⟨hne, j, hj⟩
      refine ⟨j, ?_⟩
      rw [he.handlerAt, if_neg]
      · exact hj
      · rintro (heq | heq)
        · exact hne heq
        -- The slot of the origin is no client's.
        · rcases howned.owned.slot_origin i with hnone | ⟨hremote, -, -⟩
          · rw [heq, hnone] at hj
            cases hj
          · rw [heq, hremote] at hj
            cases hj
  have hendings : endings s'.trace =
      (i, s.now - (s.clients i).initTime) :: endings s.trace := by
    have hcloses : ∀ j seconds, .ended j seconds ∉ s.originCloses i := by
      intro j seconds
      unfold originCloses
      split
      · exact List.not_mem_nil
      · split <;> simp
    rw [he.trace]
    exact congrArg (List.cons _) (endings_append_of_none hcloses s.trace)
  have hone : 1 ≤ s.clientFds.card := Finset.card_pos.mpr ⟨_, hmem⟩
  constructor
  case connections =>
    rw [he.metrics, hfds, Finset.card_erase_of_mem hmem, Nat.cast_sub hone, ← h.connections]
    rfl
  case accesses =>
    rw [he.metrics, hendings, List.length_cons, Nat.cast_succ, ← h.accesses]
    rfl
  case sum =>
    rw [he.metrics, hendings, List.map_cons, List.sum_cons, Int.cast_add, ← h.sum, add_comm]
    rfl
  case average =>
    have hpos : s.metrics.ACCESSES + 1 ≠ 0 := by
      rw [h.accesses]
      exact Nat.cast_add_one_ne_zero _
    rw [he.metrics]
    exact div_mul_cancel₀ _ hpos
  case once =>
    rw [hendings, List.map_cons, List.nodup_cons]
    refine ⟨?_, h.once⟩
    intro hagain
    obtain ⟨⟨j, seconds⟩, hmem', rfl⟩ := List.mem_map.mp hagain
    exact hi.2 seconds (mem_endings.mp hmem')

/-- Only slots that are no client's change. -/
theorem sameSlots (h : Counts s)
    (hmetrics : s'.metrics = { s.metrics with TRANSFERED_BYTES := s'.metrics.TRANSFERED_BYTES })
    (hslots : Slots s) (hslots' : Slots s')
    (hsel : ∀ fd j, s'.sel.handlerAt fd = some (.client j) ↔ s.sel.handlerAt fd = some (.client j))
    (htrace : endings s'.trace = endings s.trace) : Counts s' := by
  refine h.same hmetrics ?_ htrace
  ext fd
  rw [mem_clientFds hslots, mem_clientFds hslots']
  exact exists_congr (hsel fd)

theorem modify (h : Counts s) (f : Client → Client) : Counts (s.modify i f) := h.same rfl rfl rfl

/-- Giving a client its host counts nothing. -/
theorem setHost (h : Counts s) (host : List UInt8) (port : Int) :
    Counts (s.clientSetHost i host port) := by
  unfold clientSetHost
  simp only
  split <;> exact h.same rfl rfl rfl

/-- Closing an origin counts nothing: its slot is no client's. -/
theorem dropped (h : Counts s) (hslots : Slots s)
    (hremote : s.sel.handlerAt (s.clients i).originFd = some (.remote i)) :
    Counts { s.remoteClose i with sel := s.sel.clear (s.clients i).originFd } := by
  have hclosing : Closing s { s.remoteClose i with sel := s.sel.clear (s.clients i).originFd } :=
    (Closing.remoteClose s i).trans (Closing.clear _ _)
  refine h.sameSlots rfl hslots (hslots.closing hclosing) (fun fd j => ?_) rfl
  change (s.sel.clear _).handlerAt fd = _ ↔ _
  rw [Selector.handlerAt_clear, Function.update_apply]
  split
  · next hfd =>
    rw [hfd, hremote]
    constructor
    · intro heq
      cases heq
    · intro heq
      cases heq
  · rfl

/-- Unregistering an origin counts nothing. -/
theorem of_unregister_origin (h : Counts s) (howned : Owned s) (hslots : Slots s) (i : ClientId) :
    Counts (s.unregister (s.clients i).originFd) := by
  rcases howned.unregister_origin hslots i with heq | ⟨hremote, -, -, heq⟩
  · rwa [heq]
  · rw [heq]
    exact h.dropped hslots hremote

/-- Unregistering a client's descriptor counts its end, if it has its slot. -/
theorem of_unregister (h : Counts s) (howned : OwnedBy i s) :
    Counts (s.unregister (s.clients i).clientFd) := by
  rcases howned.slot with hslot | hslot
  · rwa [unregister_of_none hslot]
  · exact h.ends howned (howned.owned.live_of_slot hslot) (howned.owned.ends howned.slots hslot) hslot

/-- An accepted connection is counted once, and has one slot more. -/
theorem accepted (h : Counts s) (howned : Owned s) (hslots : Slots s) {o : AcceptCalls}
    (hP : s.OsCall (.accept o)) (hR : s.Registers (.accept o)) :
    Counts (s.listenReadHandler o) := by
  cases ho : o.accept with
  | none =>
    unfold listenReadHandler
    rwa [ho]
  | some fd =>
    have hslots' := hslots.accept o
    have ha := accepts_listenReadHandler (s := s) ho
    obtain ⟨hfd, hfresh⟩ := (hP fd ho).2 fd List.mem_cons_self
    have hfree : s.sel.handlerAt fd = none := by
      by_contra hne
      exact hfresh (howned.slot_open hne)
    have hv : invalidFd fd = false := by
      have hlt := hR fd ho
      unfold invalidFd
      simp only [Bool.or_eq_false_iff, decide_eq_false_iff_not]
      exact ⟨Int.not_lt.mpr hfd, Int.not_le.mpr hlt⟩
    have hsel : (s.listenReadHandler o).sel.handlerAt =
        Function.update s.sel.handlerAt fd (some (.client s.made)) := by
      rw [ha.sel]
      rcases Selector.register_eq s.sel fd (.client s.made) OP_READ with
        ⟨-, -, -, hsel, -⟩ | ⟨hbad, -, -⟩
      · exact hsel
      · rcases hbad with hbad | hbad
        · rw [hv] at hbad
          cases hbad
        · exact absurd hfree hbad
    have hfds : (s.listenReadHandler o).clientFds = insert fd s.clientFds := by
      ext x
      rw [Finset.mem_insert, mem_clientFds hslots, mem_clientFds hslots', hsel]
      by_cases hx : x = fd
      · subst hx
        rw [Function.update_self]
        exact ⟨fun _ => .inl rfl, fun _ => ⟨_, rfl⟩⟩
      · rw [Function.update_of_ne hx, or_iff_right hx]
    have hnotmem : fd ∉ s.clientFds := by
      rw [mem_clientFds hslots]
      rintro ⟨j, hj⟩
      rw [hfree] at hj
      cases hj
    obtain ⟨l, hl, hpiped⟩ := (piped_transformationsNew (s.openFd s.made fd) s.made o.transf).trace
    have hendings : endings (s.listenReadHandler o).trace = endings s.trace := by
      have hnone : ∀ j seconds, .ended j seconds ∉ l := by
        intro j seconds hmem
        rcases hpiped _ hmem with ⟨_, heq⟩ | ⟨_, heq⟩ <;> cases heq
      rw [ha.trace, hl]
      exact endings_append_of_none hnone _
    constructor
    case connections =>
      rw [ha.metrics, hfds, Finset.card_insert_of_notMem hnotmem, Nat.cast_succ, ← h.connections]
      rfl
    case accesses =>
      rw [ha.metrics, hendings]
      exact h.accesses
    case sum =>
      rw [ha.metrics, hendings]
      exact h.sum
    case average =>
      rw [ha.metrics]
      exact h.average
    case once => exact hendings ▸ h.once

/-- Whatever `client_block` ends in, no connection is counted. -/
theorem blockEnd (h : Counts s) (howned : Owned s) (hslots : Slots s) {fd : Int} {o : BlockCalls}
    (hfd : s.sel.handlerAt fd = some (.client i)) (hslots' : Slots s') (he : BlockEnd s i o s') :
    Counts s' := by
  cases he with
  | unresolved _ => exact h.of_unregister (howned.ownedBy hslots hfd)
  | noSocket _ _ => exact h.modify _
  | unwatched _ _ _ => exact h.same rfl rfl rfl
  | @watched _ x _ _ _ hfree sel hsel _ =>
    refine h.sameSlots rfl hslots hslots' (fun fd j => ?_) rfl
    change sel.handlerAt fd = _ ↔ _
    rw [hsel, Function.update_apply]
    split
    · next heq =>
      rw [heq, hfree]
      constructor
      · intro heq
        cases heq
      · intro heq
        cases heq
    · rfl
  | @refused _ x _ _ sel hsel _ _ =>
    refine h.sameSlots rfl hslots hslots' (fun fd j => ?_) rfl
    change sel.handlerAt fd = _ ↔ _
    rw [hsel]

/-- Every handler keeps the counts, when an accepted connection is registered. -/
theorem call (h : Counts s) (howned : Owned s) (hslots : Slots s) {c : Call}
    (hreg : s.Registered c) (hP : s.OsCall c) (hR : s.Registers c) : Counts (s.call c) := by
  have hunregister : ∀ (i : ClientId) (t : Proxy), Counts t ∧ Owned t ∧ Slots t →
      Counts (t.unregister (t.clients i).originFd) ∧ Owned (t.unregister (t.clients i).originFd) ∧
        Slots (t.unregister (t.clients i).originFd) := fun i t ht =>
    ⟨ht.1.of_unregister_origin ht.2.1 ht.2.2 i, ht.2.1.of_unregister_origin ht.2.2 i,
      ht.2.2.closing (closing_unregister t _)⟩
  cases c with
  | accept o => exact h.accepted howned hslots hP hR
  | clientRead i r =>
    obtain ⟨fd, hfd⟩ := hreg
    have hread := keeps_clientRead (i := i) (J := fun t => Counts t ∧ OwnedBy i t)
      (fun _ _ h hq => ⟨h.1.quiet hq, h.2.quiet hq⟩)
      (fun _ host port h => ⟨h.1.setHost host port, h.2.setHost host port⟩)
      (fun _ g h => ⟨h.1.modify _, h.2.setState g⟩)
      (fun _ h => ⟨h.1.of_unregister h.2, h.2.of_unregister⟩) ⟨h, howned.ownedBy hslots hfd⟩ r
    exact hread.1
  | clientWrite i r =>
    obtain ⟨fd, hfd⟩ := hreg
    have hwrite := keeps_clientWrite (i := i) (J := fun t => Counts t ∧ OwnedBy i t)
      (fun _ _ h hq => ⟨h.1.quiet hq, h.2.quiet hq⟩)
      (fun _ h => ⟨h.1.of_unregister h.2, h.2.of_unregister⟩) ⟨h, howned.ownedBy hslots hfd⟩ r
    exact hwrite.1
  | clientBlock fd i o =>
    have he := hslots.clientBlock hreg o
    exact h.blockEnd howned hslots hreg (hslots.blockEnd (hslots.client fd i hreg).2 he) he
  | remoteRead i r =>
    have hread := keeps_remoteRead (i := i) (J := fun t => Counts t ∧ Owned t ∧ Slots t)
      (fun _ _ h hq => ⟨h.1.quiet hq, h.2.1.quiet hq, h.2.2.quiet hq⟩) (hunregister i)
      ⟨h, howned, hslots⟩ r
    exact hread.1
  | remoteWrite i r =>
    have hwrite := keeps_remoteWrite (i := i) (J := fun t => Counts t ∧ Owned t ∧ Slots t)
      (fun _ _ h hq => ⟨h.1.quiet hq, h.2.1.quiet hq, h.2.2.quiet hq⟩)
      (fun _ _ h => ⟨h.1.modify _, h.2.1.modify rfl rfl, h.2.2.modify rfl⟩) (hunregister i)
      ⟨h, howned, hslots⟩ r
    exact hwrite.1

/-- The counts are preserved by every run in which accepted connections are registered. -/
theorem preserved : Preserved
    (fun s c => (s.OsCall c ∧ s.Registers c) ∧ Slots s ∧ Owned s) Counts where
  call _ _ h _ hreg hP := h.call hP.2.2 hP.2.1 hreg hP.1.1 hP.1.2
  clock _ _ h := h.same rfl rfl rfl
  resolve s i found h := by
    unfold resolve
    split
    · exact h.same rfl rfl rfl
    · exact h
  notify s i h := by
    unfold notify
    split
    · exact h.same rfl rfl rfl
    · exact h
  resumed _ _ _ _ _ _ _ h := h.same rfl rfl rfl
  cleared _ h := h.same rfl rfl rfl
  crashed _ h := h.same rfl rfl rfl

end Counts

/-! ## The maximum -/

/-- Since `s₀` no connection came. -/
structure NoMore (s₀ s : Proxy) : Prop where
  max : s.metrics.MAX_CONCURRENT_CONNECTIONS = s₀.metrics.MAX_CONCURRENT_CONNECTIONS
  connections : s.metrics.INST_CONCURRENT_CONNECTIONS ≤ s₀.metrics.INST_CONCURRENT_CONNECTIONS

namespace NoMore

variable {s₀ : Proxy}

/-- Nothing is counted but bytes. -/
theorem same (h : NoMore s₀ s)
    (hmetrics : s'.metrics = { s.metrics with TRANSFERED_BYTES := s'.metrics.TRANSFERED_BYTES }) :
    NoMore s₀ s' := by
  refine ⟨?_, ?_⟩
  · rw [hmetrics]
    exact h.max
  · rw [hmetrics]
    exact h.connections

/-- Unregistering a descriptor can only take connections away. -/
theorem unregister (h : NoMore s₀ s) (fd : Int) : NoMore s₀ (s.unregister fd) := by
  have hc := (closing_unregister s fd).metrics
  exact ⟨hc.1.trans h.max, hc.2.trans h.connections⟩

/-- Giving a client its host counts nothing. -/
theorem setHost (h : NoMore s₀ s) (host : List UInt8) (port : Int) :
    NoMore s₀ (s.clientSetHost i host port) := by
  unfold clientSetHost
  simp only
  split <;> exact h.same rfl

/-- Whatever `client_block` ends in, no connection comes. -/
theorem blockEnd (h : NoMore s₀ s) {o : BlockCalls} (he : BlockEnd s i o s') : NoMore s₀ s' := by
  cases he with
  | unresolved _ => exact h.unregister _
  | noSocket _ _ => exact h.same rfl
  | unwatched _ _ _ => exact h.same rfl
  | watched _ _ _ _ _ _ _ => exact h.same rfl
  | refused _ _ _ _ _ _ => exact h.same rfl

/-- Without an accept no connection comes. -/
theorem preserved (s₀ : Proxy) :
    Preserved (fun s c => (∀ o, c ≠ .accept o) ∧ Slots s) (NoMore s₀) where
  call s c h _ hreg hP := by
    cases c with
    | accept o => exact absurd rfl (hP.1 o)
    | clientRead i r =>
      exact keeps_clientRead (i := i) (fun _ _ h hq => h.same hq.metrics)
        (fun _ host port h => h.setHost host port) (fun _ _ h => h.same rfl)
        (fun _ h => h.unregister _) h r
    | clientWrite i r =>
      exact keeps_clientWrite (i := i) (fun _ _ h hq => h.same hq.metrics)
        (fun _ h => h.unregister _) h r
    | clientBlock fd i o => exact h.blockEnd (hP.2.clientBlock hreg o)
    | remoteRead i r =>
      exact keeps_remoteRead (i := i) (fun _ _ h hq => h.same hq.metrics)
        (fun _ h => h.unregister _) h r
    | remoteWrite i r =>
      exact keeps_remoteWrite (i := i) (fun _ _ h hq => h.same hq.metrics) (fun _ _ h => h.same rfl)
        (fun _ h => h.unregister _) h r
  clock _ _ h := h.same rfl
  resolve s i found h := by
    unfold resolve
    split <;> exact h.same rfl
  notify s i h := by
    unfold notify
    split <;> exact h.same rfl
  resumed _ _ _ _ _ _ _ h := h.same rfl
  cleared _ h := h.same rfl
  crashed _ h := h.same rfl

end NoMore

/-- Only `accept` leads to a call of `listen_read_handler`. -/
theorem meets_of_not_accept (s : Proxy) {e : Event} (he : ∀ o, e ≠ .accept o) :
    Meets (fun _ c => ∀ o, c ≠ .accept o) s e := by
  have hjobs : ∀ (jobs : List Job) (t : Proxy) (os : List BlockCalls),
      JobsMeet (fun _ c => ∀ o, c ≠ .accept o) t jobs os := by
    intro jobs
    induction jobs with
    | nil => exact fun _ _ => trivial
    | cons j jobs ih => exact fun t os => ⟨fun _ _ => nofun, fun _ => ih _ _⟩
  cases e with
  | accept o => exact absurd rfl (he o)
  | read fd r => exact ⟨fun _ _ => nofun, fun _ _ => nofun⟩
  | write fd r => exact ⟨fun _ _ => nofun, fun _ _ => nofun⟩
  | block fd o => exact fun _ _ => nofun
  | notifications os => exact hjobs _ _ _
  | clock _ => trivial
  | resolved _ _ => trivial
  | notified _ => trivial

/-- After an event the maximum is the one before or the number of connections now. -/
theorem max_step (hslots : Slots s) (e : Event)
    (hle : s.metrics.INST_CONCURRENT_CONNECTIONS ≤ s.metrics.MAX_CONCURRENT_CONNECTIONS) :
    (s.step e).metrics.MAX_CONCURRENT_CONNECTIONS =
      max s.metrics.MAX_CONCURRENT_CONNECTIONS (s.step e).metrics.INST_CONCURRENT_CONNECTIONS := by
  by_cases haccept : ∃ o, e = .accept o
  · obtain ⟨o, rfl⟩ := haccept
    unfold step
    split
    · change (s.listenReadHandler o).metrics.MAX_CONCURRENT_CONNECTIONS = max _
        (s.listenReadHandler o).metrics.INST_CONCURRENT_CONNECTIONS
      cases ho : o.accept with
      | none =>
        unfold listenReadHandler
        rw [ho]
        exact (max_eq_left hle).symm
      | some fd =>
        rw [(accepts_listenReadHandler (s := s) ho).metrics, max_def']
        unfold metricNewConnection
        simp only [gt_iff_lt, ← not_le, ite_not]
    · exact (max_eq_left hle).symm
  · have hnone : ∀ o, e ≠ .accept o := fun o heq => haccept ⟨o, heq⟩
    have hkept := (Slots.preserved.mono (Q := fun _ c => ∀ o, c ≠ .accept o)
      fun _ _ _ => trivial).and (NoMore.preserved s)
    obtain ⟨-, hmax, hconn⟩ :=
      hkept.step ⟨hslots, rfl, le_refl _⟩ fun _ => meets_of_not_accept s hnone
    rw [hmax, max_eq_left (hconn.trans hle)]

/-- The maximum of a run is the largest number of connections it came to. -/
theorem max_run (hs : Started s) (es : List Event) :
    (∀ es₁, es₁ <+: es → (s.run es₁).metrics.INST_CONCURRENT_CONNECTIONS ≤
        (s.run es).metrics.MAX_CONCURRENT_CONNECTIONS) ∧
      ∃ es₁, es₁ <+: es ∧ (s.run es₁).metrics.INST_CONCURRENT_CONNECTIONS =
        (s.run es).metrics.MAX_CONCURRENT_CONNECTIONS := by
  induction es using List.reverseRecOn with
  | nil =>
    have hzero : (s.run []).metrics.INST_CONCURRENT_CONNECTIONS =
        (s.run []).metrics.MAX_CONCURRENT_CONNECTIONS := by
      obtain ⟨conf, registered, others, -, rfl⟩ := hs
      rfl
    refine ⟨fun es₁ hes₁ => ?_, [], List.prefix_refl [], hzero⟩
    rw [List.prefix_nil.mp hes₁, hzero]
  | append_singleton es e ih =>
    obtain ⟨hle, es₁, hpre, heq⟩ := ih
    have hslots : Slots (s.run es) :=
      (Slots.preserved.run hs.slots (always_of_forall (fun _ _ => trivial) s es))
    have hmax := max_step hslots e (hle es (List.prefix_refl es))
    have hrun : s.run (es ++ [e]) = (s.run es).step e := run_append s es [e]
    rw [hrun, hmax]
    constructor
    · intro es₂ hes₂
      rcases List.prefix_concat_iff.mp hes₂ with rfl | hes₂
      · rw [hrun]
        exact le_max_right _ _
      · exact (hle es₂ hes₂).trans (le_max_left _ _)
    · rcases max_choice (s.run es).metrics.MAX_CONCURRENT_CONNECTIONS
        ((s.run es).step e).metrics.INST_CONCURRENT_CONNECTIONS with hsame | hnew
      · exact ⟨es₁, hpre.trans (List.prefix_append es [e]), heq.trans hsame.symm⟩
      · exact ⟨es ++ [e], List.prefix_refl _, by rw [hrun, hnew]⟩

/-- The metrics after a run agree with the selector, with the closes and with the run before. -/
structure MetricsAgree (s : Proxy) (es : List Event) : Prop where
  connections : (s.run es).metrics.INST_CONCURRENT_CONNECTIONS = (s.run es).clientFds.card
  max_le : ∀ es₁, es₁ <+: es → (s.run es₁).metrics.INST_CONCURRENT_CONNECTIONS ≤
    (s.run es).metrics.MAX_CONCURRENT_CONNECTIONS
  max_eq : ∃ es₁, es₁ <+: es ∧ (s.run es₁).metrics.INST_CONCURRENT_CONNECTIONS =
    (s.run es).metrics.MAX_CONCURRENT_CONNECTIONS
  accesses : (s.run es).metrics.ACCESSES = (endings (s.run es).trace).length
  once : ((endings (s.run es).trace).map (·.1)).Nodup
  average : (s.run es).metrics.AVG_CONNECTION_TIME * (s.run es).metrics.ACCESSES =
    ((endings (s.run es).trace).map (·.2)).sum

/-- In a run whose connections are all registered, the metrics agree with the selector. -/
theorem metrics_agree (hs : Started s) {es : List Event}
    (h : Always (fun s c => s.OsCall c ∧ s.Registers c) s es) : MetricsAgree s es := by
  have hstart : Counts s := by
    obtain ⟨conf, registered, others, -, rfl⟩ := hs
    refine ⟨?_, rfl, rfl, zero_mul _, List.nodup_nil⟩
    have hnone : (initial conf registered others).clientFds = ∅ := by
      refine Finset.eq_empty_of_forall_notMem fun fd hfd => ?_
      have hmem := (Finset.mem_filter.mp hfd).2
      rcases handlerAt_initial conf registered others fd with heq | ⟨heq, -⟩ <;>
        rw [heq] at hmem <;> cases hmem
    rw [hnone]
    rfl
  have hkept := (preserved_owned (P := fun s c => s.OsCall c ∧ s.Registers c)
    fun _ _ h => h.1).and Counts.preserved
  have hcounts := (hkept.run ⟨⟨hs.slots, hs.owned⟩, hstart⟩ h).2
  obtain ⟨hle, heq⟩ := max_run hs es
  exact ⟨hcounts.connections, hle, heq, hcounts.accesses, hcounts.once,
    hcounts.average.trans hcounts.sum⟩

/-- A client comes and leaves after five seconds, another one comes. -/
theorem metrics_agree_sample : MetricsAgree mainLoop
    [.accept ⟨some 7, noPipes⟩, .clock 5, .read 7 none, .accept ⟨some 7, noPipes⟩] :=
  metrics_agree started_mainLoop (by decide +kernel)

/-- A connection with a descriptor the selector has no room for is counted and never registered. -/
theorem metrics_disagree : Always OsCall mainLoop [.accept ⟨some 1024, noPipes⟩] ∧
    ¬MetricsAgree mainLoop [.accept ⟨some 1024, noPipes⟩] := by
  refine ⟨by decide +kernel, fun h => ?_⟩
  have hconnections := h.connections
  have hone : (mainLoop.run [.accept ⟨some 1024, noPipes⟩]).metrics.INST_CONCURRENT_CONNECTIONS = 1 := by
    decide +kernel
  have hnone : (mainLoop.run [.accept ⟨some 1024, noPipes⟩]).clientFds.card = 0 := by
    decide +kernel
  rw [hone, hnone] at hconnections
  exact absurd hconnections (by decide)

end Proxy

end HttpProxy
