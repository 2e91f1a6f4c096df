import HttpProxy.ProxyRuns

/-!
# The descriptors of the clients

Without any promise of the system a slot of the selector that holds a client is the client's own
descriptor (`Slots`). When the system returns only descriptors that are not open, every descriptor
is held by one client or by none (`Owned`), so the close of one client closes no other's.
-/

namespace HttpProxy

namespace Proxy

variable {s s' : Proxy} {i j : ClientId}

/-- What the selector holds. -/
structure Slots (s : Proxy) : Prop where
  valid : ∀ fd, s.sel.handlerAt fd ≠ none → invalidFd fd = false
  client : ∀ fd i, s.sel.handlerAt fd = some (.client i) → (s.clients i).clientFd = fd ∧ i < s.made
  remote : ∀ fd i, s.sel.handlerAt fd = some (.remote i) → i < s.made

namespace Slots

/-- No client is registered under `-1`. -/
theorem handlerAt_neg_one (h : Slots s) : s.sel.handlerAt (-1) = none := by
  by_contra hne
  exact absurd (h.valid (-1) hne) (by decide)

/-- Slots are emptied and the clients keep their descriptors. -/
theorem fewer (h : Slots s) (hmade : s'.made = s.made)
    (hfd : ∀ j, (s'.clients j).clientFd = (s.clients j).clientFd)
    (hslots : ∀ fd, s'.sel.handlerAt fd = s.sel.handlerAt fd ∨ s'.sel.handlerAt fd = none) :
    Slots s' where
  valid fd hne := by
    rcases hslots fd with heq | heq
    · exact h.valid fd (heq ▸ hne)
    · exact absurd heq hne
  client fd i hi := by
    rcases hslots fd with heq | heq
    · rw [hfd, hmade]
      exact h.client fd i (heq ▸ hi)
    · exact absurd (heq.symm.trans hi) (Option.some_ne_none _).symm
  remote fd i hi := by
    rcases hslots fd with heq | heq
    · rw [hmade]
      exact h.remote fd i (heq ▸ hi)
    · exact absurd (heq.symm.trans hi) (Option.some_ne_none _).symm

/-- A quiet part changes no slots. -/
theorem quiet (h : Slots s) (hq : Quiet i s s') : Slots s' := by
  refine h.fewer hq.made (fun j => ?_) fun fd => .inl (by rw [hq.handlers])
  by_cases hj : j = i
  · exact hj ▸ hq.client.clientFd
  · rw [hq.others j hj]

/-- Closing empties slots and leaves the clients their descriptors. -/
theorem closing (h : Slots s) (hc : Closing s s') : Slots s' := by
  refine h.fewer hc.made (fun j => ?_) hc.handlers
  rw [hc.clients j]

/-- A change of one client that leaves its descriptor. -/
theorem modify (h : Slots s) {f : Client → Client}
    (hf : (f (s.clients i)).clientFd = (s.clients i).clientFd) : Slots (s.modify i f) := by
  refine h.fewer rfl (fun j => ?_) fun fd => .inl rfl
  by_cases hj : j = i
  · subst hj
    rw [clients_modify_self, hf]
  · rw [clients_modify_of_ne s f hj]

/-- Giving a client its host takes no slot. -/
theorem setHost (h : Slots s) (host : List UInt8) (port : Int) :
    Slots (s.clientSetHost i host port) := by
  have hset := h.modify (f := fun _ => ((s.clients i).setHost host port).2)
    (clientFd_setHost (s.clients i) host port)
  unfold clientSetHost
  simp only
  split
  · exact hset.fewer rfl (fun _ => rfl) fun fd => .inl rfl
  · exact hset.fewer rfl (fun _ => rfl) fun fd => .inl rfl

/-- Connecting an origin takes no slot by itself. -/
theorem connecting (h : Slots s) (fd : Int) : Slots (s.connecting i fd) := by
  have hopen : Slots (s.openFd i fd) := h.fewer rfl (fun _ => rfl) fun fd => .inl rfl
  exact hopen.modify rfl

/-- Whatever `client_block` ends in, it registers an origin of a client that was made. -/
theorem blockEnd (h : Slots s) {o : BlockCalls} (hi : i < s.made) (he : BlockEnd s i o s') :
    Slots s' := by
  cases he with
  | unresolved _ => exact h.closing (closing_unregister s _)
  | noSocket _ _ => exact h.modify rfl
  | unwatched _ _ _ => exact h.connecting _
  | @watched _ fd _ _ hv hfree sel hsel _ =>
    have hc := h.connecting (i := i) fd
    refine ⟨fun fd' hne => ?_, fun fd' k hk => ?_, fun fd' k hk => ?_⟩
    · change sel.handlerAt fd' ≠ none at hne
      rw [hsel] at hne
      by_cases hfd : fd' = fd
      · exact hfd ▸ hv
      · rw [Function.update_of_ne hfd] at hne
        exact h.valid fd' hne
    · change sel.handlerAt fd' = _ at hk
      rw [hsel] at hk
      by_cases hfd : fd' = fd
      · subst hfd
        rw [Function.update_self] at hk
        cases hk
      · rw [Function.update_of_ne hfd] at hk
        exact hc.client fd' k hk
    · change sel.handlerAt fd' = _ at hk
      rw [hsel] at hk
      by_cases hfd : fd' = fd
      · subst hfd
        rw [Function.update_self] at hk
        obtain rfl := Handlers.remote.inj (Option.some.inj hk)
        exact hi
      · rw [Function.update_of_ne hfd] at hk
        exact hc.remote fd' k hk
  | refused _ _ _ hsel _ _ =>
    exact (h.connecting _).fewer rfl (fun _ => rfl) fun fd => .inl (congrFun hsel fd)

/-- `client_block` is called with the client's own descriptor, so that it ends in one of its three
ways. -/
theorem clientBlock (h : Slots s) {fd : Int} (hfd : s.sel.handlerAt fd = some (.client i))
    (o : BlockCalls) : BlockEnd s i o (s.clientBlock fd i o) :=
  clientBlock_end hfd (h.client fd i hfd).1
    (h.valid fd (by rw [hfd]; exact Option.some_ne_none _)) o

/-- A new client gets the slot of its descriptor, if there is one. -/
theorem accept (h : Slots s) (o : AcceptCalls) : Slots (s.listenReadHandler o) := by
  cases ho : o.accept with
  | none =>
    unfold listenReadHandler
    rwa [ho]
  | some fd =>
    have ha := accepts_listenReadHandler (s := s) ho
    have hold : ∀ fd' k, s.sel.handlerAt fd' = some (.client k) →
        ((s.listenReadHandler o).clients k).clientFd = fd' ∧ k < s.made + 1 := by
      intro fd' k hk
      obtain ⟨hfd, hlt⟩ := h.client fd' k hk
      rw [ha.others k (Nat.ne_of_lt hlt)]
      exact ⟨hfd, Nat.lt_succ_of_lt hlt⟩
    rcases Selector.register_eq s.sel fd (.client s.made) OP_READ with
      ⟨hv, -, -, hsel, -⟩ | ⟨-, -, hsel⟩
    · rw [← ha.sel] at hsel
      refine ⟨fun fd' hne => ?_, fun fd' k hk => ?_, fun fd' k hk => ?_⟩
      · rw [hsel] at hne
        by_cases hfd : fd' = fd
        · exact hfd ▸ hv
        · rw [Function.update_of_ne hfd] at hne
          exact h.valid fd' hne
      · rw [ha.made]
        rw [hsel] at hk
        by_cases hfd : fd' = fd
        · subst hfd
          rw [Function.update_self] at hk
          obtain rfl := Handlers.client.inj (Option.some.inj hk)
          exact ⟨ha.client.clientFd, Nat.lt_succ_self _⟩
        · rw [Function.update_of_ne hfd] at hk
          exact hold fd' k hk
      · rw [ha.made]
        rw [hsel] at hk
        by_cases hfd : fd' = fd
        · subst hfd
          rw [Function.update_self] at hk
          cases hk
        · rw [Function.update_of_ne hfd] at hk
          exact Nat.lt_succ_of_lt (h.remote fd' k hk)
    · rw [← ha.sel] at hsel
      refine ⟨fun fd' hne => h.valid fd' (hsel ▸ hne), fun fd' k hk => ?_, fun fd' k hk => ?_⟩
      · rw [ha.made]
        exact hold fd' k (hsel ▸ hk)
      · rw [ha.made]
        exact Nat.lt_succ_of_lt (h.remote fd' k (hsel ▸ hk))

/-- Every handler keeps what the slots hold. -/
theorem call (h : Slots s) {c : Call} (hreg : s.Registered c) : Slots (s.call c) := by
  have hunregister : ∀ (t : Proxy) (fd : Int), Slots t → Slots (t.unregister fd) :=
    fun t fd ht => ht.closing (closing_unregister t fd)
  cases c with
  | accept o => exact h.accept o
  | clientRead i r =>
    exact keeps_clientRead (i := i) (fun _ _ h hq => h.quiet hq) (fun _ host port h => h.setHost host port)
      (fun _ _ h => h.modify rfl) (fun t h => hunregister t _ h) h r
  | clientWrite i r =>
    exact keeps_clientWrite (i := i) (fun _ _ h hq => h.quiet hq) (fun t h => hunregister t _ h) h r
  | clientBlock fd i o => exact h.blockEnd (h.client fd i hreg).2 (h.clientBlock hreg o)
  | remoteRead i r =>
    exact keeps_remoteRead (i := i) (fun _ _ h hq => h.quiet hq) (fun t h => hunregister t _ h) h r
  | remoteWrite i r =>
    exact keeps_remoteWrite (i := i) (fun _ _ h hq => h.quiet hq) (fun _ _ h => h.modify rfl)
      (fun t h => hunregister t _ h) h r

/-- What the slots hold is preserved by every run, without any promise of the system. -/
theorem preserved : Preserved (fun _ _ => True) Slots where
  call _ _ h _ hreg _ := h.call hreg
  clock _ _ h := h.fewer rfl (fun _ => rfl) fun _ => .inl rfl
  resolve s i found h := by
    unfold resolve
    split
    · have hlists : Slots { s with
          resolving := s.resolving.erase i, notifying := i :: s.notifying } :=
        h.fewer rfl (fun _ => rfl) fun _ => .inl rfl
      exact hlists.modify rfl
    · exact h
  notify s i h := by
    unfold notify
    split
    · exact h.fewer rfl (fun _ => rfl) fun _ => .inl rfl
    · exact h
  resumed _ _ _ _ _ _ _ h := h.fewer rfl (fun _ => rfl) fun _ => .inl rfl
  cleared _ h := h.fewer rfl (fun _ => rfl) fun _ => .inl rfl
  crashed _ h := h.fewer rfl (fun _ => rfl) fun _ => .inl rfl

end Slots

/-- In the proxy that enters its loop only the descriptors it has registered itself have slots. -/
theorem handlerAt_initial (conf : Config) (registered others : List Int) (fd : Int) :
    (initial conf registered others).sel.handlerAt fd = none ∨
      (initial conf registered others).sel.handlerAt fd = some .other ∧ fd ∈ registered ∧
        invalidFd fd = false := by
  have hfold : ∀ (l : List Int) (sel : Selector Handlers),
      (∀ fd, sel.handlerAt fd = none ∨
        sel.handlerAt fd = some .other ∧ fd ∈ registered ∧ invalidFd fd = false) →
      (∀ fd ∈ l, fd ∈ registered) →
      (l.foldl (fun sel fd => (sel.register fd .other OP_READ).2) sel).handlerAt fd = none ∨
        (l.foldl (fun sel fd => (sel.register fd .other OP_READ).2) sel).handlerAt fd =
          some .other ∧ fd ∈ registered ∧ invalidFd fd = false := by
    intro l
    induction l with
    | nil => exact fun sel h _ => h fd
    | cons x l ih =>
      intro sel h hl
      refine ih _ (fun fd' => ?_) fun y hy => hl y (List.mem_cons_of_mem x hy)
      rcases Selector.register_eq sel x Handlers.other OP_READ with
        ⟨hv, -, -, hsel, -⟩ | ⟨-, -, hsel⟩
      · rw [hsel]
        by_cases hx : fd' = x
        · subst hx
          rw [Function.update_self]
          exact .inr ⟨rfl, hl fd' List.mem_cons_self, hv⟩
        · rw [Function.update_of_ne hx]
          exact h fd'
      · simp only
        rw [hsel]
        exact h fd'
  exact hfold registered {} (fun _ => .inl rfl) fun _ h => h

/-- At the start no client is registered. -/
theorem Started.slots (h : Started s) : Slots s := by
  obtain ⟨conf, registered, others, -, rfl⟩ := h
  have hinitial := handlerAt_initial conf registered others
  refine ⟨fun fd hne => ?_, fun fd i hi => ?_, fun fd i hi => ?_⟩
  · rcases hinitial fd with h | ⟨-, -, hv⟩
    · exact absurd h hne
    · exact hv
  · rcases hinitial fd with h | ⟨h, -, -⟩ <;> exact absurd (h.symm.trans hi) (by simp)
  · rcases hinitial fd with h | ⟨h, -, -⟩ <;> exact absurd (h.symm.trans hi) (by simp)

/-! ## Who holds a descriptor -/

/-- Client `i` was made and is not closed. -/
def Live (s : Proxy) (i : ClientId) : Prop := i < s.made ∧ ∀ seconds, .ended i seconds ∉ s.trace

/-- The descriptor of a client or of its origin, or one that is no client's. -/
def Holds (s : Proxy) : Handlers → Int → Prop
  | .client i, fd => s.Live i ∧ (s.clients i).clientFd = fd
  | .remote i, fd => s.Live i ∧ (s.clients i).originFd = fd ∧ fd ≠ -1
  | .other, fd => s.sel.handlerAt fd = some .other

/-- Every descriptor has one holder at most. A slot may stay with a client's former origin when
`client_block` connects a second time; no one holds its descriptor any more. -/
structure Owned (s : Proxy) : Prop where
  nonneg : ∀ fd ∈ s.fds, 0 ≤ fd
  opened : ∀ h fd, s.Holds h fd → fd ∈ s.fds
  unique : ∀ h h' fd, s.Holds h fd → s.Holds h' fd → h = h'
  slot : ∀ h fd, s.sel.handlerAt fd = some h →
    s.Holds h fd ∨ (∃ i, h = .remote i) ∧ fd ∈ s.fds ∧ ∀ h', ¬s.Holds h' fd
  origin : ∀ i, ¬s.Live i → (s.clients i).originFd = -1
  ended : ∀ i seconds, .ended i seconds ∈ s.trace → i < s.made

/-- A client is as alive as before where nothing is ended. -/
theorem not_ended_append {l : List Action} {i : ClientId}
    (hl : ∀ seconds, .ended i seconds ∉ l) (s : Proxy) (s' : Proxy)
    (htrace : s'.trace = l ++ s.trace) (hmade : s'.made = s.made) : s'.Live i ↔ s.Live i := by
  unfold Live
  rw [htrace, hmade]
  refine and_congr_right fun _ => forall_congr' fun seconds => ?_
  rw [List.mem_append, or_iff_right (hl seconds)]

namespace Owned

/-- A client holds its own slot only. -/
theorem slot_client (h : Owned s) (hi : s.Live i) :
    s.sel.handlerAt (s.clients i).clientFd = none ∨
      s.sel.handlerAt (s.clients i).clientFd = some (.client i) := by
  cases hslot : s.sel.handlerAt (s.clients i).clientFd with
  | none => exact .inl rfl
  | some handlers =>
    refine .inr ?_
    have hown : s.Holds (.client i) (s.clients i).clientFd := ⟨hi, rfl⟩
    rcases h.slot handlers _ hslot with hholds | ⟨-, -, hnone⟩
    · rw [h.unique _ _ _ hholds hown]
    · exact absurd hown (hnone _)

/-- The slot of a client's origin is empty, or it is that origin's. -/
theorem slot_origin (h : Owned s) (i : ClientId) :
    s.sel.handlerAt (s.clients i).originFd = none ∨
      s.sel.handlerAt (s.clients i).originFd = some (.remote i) ∧ s.Live i ∧
        (s.clients i).originFd ≠ -1 := by
  cases hslot : s.sel.handlerAt (s.clients i).originFd with
  | none => exact .inl rfl
  | some handlers =>
    refine .inr ?_
    have hopen : (s.clients i).originFd ∈ s.fds := by
      rcases h.slot handlers _ hslot with hholds | ⟨-, hopen, -⟩
      · exact h.opened _ _ hholds
      · exact hopen
    have hne : (s.clients i).originFd ≠ -1 := by
      intro heq
      exact absurd (h.nonneg _ hopen) (by rw [heq]; decide)
    have hi : s.Live i := by
      by_contra hi
      exact hne (h.origin i hi)
    have hown : s.Holds (.remote i) (s.clients i).originFd := ⟨hi, rfl, hne⟩
    refine ⟨?_, hi, hne⟩
    rcases h.slot handlers _ hslot with hholds | ⟨-, -, hnone⟩
    · rw [h.unique _ _ _ hholds hown]
    · exact absurd hown (hnone _)

/-- Neither the holders nor the slots nor the open descriptors change. -/
theorem same (h : Owned s) (hlive : ∀ i, s'.Live i ↔ s.Live i) (hfds : s'.fds = s.fds)
    (hsel : s'.sel.handlerAt = s.sel.handlerAt)
    (hclient : ∀ i, (s'.clients i).clientFd = (s.clients i).clientFd)
    (horigin : ∀ i, (s'.clients i).originFd = (s.clients i).originFd)
    (hended : ∀ i seconds, .ended i seconds ∈ s'.trace → i < s'.made) : Owned s' := by
  have hholds : ∀ h fd, s'.Holds h fd ↔ s.Holds h fd := by
    intro h fd
    cases h with
    | client i => simp only [Holds, hlive, hclient]
    | remote i => simp only [Holds, hlive, horigin]
    | other => simp only [Holds, hsel]
  constructor
  case nonneg => exact hfds ▸ h.nonneg
  case opened => exact fun handlers fd hf => hfds ▸ h.opened handlers fd ((hholds _ _).mp hf)
  case unique => exact fun a b fd ha hb => h.unique a b fd ((hholds _ _).mp ha) ((hholds _ _).mp hb)
  case slot =>
    intro handlers fd hslot
    rw [hsel] at hslot
    simp only [hholds, hfds]
    exact h.slot handlers fd hslot
  case origin =>
    intro i hi
    rw [horigin i]
    exact h.origin i fun hlive' => hi ((hlive i).mpr hlive')
  case ended => exact hended

/-- A quiet part leaves the descriptors with who holds them. -/
theorem quiet (h : Owned s) (hq : Quiet i s s') : Owned s' := by
  obtain ⟨l, hl, hquiet⟩ := hq.trace
  have hnone : ∀ j seconds, .ended j seconds ∉ l := fun j seconds hmem => hquiet _ hmem
  have hclients : ∀ j, (s'.clients j).clientFd = (s.clients j).clientFd ∧
      (s'.clients j).originFd = (s.clients j).originFd := by
    intro j
    by_cases hj : j = i
    · exact hj ▸ ⟨hq.client.clientFd, hq.client.originFd⟩
    · rw [hq.others j hj]
      exact ⟨rfl, rfl⟩
  refine h.same (fun j => not_ended_append (hnone j) s s' hl hq.made) hq.fds hq.handlers
    (fun j => (hclients j).1) (fun j => (hclients j).2) fun j seconds hmem => ?_
  rw [hl] at hmem
  rw [hq.made]
  exact h.ended j seconds ((List.mem_append.mp hmem).resolve_left (hnone j seconds))

end Owned

/-- An empty slot holds nothing. -/
theorem fds_of_handlerAt {fd : Int} (h : s.sel.handlerAt fd = none) : s.sel.fds fd = none := by
  unfold Selector.handlerAt at h
  exact Option.map_eq_none_iff.mp h

/-- The closes of the origin's descriptor when its client is closed: `close` itself, and that of
`remote_close` when the descriptor is registered. -/
def originCloses (s : Proxy) (i : ClientId) : List Action :=
  if (s.clients i).originFd = -1 then []
  else if s.sel.handlerAt (s.clients i).originFd = none then
    [.closed i (s.clients i).originFd]
  else [.closed i (s.clients i).originFd, .closed i (s.clients i).originFd]

/-- Client `i` is closed. -/
structure Ends (i : ClientId) (s s' : Proxy) : Prop where
  closing : Closing s s'
  metrics : s'.metrics = metricCloseConnection (s.clients i).initTime s.now s.metrics
  others : ∀ j, j ≠ i → s'.clients j = s.clients j
  origin : (s'.clients i).originFd = -1
  slots : ∀ fd, s'.sel.fds fd =
    if fd = (s.clients i).clientFd ∨ fd = (s.clients i).originFd then none else s.sel.fds fd
  fds : ∀ fd, fd ∈ s'.fds ↔
    fd ∈ s.fds ∧ fd ≠ (s.clients i).clientFd ∧ fd ≠ (s.clients i).originFd
  trace : s'.trace = .ended i (s.now - (s.clients i).initTime) ::
    .closed i (s.clients i).clientFd :: (s.originCloses i ++ s.trace)

namespace Owned

/-- What `client_free_resources` leaves of a client's origin. -/
theorem freesOrigin (h : Owned s) (hslots : Slots s) (i : ClientId) :
    ∃ t : Proxy, (if (s.clients i).originFd ≠ -1 then
        (Proxy.unregisterAt 1 (s.closeFd i (s.clients i).originFd) (s.clients i).originFd).modify i
          fun c => { c with originFd := -1 }
      else s) = t ∧
      t.metrics = s.metrics ∧ (∀ j, j ≠ i → t.clients j = s.clients j) ∧
      (t.clients i).originFd = -1 ∧
      (∀ fd, t.sel.fds fd = if fd = (s.clients i).originFd then none else s.sel.fds fd) ∧
      (∀ fd, fd ∈ t.fds ↔ fd ∈ s.fds ∧ fd ≠ (s.clients i).originFd) ∧
      t.trace = s.originCloses i ++ s.trace := by
  have hothers : ∀ (t : Proxy) (j : ClientId), j ≠ i →
      (t.modify i fun c => { c with originFd := -1 }).clients j = t.clients j :=
    fun t j hj => clients_modify_of_ne t _ hj
  have hunset : ∀ t : Proxy,
      ((t.modify i fun c => { c with originFd := -1 }).clients i).originFd = -1 :=
    fun t => congrArg Client.originFd (clients_modify_self t i _)
  refine ⟨_, rfl, ?_⟩
  unfold originCloses
  by_cases ho : (s.clients i).originFd = -1
  · have hnone := fds_of_handlerAt hslots.handlerAt_neg_one
    rw [if_neg (not_not.mpr ho), if_pos ho]
    refine ⟨rfl, fun _ _ => rfl, ho, fun fd => ?_, fun fd => ?_, rfl⟩
    · split
      · next heq => rw [heq, ho, hnone]
      · rfl
    · refine ⟨fun hmem => ⟨hmem, fun heq => ?_⟩, fun hmem => hmem.1⟩
      exact absurd (h.nonneg fd hmem) (by rw [heq, ho]; decide)
  · rw [if_pos ho, if_neg ho]
    -- An origin that is not registered is closed once, a registered one by its handler as well.
    rcases h.slot_origin i with hnone | ⟨hremote, -, -⟩
    · have hsame := unregisterAt_of_none (s := s.closeFd i (s.clients i).originFd) hnone 0
      rw [hsame, if_pos hnone]
      refine ⟨rfl, hothers _, hunset _, fun fd => ?_, fun fd => ?_, rfl⟩
      · split
        · next heq =>
          rw [heq]
          exact fds_of_handlerAt hnone
        · rfl
      · exact List.mem_filter.trans (and_congr_right fun _ => decide_eq_true_iff)
    · have hv := hslots.valid _ (by rw [hremote]; exact Option.some_ne_none _)
      have hclose := unregisterAt_of_remote (s := s.closeFd i (s.clients i).originFd) hv hremote 0
      have hne : s.sel.handlerAt (s.clients i).originFd ≠ none := by
        rw [hremote]
        exact Option.some_ne_none _
      rw [hclose, if_neg hne]
      refine ⟨rfl, fun j hj => ?_, hunset _, fun fd => ?_, fun fd => ?_, rfl⟩
      · rw [hothers _ j hj]
        exact hothers _ j hj
      · exact Function.update_apply _ _ _ _
      · change fd ∈ List.filter _ (List.filter _ s.fds) ↔ _
        rw [List.filter_filter, List.mem_filter]
        refine and_congr_right fun _ => ?_
        change (decide (fd ≠ (s.clients i).originFd) && decide (fd ≠ (s.clients i).originFd)) =
          true ↔ _
        rw [Bool.and_self]
        exact decide_eq_true_iff

/-- Unregistering a client's descriptor ends the client, with what was opened for it. -/
theorem ends (h : Owned s) (hslots : Slots s)
    (hi : s.sel.handlerAt (s.clients i).clientFd = some (.client i)) :
    Ends i s (s.unregister (s.clients i).clientFd) := by
  have hclosing := closing_unregister s (s.clients i).clientFd
  have hv := hslots.valid _ (by rw [hi]; exact Option.some_ne_none _)
  have hmetrics : Owned { s with
      metrics := metricCloseConnection (s.clients i).initTime s.now s.metrics } :=
    h.same (fun _ => Iff.rfl) rfl rfl (fun _ => rfl) (fun _ => rfl) h.ended
  obtain ⟨t, ht, hmet, hothers, horigin, hsel, hfds, htrace⟩ :=
    hmetrics.freesOrigin (hslots.fewer rfl (fun _ => rfl) fun _ => .inl rfl) i
  have hend : s.unregister (s.clients i).clientFd =
      { (t.closeFd i (t.clients i).clientFd).act (.ended i (s.now - (s.clients i).initTime)) with
        sel := t.sel.clear (s.clients i).clientFd } := by
    rw [unregister_of_client hv hi, ← ht]
    rfl
  have hown : (t.clients i).clientFd = (s.clients i).clientFd := by
    have hframe := congrArg Client.clientFd (hclosing.clients i)
    rw [hend] at hframe
    exact hframe
  rw [hend] at hclosing ⊢
  constructor
  case closing => exact hclosing
  case metrics => exact hmet
  case others => exact hothers
  case origin => exact horigin
  case slots =>
    intro fd
    change Function.update t.sel.fds (s.clients i).clientFd none fd = _
    rw [Function.update_apply, hsel]
    by_cases hfd : fd = (s.clients i).clientFd
    · rw [if_pos hfd, if_pos (.inl hfd)]
    · rw [if_neg hfd]
      simp only [hfd, false_or]
  case fds =>
    intro fd
    change fd ∈ t.fds.filter (· ≠ (t.clients i).clientFd) ↔ _
    rw [List.mem_filter, hfds, hown, decide_eq_true_iff]
    exact ⟨fun hm => ⟨hm.1.1, hm.2, hm.1.2⟩, fun hm => ⟨⟨hm.1, hm.2.2⟩, hm.2.1⟩⟩
  case trace =>
    change Action.ended i _ :: .closed i (t.clients i).clientFd :: t.trace = _
    rw [htrace, hown]
    rfl

end Owned

namespace Ends

/-- Behind the end of a client its two slots are empty, and the others are as before. -/
theorem handlerAt (h : Ends i s s') (fd : Int) : s'.sel.handlerAt fd =
    if fd = (s.clients i).clientFd ∨ fd = (s.clients i).originFd then none
    else s.sel.handlerAt fd := by
  unfold Selector.handlerAt
  rw [h.slots fd]
  split <;> rfl

/-- A slot after the close is one from before of another descriptor. -/
theorem slot_before (h : Ends i s s') {fd : Int} {handlers : Handlers}
    (hslot : s'.sel.handlerAt fd = some handlers) :
    s.sel.handlerAt fd = some handlers ∧ fd ≠ (s.clients i).clientFd ∧
      fd ≠ (s.clients i).originFd := by
  rw [h.handlerAt fd] at hslot
  split at hslot
  · cases hslot
  · next hfd => exact ⟨hslot, fun heq => hfd (.inl heq), fun heq => hfd (.inr heq)⟩

/-- The end of a client is written down with how long it was there. -/
theorem mem_trace (h : Ends i s s') {j : ClientId} {seconds : Int} :
    .ended j seconds ∈ s'.trace ↔
      j = i ∧ seconds = s.now - (s.clients i).initTime ∨ .ended j seconds ∈ s.trace := by
  have horigin : Action.ended j seconds ∉ s.originCloses i := by
    unfold originCloses
    split
    · exact List.not_mem_nil
    · split <;> simp
  rw [h.trace, List.mem_cons, List.mem_cons, List.mem_append, or_iff_right horigin, Action.ended.injEq]
  simp

/-- Of the clients that were alive, all but the one ended are. -/
theorem live (h : Ends i s s') (j : ClientId) : s'.Live j ↔ s.Live j ∧ j ≠ i := by
  unfold Live
  rw [h.closing.made]
  constructor
  · intro hj
    refine ⟨⟨hj.1, fun seconds hmem => hj.2 seconds (h.mem_trace.mpr (.inr hmem))⟩, ?_⟩
    rintro rfl
    exact hj.2 _ (h.mem_trace.mpr (.inl ⟨rfl, rfl⟩))
  · intro hj
    refine ⟨hj.1.1, fun seconds hmem => ?_⟩
    rcases h.mem_trace.mp hmem with ⟨rfl, -⟩ | hmem
    · exact hj.2 rfl
    · exact hj.1.2 seconds hmem

end Ends

namespace Owned

/-- Client `i` holds its descriptors no more. -/
theorem holds_ends (he : Ends i s s') {handlers : Handlers} {fd : Int}
    (hh : s'.Holds handlers fd) :
    s.Holds handlers fd ∧ handlers ≠ .client i ∧ handlers ≠ .remote i := by
  cases handlers with
  | client j =>
    obtain ⟨hj, hfd⟩ := hh
    obtain ⟨hlive, hji⟩ := (he.live j).mp hj
    rw [he.others j hji] at hfd
    exact ⟨⟨hlive, hfd⟩, fun heq => hji (Handlers.client.inj heq), by simp⟩
  | remote j =>
    obtain ⟨hj, hfd⟩ := hh
    obtain ⟨hlive, hji⟩ := (he.live j).mp hj
    rw [he.others j hji] at hfd
    exact ⟨⟨hlive, hfd⟩, by simp, fun heq => hji (Handlers.remote.inj heq)⟩
  | other => exact ⟨(he.slot_before hh).1, by simp, by simp⟩

/-- What another holds is neither of the client's descriptors. -/
theorem ne_of_holds (h : Owned s) (hi : s.Live i) {handlers : Handlers} {fd : Int}
    (hh : s.Holds handlers fd) (hc : handlers ≠ .client i) (hr : handlers ≠ .remote i) :
    fd ≠ (s.clients i).clientFd ∧ fd ≠ (s.clients i).originFd := by
  constructor
  · rintro rfl
    exact hc (h.unique _ _ _ hh ⟨hi, rfl⟩)
  · rintro rfl
    refine hr (h.unique _ _ _ hh ⟨hi, rfl, fun heq => ?_⟩)
    exact absurd (h.nonneg _ (h.opened _ _ hh)) (by rw [heq]; decide)

/-- The end of a client leaves every descriptor with who holds it. -/
theorem of_ends (h : Owned s) (hi : s.Live i) (he : Ends i s s') : Owned s' := by
  constructor
  case nonneg => exact fun fd hfd => h.nonneg fd ((he.fds fd).mp hfd).1
  case opened =>
    intro handlers fd hh
    obtain ⟨hold, hc, hr⟩ := holds_ends he hh
    exact (he.fds fd).mpr ⟨h.opened _ _ hold, h.ne_of_holds hi hold hc hr⟩
  case unique =>
    exact fun a b fd ha hb => h.unique a b fd (holds_ends he ha).1 (holds_ends he hb).1
  case slot =>
    intro handlers fd hslot
    obtain ⟨hold, hc, ho⟩ := he.slot_before hslot
    rcases h.slot _ _ hold with hh | ⟨hremote, hopen, hnone⟩
    · refine .inl ?_
      cases handlers with
      | client j =>
        have hji : j ≠ i := fun heq => hc (heq ▸ hh.2.symm)
        exact ⟨(he.live j).mpr ⟨hh.1, hji⟩, by rw [he.others j hji]; exact hh.2⟩
      | remote j =>
        have hji : j ≠ i := fun heq => ho (heq ▸ hh.2.1.symm)
        exact ⟨(he.live j).mpr ⟨hh.1, hji⟩, by rw [he.others j hji]; exact hh.2⟩
      | other => exact hslot
    · exact .inr ⟨hremote, (he.fds fd).mpr ⟨hopen, hc, ho⟩, fun h' hh => hnone h' (holds_ends he hh).1⟩
  case origin =>
    intro j hj
    by_cases hji : j = i
    · exact hji ▸ he.origin
    · rw [he.others j hji]
      exact h.origin j fun hlive => hj ((he.live j).mpr ⟨hlive, hji⟩)
  case ended =>
    intro j seconds hmem
    rw [he.closing.made]
    rcases he.mem_trace.mp hmem with ⟨rfl, -⟩ | hmem
    · exact hi.1
    · exact h.ended j seconds hmem

/-- The origin of client `i` is closed. -/
theorem dropped (h : Owned s) (hi : s.Live i) (hne : (s.clients i).originFd ≠ -1) :
    Owned { s.remoteClose i with sel := s.sel.clear (s.clients i).originFd } := by
  generalize ht : ({ s.remoteClose i with sel := s.sel.clear (s.clients i).originFd } : Proxy) = t
  have hothers : ∀ j, j ≠ i → t.clients j = s.clients j := by
    intro j hj
    rw [← ht]
    exact clients_remoteClose_of_ne s hj
  have horigin : (t.clients i).originFd = -1 := by
    rw [← ht]
    exact originFd_remoteClose s i
  have hclient : ∀ j, (t.clients j).clientFd = (s.clients j).clientFd := by
    intro j
    rw [← ht]
    exact (Closing.remoteClose s i).clientFd j
  have hlive : ∀ j, t.Live j ↔ s.Live j := by
    intro j
    rw [← ht]
    exact not_ended_append (l := [.closed i (s.clients i).originFd])
      (fun _ hmem => by cases List.mem_singleton.mp hmem) s _ rfl rfl
  have hfds : ∀ fd, fd ∈ t.fds ↔ fd ∈ s.fds ∧ fd ≠ (s.clients i).originFd := by
    intro fd
    rw [← ht]
    exact List.mem_filter.trans (and_congr_right fun _ => decide_eq_true_iff)
  have hslots : ∀ fd handlers, t.sel.handlerAt fd = some handlers →
      s.sel.handlerAt fd = some handlers ∧ fd ≠ (s.clients i).originFd := by
    intro fd handlers hslot
    rw [← ht] at hslot
    change (s.sel.clear _).handlerAt fd = _ at hslot
    rw [Selector.handlerAt_clear, Function.update_apply] at hslot
    split at hslot
    · cases hslot
    · next hfd => exact ⟨hslot, hfd⟩
  have hholds : ∀ handlers fd, t.Holds handlers fd →
      s.Holds handlers fd ∧ fd ≠ (s.clients i).originFd := by
    intro handlers fd hh
    -- What is still held was held before, and not as the origin of `i`.
    have hold : s.Holds handlers fd ∧ handlers ≠ .remote i := by
      cases handlers with
      | client j => exact ⟨⟨(hlive j).mp hh.1, (hclient j) ▸ hh.2⟩, by simp⟩
      | remote j =>
        obtain ⟨hj, hfd, hne'⟩ := hh
        have hji : j ≠ i := by
          rintro rfl
          exact hne' (hfd.symm.trans horigin)
        rw [hothers j hji] at hfd
        exact ⟨⟨(hlive j).mp hj, hfd, hne'⟩, fun heq => hji (Handlers.remote.inj heq)⟩
      | other => exact ⟨(hslots fd _ hh).1, by simp⟩
    refine ⟨hold.1, ?_⟩
    rintro rfl
    exact hold.2 (h.unique _ _ _ hold.1 ⟨hi, rfl, hne⟩)
  constructor
  case nonneg => exact fun fd hfd => h.nonneg fd ((hfds fd).mp hfd).1
  case opened =>
    intro handlers fd hh
    obtain ⟨hold, hfd⟩ := hholds handlers fd hh
    exact (hfds fd).mpr ⟨h.opened _ _ hold, hfd⟩
  case unique => exact fun a b fd ha hb => h.unique a b fd (hholds a fd ha).1 (hholds b fd hb).1
  case slot =>
    intro handlers fd hslot
    obtain ⟨hold, hfd⟩ := hslots fd handlers hslot
    rcases h.slot _ _ hold with hh | ⟨hremote, hopen, hnone⟩
    · refine .inl ?_
      cases handlers with
      | client j => exact ⟨(hlive j).mpr hh.1, (hclient j).trans hh.2⟩
      | remote j =>
        have hji : j ≠ i := fun heq => hfd (heq ▸ hh.2.1.symm)
        exact ⟨(hlive j).mpr hh.1, by rw [hothers j hji]; exact hh.2⟩
      | other => exact hslot
    · exact .inr ⟨hremote, (hfds fd).mpr ⟨hopen, hfd⟩, fun h' hh => hnone h' (hholds h' fd hh).1⟩
  case origin =>
    intro j hj
    by_cases hji : j = i
    · exact hji ▸ horigin
    · rw [hothers j hji]
      exact h.origin j fun hlive' => hj ((hlive j).mpr hlive')
  case ended =>
    intro j seconds hmem
    rw [← ht] at hmem ⊢
    exact h.ended j seconds ((List.mem_cons.mp hmem).resolve_left (by simp))

/-- Unregistering an origin's descriptor does nothing, or closes an origin that the client holds. -/
theorem unregister_origin (h : Owned s) (hslots : Slots s) (i : ClientId) :
    s.unregister (s.clients i).originFd = s ∨
      s.sel.handlerAt (s.clients i).originFd = some (.remote i) ∧ s.Live i ∧
        (s.clients i).originFd ≠ -1 ∧
        s.unregister (s.clients i).originFd =
          { s.remoteClose i with sel := s.sel.clear (s.clients i).originFd } := by
  rcases h.slot_origin i with hnone | ⟨hremote, hi, hne⟩
  · exact .inl (unregister_of_none hnone)
  · have hv := hslots.valid _ (by rw [hremote]; exact Option.some_ne_none _)
    exact .inr ⟨hremote, hi, hne, unregister_of_remote hv hremote⟩

/-- Closing an origin leaves every descriptor with who holds it. -/
theorem of_unregister_origin (h : Owned s) (hslots : Slots s) (i : ClientId) :
    Owned (s.unregister (s.clients i).originFd) := by
  rcases h.unregister_origin hslots i with heq | ⟨-, hi, hne, heq⟩
  · rwa [heq]
  · rw [heq]
    exact h.dropped hi hne

/-- A descriptor with a slot is open. -/
theorem slot_open (h : Owned s) {fd : Int} (hslot : s.sel.handlerAt fd ≠ none) : fd ∈ s.fds := by
  obtain ⟨handlers, hhandlers⟩ := Option.ne_none_iff_exists'.mp hslot
  rcases h.slot _ _ hhandlers with hh | ⟨-, hopen, -⟩
  · exact h.opened _ _ hh
  · exact hopen

/-- Client `i` is given a new socket for its origin. -/
theorem connected (h : Owned s) (hi : s.Live i) {x : Int} (hx : 0 ≤ x) (hfresh : x ∉ s.fds)
    {sel : Selector Handlers}
    (hsel : sel.handlerAt = s.sel.handlerAt ∨
      sel.handlerAt = Function.update s.sel.handlerAt x (some (.remote i))) :
    Owned { s.connecting i x with sel := sel } := by
  generalize ht : ({ s.connecting i x with sel := sel } : Proxy) = t
  have hothers : ∀ j, j ≠ i → t.clients j = s.clients j := by
    intro j hj
    rw [← ht]
    exact clients_connecting_of_ne s x hj
  have hself : t.clients i = { s.clients i with state := .SEND_REQ, originFd := x } := by
    rw [← ht]
    exact clients_connecting_self s i x
  have hfds : t.fds = x :: s.fds := by
    rw [← ht]
    rfl
  have hlive : ∀ j, t.Live j ↔ s.Live j := by
    intro j
    rw [← ht]
    exact not_ended_append (l := [.opened i x]) (fun _ hmem => by cases List.mem_singleton.mp hmem)
      s _ rfl rfl
  have hslots : ∀ fd handlers, t.sel.handlerAt fd = some handlers →
      s.sel.handlerAt fd = some handlers ∨ handlers = .remote i ∧ fd = x := by
    intro fd handlers hslot
    rw [← ht] at hslot
    change sel.handlerAt fd = _ at hslot
    rcases hsel with hsel | hsel
    · exact .inl (hsel ▸ hslot)
    · rw [hsel, Function.update_apply] at hslot
      split at hslot
      · next hfd => exact .inr ⟨(Option.some.inj hslot).symm, hfd⟩
      · exact .inl hslot
  have hholds : ∀ handlers fd, t.Holds handlers fd →
      s.Holds handlers fd ∧ handlers ≠ .remote i ∨ handlers = .remote i ∧ fd = x := by
    intro handlers fd hh
    -- Only the origin of the client `i` changes its descriptor, and what it held before is
    -- dropped.
    cases handlers with
    | client j =>
      refine .inl ⟨⟨(hlive j).mp hh.1, ?_⟩, by simp⟩
      by_cases hj : j = i
      · subst hj
        exact (congrArg Client.clientFd hself).symm.trans hh.2
      · exact hothers j hj ▸ hh.2
    | remote j =>
      by_cases hj : j = i
      · subst hj
        refine .inr ⟨rfl, ?_⟩
        rw [← hh.2.1, hself]
      · exact .inl ⟨⟨(hlive j).mp hh.1, hothers j hj ▸ hh.2⟩, fun heq => hj (Handlers.remote.inj heq)⟩
    | other =>
      exact .inl ⟨(hslots fd _ hh).resolve_right (by simp), by simp⟩
  have hold : ∀ handlers fd, s.Holds handlers fd → fd ≠ x := by
    rintro handlers fd hh rfl
    exact hfresh (h.opened _ _ hh)
  constructor
  case nonneg =>
    intro fd hfd
    rw [hfds] at hfd
    rcases List.mem_cons.mp hfd with rfl | hfd
    · exact hx
    · exact h.nonneg fd hfd
  case opened =>
    intro handlers fd hh
    rw [hfds]
    rcases hholds _ _ hh with ⟨hh, -⟩ | ⟨-, rfl⟩
    · exact List.mem_cons_of_mem x (h.opened _ _ hh)
    · exact List.mem_cons_self
  case unique =>
    intro a b fd ha hb
    rcases hholds _ _ ha with ⟨ha, -⟩ | ⟨rfl, hfd⟩
    · rcases hholds _ _ hb with ⟨hb, -⟩ | ⟨-, hfd⟩
      · exact h.unique a b fd ha hb
      · exact absurd hfd (hold _ _ ha)
    · rcases hholds _ _ hb with ⟨hb, -⟩ | ⟨rfl, -⟩
      · exact absurd hfd (hold _ _ hb)
      · rfl
  case slot =>
    intro handlers fd hslot
    have hremote : t.Holds (.remote i) x := by
      refine ⟨(hlive i).mpr hi, congrArg Client.originFd hself, fun heq => ?_⟩
      exact absurd (heq ▸ hx) (by decide)
    rcases hslots fd handlers hslot with hslot' | ⟨rfl, rfl⟩
    -- A slot of an earlier origin of `i` stays behind without a holder.
    · rcases h.slot _ _ hslot' with hh | ⟨hr, hopen, hnone⟩
      · by_cases hri : handlers = .remote i
        · subst hri
          refine .inr ⟨⟨i, rfl⟩, ?_, fun h' hh' => ?_⟩
          · rw [hfds]
            exact List.mem_cons_of_mem x (h.opened _ _ hh)
          · rcases hholds _ _ hh' with ⟨hh', hne⟩ | ⟨-, hfd⟩
            · exact hne (h.unique _ _ _ hh' hh)
            · exact hold _ _ hh hfd
        · refine .inl ?_
          cases handlers with
          | client j =>
            refine ⟨(hlive j).mpr hh.1, ?_⟩
            by_cases hj : j = i
            · subst hj
              exact (congrArg Client.clientFd hself).trans hh.2
            · rw [hothers j hj]
              exact hh.2
          | remote j =>
            have hj : j ≠ i := fun heq => hri (heq ▸ rfl)
            exact ⟨(hlive j).mpr hh.1, by rw [hothers j hj]; exact hh.2⟩
          | other => exact hslot
      · refine .inr ⟨hr, ?_, fun h' hh' => ?_⟩
        · rw [hfds]
          exact List.mem_cons_of_mem x hopen
        · rcases hholds _ _ hh' with ⟨hh', -⟩ | ⟨-, hfd⟩
          · exact hnone h' hh'
          · exact hfresh (hfd ▸ hopen)
    · exact .inl hremote
  case origin =>
    intro j hj
    have hji : j ≠ i := fun heq => hj (heq ▸ (hlive i).mpr hi)
    rw [hothers j hji]
    exact h.origin j fun hlive' => hj ((hlive j).mpr hlive')
  case ended =>
    intro j seconds hmem
    rw [← ht] at hmem ⊢
    exact h.ended j seconds ((List.mem_cons.mp hmem).resolve_left (by simp))

end Owned

/-- Between its calls `transformations_new` opens and closes only what they returned. -/
theorem mem_fds_transformationsNew (s : Proxy) (i : ClientId) (t : TransfCalls) (x : Int) :
    (x ∈ s.fds → x ∉ t.fds → x ∈ (s.transformationsNew i t).2.fds) ∧
      (x ∈ (s.transformationsNew i t).2.fds → x ∈ s.fds ∨ x ∈ t.fds) := by
  unfold transformationsNew TransfCalls.fds
  cases t.pipeIn with
  | none => exact ⟨fun h _ => h, .inl⟩
  | some pin =>
    cases t.pipeOut with
    | none =>
      simp only [openFd, closeFd, act, Option.elim, List.mem_append, List.mem_cons, List.mem_filter,
        List.not_mem_nil, decide_eq_true_iff]
      tauto
    | some pout =>
      simp only
      split
      · simp only [openFd, act, Option.elim, List.mem_append, List.mem_cons]
        tauto
      · cases t.errorFd with
        | none =>
          simp only [openFd, act, Option.elim, List.mem_append, List.mem_cons]
          tauto
        | some errorFd =>
          cases t.fork with
          | true =>
            simp only [openFd, closeFd, act, Option.elim, Option.toList, List.mem_append,
              List.mem_cons, List.mem_filter, List.not_mem_nil, decide_eq_true_iff, if_true]
            tauto
          | false =>
            simp only [openFd, closeFd, act, Option.elim, Option.toList, List.mem_append,
              List.mem_cons, List.mem_filter, List.not_mem_nil, decide_eq_true_iff,
              Bool.false_eq_true, if_false]
            tauto

/-- Accepting a connection ends no client. -/
theorem Accepts.ended_iff {fd : Int} {t : TransfCalls} (ha : Accepts s fd t s') {j : ClientId}
    {seconds : Int} : .ended j seconds ∈ s'.trace ↔ .ended j seconds ∈ s.trace := by
  obtain ⟨l, hl, hpiped⟩ := (piped_transformationsNew (s.openFd s.made fd) s.made t).trace
  rw [ha.trace, hl]
  constructor
  · intro hmem
    rcases List.mem_cons.mp hmem with heq | hmem
    · cases heq
    · rcases List.mem_append.mp hmem with hmem | hmem
      · rcases hpiped _ hmem with ⟨_, heq⟩ | ⟨_, heq⟩ <;> cases heq
      · exact (List.mem_cons.mp hmem).resolve_left nofun
  · exact fun hmem => List.mem_cons_of_mem _ (List.mem_append_right l (List.mem_cons_of_mem _ hmem))

namespace Owned

/-- An accepted connection makes one client, which is alive. -/
theorem live_accepts (h : Owned s) {fd : Int} {t : TransfCalls} (ha : Accepts s fd t s')
    (j : ClientId) : s'.Live j ↔ s.Live j ∨ j = s.made := by
  unfold Live
  rw [ha.made, Nat.lt_succ_iff_lt_or_eq]
  simp only [ha.ended_iff]
  constructor
  · rintro ⟨hj | hj, hnone⟩
    · exact .inl ⟨hj, hnone⟩
    · exact .inr hj
  · rintro (⟨hj, hnone⟩ | rfl)
    · exact ⟨.inl hj, hnone⟩
    · exact ⟨.inr rfl, fun seconds hmem => Nat.lt_irrefl _ (h.ended _ seconds hmem)⟩

/-- A new descriptor was not open, so nobody else holds it. -/
theorem accepted (h : Owned s) {o : AcceptCalls} (hP : s.OsCall (.accept o)) :
    Owned (s.listenReadHandler o) := by
  cases ho : o.accept with
  | none =>
    unfold listenReadHandler
    rwa [ho]
  | some fd =>
    have ha := accepts_listenReadHandler (s := s) ho
    obtain ⟨hnodup, hnew⟩ := hP fd ho
    generalize s.listenReadHandler o = t at ha ⊢
    -- `transformations_new` may have closed the descriptor again only if it opened it too.
    have hmem := mem_fds_transformationsNew (s.openFd s.made fd) s.made o.transf
    rw [← ha.fds] at hmem
    obtain ⟨hfd0, hfresh⟩ := hnew fd List.mem_cons_self
    have hkept : ∀ x ∈ s.fds, x ∈ t.fds := by
      intro x hx
      refine (hmem x).1 (List.mem_cons_of_mem fd hx) fun hx' => ?_
      exact (hnew x (List.mem_cons_of_mem fd hx')).2 hx
    have hopen : fd ∈ t.fds :=
      (hmem fd).1 List.mem_cons_self (List.nodup_cons.mp hnodup).1
    have hended : ∀ j seconds, .ended j seconds ∈ t.trace → .ended j seconds ∈ s.trace :=
      fun j seconds => ha.ended_iff.mp
    have hlive := h.live_accepts ha
    have hne : ∀ j, s.Live j → j ≠ s.made := fun j hj => Nat.ne_of_lt hj.1
    have hslots : ∀ x handlers, t.sel.handlerAt x = some handlers →
        s.sel.handlerAt x = some handlers ∨ handlers = .client s.made ∧ x = fd := by
      intro x handlers hslot
      rw [ha.sel] at hslot
      rcases Selector.register_eq s.sel fd (.client s.made) OP_READ with
        ⟨-, -, -, hsel, -⟩ | ⟨-, -, hsel⟩
      · rw [hsel, Function.update_apply] at hslot
        split at hslot
        · next hx => exact .inr ⟨(Option.some.inj hslot).symm, hx⟩
        · exact .inl hslot
      · rw [hsel] at hslot
        exact .inl hslot
    have hholds : ∀ handlers x, t.Holds handlers x →
        s.Holds handlers x ∨ handlers = .client s.made ∧ x = fd := by
      intro handlers x hh
      cases handlers with
      | client j =>
        -- The client that is made holds nothing but the descriptor accepted.
        by_cases hj : j = s.made
        · subst hj
          exact .inr ⟨rfl, hh.2.symm.trans ha.client.clientFd⟩
        · exact .inl ⟨((hlive j).mp hh.1).resolve_right hj, ha.others j hj ▸ hh.2⟩
      | remote j =>
        by_cases hj : j = s.made
        · subst hj
          exact absurd (hh.2.1.symm.trans ha.client.originFd) hh.2.2
        · exact .inl ⟨((hlive j).mp hh.1).resolve_right hj, ha.others j hj ▸ hh.2⟩
      | other => exact .inl ((hslots x _ hh).resolve_right nofun)
    have hold : ∀ handlers x, s.Holds handlers x → x ≠ fd := by
      rintro handlers x hh rfl
      exact hfresh (h.opened _ _ hh)
    constructor
    case nonneg =>
      intro x hx
      rcases (hmem x).2 hx with hx | hx
      · rcases List.mem_cons.mp hx with rfl | hx
        · exact hfd0
        · exact h.nonneg x hx
      · exact (hnew x (List.mem_cons_of_mem fd hx)).1
    case opened =>
      intro handlers x hh
      rcases hholds _ _ hh with hh | ⟨-, rfl⟩
      · exact hkept x (h.opened _ _ hh)
      · exact hopen
    case unique =>
      intro a b x hxa hxb
      rcases hholds _ _ hxa with hxa | ⟨rfl, hx⟩
      · rcases hholds _ _ hxb with hxb | ⟨-, hx⟩
        · exact h.unique a b x hxa hxb
        · exact absurd hx (hold _ _ hxa)
      · rcases hholds _ _ hxb with hxb | ⟨rfl, -⟩
        · exact absurd hx (hold _ _ hxb)
        · rfl
    case slot =>
      intro handlers x hslot
      rcases hslots x handlers hslot with hslot' | ⟨rfl, rfl⟩
      · rcases h.slot _ _ hslot' with hh | ⟨hr, hx, hnone⟩
        · refine .inl ?_
          cases handlers with
          | client j =>
            exact ⟨(hlive j).mpr (.inl hh.1), by rw [ha.others j (hne j hh.1)]; exact hh.2⟩
          | remote j =>
            exact ⟨(hlive j).mpr (.inl hh.1), by rw [ha.others j (hne j hh.1)]; exact hh.2⟩
          | other => exact hslot
        · refine .inr ⟨hr, hkept x hx, fun h' hh' => ?_⟩
          rcases hholds _ _ hh' with hh' | ⟨-, rfl⟩
          · exact hnone h' hh'
          · exact hfresh hx
      · exact .inl ⟨(hlive _).mpr (.inr rfl), ha.client.clientFd⟩
    case origin =>
      intro j hj
      have hjm : j ≠ s.made := fun heq => hj ((hlive j).mpr (.inr heq))
      rw [ha.others j hjm]
      exact h.origin j fun hlive' => hj ((hlive j).mpr (.inl hlive'))
    case ended =>
      intro j seconds hmem
      rw [ha.made]
      exact Nat.lt_succ_of_lt (h.ended j seconds (hended j seconds hmem))

/-- A client with a slot is alive. -/
theorem live_of_slot (h : Owned s) {fd : Int} (hfd : s.sel.handlerAt fd = some (.client i)) :
    s.Live i := by
  rcases h.slot _ _ hfd with hh | ⟨⟨j, hj⟩, -⟩
  · exact hh.1
  · cases hj

/-- A change of one client that leaves its descriptors. -/
theorem modify (h : Owned s) {f : Client → Client}
    (hclient : (f (s.clients i)).clientFd = (s.clients i).clientFd)
    (horigin : (f (s.clients i)).originFd = (s.clients i).originFd) : Owned (s.modify i f) := by
  refine h.same (fun _ => Iff.rfl) rfl rfl (fun j => ?_) (fun j => ?_) h.ended
  · by_cases hj : j = i
    · subst hj
      rw [clients_modify_self, hclient]
    · rw [clients_modify_of_ne s f hj]
  · by_cases hj : j = i
    · subst hj
      rw [clients_modify_self, horigin]
    · rw [clients_modify_of_ne s f hj]

/-- An action that ends no client. -/
theorem act (h : Owned s) {a : Action} (ha : ∀ j seconds, a ≠ .ended j seconds) :
    Owned (s.act a) := by
  refine h.same (fun j => ?_) rfl rfl (fun _ => rfl) (fun _ => rfl) fun j seconds hmem => ?_
  · exact not_ended_append (l := [a])
      (fun seconds hmem => ha j seconds (List.mem_singleton.mp hmem).symm) s _ rfl rfl
  · exact h.ended j seconds ((List.mem_cons.mp hmem).resolve_left (ha j seconds).symm)

/-- Giving a client its host leaves the descriptors with who holds them. -/
theorem setHost (h : Owned s) (i : ClientId) (host : List UInt8) (port : Int) :
    Owned (s.clientSetHost i host port) := by
  have hused : Owned (s.use i) := h.act nofun
  have hset : Owned ((s.use i).modify i fun _ => ((s.clients i).setHost host port).2) :=
    hused.modify (clientFd_setHost (s.clients i) host port)
      (originFd_setHost (s.clients i) host port)
  unfold clientSetHost
  simp only
  split
  · have hlist : Owned { (s.use i).modify i (fun _ => ((s.clients i).setHost host port).2) with
        resolving := i :: (s.use i).resolving } :=
      hset.same (fun _ => Iff.rfl) rfl rfl (fun _ => rfl) (fun _ => rfl) hset.ended
    exact hlist.act nofun
  · exact hset

end Owned

/-- Between the statements of a handler of client `i`, which may be closed by then. -/
structure OwnedBy (i : ClientId) (s : Proxy) : Prop where
  owned : Owned s
  slots : Slots s
  slot : s.sel.handlerAt (s.clients i).clientFd = none ∨
    s.sel.handlerAt (s.clients i).clientFd = some (.client i)

namespace OwnedBy

/-- A quiet part leaves the client its slot, if it has one. -/
theorem quiet (h : OwnedBy i s) (hq : Quiet i s s') : OwnedBy i s' where
  owned := h.owned.quiet hq
  slots := h.slots.quiet hq
  slot := by
    rw [hq.handlers, hq.client.clientFd]
    exact h.slot

/-- Giving the client its host leaves it its slot. -/
theorem setHost (h : OwnedBy i s) (host : List UInt8) (port : Int) :
    OwnedBy i (s.clientSetHost i host port) where
  owned := h.owned.setHost i host port
  slots := h.slots.setHost host port
  slot := by
    rw [sel_clientSetHost, clients_clientSetHost, Function.update_self, clientFd_setHost]
    exact h.slot

/-- Setting the client's state leaves it its slot. -/
theorem setState (h : OwnedBy i s) (g : Client → ClientState) :
    OwnedBy i (s.modify i fun c => { c with state := g c }) where
  owned := h.owned.modify rfl rfl
  slots := h.slots.modify rfl
  slot := by
    rw [clients_modify_self]
    exact h.slot

/-- The client is closed now or it was closed before. -/
theorem unregister (h : OwnedBy i s) :
    s.unregister (s.clients i).clientFd = s ∨
      s.Live i ∧ Ends i s (s.unregister (s.clients i).clientFd) := by
  rcases h.slot with hslot | hslot
  · exact .inl (unregister_of_none hslot)
  · exact .inr ⟨h.owned.live_of_slot hslot, h.owned.ends h.slots hslot⟩

/-- Behind its close the client has no slot. -/
theorem of_unregister (h : OwnedBy i s) : OwnedBy i (s.unregister (s.clients i).clientFd) := by
  rcases h.unregister with heq | ⟨hi, he⟩
  · rwa [heq]
  · refine ⟨h.owned.of_ends hi he, h.slots.closing he.closing, .inl ?_⟩
    rw [he.closing.clientFd i, he.handlerAt, if_pos (.inl rfl)]

end OwnedBy

namespace Owned

/-- A handler is called for a client that has its slot. -/
theorem ownedBy (h : Owned s) (hslots : Slots s) {fd : Int}
    (hfd : s.sel.handlerAt fd = some (.client i)) : OwnedBy i s :=
  ⟨h, hslots, .inr ((hslots.client fd i hfd).1.symm ▸ hfd)⟩

/-- Whatever `client_block` ends in, a new origin is held by its client alone. -/
theorem blockEnd (h : Owned s) (hslots : Slots s) {fd : Int}
    (hfd : s.sel.handlerAt fd = some (.client i)) {o : BlockCalls}
    (hP : s.OsCall (.clientBlock fd i o)) (he : BlockEnd s i o s') : Owned s' := by
  have hi := h.live_of_slot hfd
  cases he with
  | unresolved _ => exact (h.ownedBy hslots hfd).of_unregister.owned
  | noSocket _ _ => exact h.modify rfl rfl
  | unwatched _ hs _ =>
    obtain ⟨hx, hfresh⟩ := hP _ hs
    exact h.connected hi hx hfresh (.inl rfl)
  | watched _ hs _ _ _ hsel _ =>
    obtain ⟨hx, hfresh⟩ := hP _ hs
    exact h.connected hi hx hfresh (.inr hsel)
  | refused _ hs _ hsel _ _ =>
    obtain ⟨hx, hfresh⟩ := hP _ hs
    have hconn := h.connected hi hx hfresh (.inl hsel)
    exact hconn.same (fun _ => Iff.rfl) rfl rfl (fun _ => rfl) (fun _ => rfl) hconn.ended

/-- Every handler leaves each descriptor with one holder at most, when the system keeps its
promise. -/
theorem call (h : Owned s) (hslots : Slots s) {c : Call} (hreg : s.Registered c)
    (hP : s.OsCall c) : Owned (s.call c) := by
  have hunregister : ∀ (i : ClientId) (t : Proxy), Owned t ∧ Slots t →
      Owned (t.unregister (t.clients i).originFd) ∧ Slots (t.unregister (t.clients i).originFd) :=
    fun i t ht => ⟨ht.1.of_unregister_origin ht.2 i, ht.2.closing (closing_unregister t _)⟩
  cases c with
  | accept o => exact h.accepted hP
  | clientRead i r =>
    obtain ⟨fd, hfd⟩ := hreg
    exact (keeps_clientRead (fun _ _ h hq => OwnedBy.quiet h hq) (fun _ host port h => h.setHost host port)
      (fun _ g h => h.setState g) (fun _ h => h.of_unregister) (h.ownedBy hslots hfd) r).owned
  | clientWrite i r =>
    obtain ⟨fd, hfd⟩ := hreg
    exact (keeps_clientWrite (fun _ _ h hq => OwnedBy.quiet h hq) (fun _ h => h.of_unregister)
      (h.ownedBy hslots hfd) r).owned
  | clientBlock fd i o => exact h.blockEnd hslots hreg hP (hslots.clientBlock hreg o)
  | remoteRead i r =>
    exact (keeps_remoteRead (i := i) (J := fun t => Owned t ∧ Slots t)
      (fun _ _ h hq => ⟨h.1.quiet hq, h.2.quiet hq⟩) (hunregister i) ⟨h, hslots⟩ r).1
  | remoteWrite i r =>
    exact (keeps_remoteWrite (i := i) (J := fun t => Owned t ∧ Slots t)
      (fun _ _ h hq => ⟨h.1.quiet hq, h.2.quiet hq⟩)
      (fun _ _ h => ⟨h.1.modify rfl rfl, h.2.modify rfl⟩) (hunregister i) ⟨h, hslots⟩ r).1

/-- Ownership is preserved by every run in which the system keeps its promise. -/
theorem preserved : Preserved (fun s c => s.OsCall c ∧ Slots s) Owned where
  call _ _ h _ hreg hP := h.call hP.2 hreg hP.1
  clock _ _ h := h.same (fun _ => Iff.rfl) rfl rfl (fun _ => rfl) (fun _ => rfl) h.ended
  resolve s i found h := by
    unfold resolve
    split
    · have hlists : Owned { s with
          resolving := s.resolving.erase i, notifying := i :: s.notifying } :=
        h.same (fun _ => Iff.rfl) rfl rfl (fun _ => rfl) (fun _ => rfl) h.ended
      exact hlists.modify rfl rfl
    · exact h
  notify s i h := by
    unfold notify
    split
    · exact h.same (fun _ => Iff.rfl) rfl rfl (fun _ => rfl) (fun _ => rfl) h.ended
    · exact h
  resumed _ _ _ _ _ _ _ h := h.act nofun
  cleared _ h := h.same (fun _ => Iff.rfl) rfl rfl (fun _ => rfl) (fun _ => rfl) h.ended
  crashed _ h := h.same (fun _ => Iff.rfl) rfl rfl (fun _ => rfl) (fun _ => rfl) h.ended

end Owned

/-- At the start no client holds anything. -/
theorem Started.owned (h : Started s) : Owned s := by
  obtain ⟨conf, registered, others, hfds, rfl⟩ := h
  have hinitial := handlerAt_initial conf registered others
  have hholds : ∀ handlers fd, (initial conf registered others).Holds handlers fd →
      handlers = .other ∧ fd ∈ registered := by
    intro handlers fd hh
    cases handlers with
    | client i => exact absurd hh.1.1 (Nat.not_lt_zero i)
    | remote i => exact absurd hh.1.1 (Nat.not_lt_zero i)
    | other =>
      rcases hinitial fd with hnone | ⟨-, hmem, -⟩
      · exact absurd (hnone.symm.trans hh) (by simp)
      · exact ⟨rfl, hmem⟩
  constructor
  case nonneg => exact hfds
  case opened => exact fun handlers fd hh => List.mem_append_left _ (hholds handlers fd hh).2
  case unique =>
    exact fun a b fd ha hb => (hholds a fd ha).1.trans (hholds b fd hb).1.symm
  case slot =>
    intro handlers fd hslot
    rcases hinitial fd with hnone | ⟨hother, -, -⟩
    · exact absurd (hnone.symm.trans hslot) (by simp)
    · obtain rfl := Option.some.inj (hslot.symm.trans hother)
      exact .inl hslot
  case origin => exact fun _ _ => rfl
  case ended => exact nofun

/-- Slots and holders through a run, for a system that keeps its promise. -/
theorem preserved_owned {P : Proxy → Call → Prop} (hP : ∀ s c, P s c → s.OsCall c) :
    Preserved P fun s => Slots s ∧ Owned s := by
  have hslots := Slots.preserved.mono (Q := P) fun _ _ _ => trivial
  exact hslots.and (Owned.preserved.mono fun s c h => ⟨hP s c h.1, h.2⟩)

end Proxy

end HttpProxy
