import HttpProxy.Ownership

/-!
# Nothing is done with a closed client

The close of a client runs inside `selector_unregister_fd`, in the middle of a handler of the
client. Every handler returns right behind it but one: `client_read` goes on after a failed `read`.
And a handler is called for a closed client when a second `client_block` left the descriptor of
the client's first origin registered.
-/

namespace HttpProxy

/-- `a` is done with a client that `b` closes. -/
def Action.After : Action → Action → Prop
  | .used i, .ended j _ => i = j
  | _, _ => False

instance : ∀ a b : Action, Decidable (a.After b)
  | .used i, .ended j _ => inferInstanceAs (Decidable (i = j))
  | .used _, .opened _ _ | .used _, .closed _ _ | .used _, .made _ | .used _, .used _
  | .used _, .received _ _ | .used _, .sent _ _ | .used _, .fetched _ _ | .used _, .delivered _ _
  | .used _, .asked _ | .used _, .resumed _ _ => .isFalse id
  | .opened _ _, _ | .closed _ _, _ | .made _, _ | .received _ _, _ | .sent _ _, _
  | .fetched _ _, _ | .delivered _ _, _ | .asked _, _ | .resumed _ _, _ | .ended _ _, _ =>
    .isFalse id

/-- Nothing is done with a client's buffers or parsers after its close; newest first. -/
def UsedBeforeEnd (trace : List Action) : Prop := trace.Pairwise fun a b => ¬a.After b

instance (trace : List Action) : Decidable (UsedBeforeEnd trace) :=
  inferInstanceAs (Decidable (trace.Pairwise _))

namespace Proxy

/-- The calls after which nothing is done with a closed client: `client_read` reads, and
`client_block` connects a client whose origin, if it has one, is not registered. -/
def StopsAtClose (s : Proxy) : Call → Prop
  | .clientRead i r => ¬s.ReadFails i r
  | .clientBlock _ i o =>
    (s.clients i).host.resolved = true → o.socket ≠ none →
      s.sel.handlerAt (s.clients i).originFd = none
  | _ => True

instance (s : Proxy) : ∀ c, Decidable (s.StopsAtClose c)
  | .clientRead _ _ => inferInstanceAs (Decidable (¬_))
  | .clientBlock _ _ _ => inferInstanceAs (Decidable (_ → _ → _))
  | .accept _ | .clientWrite _ _ | .remoteRead _ _ | .remoteWrite _ _ => .isTrue trivial

variable {s s' : Proxy} {i j : ClientId}

namespace Live

/-- A quiet part closes nobody. -/
theorem quiet (h : s.Live j) (hq : Quiet i s s') : s'.Live j := by
  obtain ⟨l, hl, hquiet⟩ := hq.trace
  exact (not_ended_append (fun _ hmem => hquiet _ hmem) s s' hl hq.made).mpr h

/-- An action that ends nobody. -/
theorem act (h : s.Live j) {a : Action} (ha : ∀ seconds, a ≠ .ended j seconds) :
    (s.act a).Live j :=
  (not_ended_append (l := [a]) (fun seconds hmem => ha seconds (List.mem_singleton.mp hmem).symm)
    s (s.act a) rfl rfl).mpr h

/-- Giving a client its host closes nobody. -/
theorem setHost (h : s.Live j) (i : ClientId) (host : List UInt8) (port : Int) :
    (s.clientSetHost i host port).Live j := by
  have hused : (s.use i).Live j := h.act nofun
  unfold clientSetHost
  simp only
  split
  · exact Live.act (s := { (s.use i).modify i (fun _ => ((s.clients i).setHost host port).2) with
      resolving := i :: s.resolving }) hused nofun
  · exact hused

end Live

/-- The calls that connect no client whose origin is registered. -/
def ConnectsFree (s : Proxy) : Call → Prop
  | .clientBlock _ i o =>
    (s.clients i).host.resolved = true → o.socket ≠ none →
      s.sel.handlerAt (s.clients i).originFd = none
  | _ => True

/-- A call that stops at the close connects no client whose origin is registered. -/
theorem StopsAtClose.connectsFree {c : Call} (h : s.StopsAtClose c) : s.ConnectsFree c := by
  cases c with
  | clientBlock fd i o => exact h
  | _ => trivial

/-- Every slot of an origin is the one its client holds. -/
def Tended (s : Proxy) : Prop :=
  ∀ fd i, s.sel.handlerAt fd = some (.remote i) → s.Holds (.remote i) fd

namespace Tended

/-- Slots of origins are emptied or stay, and those that stay are held as before. -/
theorem fewer (h : Tended s)
    (hslots : ∀ fd i, s'.sel.handlerAt fd = some (.remote i) →
      s.sel.handlerAt fd = some (.remote i) ∧ s'.Live i ∧
        (s'.clients i).originFd = (s.clients i).originFd) : Tended s' := by
  intro fd i hi
  obtain ⟨hi', hlive, horigin⟩ := hslots fd i hi
  obtain ⟨-, hfd, hne⟩ := h fd i hi'
  exact ⟨hlive, horigin.trans hfd, hne⟩

/-- A quiet part leaves the origins their slots. -/
theorem quiet (h : Tended s) (hq : Quiet i s s') : Tended s' := by
  refine h.fewer fun fd j hj => ?_
  rw [hq.handlers] at hj
  refine ⟨hj, (h fd j hj).1.quiet hq, ?_⟩
  by_cases hji : j = i
  · exact hji ▸ hq.client.originFd
  · rw [hq.others j hji]

/-- An action that ends nobody leaves the origins their slots. -/
theorem act (h : Tended s) {a : Action} (hended : ∀ j seconds, a ≠ .ended j seconds) :
    Tended (s.act a) :=
  h.fewer fun fd j hj => ⟨hj, (h fd j hj).1.act (hended j), rfl⟩

/-- A change of one client that leaves its origin. -/
theorem modify (h : Tended s) {f : Client → Client}
    (hf : (f (s.clients i)).originFd = (s.clients i).originFd) : Tended (s.modify i f) := by
  refine h.fewer fun fd j hj => ⟨hj, (h fd j hj).1, ?_⟩
  by_cases hji : j = i
  · subst hji
    rw [clients_modify_self, hf]
  · rw [clients_modify_of_ne s f hji]

/-- Neither the clients nor the slots nor the trace change. -/
theorem same (h : Tended s) (hsel : s'.sel = s.sel) (hclients : s'.clients = s.clients)
    (hmade : s'.made = s.made) (htrace : s'.trace = s.trace) : Tended s' := by
  have hlive : ∀ j, s.Live j → s'.Live j := by
    intro j hj
    exact (not_ended_append (l := []) (fun _ => List.not_mem_nil) s s' htrace hmade).mpr hj
  refine h.fewer fun fd j hj => ?_
  rw [hsel] at hj
  exact ⟨hj, hlive j (h fd j hj).1, by rw [hclients]⟩

/-- Giving a client its host leaves the origins their slots. -/
theorem setHost (h : Tended s) (host : List UInt8) (port : Int) :
    Tended (s.clientSetHost i host port) := by
  refine h.fewer fun fd j hj => ?_
  rw [sel_clientSetHost] at hj
  refine ⟨hj, (h fd j hj).1.setHost i host port, ?_⟩
  rw [clients_clientSetHost]
  by_cases hji : j = i
  · subst hji
    rw [Function.update_self, originFd_setHost]
  · rw [Function.update_of_ne hji]

/-- The end of a client empties the slot of its origin. -/
theorem ends (h : Tended s) (he : Ends i s s') : Tended s' := by
  refine h.fewer fun fd j hj => ?_
  obtain ⟨hj', -, hfd⟩ := he.slot_before hj
  obtain ⟨hlive, horigin, -⟩ := h fd j hj'
  have hji : j ≠ i := by
    rintro rfl
    exact hfd horigin.symm
  exact ⟨hj', (he.live j).mpr ⟨hlive, hji⟩, by rw [he.others j hji]⟩

/-- Closing a client leaves the slots with their origins. -/
theorem unregister_client (h : Tended s) (hown : OwnedBy i s) :
    Tended (s.unregister (s.clients i).clientFd) := by
  rcases hown.unregister with heq | ⟨-, he⟩
  · rwa [heq]
  · exact h.ends he

/-- Closing an origin leaves the slots with their origins. -/
theorem unregister_origin (h : Tended s) (howned : Owned s) (hslots : Slots s) (i : ClientId) :
    Tended (s.unregister (s.clients i).originFd) := by
  rcases howned.unregister_origin hslots i with heq | ⟨-, -, -, heq⟩
  · rwa [heq]
  · rw [heq]
    refine h.fewer fun fd j hj => ?_
    change (s.sel.clear _).handlerAt fd = _ at hj
    rw [Selector.handlerAt_clear, Function.update_apply] at hj
    split at hj
    · cases hj
    · next hfd =>
      obtain ⟨hlive, horigin, -⟩ := h fd j hj
      have hji : j ≠ i := by
        rintro rfl
        exact hfd horigin.symm
      refine ⟨hj, hlive.act nofun, ?_⟩
      exact congrArg Client.originFd (clients_remoteClose_of_ne s hji)

/-- A client whose former origin has no slot gets a new one. -/
theorem connected (h : Tended s) (hi : s.Live i) {x : Int} (hx : 0 ≤ x)
    (hfree : s.sel.handlerAt (s.clients i).originFd = none) {sel : Selector Handlers}
    (hsel : sel.handlerAt = s.sel.handlerAt ∨
      sel.handlerAt = Function.update s.sel.handlerAt x (some (.remote i))) :
    Tended { s.connecting i x with sel := sel } := by
  intro fd j hj
  change sel.handlerAt fd = _ at hj
  have hlive : ∀ k, s.Live k → Live { s.connecting i x with sel := sel } k :=
    fun k hk => Live.act (s := s) hk nofun
  have hnew : ∀ k fd, s.sel.handlerAt fd = some (.remote k) →
      Holds { s.connecting i x with sel := sel } (.remote k) fd := by
    intro k fd hk
    obtain ⟨hklive, horigin, hne⟩ := h fd k hk
    have hki : k ≠ i := by
      rintro rfl
      rw [horigin] at hfree
      cases hk.symm.trans hfree
    refine ⟨hlive k hklive, ?_, hne⟩
    rw [← horigin]
    exact congrArg Client.originFd (clients_connecting_of_ne s x hki)
  rcases hsel with hsel | hsel
  · exact hnew j fd (hsel ▸ hj)
  · rw [hsel, Function.update_apply] at hj
    split at hj
    · next hfd =>
      obtain rfl := Handlers.remote.inj (Option.some.inj hj)
      refine ⟨hlive i hi, ?_, fun heq => ?_⟩
      · rw [hfd]
        exact congrArg Client.originFd (clients_connecting_self s i x)
      · rw [← hfd, heq] at hx
        exact absurd hx (by decide)
    · exact hnew j fd hj

/-- Whatever `client_block` ends in, no slot stays with a former origin. -/
theorem blockEnd (h : Tended s) (howned : Owned s) (hslots : Slots s) {fd : Int}
    (hfd : s.sel.handlerAt fd = some (.client i)) {o : BlockCalls}
    (hP : s.OsCall (.clientBlock fd i o)) (hfree : s.ConnectsFree (.clientBlock fd i o))
    (he : BlockEnd s i o s') : Tended s' := by
  have hi := howned.live_of_slot hfd
  have hfree : ∀ {x}, (s.clients i).host.resolved = true → o.socket = some x →
      s.sel.handlerAt (s.clients i).originFd = none :=
    fun hres hs => hfree hres (by rw [hs]; nofun)
  cases he with
  | unresolved _ => exact h.unregister_client (howned.ownedBy hslots hfd)
  | noSocket _ _ => exact h.modify rfl
  | unwatched hres hs _ => exact h.connected hi (hP _ hs).1 (hfree hres hs) (.inl rfl)
  | watched hres hs _ _ _ hsel _ => exact h.connected hi (hP _ hs).1 (hfree hres hs) (.inr hsel)
  | refused hres hs _ hsel _ _ =>
    exact (h.connected hi (hP _ hs).1 (hfree hres hs) (.inl hsel)).same rfl rfl rfl rfl

/-- A new client has no origin. -/
theorem accepted (h : Tended s) (o : AcceptCalls) : Tended (s.listenReadHandler o) := by
  cases ho : o.accept with
  | none =>
    unfold listenReadHandler
    rwa [ho]
  | some fd =>
    have ha := accepts_listenReadHandler (s := s) ho
    generalize s.listenReadHandler o = t at ha ⊢
    refine h.fewer fun x j hj => ?_
    have hold : s.sel.handlerAt x = some (.remote j) := by
      rw [ha.sel] at hj
      rcases Selector.register_eq s.sel fd (.client s.made) OP_READ with
        ⟨-, -, -, hsel, -⟩ | ⟨-, -, hsel⟩
      · rw [hsel, Function.update_apply] at hj
        split at hj
        · cases hj
        · exact hj
      · rwa [hsel] at hj
    obtain ⟨⟨hlt, hnone⟩, -, -⟩ := h x j hold
    refine ⟨hold, ⟨by rw [ha.made]; exact Nat.lt_succ_of_lt hlt, fun seconds hmem => ?_⟩,
      congrArg Client.originFd (ha.others j (Nat.ne_of_lt hlt))⟩
    exact hnone seconds ((ha.ended_iff).mp hmem)

/-- Every handler that connects free leaves the slots with their origins. -/
theorem call (h : Tended s) (howned : Owned s) (hslots : Slots s) {c : Call}
    (hreg : s.Registered c) (hos : s.OsCall c) (hfree : s.ConnectsFree c) : Tended (s.call c) := by
  have hclient : ∀ {i fd}, s.sel.handlerAt fd = some (.client i) → Tended s ∧ OwnedBy i s :=
    fun hfd => ⟨h, howned.ownedBy hslots hfd⟩
  have horigin : ∀ (i : ClientId) (t : Proxy), Tended t ∧ Owned t ∧ Slots t →
      Tended (t.unregister (t.clients i).originFd) ∧ Owned (t.unregister (t.clients i).originFd) ∧
        Slots (t.unregister (t.clients i).originFd) :=
    fun i t ht => ⟨ht.1.unregister_origin ht.2.1 ht.2.2 i, ht.2.1.of_unregister_origin ht.2.2 i,
      ht.2.2.closing (closing_unregister t _)⟩
  cases c with
  | accept o => exact h.accepted o
  | clientRead i r =>
    obtain ⟨fd, hfd⟩ := hreg
    exact (keeps_clientRead (i := i) (J := fun t => Tended t ∧ OwnedBy i t)
      (fun _ _ h hq => ⟨h.1.quiet hq, h.2.quiet hq⟩)
      (fun _ host port h => ⟨h.1.setHost host port, h.2.setHost host port⟩)
      (fun _ g h => ⟨h.1.modify rfl, h.2.setState g⟩)
      (fun _ h => ⟨h.1.unregister_client h.2, h.2.of_unregister⟩) (hclient hfd) r).1
  | clientWrite i r =>
    obtain ⟨fd, hfd⟩ := hreg
    exact (keeps_clientWrite (i := i) (J := fun t => Tended t ∧ OwnedBy i t)
      (fun _ _ h hq => ⟨h.1.quiet hq, h.2.quiet hq⟩)
      (fun _ h => ⟨h.1.unregister_client h.2, h.2.of_unregister⟩) (hclient hfd) r).1
  | clientBlock fd i o => exact h.blockEnd howned hslots hreg hos hfree (hslots.clientBlock hreg o)
  | remoteRead i r =>
    exact (keeps_remoteRead (i := i) (J := fun t => Tended t ∧ Owned t ∧ Slots t)
      (fun _ _ h hq => ⟨h.1.quiet hq, h.2.1.quiet hq, h.2.2.quiet hq⟩) (horigin i)
      ⟨h, howned, hslots⟩ r).1
  | remoteWrite i r =>
    exact (keeps_remoteWrite (i := i) (J := fun t => Tended t ∧ Owned t ∧ Slots t)
      (fun _ _ h hq => ⟨h.1.quiet hq, h.2.1.quiet hq, h.2.2.quiet hq⟩)
      (fun _ _ h => ⟨h.1.modify rfl, h.2.1.modify rfl rfl, h.2.2.modify rfl⟩) (horigin i)
      ⟨h, howned, hslots⟩ r).1

/-- That the slots are tended is preserved by every run whose calls connect free. -/
theorem preserved :
    Preserved (fun s c => (s.OsCall c ∧ s.ConnectsFree c) ∧ Slots s ∧ Owned s) Tended where
  call _ _ h _ hreg hP := h.call hP.2.2 hP.2.1 hreg hP.1.1 hP.1.2
  clock _ _ h := h.same rfl rfl rfl rfl
  resolve s i found h := by
    unfold resolve
    split
    · have hlists : Tended { s with
          resolving := s.resolving.erase i, notifying := i :: s.notifying } :=
        h.same rfl rfl rfl rfl
      exact hlists.modify rfl
    · exact h
  notify s i h := by
    unfold notify
    split
    · exact h.same rfl rfl rfl rfl
    · exact h
  resumed _ _ _ _ _ _ _ h := h.act nofun
  cleared _ h := h.same rfl rfl rfl rfl
  crashed _ h := h.same rfl rfl rfl rfl

end Tended

/-- At the start no origin has a slot. -/
theorem Started.tended (h : Started s) : Tended s := by
  obtain ⟨conf, registered, others, -, rfl⟩ := h
  intro fd i hi
  rcases handlerAt_initial conf registered others fd with h | ⟨h, -, -⟩ <;>
    exact absurd (h.symm.trans hi) (by simp)

/-- Every slot of an origin is the one its client holds, and closed clients are left alone. -/
structure Orderly (s : Proxy) : Prop where
  remote : ∀ fd i, s.sel.handlerAt fd = some (.remote i) → s.Holds (.remote i) fd
  used : UsedBeforeEnd s.trace

namespace Orderly

/-- What is done with a client that is not closed keeps the order. -/
theorem used_append {l trace : List Action} (h : UsedBeforeEnd trace)
    (hl : ∀ a ∈ l, ∀ j, a = .used j → ∀ seconds, .ended j seconds ∉ l ++ trace) :
    UsedBeforeEnd (l ++ trace) := by
  have hafter : ∀ a ∈ l, ∀ b ∈ l ++ trace, ¬a.After b := by
    intro a ha b hb hab
    cases a with
    | used j =>
      cases b with
      | ended k seconds =>
        obtain rfl : j = k := hab
        exact hl _ ha j rfl seconds hb
      | _ => exact hab
    | _ => exact hab
  refine List.pairwise_append.mpr ⟨?_, h, fun a ha b hb => ?_⟩
  · exact List.Pairwise.imp_mem.mpr (List.pairwise_of_forall fun a b ha hb =>
      hafter a ha b (List.mem_append_left trace hb))
  · exact hafter a ha b (List.mem_append_right l hb)

theorem tended (h : Orderly s) : Tended s := h.remote

/-- Nothing that is done is done with a client. -/
theorem unused (h : Orderly s) (ht : Tended s') {l : List Action} (htrace : s'.trace = l ++ s.trace)
    (hl : ∀ a ∈ l, ∀ j, a ≠ .used j) : Orderly s' :=
  ⟨ht, htrace ▸ used_append h.used fun a ha j haj => absurd haj (hl a ha j)⟩

/-- A quiet part of the handler of a client that is not closed. -/
theorem quiet (h : Orderly s) (hi : s.Live i) (hq : Quiet i s s') : Orderly s' := by
  obtain ⟨l, hl, hquiet⟩ := hq.trace
  refine ⟨h.tended.quiet hq, hl ▸ used_append h.used fun a ha j haj seconds hmem => ?_⟩
  subst haj
  obtain rfl : j = i := hquiet _ ha
  exact (hi.quiet hq).2 seconds (hl ▸ hmem)

/-- An action with a client that is not closed, or with none. -/
theorem act (h : Orderly s) {a : Action} (hused : ∀ j, a = .used j → s.Live j)
    (hended : ∀ j seconds, a ≠ .ended j seconds) : Orderly (s.act a) := by
  refine ⟨h.tended.act hended, used_append (l := [a]) h.used fun b hb j hbj seconds hmem => ?_⟩
  obtain rfl := List.mem_singleton.mp hb
  exact ((hused j hbj).act (hended j)).2 seconds hmem

/-- A change of one client that leaves its origin. -/
theorem modify (h : Orderly s) {f : Client → Client}
    (hf : (f (s.clients i)).originFd = (s.clients i).originFd) : Orderly (s.modify i f) :=
  h.unused (h.tended.modify hf) (l := []) rfl nofun

/-- Neither the clients nor the slots nor the trace change. -/
theorem same (h : Orderly s) (hsel : s'.sel = s.sel) (hclients : s'.clients = s.clients)
    (hmade : s'.made = s.made) (htrace : s'.trace = s.trace) : Orderly s' :=
  h.unused (h.tended.same hsel hclients hmade htrace) (l := []) htrace nofun

/-- Giving a host to a client that is not closed. -/
theorem setHost (h : Orderly s) (hi : s.Live i) (host : List UInt8) (port : Int) :
    Orderly (s.clientSetHost i host port) := by
  have hused : Orderly (s.use i) := by
    refine h.act (fun j hj => ?_) nofun
    obtain rfl := Action.used.inj hj
    exact hi
  have hset : Orderly ((s.use i).modify i fun _ => ((s.clients i).setHost host port).2) :=
    hused.modify (originFd_setHost (s.clients i) host port)
  unfold clientSetHost
  simp only
  split
  · have hlist : Orderly { (s.use i).modify i (fun _ => ((s.clients i).setHost host port).2) with
        resolving := i :: (s.use i).resolving } := hset.same rfl rfl rfl rfl
    exact hlist.act nofun nofun
  · exact hset

/-- The end of a client keeps the order: nothing was done with it since. -/
theorem ends (h : Orderly s) (he : Ends i s s') : Orderly s' := by
  obtain ⟨l, hl, hclosing⟩ := he.closing.trace
  refine h.unused (h.tended.ends he) hl fun a ha j haj => ?_
  subst haj
  exact hclosing _ ha

/-- Closing an origin is nothing that is done with its client. -/
theorem unregister_origin (h : Orderly s) (howned : Owned s) (hslots : Slots s) (i : ClientId) :
    Orderly (s.unregister (s.clients i).originFd) := by
  obtain ⟨l, hl, hclosing⟩ := (closing_unregister s (s.clients i).originFd).trace
  refine h.unused (h.tended.unregister_origin howned hslots i) hl fun a ha j haj => ?_
  subst haj
  exact hclosing _ ha

/-- Whatever `client_block` ends in, nothing is done with a closed client. -/
theorem blockEnd (h : Orderly s) (howned : Owned s) (hslots : Slots s) {fd : Int}
    (hfd : s.sel.handlerAt fd = some (.client i)) {o : BlockCalls}
    (hP : s.OsCall (.clientBlock fd i o)) (hstop : s.StopsAtClose (.clientBlock fd i o))
    (he : BlockEnd s i o s') : Orderly s' := by
  have htended := h.tended.blockEnd howned hslots hfd hP hstop.connectsFree he
  cases he with
  | unresolved _ =>
    rcases (howned.ownedBy hslots hfd).unregister with heq | ⟨-, he⟩
    · rwa [heq]
    · exact h.ends he
  | noSocket _ _ => exact h.modify rfl
  | @unwatched _ x _ _ => exact h.unused htended (l := [.opened i x]) rfl (by simp)
  | @watched _ x _ _ _ _ _ _ _ => exact h.unused htended (l := [.opened i x]) rfl (by simp)
  | @refused _ x _ _ _ _ _ _ => exact h.unused htended (l := [.opened i x]) rfl (by simp)

/-- A new client has a number that no closed one has. -/
theorem accepted (h : Orderly s) (o : AcceptCalls) : Orderly (s.listenReadHandler o) := by
  cases ho : o.accept with
  | none =>
    unfold listenReadHandler
    rwa [ho]
  | some fd =>
    have ha := accepts_listenReadHandler (s := s) ho
    obtain ⟨l, hl, hpiped⟩ := (piped_transformationsNew (s.openFd s.made fd) s.made o.transf).trace
    have htrace : (s.listenReadHandler o).trace =
        .made s.made :: l ++ [.opened s.made fd] ++ s.trace := by
      rw [ha.trace, hl, List.append_assoc]
      rfl
    refine h.unused (h.tended.accepted o) htrace fun a hmem j haj => ?_
    subst haj
    rcases List.mem_append.mp hmem with hmem | hmem
    · rcases List.mem_cons.mp hmem with hmade | hmem
      · cases hmade
      · rcases hpiped _ hmem with ⟨_, h⟩ | ⟨_, h⟩ <;> cases h
    · cases List.mem_singleton.mp hmem

/-- Between the statements of a handler of client `i`, which is not closed. -/
structure Within (i : ClientId) (s : Proxy) : Prop where
  orderly : Orderly s
  ownedBy : OwnedBy i s
  live : s.Live i

namespace Within

/-- A quiet part of the handler leaves the client open. -/
theorem quiet (h : Within i s) (hq : Quiet i s s') : Within i s' :=
  ⟨h.orderly.quiet h.live hq, h.ownedBy.quiet hq, h.live.quiet hq⟩

/-- Giving the client its host leaves it open. -/
theorem setHost (h : Within i s) (host : List UInt8) (port : Int) :
    Within i (s.clientSetHost i host port) :=
  ⟨h.orderly.setHost h.live host port, h.ownedBy.setHost host port, h.live.setHost i host port⟩

/-- Setting the client's state leaves it open. -/
theorem setState (h : Within i s) (g : Client → ClientState) :
    Within i (s.modify i fun c => { c with state := g c }) :=
  ⟨h.orderly.modify rfl, h.ownedBy.setState g, h.live⟩

/-- The call that may announce the host leaves the client open. -/
theorem asks (h : Within i s) (ha : Asks i s s') : Within i s' :=
  keeps_asks (fun _ _ h hq => h.quiet hq) (fun _ host port h => h.setHost host port) h ha

/-- A handler that closes its client does nothing with it any more. -/
theorem unregister (h : Within i s) : Orderly (s.unregister (s.clients i).clientFd) := by
  rcases h.ownedBy.unregister with heq | ⟨-, he⟩
  · rw [heq]
    exact h.orderly
  · exact h.orderly.ends he

/-- `client_read` that reads does nothing with a closed client: where it closes the client it
returns. -/
theorem clientRead (h : Within i s) {r : Option (List UInt8)} (hP : ¬s.ReadFails i r) :
    Orderly (s.clientRead i r) := by
  by_cases hnone : (s.clients i).state = .NO_ORIGIN
  · obtain ⟨s₁, s₂, s₃, hq, hread, hasks, hend⟩ := clientRead_noOrigin hnone r
    obtain rfl : s₂ = s₁ := (hread.resolve_right fun hfails => hP hfails.2).1
    have h₃ : Within i s₃ := (h.quiet hq).asks hasks
    rcases hend with hend | hend
    · rw [hend]
      exact h₃.orderly
    · rw [hend, ← hq.client.clientFd, ← asks_clientFd hasks]
      exact h₃.unregister
  · by_cases hsend : (s.clients i).state = .SEND_REQ
    · rcases clientRead_sendReq hsend r with hasks | ⟨-, s₁, hasks, hrest⟩
      · exact (h.asks hasks).orderly
      · have h₁ := (h.asks hasks).setState fun c => .ofValue c.reqData.state.value
        exact (h₁.quiet hrest).orderly
    · rw [clientRead_otherwise hnone hsend]
      exact h.orderly

/-- `client_write` returns right behind the close. -/
theorem clientWrite (h : Within i s) (r : Option Nat) : Orderly (s.clientWrite i r) := by
  rcases clientWrite_effect s i r with hq | ⟨s₁, hq, -, hend⟩
  · exact (h.quiet hq).orderly
  · rw [hend, ← hq.client.clientFd]
    exact (h.quiet hq).unregister

end Within

/-- Between the statements of a handler of the origin of client `i`. -/
structure Serving (i : ClientId) (s : Proxy) : Prop where
  orderly : Orderly s
  owned : Owned s
  slots : Slots s
  live : s.Live i

namespace Serving

/-- A quiet part of the origin's handler leaves its client open. -/
theorem quiet (h : Serving i s) (hq : Quiet i s s') : Serving i s' :=
  ⟨h.orderly.quiet h.live hq, h.owned.quiet hq, h.slots.quiet hq, h.live.quiet hq⟩

/-- Setting the state of the origin's client leaves it open. -/
theorem setState (h : Serving i s) (g : Client → ClientState) :
    Serving i (s.modify i fun c => { c with state := g c }) :=
  ⟨h.orderly.modify rfl, h.owned.modify rfl rfl, h.slots.modify rfl, h.live⟩

/-- Unregistering the origin leaves its client open. -/
theorem unregister (h : Serving i s) : Serving i (s.unregister (s.clients i).originFd) where
  orderly := h.orderly.unregister_origin h.owned h.slots i
  owned := h.owned.of_unregister_origin h.slots i
  slots := h.slots.closing (closing_unregister s _)
  live := by
    rcases h.owned.unregister_origin h.slots i with heq | ⟨-, -, -, heq⟩
    · rw [heq]
      exact h.live
    · rw [heq]
      exact Live.act (s := s) h.live nofun

end Serving

/-- Every handler that stops at the close keeps the order. -/
theorem call (h : Orderly s) (howned : Owned s) (hslots : Slots s) {c : Call}
    (hreg : s.Registered c) (hos : s.OsCall c) (hstop : s.StopsAtClose c) :
    Orderly (s.call c) := by
  have hclient : ∀ {i fd}, s.sel.handlerAt fd = some (.client i) → Within i s :=
    fun hfd => ⟨h, howned.ownedBy hslots hfd, howned.live_of_slot hfd⟩
  have hserving : ∀ {i fd}, s.sel.handlerAt fd = some (.remote i) → Serving i s :=
    fun hfd => ⟨h, howned, hslots, (h.remote _ _ hfd).1⟩
  cases c with
  | accept o => exact h.accepted o
  | clientRead i r =>
    obtain ⟨fd, hfd⟩ := hreg
    exact (hclient hfd).clientRead hstop
  | clientWrite i r =>
    obtain ⟨fd, hfd⟩ := hreg
    exact (hclient hfd).clientWrite r
  | clientBlock fd i o => exact h.blockEnd howned hslots hreg hos hstop (hslots.clientBlock hreg o)
  | remoteRead i r =>
    obtain ⟨fd, hfd⟩ := hreg
    exact (keeps_remoteRead (fun _ _ h hq => Serving.quiet h hq) (fun _ h => h.unregister)
      (hserving hfd) r).orderly
  | remoteWrite i r =>
    obtain ⟨fd, hfd⟩ := hreg
    exact (keeps_remoteWrite (fun _ _ h hq => Serving.quiet h hq) (fun _ g h => h.setState g)
      (fun _ h => h.unregister) (hserving hfd) r).orderly

/-- The order is preserved by every run whose calls stop at the close. -/
theorem preserved :
    Preserved (fun s c => (s.OsCall c ∧ s.StopsAtClose c) ∧ Slots s ∧ Owned s) Orderly where
  call _ _ h _ hreg hP := h.call hP.2.2 hP.2.1 hreg hP.1.1 hP.1.2
  clock _ _ h := h.same rfl rfl rfl rfl
  resolve s i found h := by
    unfold resolve
    split
    · have hlists : Orderly { s with
          resolving := s.resolving.erase i, notifying := i :: s.notifying } :=
        h.same rfl rfl rfl rfl
      exact hlists.modify rfl
    · exact h
  notify s i h := by
    unfold notify
    split
    · exact h.same rfl rfl rfl rfl
    · exact h
  resumed _ _ _ _ _ _ _ h := h.act nofun nofun
  cleared _ h := h.same rfl rfl rfl rfl
  crashed _ h := h.same rfl rfl rfl rfl

end Orderly

/-- At the start nothing was done with anybody. -/
theorem Started.orderly (h : Started s) : Orderly s where
  remote := h.tended
  used := by
    obtain ⟨conf, registered, others, -, rfl⟩ := h
    exact List.Pairwise.nil

/-- In every run in which the reads of `client_read` succeed and no client is connected while its
origin is registered, nothing is done with a client after its close. -/
theorem used_before_end (hs : Started s) {es : List Event}
    (h : Always (fun s c => s.OsCall c ∧ s.StopsAtClose c) s es) :
    UsedBeforeEnd (s.run es).trace := by
  have hkept := (preserved_owned fun s c (h : s.OsCall c ∧ s.StopsAtClose c) => h.1).and
    Orderly.preserved
  exact (hkept.run ⟨⟨hs.slots, hs.owned⟩, hs.orderly⟩ h).2.used

/-- A client asks for a host that is not found, and is closed. -/
def hostNotFound (i : ClientId) (fd : Int) : List Event :=
  [.accept ⟨some fd, noPipes⟩, .read fd (some (lit "GET / HTTP/1.1\r\nHost: a\r")),
    .resolved i false, .notified i, .notifications [⟨none, .failed⟩]]

theorem used_before_end_hostNotFound :
    UsedBeforeEnd (mainLoop.run (hostNotFound 0 7)).trace :=
  used_before_end started_mainLoop (by decide +kernel)

/-- A client whose connection breaks before it sent its host is parsed after its close. -/
theorem used_after_end :
    Always OsCall mainLoop [.accept ⟨some 7, noPipes⟩, .read 7 none] ∧
      ¬UsedBeforeEnd (mainLoop.run [.accept ⟨some 7, noPipes⟩, .read 7 none]).trace := by
  decide +kernel

end Proxy

end HttpProxy
