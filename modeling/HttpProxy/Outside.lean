import HttpProxy.Asking

/-!
# Everything but one client

Two proxies are the same but for one client (`SameBut`) when they agree on the other clients, on
the slots that are not the client's, and on what the handlers share: the clients made, the
resolutions and their jobs. The counters of the metrics, the open descriptors and the trace may
differ, and no handler of another client asks for more of these than whether its own descriptors
are open.
-/

namespace HttpProxy

namespace Proxy

variable {s s' s'' : Proxy} {i j : ClientId}

/-- The slot of a descriptor is empty or client `i`'s. -/
def Mine (s : Proxy) (i : ClientId) (fd : Int) : Prop :=
  s.sel.handlerAt fd = none ∨ s.sel.handlerAt fd = some (.client i) ∨
    s.sel.handlerAt fd = some (.remote i)

/-- Two proxies differ in nothing but client `i`. -/
structure SameBut (i : ClientId) (s s' : Proxy) : Prop where
  status : s'.status = s.status
  config : s'.config = s.config
  made : s'.made = s.made
  resolving : s'.resolving = s.resolving
  notifying : s'.notifying = s.notifying
  jobs : s'.jobs = s.jobs
  now : s'.now = s.now
  others : ∀ j, j ≠ i → s'.clients j = s.clients j
  clientFd : (s'.clients i).clientFd = (s.clients i).clientFd
  slots : ∀ fd, s'.sel.fds fd = s.sel.fds fd ∨ s.Mine i fd ∧ s'.Mine i fd
  live : ∀ j, j ≠ i → (s'.Live j ↔ s.Live j)

/-- What is registered in a slot is read off the slot. -/
theorem handlerAt_of_fds {fd : Int} (h : s'.sel.fds fd = s.sel.fds fd) :
    s'.sel.handlerAt fd = s.sel.handlerAt fd := by
  unfold Selector.handlerAt
  rw [h]

/-- A slot with the same handlers is still empty or the client's. -/
theorem Mine.of_handlerAt {fd : Int} (h : s.Mine i fd)
    (heq : s'.sel.handlerAt fd = s.sel.handlerAt fd) : s'.Mine i fd := by
  unfold Mine
  rw [heq]
  exact h

/-- A slot of other handlers is not the client's. -/
theorem not_mine {fd : Int} {h : Handlers} (hslot : s.sel.handlerAt fd = some h)
    (hc : h ≠ .client i) (hr : h ≠ .remote i) : ¬s.Mine i fd := by
  rintro (hm | hm | hm)
  · exact absurd (hslot.symm.trans hm) (Option.some_ne_none _)
  · exact hc (Option.some.inj (hslot.symm.trans hm))
  · exact hr (Option.some.inj (hslot.symm.trans hm))

/-- A client is closed by no action but its own end. -/
theorem live_act {a : Action} :
    (s.act a).Live j ↔ s.Live j ∧ ∀ seconds, a ≠ .ended j seconds := by
  unfold Live act
  simp only [List.mem_cons, not_or, forall_and, ne_eq, eq_comm (a := a)]
  tauto

namespace SameBut

theorem refl (i : ClientId) (s : Proxy) : SameBut i s s where
  status := rfl
  config := rfl
  made := rfl
  resolving := rfl
  notifying := rfl
  jobs := rfl
  now := rfl
  others _ _ := rfl
  clientFd := rfl
  slots _ := .inl rfl
  live _ _ := Iff.rfl

theorem symm (h : SameBut i s s') : SameBut i s' s where
  status := h.status.symm
  config := h.config.symm
  made := h.made.symm
  resolving := h.resolving.symm
  notifying := h.notifying.symm
  jobs := h.jobs.symm
  now := h.now.symm
  others j hj := (h.others j hj).symm
  clientFd := h.clientFd.symm
  slots fd := (h.slots fd).imp Eq.symm And.symm
  live j hj := (h.live j hj).symm

/-- Proxies that differ in nothing but one client are transitive in this. -/
theorem trans (h : SameBut i s s') (h' : SameBut i s' s'') : SameBut i s s'' where
  status := h'.status.trans h.status
  config := h'.config.trans h.config
  made := h'.made.trans h.made
  resolving := h'.resolving.trans h.resolving
  notifying := h'.notifying.trans h.notifying
  jobs := h'.jobs.trans h.jobs
  now := h'.now.trans h.now
  others j hj := (h'.others j hj).trans (h.others j hj)
  clientFd := h'.clientFd.trans h.clientFd
  slots fd := by
    rcases h.slots fd with heq | ⟨hmine, hmine'⟩
    · rcases h'.slots fd with heq' | ⟨hmine, hmine'⟩
      · exact .inl (heq'.trans heq)
      · exact .inr ⟨hmine.of_handlerAt (handlerAt_of_fds heq.symm), hmine'⟩
    · rcases h'.slots fd with heq' | ⟨-, hmine''⟩
      · exact .inr ⟨hmine, hmine'.of_handlerAt (handlerAt_of_fds heq')⟩
      · exact .inr ⟨hmine, hmine''⟩
  live j hj := (h'.live j hj).trans (h.live j hj)

/-- A slot of another than the client is the same. -/
theorem slot_eq (h : SameBut i s s') {fd : Int} (hmine : ¬s.Mine i fd) :
    s'.sel.fds fd = s.sel.fds fd := (h.slots fd).resolve_right fun hm => hmine hm.1

/-- A slot that holds `x` or nothing in both. -/
theorem slot_eq_of (h : SameBut i s s') {fd : Int} {x : Handlers} (hc : x ≠ .client i)
    (hr : x ≠ .remote i) (hs : s.sel.handlerAt fd = none ∨ s.sel.handlerAt fd = some x)
    (hs' : s'.sel.handlerAt fd = none ∨ s'.sel.handlerAt fd = some x) :
    s'.sel.fds fd = s.sel.fds fd := by
  rcases h.slots fd with heq | ⟨hm, hm'⟩
  · exact heq
  · rcases hs with hs | hs
    · rcases hs' with hs' | hs'
      · rw [fds_of_handlerAt hs, fds_of_handlerAt hs']
      · exact absurd hm' (not_mine hs' hc hr)
    · exact absurd hm (not_mine hs hc hr)

/-- An action that closes no client, in one of the two. -/
theorem acted (h : SameBut i s s') {a : Action} (ha : ∀ j seconds, a ≠ .ended j seconds) :
    SameBut i s (s'.act a) :=
  h.trans { refl i s' with live := fun j _ => live_act.trans (and_iff_left (ha j)) }

/-! ## What is done in both -/

/-- The same action on both. -/
theorem act (h : SameBut i s s') (a : Action) : SameBut i (s.act a) (s'.act a) :=
  { h with
    live := fun j hj => live_act.trans ((and_congr_left' (h.live j hj)).trans live_act.symm) }

theorem use (h : SameBut i s s') (j : ClientId) : SameBut i (s.use j) (s'.use j) := h.act _

/-- The same change of another client on both. -/
theorem modify (h : SameBut i s s') (hj : j ≠ i) (f : Client → Client) :
    SameBut i (s.modify j f) (s'.modify j f) :=
  { h with
    others := by
      intro k hk
      by_cases hkj : k = j
      · subst hkj
        rw [clients_modify_self, clients_modify_self, h.others k hk]
      · rw [clients_modify_of_ne s f hkj, clients_modify_of_ne s' f hkj, h.others k hk]
    clientFd := by
      rw [clients_modify_of_ne s f hj.symm, clients_modify_of_ne s' f hj.symm]
      exact h.clientFd }

/-- The same work on another client's buffers on both. -/
theorem onBuffers (h : SameBut i s s') (hj : j ≠ i) (f : Client → Client) :
    SameBut i (s.onBuffers j f) (s'.onBuffers j f) := (h.use j).modify hj f

theorem count (h : SameBut i s s') (n : Nat) : SameBut i (s.count n) (s'.count n) := { h with }

/-- Ending the process on both. -/
theorem stop (h : SameBut i s s') (status : Status) :
    SameBut i (s.stop status) (s'.stop status) := { h with status := rfl }

/-- The same is done to one slot in both, which the client has in both or which is the same. -/
theorem select (h : SameBut i s s') (fd : Int) {sel sel' : Selector Handlers}
    (hself : sel'.fds fd = sel.fds fd ∨
      Mine { s with sel := sel } i fd ∧ Mine { s' with sel := sel' } i fd)
    (hrest : ∀ fd', fd' ≠ fd → sel.fds fd' = s.sel.fds fd')
    (hrest' : ∀ fd', fd' ≠ fd → sel'.fds fd' = s'.sel.fds fd') :
    SameBut i { s with sel := sel } { s' with sel := sel' } :=
  { h with
    slots := by
      intro fd'
      by_cases hfd : fd' = fd
      · subst hfd
        exact hself
      · rcases h.slots fd' with heq | ⟨hm, hm'⟩
        · exact .inl (by rw [hrest' fd' hfd, hrest fd' hfd, heq])
        · exact .inr ⟨hm.of_handlerAt (handlerAt_of_fds (hrest fd' hfd)),
            hm'.of_handlerAt (handlerAt_of_fds (hrest' fd' hfd))⟩ }

/-- The same interest asked for on both. Where the slot differs it is the client's on both, and stays
so. -/
theorem setInterest (h : SameBut i s s') (fd : Int) (x : FdInterest) :
    SameBut i (s.setInterest fd x) (s'.setInterest fd x) := by
  refine h.select fd ?_ (fun _ hfd => Selector.fds_setInterest s.sel x hfd)
    fun _ hfd => Selector.fds_setInterest s'.sel x hfd
  rcases h.slots fd with heq | ⟨hm, hm'⟩
  · exact .inl (Selector.setInterest_congr heq x).2
  · refine .inr ⟨hm.of_handlerAt ?_, hm'.of_handlerAt ?_⟩
    · exact congrFun (Selector.handlerAt_setInterest s.sel fd x) fd
    · exact congrFun (Selector.handlerAt_setInterest s'.sel fd x) fd

/-- The descriptors opened may differ, so opening one is nothing to compare. -/
theorem openFd (h : SameBut i s s') (j : ClientId) (fd : Int) :
    SameBut i (s.openFd j fd) (s'.openFd j fd) := by
  have hopen : SameBut i { s with fds := fd :: s.fds } { s' with fds := fd :: s'.fds } :=
    { h with }
  exact hopen.act _

/-- The descriptors closed may differ, so closing one is nothing to compare. -/
theorem closeFd (h : SameBut i s s') (j : ClientId) (fd : Int) :
    SameBut i (s.closeFd j fd) (s'.closeFd j fd) := by
  have hclosed : SameBut i { s with fds := s.fds.filter (· ≠ fd) }
      { s' with fds := s'.fds.filter (· ≠ fd) } := { h with }
  exact hclosed.act _

/-- The same host given to another client on both. -/
theorem setHost (h : SameBut i s s') (hj : j ≠ i) (host : List UInt8) (port : Int) :
    SameBut i (s.clientSetHost j host port) (s'.clientSetHost j host port) := by
  have hset := (h.use j).modify hj fun _ => ((s.clients j).setHost host port).2
  unfold clientSetHost
  simp only [h.others j hj]
  split
  · have hlist : SameBut i
        { (s.use j).modify j (fun _ => ((s.clients j).setHost host port).2) with
          resolving := j :: (s.use j).resolving }
        { (s'.use j).modify j (fun _ => ((s.clients j).setHost host port).2) with
          resolving := j :: (s'.use j).resolving } :=
      { hset with resolving := congrArg (List.cons j) h.resolving }
    exact hlist.act _
  · exact hset

/-- The same read of another client on both. -/
theorem receive (h : SameBut i s s') (hj : j ≠ i) (r : Option (List UInt8)) :
    SameBut i (s.receive j r) (s'.receive j r) := by
  cases r with
  | none => exact h.use j
  | some bytes => exact (h.onBuffers hj _).act _

/-- Another client's request is parsed alike on both. -/
theorem parseRequest (h : SameBut i s s') (hj : j ≠ i) :
    SameBut i (s.parseRequest j) (s'.parseRequest j) := by
  unfold Proxy.parseRequest
  simp only [h.others j hj]
  split
  · exact (h.use j).stop _
  · next r hr =>
    refine SameBut.modify ?_ hj _
    have hparsed := h.onBuffers hj fun c =>
      { c with reqData := r.rData, preReqParseBuf := r.bIn, postReqParseBuf := r.bOut }
    -- The calls of the host's callback are the same in both.
    generalize s.onBuffers j _ = t at hparsed ⊢
    generalize s'.onBuffers j _ = t' at hparsed ⊢
    induction r.calls generalizing t t' with
    | nil => exact hparsed
    | cons call calls ih => exact ih _ _ (hparsed.setHost hj call.1 call.2)

/-- Another client's buffer is emptied alike on both. -/
theorem drainRequest (h : SameBut i s s') (hj : j ≠ i) :
    SameBut i (s.drainRequest j) (s'.drainRequest j) := h.onBuffers hj _

/-- The interests behind another client's response are the same on both. -/
theorem responseInterests (h : SameBut i s s') (hj : j ≠ i) :
    SameBut i (s.responseInterests j) (s'.responseInterests j) := by
  have hset : SameBut i
      (if (s.clients j).shouldTransform = true ∧ bufferCanRead (s.clients j).preTransfBuf = true
        then s.setInterest (s.clients j).transfInFd OP_WRITE else s)
      (if (s.clients j).shouldTransform = true ∧ bufferCanRead (s.clients j).preTransfBuf = true
        then s'.setInterest (s.clients j).transfInFd OP_WRITE else s') := by
    split
    · exact h.setInterest _ _
    · exact h
  unfold Proxy.responseInterests
  simp only [h.others j hj]
  split
  · exact hset.setInterest _ _
  · exact hset

/-! ## Descriptors -/

/-- A `read` depends on the descriptor's being open, and on nothing else of the proxy. -/
theorem sysRead_eq {fd : Int} (h : fd ∈ s'.fds ↔ fd ∈ s.fds) (r : Option (List UInt8))
    (space : Nat) : s'.sysRead fd r space = s.sysRead fd r space := by
  unfold sysRead
  simp only [h]

/-- A `write` depends on the descriptor's being open, and on nothing else of the proxy. -/
theorem sysWrite_eq {fd : Int} (h : fd ∈ s'.fds ↔ fd ∈ s.fds) (r : Option Nat)
    (bytes : List UInt8) : s'.sysWrite fd r bytes = s.sysWrite fd r bytes := by
  unfold sysWrite
  simp only [h]

/-- Whether the descriptors of a live client are open is the same in both. -/
theorem clientFd_open (h : SameBut i s s') (hj : j ≠ i) (ho : Owned s) (ho' : Owned s')
    (hlive : s.Live j) : (s.clients j).clientFd ∈ s'.fds ↔ (s.clients j).clientFd ∈ s.fds := by
  refine iff_of_true ?_ (ho.opened (.client j) _ ⟨hlive, rfl⟩)
  exact ho'.opened (.client j) _ ⟨(h.live j hj).mpr hlive, by rw [h.others j hj]⟩

/-- Another client's origin is open on both or on neither, for both own it. -/
theorem originFd_open (h : SameBut i s s') (hj : j ≠ i) (ho : Owned s) (ho' : Owned s')
    (hlive : s.Live j) : (s.clients j).originFd ∈ s'.fds ↔ (s.clients j).originFd ∈ s.fds := by
  by_cases hnone : (s.clients j).originFd = -1
  · have hshut : ∀ {t : Proxy}, Owned t → (-1 : Int) ∉ t.fds :=
      fun ht hmem => absurd (ht.nonneg _ hmem) (by decide)
    rw [hnone]
    exact iff_of_false (hshut ho') (hshut ho)
  · refine iff_of_true ?_ (ho.opened (.remote j) _ ⟨hlive, rfl, hnone⟩)
    exact ho'.opened (.remote j) _ ⟨(h.live j hj).mpr hlive, by rw [h.others j hj], hnone⟩

/-- What ends another client ends it on both. -/
theorem ends (h : SameBut i s s') (hj : j ≠ i) {t t' : Proxy} (he : Ends j s t)
    (he' : Ends j s' t') : SameBut i t t' where
  status := he'.closing.status.trans (h.status.trans he.closing.status.symm)
  config := he'.closing.config.trans (h.config.trans he.closing.config.symm)
  made := he'.closing.made.trans (h.made.trans he.closing.made.symm)
  resolving := he'.closing.resolving.trans (h.resolving.trans he.closing.resolving.symm)
  notifying := he'.closing.notifying.trans (h.notifying.trans he.closing.notifying.symm)
  jobs := he'.closing.jobs.trans (h.jobs.trans he.closing.jobs.symm)
  now := he'.closing.now.trans (h.now.trans he.closing.now.symm)
  others k hk := by
    by_cases hkj : k = j
    · subst hkj
      rw [he'.closing.clients k, he.closing.clients k, he'.origin, he.origin, h.others k hk]
    · rw [he'.others k hkj, he.others k hkj, h.others k hk]
  clientFd := by
    rw [he'.others i hj.symm, he.others i hj.symm]
    exact h.clientFd
  slots fd := by
    rw [he'.slots fd, he.slots fd, h.others j hj]
    split
    · exact .inl rfl
    · next hfd =>
      refine (h.slots fd).imp id fun hm => ⟨hm.1.of_handlerAt ?_, hm.2.of_handlerAt ?_⟩
      · rw [he.handlerAt, if_neg hfd]
      · rw [he'.handlerAt, h.others j hj, if_neg hfd]
  live k hk := by
    rw [he'.live k, he.live k, h.live k hk]

/-- Unregistering another client's descriptor closes that client on both. -/
theorem unregister_client (h : SameBut i s s') (hj : j ≠ i) (ho : OwnedBy j s)
    (ho' : OwnedBy j s') :
    SameBut i (s.unregister (s.clients j).clientFd) (s'.unregister (s.clients j).clientFd) := by
  have hslot' := ho'.slot
  rw [h.others j hj] at hslot'
  have heq := handlerAt_of_fds (h.slot_eq_of (x := .client j)
    (fun heq => hj (Handlers.client.inj heq)) nofun ho.slot hslot')
  rcases ho.slot with hnone | hsome
  · rw [unregister_of_none hnone, unregister_of_none (heq.trans hnone)]
    exact h
  · have hends := ho'.owned.ends (i := j) ho'.slots (by rw [h.others j hj, heq, hsome])
    rw [h.others j hj] at hends
    exact h.ends hj (ho.owned.ends ho.slots hsome) hends

/-- Unregistering another client's origin takes it away on both. -/
theorem unregister_origin (h : SameBut i s s') (hj : j ≠ i) (ho : Owned s) (hs : Slots s)
    (ho' : Owned s') :
    SameBut i (s.unregister (s.clients j).originFd) (s'.unregister (s.clients j).originFd) := by
  have hslot := (ho.slot_origin j).imp id And.left
  have hslot' := (ho'.slot_origin j).imp id And.left
  rw [h.others j hj] at hslot'
  have heq := handlerAt_of_fds (h.slot_eq_of (x := .remote j) nofun
    (fun heq => hj (Handlers.remote.inj heq)) hslot hslot')
  rcases hslot with hnone | hsome
  · rw [unregister_of_none hnone, unregister_of_none (heq.trans hnone)]
    exact h
  · have hv : invalidFd (s.clients j).originFd = false :=
      hs.valid _ (by rw [hsome]; exact Option.some_ne_none _)
    rw [unregister_of_remote hv hsome, unregister_of_remote hv (heq.trans hsome)]
    have hclose := (h.closeFd j (s.clients j).originFd).modify hj fun c => { c with originFd := -1 }
    have hclose' : SameBut i (s.remoteClose j) (s'.remoteClose j) := by
      unfold remoteClose
      rw [h.others j hj]
      exact hclose
    refine hclose'.select (s.clients j).originFd (.inl ?_) ?_ ?_
    · simp only [Selector.fds_clear, Function.update_self]
    · exact fun fd' hfd => Function.update_of_ne hfd _ _
    · exact fun fd' hfd => Function.update_of_ne hfd _ _

/-- A descriptor that the system returned has no slot in either. -/
theorem free_slot (ho : Owned s) {fd : Int} (hfd : fd ∉ s.fds) : s.sel.handlerAt fd = none := by
  by_contra hslot
  exact hfd (ho.slot_open hslot)

/-- Registering a descriptor with an empty slot fills it alike on both. -/
theorem register (h : SameBut i s s') {fd : Int} (hs : s.sel.handlerAt fd = none)
    (hs' : s'.sel.handlerAt fd = none) (handlers : Handlers) (x : FdInterest) :
    SameBut i { s with sel := (s.sel.register fd handlers x).2 }
      { s' with sel := (s'.sel.register fd handlers x).2 } := by
  have heq : s'.sel.fds fd = s.sel.fds fd := by
    rw [fds_of_handlerAt hs, fds_of_handlerAt hs']
  exact h.select fd (.inl (Selector.register_congr heq handlers x).2)
    (fun _ hfd => Selector.fds_register s.sel handlers x hfd)
    fun _ hfd => Selector.fds_register s'.sel handlers x hfd

/-! ## The resolutions -/

/-- Client `i` itself may change in any way but its descriptor. -/
theorem modify_self (h : SameBut i s s') {f : Client → Client}
    (hf : ∀ c, (f c).clientFd = c.clientFd) : SameBut i (s.modify i f) (s'.modify i f) :=
  { h with
    others := by
      intro k hk
      rw [clients_modify_of_ne s f hk, clients_modify_of_ne s' f hk, h.others k hk]
    clientFd := by
      rw [clients_modify_self, clients_modify_self, hf, hf, h.clientFd] }

/-- A resolver's thread ends alike on both, be it the client's own. -/
theorem resolve (h : SameBut i s s') (k : ClientId) (found : Bool) :
    SameBut i (s.resolve k found) (s'.resolve k found) := by
  unfold Proxy.resolve
  rw [h.resolving, h.notifying]
  split
  · have hlists : SameBut i
        { s with resolving := s.resolving.erase k, notifying := k :: s.notifying }
        { s' with resolving := s.resolving.erase k, notifying := k :: s.notifying } :=
      { h with resolving := rfl, notifying := rfl }
    by_cases hk : k = i
    · subst hk
      exact hlists.modify_self fun _ => rfl
    · exact hlists.modify hk _
  · exact h

/-- A resolver's thread notifies alike on both. -/
theorem notify (h : SameBut i s s') (k : ClientId) : SameBut i (s.notify k) (s'.notify k) := by
  have hfd : (s'.clients k).clientFd = (s.clients k).clientFd := by
    by_cases hk : k = i
    · exact hk ▸ h.clientFd
    · rw [h.others k hk]
  unfold Proxy.notify
  rw [h.notifying, h.jobs, hfd]
  split
  · exact { h with notifying := rfl, jobs := rfl }
  · exact h

/-! ## The handlers of the others -/

/-- A new client is the same on both: it is numbered by `made`, which agrees. -/
theorem accept (h : SameBut i s s') (hi : i < s.made) (ho : Owned s) (ho' : Owned s')
    {o : AcceptCalls} (hos : s.OsCall (.accept o)) (hos' : s'.OsCall (.accept o)) :
    SameBut i (s.listenReadHandler o) (s'.listenReadHandler o) := by
  cases hfd : o.accept with
  | none =>
    unfold listenReadHandler
    rw [hfd]
    exact h
  | some fd =>
    have ha := accepts_listenReadHandler (s := s) hfd
    have ha' := accepts_listenReadHandler (s := s') hfd
    have hclosed := ((hos fd hfd).2 fd List.mem_cons_self).2
    have hclosed' := ((hos' fd hfd).2 fd List.mem_cons_self).2
    have hsel := (h.register (free_slot ho hclosed) (free_slot ho' hclosed') (.client s.made)
      OP_READ).slots
    -- The new client depends on the configuration and the clock alone.
    have hnew : (s'.listenReadHandler o).clients s.made = (s.listenReadHandler o).clients s.made := by
      rw [listenReadHandler_some hfd rfl, listenReadHandler_some hfd rfl, h.made]
      change (Function.update _ _ _ : ClientId → Client) s.made =
        (Function.update _ _ _ : ClientId → Client) s.made
      have hframe := (piped_transformationsNew (s.openFd s.made fd) s.made o.transf).frame
      have hframe' := (piped_transformationsNew (s'.openFd s.made fd) s.made o.transf).frame
      have hconfig : (s'.openFd s.made fd).config = (s.openFd s.made fd).config := h.config
      have hends := transformationsNew_ends hconfig s.made o.transf
      rw [Function.update_self, Function.update_self, hends, hframe, hframe']
      simp only [Proxy.openFd, Proxy.act, h.config, h.now]
    constructor
    case status => rw [ha'.status, ha.status, h.status]
    case config => rw [ha'.config, ha.config, h.config]
    case made => rw [ha'.made, ha.made, h.made]
    case resolving => rw [ha'.resolving, ha.resolving, h.resolving]
    case notifying => rw [ha'.notifying, ha.notifying, h.notifying]
    case jobs => rw [ha'.jobs, ha.jobs, h.jobs]
    case now => rw [ha'.now, ha.now, h.now]
    case others =>
      intro j hj
      by_cases hjm : j = s.made
      · rw [hjm, hnew]
      · rw [ha'.others j (h.made.symm ▸ hjm), ha.others j hjm, h.others j hj]
    case clientFd =>
      have hne := Nat.ne_of_lt hi
      rw [ha'.others i (h.made.symm ▸ hne), ha.others i hne, h.clientFd]
    case slots =>
      intro fd'
      have hslot := hsel fd'
      unfold Mine at hslot ⊢
      rw [ha.sel, ha'.sel, h.made]
      exact hslot
    case live =>
      intro j hj
      rw [ho'.live_accepts ha', ho.live_accepts ha, h.live j hj, h.made]

/-- `client_block` in the branch that registers the origin. -/
theorem clientBlock_inProgress {o : BlockCalls} {x : Int}
    (hres : (s.clients j).host.resolved = true) (hs : o.socket = some x)
    (hc : o.connect = .inProgress) (fd : Int) :
    s.clientBlock fd j o =
      if (s.sel.setInterest fd OP_NOOP).1 ≠ .SELECTOR_SUCCESS then
        ((s.connecting j x).setInterest fd OP_NOOP).stop (.exited 13)
      else if ((s.sel.setInterest fd OP_NOOP).2.register x (.remote j) OP_WRITE).1 ≠
          .SELECTOR_SUCCESS then
        Proxy.stop { s.connecting j x with
          sel := ((s.sel.setInterest fd OP_NOOP).2.register x (.remote j) OP_WRITE).2 } (.exited 13)
      else
        { s.connecting j x with
          sel := ((s.sel.setInterest fd OP_NOOP).2.register x (.remote j) OP_WRITE).2 } := by
  unfold Proxy.clientBlock
  simp only [hres, hs, hc, Bool.true_eq_false, if_false]
  rfl

/-- `client_block` of another client connects alike on both. -/
theorem clientBlock (h : SameBut i s s') (hj : j ≠ i) {fd : Int}
    (hfd : s.sel.handlerAt fd = some (.client j)) (ho : OwnedBy j s) (ho' : OwnedBy j s')
    {o : BlockCalls} (hos : s.OsCall (.clientBlock fd j o))
    (hos' : s'.OsCall (.clientBlock fd j o)) :
    SameBut i (s.clientBlock fd j o) (s'.clientBlock fd j o) := by
  by_cases hwaits : (s.clients j).host.resolved = true ∧ (∃ x, o.socket = some x) ∧
      o.connect = .inProgress
  · obtain ⟨hres, ⟨x, hx⟩, hc⟩ := hwaits
    have hconn : SameBut i (s.connecting j x) (s'.connecting j x) := (h.openFd j x).modify hj _
    have hwait := hconn.setInterest fd OP_NOOP
    have hfree : ((s.connecting j x).setInterest fd OP_NOOP).sel.handlerAt x = none :=
      (congrFun (Selector.handlerAt_setInterest s.sel fd OP_NOOP) x).trans
        (free_slot ho.owned (hos x hx).2)
    have hfree' : ((s'.connecting j x).setInterest fd OP_NOOP).sel.handlerAt x = none :=
      (congrFun (Selector.handlerAt_setInterest s'.sel fd OP_NOOP) x).trans
        (free_slot ho'.owned (hos' x hx).2)
    have hset := (Selector.setInterest_congr (h.slot_eq (not_mine (i := i) hfd
      (fun heq => hj (Handlers.client.inj heq)) nofun)) OP_NOOP).1
    have hempty : (s'.sel.setInterest fd OP_NOOP).2.fds x =
        (s.sel.setInterest fd OP_NOOP).2.fds x :=
      (fds_of_handlerAt hfree').trans (fds_of_handlerAt hfree).symm
    have hreg := (Selector.register_congr hempty (Handlers.remote j) OP_WRITE).1
    have hboth := hwait.register hfree hfree' (.remote j) OP_WRITE
    rw [clientBlock_inProgress hres hx hc, clientBlock_inProgress (by rwa [h.others j hj]) hx hc,
      hset, hreg]
    split
    · exact hwait.stop _
    · split
      · exact hboth.stop _
      · exact hboth
  · unfold Proxy.clientBlock
    simp only [h.others j hj]
    split
    · exact h.unregister_client hj ho ho'
    · next hres =>
      cases hsocket : o.socket with
      | none => exact h.modify hj _
      | some x =>
        have hconn : SameBut i (s.connecting j x) (s'.connecting j x) := (h.openFd j x).modify hj _
        cases hc : o.connect with
        | success => exact hconn
        | failed => exact hconn
        | inProgress => exact absurd ⟨Bool.not_eq_false _ ▸ hres, ⟨x, hsocket⟩, hc⟩ hwaits

end SameBut

/-- Between the statements of a handler of client `j`, whose descriptor is `fd`, in both. -/
structure Both (i j : ClientId) (fd : Int) (s s' : Proxy) : Prop where
  same : SameBut i s s'
  ownedBy : OwnedBy j s
  ownedBy' : OwnedBy j s'
  own : (s.clients j).clientFd = fd

namespace Both

variable {fd : Int} {t t' : Proxy}

/-- Quiet parts on both, that are the same but for the client, keep what the handlers need. -/
theorem quiet (h : Both i j fd s s') (hq : Quiet j s t) (hq' : Quiet j s' t')
    (hsame : SameBut i t t') : Both i j fd t t' :=
  ⟨hsame, h.ownedBy.quiet hq, h.ownedBy'.quiet hq', hq.client.clientFd.trans h.own⟩

/-- The calls that may announce a host, on both. -/
theorem asks (h : Both i j fd s s') (ha : Asks j s t) (ha' : Asks j s' t')
    (hsame : SameBut i t t') : Both i j fd t t' where
  same := hsame
  ownedBy := keeps_asks (fun _ _ h hq => OwnedBy.quiet h hq)
    (fun _ host port h => h.setHost host port) h.ownedBy ha
  ownedBy' := keeps_asks (fun _ _ h hq => OwnedBy.quiet h hq)
    (fun _ host port h => h.setHost host port) h.ownedBy' ha'
  own := (asks_clientFd ha).trans h.own

theorem use (h : Both i j fd s s') : Both i j fd (s.use j) (s'.use j) :=
  h.quiet (Quiet.refl j s).use (Quiet.refl j s').use (h.same.use j)

/-- A read of the handler's own client, on both. -/
theorem receive (h : Both i j fd s s') (hj : j ≠ i) (r : Option (List UInt8)) :
    Both i j fd (s.receive j r) (s'.receive j r) :=
  h.quiet ((Quiet.refl j s).receive r) ((Quiet.refl j s').receive r) (h.same.receive hj r)

theorem parseRequest (h : Both i j fd s s') (hj : j ≠ i) :
    Both i j fd (s.parseRequest j) (s'.parseRequest j) :=
  h.asks (asks_parseRequest s j) (asks_parseRequest s' j) (h.same.parseRequest hj)

/-- Unregistering the handler's own descriptor, on both. -/
theorem unregister (h : Both i j fd s s') (hj : j ≠ i) :
    Both i j fd (s.unregister fd) (s'.unregister fd) := by
  have hclose := h.same.unregister_client hj h.ownedBy h.ownedBy'
  have hown := h.ownedBy.of_unregister
  have hown' := h.ownedBy'.of_unregister
  rw [h.own] at hclose hown
  rw [h.same.others j hj, h.own] at hown'
  exact ⟨hclose, hown, hown', ((closing_unregister s fd).clientFd j).trans h.own⟩

/-- `client_read` of another client does the same on both. -/
theorem clientRead (h : Both i j fd s s') (hj : j ≠ i) (hlive : s.Live j)
    (r : Option (List UInt8)) : SameBut i (s.clientRead j r) (s'.clientRead j r) := by
  have hopen := h.same.clientFd_open hj h.ownedBy.owned h.ownedBy'.owned hlive
  rw [h.own] at hopen
  have hread : ∀ space, (s'.use j).sysRead fd r space = (s.use j).sysRead fd r space :=
    fun space => SameBut.sysRead_eq hopen r space
  unfold Proxy.clientRead
  simp only [h.same.others j hj, hread, h.own]
  split
  · split
    · generalize (s.use j).sysRead fd r _ = readBytes
      -- The two runs take the same branch after each handler, for the client's own fields agree.
      have hclosed : Both i j fd (if readBytes = none then (s.use j).unregister fd else s.use j)
          (if readBytes = none then (s'.use j).unregister fd else s'.use j) := by
        split
        · exact h.use.unregister hj
        · exact h.use
      have hreceived := hclosed.receive hj readBytes
      generalize hp : (s.clients j).reqData.parserState = p
      have hparsed : Both i j fd
          (if p ≠ .FINISHED then ((if readBytes = none then (s.use j).unregister fd
              else s.use j).receive j readBytes).parseRequest j
            else (if readBytes = none then (s.use j).unregister fd
              else s.use j).receive j readBytes)
          (if p ≠ .FINISHED then ((if readBytes = none then (s'.use j).unregister fd
              else s'.use j).receive j readBytes).parseRequest j
            else (if readBytes = none then (s'.use j).unregister fd
              else s'.use j).receive j readBytes) := by
        split
        · exact hreceived.parseRequest hj
        · exact hreceived
      generalize (if p ≠ .FINISHED then ((if readBytes = none then (s.use j).unregister fd
        else s.use j).receive j readBytes).parseRequest j else _) = t at hparsed ⊢
      generalize (if p ≠ .FINISHED then ((if readBytes = none then (s'.use j).unregister fd
        else s'.use j).receive j readBytes).parseRequest j else _) = t' at hparsed ⊢
      rw [hparsed.same.status, hparsed.same.others j hj]
      split
      · exact hparsed.same
      · split
        · exact (hparsed.unregister hj).same
        · exact hparsed.same.drainRequest hj
    · exact h.use.same.setInterest _ _
  · split
    · have hparsed := (h.use.receive hj ((s.use j).sysRead fd r
        (bufferWriteSpace (s.clients j).preReqParseBuf))).parseRequest hj
      generalize (((s.use j).receive j _).parseRequest j) = t at hparsed ⊢
      generalize (((s'.use j).receive j _).parseRequest j) = t' at hparsed ⊢
      rw [hparsed.same.status]
      split
      · exact hparsed.same
      · have hset := (hparsed.same.drainRequest hj).modify hj fun c =>
          { c with state := .ofValue c.reqData.state.value }
        rw [hset.others j hj]
        exact hset.setInterest _ _
    · exact h.use.same.setInterest _ _
  · exact h.same

/-- `client_write` of another client does the same on both. -/
theorem clientWrite (h : Both i j fd s s') (hj : j ≠ i) (hlive : s.Live j) (r : Option Nat) :
    SameBut i (s.clientWrite j r) (s'.clientWrite j r) := by
  have hopen := h.same.clientFd_open hj h.ownedBy.owned h.ownedBy'.owned hlive
  rw [h.own] at hopen
  have hwrite : ∀ bytes, (s'.use j).sysWrite fd r bytes = (s.use j).sysWrite fd r bytes :=
    fun bytes => SameBut.sysWrite_eq hopen r bytes
  unfold Proxy.clientWrite
  simp only [h.same.others j hj, hwrite, h.own]
  split
  · split
    · split
      · exact (h.use.unregister hj).same
      · exact (((h.use.same.count _).onBuffers hj _).act _).setInterest _ _
    · split
      · exact (h.use.unregister hj).same
      · split
        · exact (h.use.unregister hj).same
        · exact h.use.same
  · exact h.same

end Both

/-- Between the statements of a handler of the origin of client `j` in both. -/
structure Served (i j : ClientId) (s s' : Proxy) : Prop where
  same : SameBut i s s'
  owned : Owned s
  owned' : Owned s'
  slots : Slots s

namespace Served

variable {t t' : Proxy}

/-- Quiet parts on both keep what the origin's handlers need. -/
theorem quiet (h : Served i j s s') (hq : Quiet j s t) (hq' : Quiet j s' t')
    (hsame : SameBut i t t') : Served i j t t' :=
  ⟨hsame, h.owned.quiet hq, h.owned'.quiet hq', h.slots.quiet hq⟩

theorem use (h : Served i j s s') : Served i j (s.use j) (s'.use j) :=
  h.quiet (Quiet.refl j s).use (Quiet.refl j s').use (h.same.use j)

/-- Work on the buffers of the handler's own client, on both. -/
theorem onBuffers (h : Served i j s s') (hj : j ≠ i) {f : Client → Client}
    (hf : ∀ c, Client.Same c (f c)) : Served i j (s.onBuffers j f) (s'.onBuffers j f) :=
  h.quiet ((Quiet.refl j s).onBuffers hf) ((Quiet.refl j s').onBuffers hf) (h.same.onBuffers hj f)

theorem setInterest (h : Served i j s s') (hj : j ≠ i) (x : FdInterest) :
    Served i j (s.setInterest (s.clients j).clientFd x)
      (s'.setInterest (s.clients j).clientFd x) := by
  refine h.quiet ((Quiet.refl j s).setInterest fun _ => .inl rfl)
    ((Quiet.refl j s').setInterest fun _ => .inl ?_) (h.same.setInterest _ x)
  rw [h.same.others j hj]

/-- Unregistering the handler's own origin, on both. -/
theorem unregister (h : Served i j s s') (hj : j ≠ i) :
    SameBut i (s.unregister (s.clients j).originFd) (s'.unregister (s.clients j).originFd) :=
  h.same.unregister_origin hj h.owned h.slots h.owned'

/-- Another client's response is parsed alike on both. -/
theorem parseResponse (h : Served i j s s') (hj : j ≠ i) (bytes : List UInt8) :
    SameBut i (s.parseResponse j bytes) (s'.parseResponse j bytes) := by
  have hread := h.onBuffers hj (f := fun c =>
    { c with preResParseBuf := bufferWriteAdv c.preResParseBuf bytes })
    fun _ => ⟨rfl, rfl, rfl, rfl, rfl, rfl, rfl, rfl⟩
  have hfetched := hread.quiet ((Quiet.refl j _).act (a := .fetched j bytes) rfl)
    ((Quiet.refl j _).act (a := .fetched j bytes) rfl) (hread.same.act _)
  unfold Proxy.parseResponse
  generalize (s.onBuffers j _).act _ = t at hfetched ⊢
  generalize (s'.onBuffers j _).act _ = t' at hfetched ⊢
  simp only [hfetched.same.others j hj]
  split
  · exact (hfetched.same.use j).stop _
  · next r _ =>
    have hparsed := hfetched.onBuffers hj (f := fun c =>
      { c with
        resData := r.rData
        preResParseBuf := r.bIn
        postResParseBuf := r.bOut
        preTransfBuf := r.bTransf }) fun _ => ⟨rfl, rfl, rfl, rfl, rfl, rfl, rfl, rfl⟩
    split
    · exact hparsed.same.stop _
    · split
      · refine SameBut.responseInterests ?_ hj
        have hclosed := hparsed.unregister hj
        unfold responseFinished
        simp only [hparsed.same.others j hj, hclosed.others j hj]
        exact hclosed.setInterest _ _
      · exact hparsed.same.responseInterests hj

/-- `remote_read` of another client does the same on both. -/
theorem remoteRead (h : Served i j s s') (hj : j ≠ i) (hlive : s.Live j)
    (r : Option (List UInt8)) : SameBut i (s.remoteRead j r) (s'.remoteRead j r) := by
  have hread : ∀ space, (s'.use j).sysRead (s.clients j).originFd r space =
      (s.use j).sysRead (s.clients j).originFd r space := fun space =>
    SameBut.sysRead_eq (h.same.originFd_open hj h.owned h.owned' hlive) r space
  unfold Proxy.remoteRead
  simp only [h.same.others j hj, hread]
  split
  · split
    · split
      · exact (h.use.setInterest hj OP_WRITE).unregister hj
      · exact h.use.same
      · exact h.use.parseResponse hj _
    · exact h.use.same.setInterest _ _
  · exact h.same

/-- `remote_write` of another client does the same on both. -/
theorem remoteWrite (h : Served i j s s') (hj : j ≠ i) (hlive : s.Live j) (r : Option Nat) :
    SameBut i (s.remoteWrite j r) (s'.remoteWrite j r) := by
  have hwrite : ∀ bytes, (s'.use j).sysWrite (s.clients j).originFd r bytes =
      (s.use j).sysWrite (s.clients j).originFd r bytes := fun bytes =>
    SameBut.sysWrite_eq (h.same.originFd_open hj h.owned h.owned' hlive) r bytes
  unfold Proxy.remoteWrite
  simp only [h.same.others j hj, hwrite]
  split
  · split
    · split
      · exact (h.use.setInterest hj OP_WRITE).unregister hj
      · exact (((h.use.same.count _).onBuffers hj _).act _).setInterest _ _
    · split
      · exact (h.use.same.setInterest _ _).modify hj _
      · exact h.use.same.setInterest _ _
  · exact h.same

end Served

end Proxy

end HttpProxy
