import HttpProxy.Proxy
import HttpProxy.RequestCalls

/-!
# What a handler can do

Most of what a handler does is `Quiet`: it works on the buffers and the parsers of its client and
asks the selector for events of the client's descriptors. The rest is few things: a client is given
a host, a descriptor is unregistered, opened or registered, the client's state is set. One lemma for
each handler says in which order it does which of these; the invariants are derived from them.
-/

namespace HttpProxy

/-- Everything of a client but its buffers, its parsers and `request_complete`. -/
structure Client.Same (c c' : Client) : Prop where
  state : c'.state = c.state
  clientFd : c'.clientFd = c.clientFd
  originFd : c'.originFd = c.originFd
  transfInFd : c'.transfInFd = c.transfInFd
  transfOutFd : c'.transfOutFd = c.transfOutFd
  shouldTransform : c'.shouldTransform = c.shouldTransform
  host : c'.host = c.host
  initTime : c'.initTime = c.initTime

namespace Client.Same

theorem refl (c : Client) : Same c c := ⟨rfl, rfl, rfl, rfl, rfl, rfl, rfl, rfl⟩

theorem trans {c c' c'' : Client} (h : Same c c') (h' : Same c' c'') : Same c c'' :=
  ⟨h'.state.trans h.state, h'.clientFd.trans h.clientFd, h'.originFd.trans h.originFd,
    h'.transfInFd.trans h.transfInFd, h'.transfOutFd.trans h.transfOutFd,
    h'.shouldTransform.trans h.shouldTransform, h'.host.trans h.host, h'.initTime.trans h.initTime⟩

end Client.Same

/-- What a handler of a client does to its buffers, with what was read and written. -/
def Action.Quiet (i : ClientId) : Action → Prop
  | .used j | .received j _ | .sent j _ | .fetched j _ | .delivered j _ => j = i
  | _ => False

/-- What closing a descriptor of a client leads to. -/
def Action.Closing : Action → Prop
  | .closed _ _ | .ended _ _ => True
  | _ => False

namespace Proxy

/-- A handler of client `i` does nothing but work on the client's buffers and parsers and ask for
events. -/
structure Quiet (i : ClientId) (s s' : Proxy) : Prop where
  running : s'.status = .running → s.status = .running
  config : s'.config = s.config
  made : s'.made = s.made
  fds : s'.fds = s.fds
  resolving : s'.resolving = s.resolving
  notifying : s'.notifying = s.notifying
  jobs : s'.jobs = s.jobs
  now : s'.now = s.now
  metrics : s'.metrics = { s.metrics with TRANSFERED_BYTES := s'.metrics.TRANSFERED_BYTES }
  handlers : s'.sel.handlerAt = s.sel.handlerAt
  slots : (s.clients i).shouldTransform = false → ∀ fd, fd ≠ (s.clients i).clientFd →
    fd ≠ (s.clients i).originFd → s'.sel.fds fd = s.sel.fds fd
  others : ∀ j, j ≠ i → s'.clients j = s.clients j
  client : Client.Same (s.clients i) (s'.clients i)
  trace : ∃ l, s'.trace = l ++ s.trace ∧ ∀ a ∈ l, a.Quiet i

variable {s s' s'' : Proxy} {i j : ClientId}

@[simp] theorem clients_modify_self (s : Proxy) (i : ClientId) (f : Client → Client) :
    (s.modify i f).clients i = f (s.clients i) := Function.update_self _ _ _

/-- A change of one client leaves the others. -/
theorem clients_modify_of_ne (s : Proxy) (f : Client → Client) (h : j ≠ i) :
    (s.modify i f).clients j = s.clients j := Function.update_of_ne h _ _

/-- `remote_close` of one client leaves the others. -/
theorem clients_remoteClose_of_ne (s : Proxy) (h : j ≠ i) :
    (s.remoteClose i).clients j = s.clients j := clients_modify_of_ne (s.closeFd i _) _ h

/-- `remote_close` leaves the client without an origin. -/
theorem originFd_remoteClose (s : Proxy) (i : ClientId) :
    ((s.remoteClose i).clients i).originFd = -1 :=
  congrArg Client.originFd (clients_modify_self (s.closeFd i _) i _)

namespace Quiet

theorem refl (i : ClientId) (s : Proxy) : Quiet i s s where
  running := id
  config := rfl
  made := rfl
  fds := rfl
  resolving := rfl
  notifying := rfl
  jobs := rfl
  now := rfl
  metrics := rfl
  handlers := rfl
  slots _ _ _ _ := rfl
  others _ _ := rfl
  client := .refl _
  trace := ⟨[], rfl, fun _ h => absurd h List.not_mem_nil⟩

/-- Two quiet parts of a handler are one. -/
theorem trans (h : Quiet i s s') (h' : Quiet i s' s'') : Quiet i s s'' where
  running hr := h.running (h'.running hr)
  config := h'.config.trans h.config
  made := h'.made.trans h.made
  fds := h'.fds.trans h.fds
  resolving := h'.resolving.trans h.resolving
  notifying := h'.notifying.trans h.notifying
  jobs := h'.jobs.trans h.jobs
  now := h'.now.trans h.now
  metrics := by rw [h'.metrics, h.metrics]
  handlers := h'.handlers.trans h.handlers
  slots ht fd hc ho := by
    rw [h'.slots (h.client.shouldTransform.trans ht) fd (h.client.clientFd ▸ hc)
      (h.client.originFd ▸ ho), h.slots ht fd hc ho]
  others k hk := (h'.others k hk).trans (h.others k hk)
  client := h.client.trans h'.client
  trace := by
    obtain ⟨l, hl, hq⟩ := h.trace
    obtain ⟨m, hm, hq'⟩ := h'.trace
    refine ⟨m ++ l, by rw [hm, hl, List.append_assoc], fun a ha => ?_⟩
    rcases List.mem_append.mp ha with ha | ha
    · exact hq' a ha
    · exact hq a ha

/-- An action of the client on its own buffers is quiet. -/
theorem act (h : Quiet i s s') {a : Action} (ha : a.Quiet i) : Quiet i s (s'.act a) :=
  h.trans { refl i s' with trace := ⟨[a], rfl, fun _ hb => List.mem_singleton.mp hb ▸ ha⟩ }

theorem use (h : Quiet i s s') : Quiet i s (s'.use i) := h.act rfl

/-- A change of the client's buffers and parsers is quiet. -/
theorem modify (h : Quiet i s s') {f : Client → Client} (hf : ∀ c, Client.Same c (f c)) :
    Quiet i s (s'.modify i f) :=
  h.trans
    { refl i s' with
      others := fun _ hk => Function.update_of_ne hk _ _
      client := by
        rw [clients_modify_self]
        exact hf _ }

/-- Working on the buffers, with the mark that the client was used, is quiet. -/
theorem onBuffers (h : Quiet i s s') {f : Client → Client} (hf : ∀ c, Client.Same c (f c)) :
    Quiet i s (s'.onBuffers i f) := h.use.modify hf

/-- Counting the bytes passed on is quiet: of the metrics no other is looked at. -/
theorem count (h : Quiet i s s') (n : Nat) : Quiet i s (s'.count n) :=
  h.trans { refl i s' with metrics := rfl }

/-- Ending the process is quiet. -/
theorem stop (h : Quiet i s s') {status : Status} (hs : status ≠ .running) :
    Quiet i s (s'.stop status) :=
  h.trans { refl i s' with running := fun hr => absurd hr hs }

/-- Asking for events of one of the client's descriptors is quiet. -/
theorem setInterest (h : Quiet i s s') {fd : Int} {x : FdInterest}
    (hfd : (s.clients i).shouldTransform = false →
      fd = (s.clients i).clientFd ∨ fd = (s.clients i).originFd) :
    Quiet i s (s'.setInterest fd x) :=
  h.trans
    { refl i s' with
      handlers := Selector.handlerAt_setInterest s'.sel fd x
      slots := by
        intro ht fd' hc ho
        rw [h.client.shouldTransform] at ht
        have hne : fd' ≠ fd := by
          rintro rfl
          rcases hfd ht with hfd | hfd
          · exact hc (hfd.trans h.client.clientFd.symm)
          · exact ho (hfd.trans h.client.originFd.symm)
        exact Selector.fds_setInterest s'.sel x hne }

end Quiet

/-- What `selector_unregister_fd` leaves alone, whatever closes it leads to. -/
structure Closing (s s' : Proxy) : Prop where
  status : s'.status = s.status
  config : s'.config = s.config
  made : s'.made = s.made
  resolving : s'.resolving = s.resolving
  notifying : s'.notifying = s.notifying
  jobs : s'.jobs = s.jobs
  now : s'.now = s.now
  clients : ∀ j, s'.clients j = { s.clients j with originFd := (s'.clients j).originFd }
  metrics : s'.metrics.MAX_CONCURRENT_CONNECTIONS = s.metrics.MAX_CONCURRENT_CONNECTIONS ∧
    s'.metrics.INST_CONCURRENT_CONNECTIONS ≤ s.metrics.INST_CONCURRENT_CONNECTIONS
  handlers : ∀ fd, s'.sel.handlerAt fd = s.sel.handlerAt fd ∨ s'.sel.handlerAt fd = none
  trace : ∃ l, s'.trace = l ++ s.trace ∧ ∀ a ∈ l, a.Closing

namespace Closing

theorem refl (s : Proxy) : Closing s s where
  status := rfl
  config := rfl
  made := rfl
  resolving := rfl
  notifying := rfl
  jobs := rfl
  now := rfl
  clients _ := rfl
  metrics := ⟨rfl, le_refl _⟩
  handlers _ := .inl rfl
  trace := ⟨[], rfl, fun _ h => absurd h List.not_mem_nil⟩

/-- Closing one thing after the other is closing. -/
theorem trans (h : Closing s s') (h' : Closing s' s'') : Closing s s'' where
  status := h'.status.trans h.status
  config := h'.config.trans h.config
  made := h'.made.trans h.made
  resolving := h'.resolving.trans h.resolving
  notifying := h'.notifying.trans h.notifying
  jobs := h'.jobs.trans h.jobs
  now := h'.now.trans h.now
  clients k := by rw [h'.clients k, h.clients k]
  metrics := ⟨h'.metrics.1.trans h.metrics.1, h'.metrics.2.trans h.metrics.2⟩
  handlers fd := by
    rcases h'.handlers fd with h' | h'
    · rw [h']
      exact h.handlers fd
    · exact .inr h'
  trace := by
    obtain ⟨l, hl, hc⟩ := h.trace
    obtain ⟨m, hm, hc'⟩ := h'.trace
    refine ⟨m ++ l, by rw [hm, hl, List.append_assoc], fun a ha => ?_⟩
    rcases List.mem_append.mp ha with ha | ha
    · exact hc' a ha
    · exact hc a ha

/-- An action that closes a descriptor or ends a client. -/
theorem act (s : Proxy) {a : Action} (ha : a.Closing) : Closing s (s.act a) :=
  { refl s with trace := ⟨[a], rfl, fun _ hb => List.mem_singleton.mp hb ▸ ha⟩ }

/-- Closing a descriptor leaves the clients and the slots. -/
theorem closeFd (s : Proxy) (i : ClientId) (fd : Int) : Closing s (s.closeFd i fd) := by
  have hfds : Closing s { s with fds := s.fds.filter (· ≠ fd) } := { refl s with }
  exact hfds.trans (act _ trivial)

/-- Emptying a slot leaves the descriptors and the clients. -/
theorem clear (s : Proxy) (fd : Int) : Closing s { s with sel := s.sel.clear fd } :=
  { refl s with
    handlers := by
      intro fd'
      change (s.sel.clear fd).handlerAt fd' = _ ∨ (s.sel.clear fd).handlerAt fd' = _
      rw [Selector.handlerAt_clear]
      by_cases h : fd' = fd
      · subst h
        exact .inr (Function.update_self _ _ _)
      · exact .inl (Function.update_of_ne h _ _) }

/-- Taking a client's origin away is part of closing it. -/
theorem unsetOrigin (s : Proxy) (i : ClientId) :
    Closing s (s.modify i fun c => { c with originFd := -1 }) :=
  { refl s with
    clients := by
      intro k
      by_cases hk : k = i
      · subst hk
        rw [clients_modify_self]
      · rw [clients_modify_of_ne s _ hk] }

/-- `remote_close` closes. -/
theorem remoteClose (s : Proxy) (i : ClientId) : Closing s (s.remoteClose i) :=
  (closeFd s i _).trans (unsetOrigin _ i)

/-- `client_close` closes, whatever the unregistering of its origin does in between. -/
theorem clientClose {unregister : Proxy → Int → Proxy} (hun : ∀ s fd, Closing s (unregister s fd))
    (s : Proxy) (i : ClientId) : Closing s (clientClose unregister s i) := by
  have hmetrics : Closing s
      { s with metrics := metricCloseConnection (s.clients i).initTime s.now s.metrics } :=
    { refl s with metrics := ⟨rfl, sub_le_self _ zero_le_one⟩ }
  refine hmetrics.trans (Closing.trans ?_ (act _ trivial))
  unfold clientFreeResources
  simp only
  refine Closing.trans ?_ (closeFd _ _ _)
  split
  · exact (closeFd _ _ _).trans ((hun _ _).trans (unsetOrigin _ _))
  · exact refl _

/-- `selector_unregister_fd` closes, to any depth of the nested calls of `handle_close`. -/
theorem unregisterAt (depth : Nat) (s : Proxy) (fd : Int) : Closing s (unregisterAt depth s fd) := by
  induction depth generalizing s fd with
  | zero => exact refl s
  | succ depth ih =>
    unfold Proxy.unregisterAt
    split
    · exact refl s
    · split
      · exact refl s
      · next h _ =>
        refine Closing.trans ?_ (clear _ fd)
        cases h with
        | client i => exact clientClose ih s i
        | remote i => exact remoteClose s i
        | other => exact refl s

end Closing

/-- A client's own descriptor is not written on any way of closing. -/
theorem Closing.clientFd (h : Closing s s') (j : ClientId) :
    (s'.clients j).clientFd = (s.clients j).clientFd := by
  rw [h.clients j]

/-- `selector_unregister_fd` closes. -/
theorem closing_unregister (s : Proxy) (fd : Int) : Closing s (s.unregister fd) :=
  Closing.unregisterAt 2 s fd


/-- Unregistering an origin's descriptor is `remote_close`, and the slot is empty. -/
theorem unregisterAt_of_remote {fd : Int} (hv : invalidFd fd = false)
    (h : s.sel.handlerAt fd = some (.remote i)) (depth : Nat) :
    unregisterAt (depth + 1) s fd = { s.remoteClose i with sel := s.sel.clear fd } := by
  unfold Proxy.unregisterAt
  rw [h, hv]
  rfl

/-- An empty slot is refused, and nothing happens. -/
theorem unregisterAt_of_none {fd : Int} (h : s.sel.handlerAt fd = none) (depth : Nat) :
    unregisterAt (depth + 1) s fd = s := by
  unfold Proxy.unregisterAt
  rw [h]
  split <;> rfl

/-- Unregistering a descriptor with an empty slot does nothing. -/
theorem unregister_of_none {fd : Int} (h : s.sel.handlerAt fd = none) : s.unregister fd = s :=
  unregisterAt_of_none h 1

/-- Unregistering an origin's descriptor closes the origin alone. -/
theorem unregister_of_remote {fd : Int} (hv : invalidFd fd = false)
    (h : s.sel.handlerAt fd = some (.remote i)) :
    s.unregister fd = { s.remoteClose i with sel := s.sel.clear fd } :=
  unregisterAt_of_remote hv h 1

/-- Unregistering a client's descriptor is `client_close`, which unregisters the origin in its
turn. -/
theorem unregister_of_client {fd : Int} (hv : invalidFd fd = false)
    (h : s.sel.handlerAt fd = some (.client i)) :
    s.unregister fd = { clientClose (unregisterAt 1) s i with
      sel := (clientClose (unregisterAt 1) s i).sel.clear fd } := by
  unfold unregister Proxy.unregisterAt
  rw [h, hv]
  rfl

/-- A handler works on its client quietly but for the host the request parser may announce. -/
def Asks (i : ClientId) (s s' : Proxy) : Prop :=
  Quiet i s s' ∨ ∃ s₁ host port, Quiet i s s₁ ∧ Quiet i (s₁.clientSetHost i host port) s'

/-- A quiet part announces no host, as one of the two things `Asks` allows. -/
theorem Quiet.asks (h : Quiet i s s') : Asks i s s' := .inl h

/-- What is quiet may follow the call that announced the host. -/
theorem Asks.quiet (h : Asks i s s') (h' : Quiet i s' s'') : Asks i s s'' := by
  rcases h with h | ⟨s₁, host, port, h, hrest⟩
  · exact .inl (h.trans h')
  · exact .inr ⟨s₁, host, port, h, hrest.trans h'⟩

/-- What is quiet may come before the call that announces the host. -/
theorem Quiet.andAsks (h : Quiet i s s') (h' : Asks i s' s'') : Asks i s s'' := by
  rcases h' with h' | ⟨s₁, host, port, h', hrest⟩
  · exact .inl (h.trans h')
  · exact .inr ⟨s₁, host, port, h.trans h', hrest⟩

/-! ## The request -/

/-- A read from the client is quiet, also when it fails or finds the end. -/
theorem Quiet.receive (h : Quiet i s s') (readBytes : Option (List UInt8)) :
    Quiet i s (s'.receive i readBytes) := by
  cases readBytes with
  | none => exact h.use
  | some bytes =>
    have hread := h.onBuffers (f := fun c =>
      { c with preReqParseBuf := bufferWriteAdv c.preReqParseBuf bytes })
      fun _ => ⟨rfl, rfl, rfl, rfl, rfl, rfl, rfl, rfl⟩
    exact hread.act (a := .received i bytes) rfl

/-- What was read stands behind what was in the buffer. -/
theorem clients_receive (s : Proxy) (i : ClientId) (bytes : List UInt8) :
    (s.receive i (some bytes)).clients i =
      { s.clients i with
        preReqParseBuf := bufferWriteAdv (s.clients i).preReqParseBuf bytes } :=
  Function.update_self _ _ _

/-- Emptying the buffer in front of the parser is quiet. -/
theorem Quiet.drainRequest (h : Quiet i s s') : Quiet i s (s'.drainRequest i) :=
  h.onBuffers fun _ => ⟨rfl, rfl, rfl, rfl, rfl, rfl, rfl, rfl⟩

/-- `checkRequest` announces one host at most, and its call does nothing else that is not quiet. -/
theorem asks_parseRequest (s : Proxy) (i : ClientId) : Asks i s (s.parseRequest i) := by
  unfold parseRequest
  simp only
  split
  · exact ((Quiet.refl i s).use.stop Status.noConfusion).asks
  · next r hr =>
    have hbufs : Quiet i s (s.onBuffers i fun c =>
        { c with reqData := r.rData, preReqParseBuf := r.bIn, postReqParseBuf := r.bOut }) :=
      (Quiet.refl i s).onBuffers fun _ => ⟨rfl, rfl, rfl, rfl, rfl, rfl, rfl, rfl⟩
    have hcomplete : ∀ s : Proxy, Quiet i s
        (s.modify i fun c => { c with requestComplete := r.success }) := fun s =>
      (Quiet.refl i s).modify fun _ => ⟨rfl, rfl, rfl, rfl, rfl, rfl, rfl, rfl⟩
    rcases checkRequest_calls hr with hcalls | ⟨-, -, call, hcalls⟩
    · rw [hcalls]
      exact (hbufs.trans (hcomplete _)).asks
    · rw [hcalls]
      exact .inr ⟨_, call.1, call.2, hbufs, hcomplete _⟩

/-- `client_read` calls `read` and gets -1. -/
def ReadFails (s : Proxy) (i : ClientId) (r : Option (List UInt8)) : Prop :=
  (s.clients i).state = .NO_ORIGIN ∧ bufferCanWrite (s.clients i).preReqParseBuf = true ∧
    s.sysRead (s.clients i).clientFd r (bufferWriteSpace (s.clients i).preReqParseBuf) = none

instance (s : Proxy) (i : ClientId) (r : Option (List UInt8)) : Decidable (s.ReadFails i r) :=
  inferInstanceAs (Decidable (_ ∧ _ ∧ _))

/-- Without an origin `client_read` reads and parses; a failed `read` closes the client before
that, a request the parser refuses after it. -/
theorem clientRead_noOrigin (h : (s.clients i).state = .NO_ORIGIN) (r : Option (List UInt8)) :
    ∃ s₁ s₂ s₃, Quiet i s s₁ ∧
      (s₂ = s₁ ∧ ¬s.ReadFails i r ∨
        s₂ = s₁.unregister (s.clients i).clientFd ∧ s.ReadFails i r) ∧
      Asks i s₂ s₃ ∧
      (s.clientRead i r = s₃ ∨ s.clientRead i r = s₃.unregister (s.clients i).clientFd) := by
  have huse : Quiet i s (s.use i) := (Quiet.refl i s).use
  unfold clientRead
  simp only [h]
  split
  · next hroom =>
    have hread : (s.use i).sysRead (s.clients i).clientFd r
        (bufferWriteSpace (s.clients i).preReqParseBuf) = s.sysRead (s.clients i).clientFd r
        (bufferWriteSpace (s.clients i).preReqParseBuf) := rfl
    rw [hread]
    generalize hbytes : s.sysRead (s.clients i).clientFd r
      (bufferWriteSpace (s.clients i).preReqParseBuf) = readBytes
    have hparse : ∀ t, Asks i t (if (s.clients i).reqData.parserState ≠ .FINISHED then
        (t.receive i readBytes).parseRequest i else t.receive i readBytes) := by
      intro t
      have hreceive := (Quiet.refl i t).receive readBytes
      split
      · exact hreceive.andAsks (asks_parseRequest _ i)
      · exact hreceive.asks
    -- What follows the parser, in whatever state it left.
    have hend : ∀ t u, Asks i t u → ∃ s₃, Asks i t s₃ ∧
        ((if u.status ≠ .running then u
            else if (u.clients i).reqData.state ≠ .OK then u.unregister (s.clients i).clientFd
            else u.drainRequest i) = s₃ ∨
          (if u.status ≠ .running then u
            else if (u.clients i).reqData.state ≠ .OK then u.unregister (s.clients i).clientFd
            else u.drainRequest i) = s₃.unregister (s.clients i).clientFd) := by
      intro t u hu
      split
      · exact ⟨u, hu, .inl rfl⟩
      · split
        · exact ⟨u, hu, .inr rfl⟩
        · exact ⟨_, hu.quiet (Quiet.refl i u).drainRequest, .inl rfl⟩
    cases readBytes with
    | none =>
      obtain ⟨s₃, hasks, hs₃⟩ := hend _ _ (hparse ((s.use i).unregister (s.clients i).clientFd))
      exact ⟨s.use i, _, s₃, huse, .inr ⟨rfl, h, hroom, hbytes⟩, hasks, hs₃⟩
    | some bytes =>
      obtain ⟨s₃, hasks, hs₃⟩ := hend _ _ (hparse (s.use i))
      refine ⟨s.use i, _, s₃, huse, .inl ⟨rfl, fun hfails => ?_⟩, hasks, hs₃⟩
      rw [hfails.2.2] at hbytes
      cases hbytes
  · next hroom =>
    exact ⟨_, _, _, huse.setInterest fun _ => .inl rfl,
      .inl ⟨rfl, fun hfails => hroom hfails.2.1⟩, .inl (.refl i _), .inl rfl⟩

/-- While the request is sent, `client_read` parses again and then sets the client's state from
the parser's. -/
theorem clientRead_sendReq (h : (s.clients i).state = .SEND_REQ) (r : Option (List UInt8)) :
    Asks i s (s.clientRead i r) ∨
      bufferCanWrite (s.clients i).preReqParseBuf = true ∧ ∃ s₁, Asks i s s₁ ∧
        Quiet i (s₁.modify i fun c => { c with state := .ofValue c.reqData.state.value })
          (s.clientRead i r) := by
  have huse : Quiet i s (s.use i) := (Quiet.refl i s).use
  unfold clientRead
  simp only [h]
  split
  · next hroom =>
    have hparse : Asks i s (((s.use i).receive i ((s.use i).sysRead (s.clients i).clientFd r
        (bufferWriteSpace (s.clients i).preReqParseBuf))).parseRequest i) :=
      (huse.receive _).andAsks (asks_parseRequest _ i)
    split
    · exact .inl hparse
    · exact .inr ⟨hroom, _, hparse.quiet (Quiet.refl i _).drainRequest,
        (Quiet.refl i _).setInterest fun _ => .inr rfl⟩
  · exact .inl (huse.setInterest fun _ => .inl rfl).asks

/-- `client_read` does nothing while a response is passed on or an error is sent. -/
theorem clientRead_otherwise (h : (s.clients i).state ≠ .NO_ORIGIN)
    (h' : (s.clients i).state ≠ .SEND_REQ) (r : Option (List UInt8)) : s.clientRead i r = s := by
  cases hs : (s.clients i).state with
  | NO_ORIGIN => exact absurd hs h
  | SEND_REQ => exact absurd hs h'
  | _ => simp only [clientRead, hs]

/-- What `remote_write` does: nothing, or the state goes on to `READ_RESP`, or the origin is
unregistered. -/
theorem remoteWrite_effect (s : Proxy) (i : ClientId) (r : Option Nat) :
    Quiet i s (s.remoteWrite i r) ∨
      (s.clients i).state = .SEND_REQ ∧ (∃ s₁, Quiet i s s₁ ∧
        s.remoteWrite i r = s₁.modify i fun c => { c with state := .READ_RESP }) ∨
      ∃ s₁, Quiet i s s₁ ∧ s.remoteWrite i r = s₁.unregister (s.clients i).originFd := by
  have huse : Quiet i s (s.use i) := (Quiet.refl i s).use
  unfold remoteWrite
  simp only
  split
  · next hstate =>
    split
    · split
      · exact .inr (.inr ⟨_, huse.setInterest fun _ => .inl rfl, rfl⟩)
      · next bytes _ =>
        have hsent := (huse.count bytes.length).onBuffers (f := fun c =>
          { c with postReqParseBuf := bufferReadAdv c.postReqParseBuf bytes.length })
          fun _ => ⟨rfl, rfl, rfl, rfl, rfl, rfl, rfl, rfl⟩
        refine .inl ((hsent.act (a := .sent i bytes) rfl).setInterest ?_)
        · exact fun _ => .inl rfl
    · split
      · exact .inr (.inl ⟨hstate, _, huse.setInterest fun _ => .inr rfl, rfl⟩)
      · exact .inl (huse.setInterest fun _ => .inr rfl)
  · exact .inl (.refl i s)

/-! ## The response -/

/-- `client_write` calls `write` and gets -1. -/
def WriteFails (s : Proxy) (i : ClientId) (r : Option Nat) : Prop :=
  (s.clients i).state = .READ_RESP ∧ bufferCanRead (s.clients i).postResParseBuf = true ∧
    s.sysWrite (s.clients i).clientFd r (s.clients i).postResParseBuf.bytes = none

instance (s : Proxy) (i : ClientId) (r : Option Nat) : Decidable (s.WriteFails i r) :=
  inferInstanceAs (Decidable (_ ∧ _ ∧ _))

/-- What `client_write` does: it is quiet, or it closes the client, and then for a reason. -/
theorem clientWrite_effect (s : Proxy) (i : ClientId) (r : Option Nat) :
    Quiet i s (s.clientWrite i r) ∨
      ∃ s₁, Quiet i s s₁ ∧
        (s.WriteFails i r ∨ (s.clients i).originFd = -1 ∨ (s.clients i).shouldTransform = true) ∧
        s.clientWrite i r = s₁.unregister (s.clients i).clientFd := by
  have huse : Quiet i s (s.use i) := (Quiet.refl i s).use
  unfold clientWrite
  simp only
  split
  · next hstate =>
    split
    · next hdata =>
      split
      · next hfails => exact .inr ⟨_, huse, .inl ⟨hstate, hdata, hfails⟩, rfl⟩
      · next bytes _ =>
        have hsent := (huse.count bytes.length).onBuffers (f := fun c =>
          { c with postResParseBuf := bufferReadAdv c.postResParseBuf bytes.length })
          fun _ => ⟨rfl, rfl, rfl, rfl, rfl, rfl, rfl, rfl⟩
        refine .inl ((hsent.act (a := .delivered i bytes) rfl).setInterest ?_)
        · intro ht
          rw [ht]
          exact .inr rfl
    · split
      · next horigin => exact .inr ⟨_, huse, .inr (.inl horigin.1), rfl⟩
      · split
        · next htransf => exact .inr ⟨_, huse, .inr (.inr htransf.1), rfl⟩
        · exact .inl huse
  · exact .inl (.refl i s)

/-- The interests behind a response are those of the client's own descriptors. -/
theorem Quiet.responseInterests (h : Quiet i s s') : Quiet i s (s'.responseInterests i) := by
  refine h.trans ?_
  unfold Proxy.responseInterests
  cases ht : (s'.clients i).shouldTransform with
  | false =>
    simp only [ht, Bool.false_eq_true, false_and, if_false, if_true]
    exact (refl i s').setInterest fun _ => .inl rfl
  | true =>
    simp only [ht, true_and, Bool.true_eq_false, if_false]
    split
    · exact (refl i s').setInterest fun hfalse => by rw [ht] at hfalse; cases hfalse
    · exact refl i s'

/-- Parsing a response is quiet, or unregisters the origin once. -/
theorem parseResponse_effect (s : Proxy) (i : ClientId) (bytes : List UInt8) :
    Quiet i s (s.parseResponse i bytes) ∨
      ∃ s₁, Quiet i s s₁ ∧
        Quiet i (s₁.unregister (s₁.clients i).originFd) (s.parseResponse i bytes) := by
  have hread := ((Quiet.refl i s).onBuffers (f := fun c =>
    { c with preResParseBuf := bufferWriteAdv c.preResParseBuf bytes })
    fun _ => ⟨rfl, rfl, rfl, rfl, rfl, rfl, rfl, rfl⟩).act (a := .fetched i bytes) rfl
  unfold parseResponse
  simp only
  split
  · exact .inl (hread.use.stop Status.noConfusion)
  · next r _ =>
    have hparsed := hread.onBuffers (f := fun c =>
      { c with
        resData := r.rData
        preResParseBuf := r.bIn
        postResParseBuf := r.bOut
        preTransfBuf := r.bTransf }) fun _ => ⟨rfl, rfl, rfl, rfl, rfl, rfl, rfl, rfl⟩
    split
    · exact .inl (hparsed.stop Status.noConfusion)
    · split
      · refine .inr ⟨_, hparsed, Quiet.responseInterests ?_⟩
        unfold responseFinished
        exact (Quiet.refl i _).setInterest fun _ => .inl rfl
      · exact .inl hparsed.responseInterests

/-- What `remote_read` does: it is quiet, or it unregisters the origin once. -/
theorem remoteRead_effect (s : Proxy) (i : ClientId) (r : Option (List UInt8)) :
    Quiet i s (s.remoteRead i r) ∨
      ∃ s₁, Quiet i s s₁ ∧ Quiet i (s₁.unregister (s.clients i).originFd) (s.remoteRead i r) := by
  have huse : Quiet i s (s.use i) := (Quiet.refl i s).use
  unfold remoteRead
  simp only
  split
  · split
    · split
      · exact .inr ⟨_, huse.setInterest fun _ => .inl rfl, .refl i _⟩
      · exact .inl huse
      · next bytes _ _ =>
        rcases parseResponse_effect (s.use i) i bytes with hq | ⟨s₁, hs₁, hq⟩
        · exact .inl (huse.trans hq)
        · have horigin := (huse.trans hs₁).client.originFd
          exact .inr ⟨s₁, huse.trans hs₁, horigin ▸ hq⟩
    · exact .inl (huse.setInterest fun _ => .inr rfl)
  · exact .inl (.refl i s)

/-! ## What the handlers keep

`J` is kept by a handler of client `i` when the few things that it does keep it. -/

section Keeps

variable {J : Proxy → Prop}

/-- What quiet parts and the giving of a host preserve, the call of the request parser preserves. -/
theorem keeps_asks (hquiet : ∀ s s', J s → Quiet i s s' → J s')
    (hsetHost : ∀ s host port, J s → J (s.clientSetHost i host port)) (hs : J s)
    (h : Asks i s s') : J s' := by
  rcases h with hq | ⟨s₁, host, port, hq, hrest⟩
  · exact hquiet _ _ hs hq
  · exact hquiet _ _ (hsetHost s₁ host port (hquiet _ _ hs hq)) hrest

/-- Everything of a client but its state, its error and its host. -/
theorem setHost_frame (c : Client) (host : List UInt8) (port : Int) :
    (c.setHost host port).2 =
      { c with
        state := (c.setHost host port).2.state
        err := (c.setHost host port).2.err
        host := { (c.setHost host port).2.host with resolved := c.host.resolved } } := by
  unfold Client.setHost
  split
  · split <;> rfl
  · split <;> rfl

/-- The host is no part of the client's descriptors. -/
theorem clientFd_setHost (c : Client) (host : List UInt8) (port : Int) :
    (c.setHost host port).2.clientFd = c.clientFd := by
  rw [setHost_frame]

theorem originFd_setHost (c : Client) (host : List UInt8) (port : Int) :
    (c.setHost host port).2.originFd = c.originFd := by
  rw [setHost_frame]

theorem reqData_setHost (c : Client) (host : List UInt8) (port : Int) :
    (c.setHost host port).2.reqData = c.reqData := by
  rw [setHost_frame]

theorem resolved_setHost (c : Client) (host : List UInt8) (port : Int) :
    (c.setHost host port).2.host.resolved = c.host.resolved := by
  rw [setHost_frame]

theorem shouldTransform_setHost (c : Client) (host : List UInt8) (port : Int) :
    (c.setHost host port).2.shouldTransform = c.shouldTransform := by
  rw [setHost_frame]

/-- `client_set_host` changes one client, and of it the host. -/
@[simp] theorem clients_clientSetHost (s : Proxy) (i : ClientId) (host : List UInt8) (port : Int) :
    (s.clientSetHost i host port).clients =
      Function.update s.clients i ((s.clients i).setHost host port).2 := by
  unfold clientSetHost
  simp only
  split <;> rfl

/-- `client_set_host` leaves the selector alone. -/
theorem sel_clientSetHost (s : Proxy) (i : ClientId) (host : List UInt8) (port : Int) :
    (s.clientSetHost i host port).sel = s.sel := by
  unfold clientSetHost
  simp only
  split <;> rfl

/-- `client_set_host` does not end the process. -/
theorem status_clientSetHost (s : Proxy) (i : ClientId) (host : List UInt8) (port : Int) :
    (s.clientSetHost i host port).status = s.status := by
  unfold clientSetHost
  simp only
  split <;> rfl

/-- The call that may announce a host leaves the client its descriptor. -/
theorem asks_clientFd (h : Asks i s s') : (s'.clients i).clientFd = (s.clients i).clientFd := by
  rcases h with hq | ⟨s₁, host, port, hq, hrest⟩
  · exact hq.client.clientFd
  · rw [hrest.client.clientFd, clients_clientSetHost, Function.update_self, clientFd_setHost]
    exact hq.client.clientFd

/-- What the parts of `client_read` preserve, `client_read` preserves: reading, giving a host, a
state, and closing. -/
theorem keeps_clientRead (hquiet : ∀ s s', J s → Quiet i s s' → J s')
    (hsetHost : ∀ s host port, J s → J (s.clientSetHost i host port))
    (hstate : ∀ s (g : Client → ClientState), J s → J (s.modify i fun c => { c with state := g c }))
    (hunregister : ∀ s, J s → J (s.unregister (s.clients i).clientFd)) (hs : J s)
    (r : Option (List UInt8)) : J (s.clientRead i r) := by
  by_cases hnone : (s.clients i).state = .NO_ORIGIN
  · obtain ⟨s₁, s₂, s₃, hq, hread, hasks, hend⟩ := clientRead_noOrigin hnone r
    have h₁ := hquiet _ _ hs hq
    have hfd₁ := hq.client.clientFd
    have h₂ : J s₂ ∧ (s₂.clients i).clientFd = (s.clients i).clientFd := by
      rcases hread with ⟨rfl, -⟩ | ⟨rfl, -⟩
      · exact ⟨h₁, hfd₁⟩
      · rw [← hfd₁]
        refine ⟨hunregister s₁ h₁, ?_⟩
        rw [(closing_unregister s₁ _).clients i]
    have h₃ := keeps_asks hquiet hsetHost h₂.1 hasks
    rcases hend with hend | hend
    · exact hend ▸ h₃
    · rw [hend, ← h₂.2, ← asks_clientFd hasks]
      exact hunregister s₃ h₃
  · by_cases hsend : (s.clients i).state = .SEND_REQ
    · rcases clientRead_sendReq hsend r with hasks | ⟨-, s₁, hasks, hrest⟩
      · exact keeps_asks hquiet hsetHost hs hasks
      · have h₁ := keeps_asks hquiet hsetHost hs hasks
        exact hquiet _ _ (hstate s₁ (fun c => .ofValue c.reqData.state.value) h₁) hrest
    · rwa [clientRead_otherwise hnone hsend]

/-- What the parts of `client_write` preserve, `client_write` preserves. -/
theorem keeps_clientWrite (hquiet : ∀ s s', J s → Quiet i s s' → J s')
    (hunregister : ∀ s, J s → J (s.unregister (s.clients i).clientFd)) (hs : J s)
    (r : Option Nat) : J (s.clientWrite i r) := by
  rcases clientWrite_effect s i r with hq | ⟨s₁, hq, -, hend⟩
  · exact hquiet _ _ hs hq
  · rw [hend, ← hq.client.clientFd]
    exact hunregister s₁ (hquiet _ _ hs hq)

/-- What the parts of `remote_read` preserve, `remote_read` preserves. -/
theorem keeps_remoteRead (hquiet : ∀ s s', J s → Quiet i s s' → J s')
    (hunregister : ∀ s, J s → J (s.unregister (s.clients i).originFd)) (hs : J s)
    (r : Option (List UInt8)) : J (s.remoteRead i r) := by
  rcases remoteRead_effect s i r with hq | ⟨s₁, hq, hrest⟩
  · exact hquiet _ _ hs hq
  · rw [← hq.client.originFd] at hrest
    exact hquiet _ _ (hunregister s₁ (hquiet _ _ hs hq)) hrest

/-- What the parts of `remote_write` preserve, `remote_write` preserves. -/
theorem keeps_remoteWrite (hquiet : ∀ s s', J s → Quiet i s s' → J s')
    (hstate : ∀ s (g : Client → ClientState), J s → J (s.modify i fun c => { c with state := g c }))
    (hunregister : ∀ s, J s → J (s.unregister (s.clients i).originFd)) (hs : J s)
    (r : Option Nat) : J (s.remoteWrite i r) := by
  rcases remoteWrite_effect s i r with hq | ⟨-, s₁, hq, hend⟩ | ⟨s₁, hq, hend⟩
  · exact hquiet _ _ hs hq
  · rw [hend]
    exact hstate s₁ (fun _ => .READ_RESP) (hquiet _ _ hs hq)
  · rw [hend, ← hq.client.originFd]
    exact hunregister s₁ (hquiet _ _ hs hq)

end Keeps

/-! ## New clients -/

/-- What `transformations_new` does: it opens and closes descriptors for its client. -/
structure Piped (i : ClientId) (s s' : Proxy) : Prop where
  frame : s' = { s with fds := s'.fds, trace := s'.trace }
  trace : ∃ l, s'.trace = l ++ s.trace ∧ ∀ a ∈ l, (∃ fd, a = .opened i fd) ∨ ∃ fd, a = .closed i fd

namespace Piped

theorem refl (i : ClientId) (s : Proxy) : Piped i s s :=
  ⟨rfl, [], rfl, fun _ h => absurd h List.not_mem_nil⟩

/-- Opening a pipe end for the client. -/
theorem opened (h : Piped i s s') (fd : Int) : Piped i s (s'.openFd i fd) := by
  obtain ⟨l, hl, hpiped⟩ := h.trace
  refine ⟨by rw [h.frame]; rfl, .opened i fd :: l, congrArg (List.cons _) hl, fun a ha => ?_⟩
  rcases List.mem_cons.mp ha with rfl | ha
  · exact .inl ⟨fd, rfl⟩
  · exact hpiped a ha

/-- Closing a pipe end of the client. -/
theorem closed (h : Piped i s s') (fd : Int) : Piped i s (s'.closeFd i fd) := by
  obtain ⟨l, hl, hpiped⟩ := h.trace
  refine ⟨by rw [h.frame]; rfl, .closed i fd :: l, congrArg (List.cons _) hl, fun a ha => ?_⟩
  rcases List.mem_cons.mp ha with rfl | ha
  · exact .inr ⟨fd, rfl⟩
  · exact hpiped a ha

end Piped

/-- `transformations_new` opens and closes pipe ends of the client, and does nothing else. -/
theorem piped_transformationsNew (s : Proxy) (i : ClientId) (t : TransfCalls) :
    Piped i s (s.transformationsNew i t).2 := by
  have hs : Piped i s s := .refl i s
  unfold transformationsNew
  split
  · exact hs
  · next in₀ in₁ _ =>
    have hin := (hs.opened in₀).opened in₁
    simp only
    split
    · exact (hin.closed in₀).closed in₁
    · next out₀ out₁ _ =>
      have hout := (hin.opened out₀).opened out₁
      split
      · exact hout
      · split
        · exact hout
        · next errorFd _ =>
          have herror := hout.opened errorFd
          split
          · exact (herror.closed in₀).closed out₁
          · exact ((((herror.closed out₀).closed out₁).closed in₀).closed in₁).closed errorFd

/-- A client as `client_new` leaves it, with the descriptor of its connection. -/
structure Client.New (c : Client) (fd : Int) (now : Int) : Prop where
  state : c.state = .NO_ORIGIN
  clientFd : c.clientFd = fd
  originFd : c.originFd = -1
  shouldTransform : c.shouldTransform = false
  host : c.host = {}
  reqData : c.reqData = defaultRequestStruct
  initTime : c.initTime = now

/-- What the acceptance of a connection does. -/
structure Accepts (s : Proxy) (fd : Int) (t : TransfCalls) (s' : Proxy) : Prop where
  status : s'.status = s.status
  config : s'.config = s.config
  made : s'.made = s.made + 1
  resolving : s'.resolving = s.resolving
  notifying : s'.notifying = s.notifying
  jobs : s'.jobs = s.jobs
  now : s'.now = s.now
  metrics : s'.metrics = metricNewConnection s.metrics
  others : ∀ j, j ≠ s.made → s'.clients j = s.clients j
  client : Client.New (s'.clients s.made) fd s.now
  sel : s'.sel = (s.sel.register fd (.client s.made) OP_READ).2
  fds : s'.fds = ((s.openFd s.made fd).transformationsNew s.made t).2.fds
  trace : s'.trace = .made s.made :: ((s.openFd s.made fd).transformationsNew s.made t).2.trace

/-- `transformations_new` neither reads nor sets the number of clients. -/
theorem transformationsNew_made (s : Proxy) (i : ClientId) (t : TransfCalls) (n : Nat) :
    ({ s with made := n } : Proxy).transformationsNew i t =
      ((s.transformationsNew i t).1, { (s.transformationsNew i t).2 with made := n }) := by
  unfold transformationsNew
  cases t.pipeIn with
  | none => rfl
  | some pin =>
    cases t.pipeOut with
    | none => rfl
    | some pout =>
      simp only [openFd, closeFd, act]
      by_cases herror : configGet (cLit "error_file") s.config = none
      · simp only [herror, if_true]
      · simp only [herror, if_false]
        cases t.errorFd with
        | none => rfl
        | some errorFd => cases t.fork <;> rfl

/-- The ends that `transformations_new` returns depend on the calls and the configuration alone. -/
theorem transformationsNew_ends (h : s'.config = s.config) (i : ClientId) (t : TransfCalls) :
    (s'.transformationsNew i t).1 = (s.transformationsNew i t).1 := by
  unfold transformationsNew
  cases t.pipeIn with
  | none => rfl
  | some pin =>
    cases t.pipeOut with
    | none => rfl
    | some pout =>
      simp only [openFd, closeFd, act, h]
      by_cases herror : configGet (cLit "error_file") s.config = none
      · simp only [herror, if_true]
      · simp only [herror, if_false]
        cases t.errorFd with
        | none => rfl
        | some errorFd => cases t.fork <;> rfl

/-- What `listen_read_handler` leaves when `accept` gave it a descriptor. -/
theorem listenReadHandler_some {o : AcceptCalls} {fd : Int} (h : o.accept = some fd)
    {r : Option (Int × Int) × Proxy}
    (hr : (s.openFd s.made fd).transformationsNew s.made o.transf = r) :
    s.listenReadHandler o =
      { (({ r.2 with made := s.made + 1 }.modify s.made fun _ =>
          { Client.fresh (fun _ => true) r.2.config with
            clientFd := fd
            transfInFd := (r.1.getD (-1, -1)).1
            transfOutFd := (r.1.getD (-1, -1)).2
            initTime := r.2.now }) : Proxy) with
        metrics := metricNewConnection r.2.metrics
        trace := .made s.made :: r.2.trace
        sel := (r.2.sel.register fd (.client s.made) OP_READ).2 } := by
  have hmade := transformationsNew_made (s.openFd s.made fd) s.made o.transf (s.made + 1)
  rw [hr] at hmade
  unfold listenReadHandler
  rw [h]
  simp only
  unfold clientNew
  rw [show (({ s with made := s.made + 1 } : Proxy).openFd s.made fd) =
    { s.openFd s.made fd with made := s.made + 1 } from rfl, hmade]
  rfl

/-- What `listen_read_handler` does with an accepted descriptor, field by field. -/
theorem accepts_listenReadHandler {o : AcceptCalls} {fd : Int} (h : o.accept = some fd) :
    Accepts s fd o.transf (s.listenReadHandler o) := by
  have hframe := (piped_transformationsNew (s.openFd s.made fd) s.made o.transf).frame
  generalize hr : (s.openFd s.made fd).transformationsNew s.made o.transf = r at hframe
  rw [listenReadHandler_some h hr, hframe]
  constructor
  case client =>
    change Client.New ((Function.update s.clients s.made _ : ClientId → Client) s.made) fd s.now
    rw [Function.update_self]
    exact ⟨rfl, rfl, rfl, rfl, rfl, rfl, rfl⟩
  case others => exact fun j hj => Function.update_of_ne hj _ _
  case fds => exact congrArg (fun r => r.2.fds) hr.symm
  case trace => exact congrArg (fun r => Action.made s.made :: r.2.trace) hr.symm
  all_goals rfl

/-! ## The connection to the origin -/

/-- A client with a new socket for its origin. -/
def connecting (s : Proxy) (i : ClientId) (originSocket : Int) : Proxy :=
  (s.openFd i originSocket).modify i fun c =>
    { c with state := .SEND_REQ, originFd := originSocket }

/-- A call of `client_block` puts no job in the queue. -/
theorem jobs_clientBlock (s : Proxy) (fd : Int) (i : ClientId) (o : BlockCalls) :
    (s.clientBlock fd i o).jobs = s.jobs := by
  unfold clientBlock
  simp only
  split
  · exact (closing_unregister s _).jobs
  · split
    · rfl
    · split
      · rfl
      · rfl
      · split
        · rfl
        · split <;> rfl

/-- Connecting an origin for one client leaves the others. -/
theorem clients_connecting_of_ne (s : Proxy) (fd : Int) (h : j ≠ i) :
    (s.connecting i fd).clients j = s.clients j := clients_modify_of_ne (s.openFd i fd) _ h

theorem clients_connecting_self (s : Proxy) (i : ClientId) (fd : Int) :
    (s.connecting i fd).clients i = { s.clients i with state := .SEND_REQ, originFd := fd } :=
  clients_modify_self (s.openFd i fd) i _

/-- What `client_block` leaves. -/
inductive BlockEnd (s : Proxy) (i : ClientId) (o : BlockCalls) : Proxy → Prop
  | unresolved (h : (s.clients i).host.resolved = false) :
    BlockEnd s i o (s.unregister (s.clients i).clientFd)
  | noSocket (h : (s.clients i).host.resolved = true) (hs : o.socket = none) :
    BlockEnd s i o (s.modify i fun c => { c with state := .CLI_ERROR })
  | unwatched (h : (s.clients i).host.resolved = true) {fd : Int} (hs : o.socket = some fd)
    (hc : o.connect ≠ .inProgress) : BlockEnd s i o (s.connecting i fd)
  | watched (h : (s.clients i).host.resolved = true) {fd : Int} (hs : o.socket = some fd)
    (hc : o.connect = .inProgress) (hv : invalidFd fd = false) (hfree : s.sel.handlerAt fd = none)
    {sel : Selector Handlers}
    (hsel : sel.handlerAt = Function.update s.sel.handlerAt fd (some (.remote i)))
    (hslots : ∀ fd', fd' ≠ fd → fd' ≠ (s.clients i).clientFd → sel.fds fd' = s.sel.fds fd') :
    BlockEnd s i o { s.connecting i fd with sel := sel }
  | refused (h : (s.clients i).host.resolved = true) {fd : Int} (hs : o.socket = some fd)
    (hc : o.connect = .inProgress) {sel : Selector Handlers}
    (hsel : sel.handlerAt = s.sel.handlerAt)
    (hslots : ∀ fd', fd' ≠ (s.clients i).clientFd → sel.fds fd' = s.sel.fds fd')
    (hbad : invalidFd fd = true ∨ s.sel.handlerAt fd ≠ none) :
    BlockEnd s i o ({ s.connecting i fd with sel := sel }.stop (.exited 13))

/-- The three ends of `client_block` for a descriptor that is the client's. -/
theorem clientBlock_end {fd : Int} (hfd : s.sel.handlerAt fd = some (.client i))
    (hown : (s.clients i).clientFd = fd) (hv : invalidFd fd = false) (o : BlockCalls) :
    BlockEnd s i o (s.clientBlock fd i o) := by
  unfold clientBlock
  simp only
  cases hres : (s.clients i).host.resolved with
  | false => exact .unresolved hres
  | true =>
    simp only [Bool.true_eq_false, if_false]
    cases hs : o.socket with
    | none => exact .noSocket hres hs
    | some x =>
      cases hc : o.connect with
      | success => exact .unwatched hres hs (by rw [hc]; nofun)
      | failed => exact .unwatched hres hs (by rw [hc]; nofun)
      | inProgress =>
        have hset : (s.sel.setInterest fd OP_NOOP).1 = .SELECTOR_SUCCESS :=
          Selector.setInterest_success s.sel OP_NOOP hv (by rw [hfd]; exact Option.some_ne_none _)
        have hhandlers := Selector.handlerAt_setInterest s.sel fd OP_NOOP
        have hslots : ∀ fd', fd' ≠ fd →
            (s.sel.setInterest fd OP_NOOP).2.fds fd' = s.sel.fds fd' :=
          fun _ h => Selector.fds_setInterest s.sel _ h
        simp only
        have hset' : ¬((((s.openFd i x).modify i fun c =>
            { c with state := .SEND_REQ, originFd := x }).sel.setInterest fd OP_NOOP).1 ≠
              .SELECTOR_SUCCESS) := not_not.mpr hset
        rw [if_neg hset']
        rcases Selector.register_eq (s.sel.setInterest fd OP_NOOP).2 x (.remote i) OP_WRITE with
          ⟨hvx, hfree, hok, hsel, hrest⟩ | ⟨hbad, hfail, hsame⟩
        · rw [hhandlers] at hfree hsel
          refine (if_neg (not_not.mpr hok)) ▸ .watched hres hs hc hvx hfree hsel ?_
          intro fd' hx hfd'
          exact (hrest fd' hx).trans (hslots fd' (hown ▸ hfd'))
        · rw [hhandlers] at hbad
          refine (if_pos hfail) ▸ .refused hres hs hc ?_ ?_ hbad
          · exact (congrArg Selector.handlerAt hsame).trans hhandlers
          · intro fd' hfd'
            exact (congrFun (congrArg Selector.fds hsame) fd').trans (hslots fd' (hown ▸ hfd'))

end Proxy

end HttpProxy
