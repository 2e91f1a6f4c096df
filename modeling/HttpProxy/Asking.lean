import HttpProxy.AfterClose

/-!
# A client's host is asked for once

The request parser announces a host where it goes to `FINISHED`, which it never leaves. So a client
has a resolver's thread once at most, and what comes after the thread (the address, the origin, the
states behind `NO_ORIGIN`) comes after the parser's end. A request that the parser refuses closes
its client, so the parser of a client that is not closed has found no error.
-/

namespace HttpProxy

/-- What a handler changes of a client when it does not announce its host. -/
structure Client.Steady (c c' : Client) : Prop where
  parserState : c'.reqData.parserState = c.reqData.parserState
  parsed : c'.reqData.state = c.reqData.state
  state : c.reqData.parserState ≠ .FINISHED → c'.state = c.state
  resolved : c'.host.resolved = c.host.resolved
  originFd : c'.originFd = c.originFd ∨ c'.originFd = -1

namespace Client.Steady

theorem refl (c : Client) : Steady c c := ⟨rfl, rfl, fun _ => rfl, rfl, .inl rfl⟩

/-- Two steps without an announcement are one; an origin that the first took away stays away. -/
theorem trans {c c' c'' : Client} (h : Steady c c') (h' : Steady c' c'') : Steady c c'' where
  parserState := h'.parserState.trans h.parserState
  parsed := h'.parsed.trans h.parsed
  state hp := (h'.state (h.parserState ▸ hp)).trans (h.state hp)
  resolved := h'.resolved.trans h.resolved
  originFd := by
    rcases h'.originFd with heq | heq
    · rw [heq]
      exact h.originFd
    · exact .inr heq

end Client.Steady

namespace Proxy

variable {s s' s'' : Proxy} {i j : ClientId}

/-- No host is announced. -/
structure Steady (s s' : Proxy) : Prop where
  running : s'.status = .running → s.status = .running
  clients : ∀ j, Client.Steady (s.clients j) (s'.clients j)
  resolving : s'.resolving = s.resolving
  made : s'.made = s.made
  trace : s.trace <:+ s'.trace

namespace Steady

theorem refl (s : Proxy) : Steady s s := ⟨id, fun _ => .refl _, rfl, rfl, List.suffix_refl _⟩

/-- Two parts of a handler without an announcement are one. -/
theorem trans (h : Steady s s') (h' : Steady s' s'') : Steady s s'' where
  running hr := h.running (h'.running hr)
  clients j := (h.clients j).trans (h'.clients j)
  resolving := h'.resolving.trans h.resolving
  made := h'.made.trans h.made
  trace := h.trace.trans h'.trace

/-- An action on the outside world announces no host. -/
theorem act (h : Steady s s') (a : Action) : Steady s (s'.act a) :=
  h.trans ⟨id, fun _ => .refl _, rfl, rfl, List.suffix_cons a _⟩

/-- Naming the client that the handler is for announces no host. -/
theorem use (h : Steady s s') (i : ClientId) : Steady s (s'.use i) := h.act _

/-- A change of one client that is steady for it announces no host. -/
theorem modify (h : Steady s s') {f : Client → Client}
    (hf : Client.Steady (s'.clients i) (f (s'.clients i))) : Steady s (s'.modify i f) := by
  refine h.trans ⟨id, fun j => ?_, rfl, rfl, List.suffix_refl _⟩
  by_cases hj : j = i
  · subst hj
    rw [clients_modify_self]
    exact hf
  · rw [clients_modify_of_ne s' f hj]
    exact .refl _

/-- A change of one client's buffers and parsers that is steady for it announces no host. -/
theorem onBuffers (h : Steady s s') {f : Client → Client}
    (hf : Client.Steady (s'.clients i) (f (s'.clients i))) : Steady s (s'.onBuffers i f) :=
  (h.use i).modify hf

/-- A handler that ends the process announces no host. -/
theorem stop (h : Steady s s') {status : Status} (hs : status ≠ .running) :
    Steady s (s'.stop status) :=
  h.trans ⟨fun hr => absurd hr hs, fun _ => .refl _, rfl, rfl, List.suffix_refl _⟩

/-- A change of interest announces no host. -/
theorem setInterest (h : Steady s s') (fd : Int) (x : FdInterest) : Steady s (s'.setInterest fd x) :=
  h.trans ⟨id, fun _ => .refl _, rfl, rfl, List.suffix_refl _⟩

/-- Counting the bytes passed on announces no host. -/
theorem count (h : Steady s s') (n : Nat) : Steady s (s'.count n) :=
  h.trans ⟨id, fun _ => .refl _, rfl, rfl, List.suffix_refl _⟩

/-- Closing connections announces no host. It can only take origins away. -/
theorem closing (h : Steady s s') (hc : Closing s' s'')
    (horigin : ∀ j, (s''.clients j).originFd = (s'.clients j).originFd ∨
      (s''.clients j).originFd = -1) : Steady s s'' := by
  refine h.trans ⟨fun hr => hc.status ▸ hr, fun j => ?_, hc.resolving, hc.made, ?_⟩
  · have hclient := hc.clients j
    exact ⟨by rw [hclient], by rw [hclient], fun _ => by rw [hclient], by rw [hclient], horigin j⟩
  · obtain ⟨l, hl, -⟩ := hc.trace
    exact hl ▸ List.suffix_append l _

end Steady

/-- `selector_unregister_fd` takes an origin away or leaves it, to any depth of the nested calls of
`handle_close`. -/
theorem originFd_unregisterAt (depth : Nat) (s : Proxy) (fd : Int) (j : ClientId) :
    ((unregisterAt depth s fd).clients j).originFd = (s.clients j).originFd ∨
      ((unregisterAt depth s fd).clients j).originFd = -1 := by
  have hunset : ∀ (t : Proxy) (i : ClientId),
      ((t.modify i fun c => { c with originFd := -1 }).clients j).originFd =
        (t.clients j).originFd ∨
      ((t.modify i fun c => { c with originFd := -1 }).clients j).originFd = -1 := by
    intro t i
    by_cases hj : j = i
    · subst hj
      rw [clients_modify_self]
      exact .inr rfl
    · rw [clients_modify_of_ne t _ hj]
      exact .inl rfl
  induction depth generalizing s fd with
  | zero => exact .inl rfl
  | succ depth ih =>
    unfold unregisterAt
    split
    · exact .inl rfl
    · split
      · exact .inl rfl
      · next handlers _ =>
        cases handlers with
        | client i =>
          change ((clientClose (unregisterAt depth) s i).clients j).originFd = _ ∨
            ((clientClose (unregisterAt depth) s i).clients j).originFd = _
          unfold clientClose clientFreeResources
          simp only
          split
          · rcases hunset (unregisterAt depth ({ s with
              metrics := metricCloseConnection (s.clients i).initTime s.now s.metrics }.closeFd i
                (s.clients i).originFd) (s.clients i).originFd) i with heq | heq
            · rcases ih ({ s with
                metrics := metricCloseConnection (s.clients i).initTime s.now s.metrics }.closeFd i
                  (s.clients i).originFd) (s.clients i).originFd with heq' | heq'
              · exact .inl (heq.trans heq')
              · exact .inr (heq.trans heq')
            · exact .inr heq
          · exact .inl rfl
        | remote i => exact hunset (s.closeFd i (s.clients i).originFd) i
        | other => exact .inl rfl

/-- Unregistering a descriptor announces no host. -/
theorem Steady.unregister (h : Steady s s') (fd : Int) : Steady s (s'.unregister fd) :=
  h.closing (closing_unregister s' fd) (originFd_unregisterAt 2 s' fd)

/-! ## The handlers that announce no host -/

/-- A read from the client announces no host. -/
theorem Steady.receive (h : Steady s s') (i : ClientId) (r : Option (List UInt8)) :
    Steady s (s'.receive i r) := by
  cases r with
  | none => exact h.use i
  | some bytes =>
    have hread := h.onBuffers (i := i) (f := fun c =>
      { c with preReqParseBuf := bufferWriteAdv c.preReqParseBuf bytes })
      ⟨rfl, rfl, fun _ => rfl, rfl, .inl rfl⟩
    exact hread.act (.received i bytes)

/-- Emptying the buffer in front of the parser announces no host. -/
theorem Steady.drainRequest (h : Steady s s') (i : ClientId) : Steady s (s'.drainRequest i) :=
  h.onBuffers ⟨rfl, rfl, fun _ => rfl, rfl, .inl rfl⟩

/-- Setting the interests behind a response announces no host. -/
theorem Steady.responseInterests (h : Steady s s') (i : ClientId) :
    Steady s (s'.responseInterests i) := by
  unfold Proxy.responseInterests
  simp only
  split
  · split
    · exact (h.setInterest _ _).setInterest _ _
    · exact h.setInterest _ _
  · split
    · exact h.setInterest _ _
    · exact h

/-- `client_write` announces no host. -/
theorem steady_clientWrite (s : Proxy) (i : ClientId) (r : Option Nat) :
    Steady s (s.clientWrite i r) := by
  have huse := (Steady.refl s).use i
  unfold clientWrite
  simp only
  split
  · split
    · split
      · exact huse.unregister _
      · next bytes _ =>
        have hsent := (huse.count bytes.length).onBuffers (i := i) (f := fun c =>
          { c with postResParseBuf := bufferReadAdv c.postResParseBuf bytes.length })
          ⟨rfl, rfl, fun _ => rfl, rfl, .inl rfl⟩
        exact (hsent.act _).setInterest _ _
    · split
      · exact huse.unregister _
      · split
        · exact huse.unregister _
        · exact huse
  · exact .refl s

/-- Parsing a response announces no host: the request parser is not touched. -/
theorem Steady.parseResponse (h : Steady s s') (i : ClientId) (bytes : List UInt8) :
    Steady s (s'.parseResponse i bytes) := by
  have hread := (h.onBuffers (i := i) (f := fun c =>
    { c with preResParseBuf := bufferWriteAdv c.preResParseBuf bytes })
    ⟨rfl, rfl, fun _ => rfl, rfl, .inl rfl⟩).act (.fetched i bytes)
  unfold Proxy.parseResponse
  simp only
  split
  · exact (hread.use i).stop Status.noConfusion
  · next r _ =>
    have hparsed := hread.onBuffers (i := i) (f := fun c =>
      { c with
        resData := r.rData
        preResParseBuf := r.bIn
        postResParseBuf := r.bOut
        preTransfBuf := r.bTransf }) ⟨rfl, rfl, fun _ => rfl, rfl, .inl rfl⟩
    split
    · exact hparsed.stop Status.noConfusion
    · split
      · exact ((hparsed.unregister _).setInterest _ _).responseInterests i
      · exact hparsed.responseInterests i

/-- `remote_read` announces no host. -/
theorem steady_remoteRead (s : Proxy) (i : ClientId) (r : Option (List UInt8)) :
    Steady s (s.remoteRead i r) := by
  have huse := (Steady.refl s).use i
  unfold remoteRead
  simp only
  split
  · split
    · split
      · exact (huse.setInterest _ _).unregister _
      · exact huse
      · exact huse.parseResponse i _
    · exact huse.setInterest _ _
  · exact .refl s

/-- `remote_write` announces no host, when requests are sent only behind the end of the parser. -/
theorem steady_remoteWrite (i : ClientId) (r : Option Nat)
    (hsend : (s.clients i).state = .SEND_REQ → (s.clients i).reqData.parserState = .FINISHED) :
    Steady s (s.remoteWrite i r) := by
  have huse := (Steady.refl s).use i
  unfold remoteWrite
  simp only
  split
  · next hstate =>
    split
    · split
      · exact (huse.setInterest _ _).unregister _
      · next bytes _ =>
        have hsent := (huse.count bytes.length).onBuffers (i := i) (f := fun c =>
          { c with postReqParseBuf := bufferReadAdv c.postReqParseBuf bytes.length })
          ⟨rfl, rfl, fun _ => rfl, rfl, .inl rfl⟩
        exact (hsent.act _).setInterest _ _
    · split
      · exact (huse.setInterest _ _).modify
          ⟨rfl, rfl, fun hp => absurd (hsend hstate) hp, rfl, .inl rfl⟩
      · exact huse.setInterest _ _
  · exact .refl s

/-- Once the request parser is `FINISHED`, a call of it does nothing but set the version. -/
theorem Steady.parseRequest_finished (h : Steady s s')
    (hp : (s'.clients i).reqData.parserState = .FINISHED) : Steady s (s'.parseRequest i) := by
  unfold parseRequest
  simp only
  split
  · next hnone => exact absurd hnone (checkRequest_ne_none hp)
  · next r hr =>
    rw [checkRequest_finished hp hr]
    have hparsed := h.onBuffers (i := i) (f := fun c =>
      { c with
        reqData := { (s'.clients i).reqData with version := .v1_1 }
        preReqParseBuf := (s'.clients i).preReqParseBuf
        postReqParseBuf := (s'.clients i).postReqParseBuf }) ⟨rfl, rfl, fun _ => rfl, rfl, .inl rfl⟩
    exact hparsed.modify ⟨rfl, rfl, fun _ => rfl, rfl, .inl rfl⟩

/-- `client_read` of a client whose request is being sent announces no host. -/
theorem steady_clientRead_sendReq (h : (s.clients i).state = .SEND_REQ)
    (hp : (s.clients i).reqData.parserState = .FINISHED) (r : Option (List UInt8)) :
    Steady s (s.clientRead i r) := by
  have huse := (Steady.refl s).use i
  unfold clientRead
  simp only [h]
  split
  · have hread := huse.receive i ((s.use i).sysRead (s.clients i).clientFd r
      (bufferWriteSpace (s.clients i).preReqParseBuf))
    have hparse := hread.parseRequest_finished (i := i) ((hread.clients i).parserState.trans hp)
    have hdrain := hparse.drainRequest i
    split
    · exact hparse
    · refine (hdrain.modify ⟨rfl, rfl, fun hne => ?_, rfl, .inl rfl⟩).setInterest _ _
      exact absurd ((hdrain.clients i).parserState.trans hp) hne
  · exact huse.setInterest _ _

/-- `client_read` without an origin announces no host once the parser has ended. -/
theorem steady_clientRead_finished (h : (s.clients i).state = .NO_ORIGIN)
    (hp : (s.clients i).reqData.parserState = .FINISHED) (r : Option (List UInt8)) :
    Steady s (s.clientRead i r) := by
  have huse := (Steady.refl s).use i
  unfold clientRead
  simp only [h]
  split
  · rw [if_neg (not_not.mpr hp)]
    have hread : ∀ t, Steady s t → ∀ readBytes,
        Steady s (if (t.receive i readBytes).status ≠ .running then t.receive i readBytes
          else if ((t.receive i readBytes).clients i).reqData.state ≠ .OK then
            (t.receive i readBytes).unregister (s.clients i).clientFd
          else (t.receive i readBytes).drainRequest i) := by
      intro t ht readBytes
      have hreceive := ht.receive i readBytes
      split
      · exact hreceive
      · split
        · exact hreceive.unregister _
        · exact hreceive.drainRequest i
    apply hread
    split
    · exact huse.unregister _
    · exact huse
  · exact huse.setInterest _ _

/-- Once the request parser has ended, `client_read` announces no host in any state. -/
theorem steady_clientRead_of_finished (hp : (s.clients i).reqData.parserState = .FINISHED)
    (r : Option (List UInt8)) : Steady s (s.clientRead i r) := by
  by_cases hnone : (s.clients i).state = .NO_ORIGIN
  · exact steady_clientRead_finished hnone hp r
  · by_cases hsend : (s.clients i).state = .SEND_REQ
    · exact steady_clientRead_sendReq hsend hp r
    · rw [clientRead_otherwise hnone hsend]
      exact .refl s

/-! ## What is known of the hosts -/

/-- Before its parser is `FINISHED` a client is as new, and it has one resolver's thread at most. -/
structure Told (s : Proxy) : Prop where
  parsing : ∀ i, (s.clients i).reqData.parserState ≠ .FINISHED →
    (s.clients i).state = .NO_ORIGIN ∧ (s.clients i).host.resolved = false ∧
      (s.clients i).originFd = -1 ∧ i ∉ s.resolving
  resolving : s.resolving.Nodup
  unresolved : ∀ i ∈ s.resolving, i < s.made ∧ (s.clients i).host.resolved = false ∧
    (s.clients i).originFd = -1
  connected : ∀ i, (s.clients i).originFd ≠ -1 → (s.clients i).host.resolved = true

/-- The parser of a client that is not closed has found no error. -/
def Fine (s : Proxy) : Prop :=
  s.status = .running → ∀ i, s.Live i → (s.clients i).reqData.state = .OK

/-- A client that is not closed behind a handler was not closed in front of it. -/
theorem Steady.live (h : Steady s s') (hj : s'.Live j) : s.Live j :=
  ⟨h.made ▸ hj.1, fun seconds hmem => hj.2 seconds (h.trace.subset hmem)⟩

/-- Without an announcement no parser finds an error. -/
theorem Fine.steady (h : Fine s) (hs : Steady s s') : Fine s' := by
  intro hrun j hj
  rw [(hs.clients j).parsed]
  exact h (hs.running hrun) j (hs.live hj)

namespace Told

/-- Without an announcement nothing of what is told of the clients changes. -/
theorem steady (h : Told s) (hs : Steady s s') : Told s' where
  parsing j hp := by
    have hc := hs.clients j
    rw [hc.parserState] at hp
    obtain ⟨hstate, hresolved, horigin, hnone⟩ := h.parsing j hp
    refine ⟨(hc.state hp).trans hstate, hc.resolved.trans hresolved, ?_, hs.resolving ▸ hnone⟩
    rcases hc.originFd with heq | heq
    · exact heq.trans horigin
    · exact heq
  resolving := hs.resolving ▸ h.resolving
  unresolved j hj := by
    have hc := hs.clients j
    obtain ⟨hmade, hresolved, horigin⟩ := h.unresolved j (hs.resolving ▸ hj)
    refine ⟨hs.made ▸ hmade, hc.resolved.trans hresolved, ?_⟩
    rcases hc.originFd with heq | heq
    · exact heq.trans horigin
    · exact heq
  connected j hj := by
    have hc := hs.clients j
    rw [hc.resolved]
    rcases hc.originFd with heq | heq
    · exact h.connected j (heq ▸ hj)
    · exact absurd heq hj

/-- A client that has an address has a parser that has ended. -/
theorem finished_of_resolved (h : Told s) (hr : (s.clients i).host.resolved = true) :
    (s.clients i).reqData.parserState = .FINISHED := by
  by_contra hp
  rw [(h.parsing i hp).2.1] at hr
  cases hr

/-- A client that left `NO_ORIGIN` has a parser that has ended. -/
theorem finished_of_state (h : Told s) (hs : (s.clients i).state ≠ .NO_ORIGIN) :
    (s.clients i).reqData.parserState = .FINISHED := by
  by_contra hp
  exact hs (h.parsing i hp).1

/-- A client whose parser goes on. -/
theorem parsed (h : Told s) {f : Client → Client}
    (hp : (s.clients i).reqData.parserState ≠ .FINISHED)
    (hstate : (f (s.clients i)).state = (s.clients i).state ∨
      (f (s.clients i)).reqData.parserState = .FINISHED)
    (hresolved : (f (s.clients i)).host.resolved = (s.clients i).host.resolved)
    (horigin : (f (s.clients i)).originFd = (s.clients i).originFd) : Told (s.modify i f) := by
  obtain ⟨hnew, hunresolved, hnone, hasked⟩ := h.parsing i hp
  have hcases : ∀ j, (s.modify i f).clients j = s.clients j ∨
      j = i ∧ (s.modify i f).clients i = f (s.clients i) := by
    intro j
    by_cases hj : j = i
    · exact .inr ⟨hj, clients_modify_self s i f⟩
    · exact .inl (clients_modify_of_ne s f hj)
  constructor
  case parsing =>
    intro j hj
    rcases hcases j with heq | ⟨rfl, heq⟩
    · rw [heq] at hj ⊢
      exact h.parsing j hj
    · rw [heq] at hj ⊢
      exact ⟨(hstate.resolve_right hj).trans hnew, hresolved.trans hunresolved,
        horigin.trans hnone, hasked⟩
  case resolving => exact h.resolving
  case unresolved =>
    intro j hj
    rcases hcases j with heq | ⟨rfl, heq⟩
    · rw [heq]
      exact h.unresolved j hj
    · exact absurd hj hasked
  case connected =>
    intro j hj
    rcases hcases j with heq | ⟨rfl, heq⟩
    · rw [heq] at hj ⊢
      exact h.connected j hj
    · rw [heq, horigin] at hj
      exact absurd hnone hj

/-- A client without an address is given its host. -/
theorem setHost (h : Told s) (hi : i < s.made)
    (hp : (s.clients i).reqData.parserState = .FINISHED)
    (hresolved : (s.clients i).host.resolved = false) (horigin : (s.clients i).originFd = -1)
    (hasked : i ∉ s.resolving) (host : List UInt8) (port : Int) :
    Told (s.clientSetHost i host port) := by
  have hset : Told ((s.use i).modify i fun _ => ((s.clients i).setHost host port).2) :=
    h.steady (((Steady.refl s).use i).modify
      ⟨by rw [reqData_setHost]; rfl, by rw [reqData_setHost]; rfl, fun hne => absurd hp hne,
        resolved_setHost _ _ _, .inl (originFd_setHost _ _ _)⟩)
  have hself : ((s.use i).modify i fun _ => ((s.clients i).setHost host port).2).clients i =
      ((s.clients i).setHost host port).2 := clients_modify_self _ _ _
  unfold clientSetHost
  simp only
  split
  · refine Told.steady ?_ ((Steady.refl _).act (.asked i))
    constructor
    case parsing =>
      intro j hj
      obtain ⟨hstate, hres, hfd, hnone⟩ := hset.parsing j hj
      refine ⟨hstate, hres, hfd, fun hmem => ?_⟩
      rcases List.mem_cons.mp hmem with rfl | hmem
      · refine hj ?_
        refine (congrArg (fun c => c.reqData.parserState) hself).trans ?_
        simp only [reqData_setHost]
        exact hp
      · exact hnone hmem
    case resolving => exact List.nodup_cons.mpr ⟨hasked, h.resolving⟩
    case unresolved =>
      intro j hj
      rcases List.mem_cons.mp hj with rfl | hj
      · refine ⟨hi, ?_, ?_⟩
        · refine (congrArg (fun c => c.host.resolved) hself).trans ?_
          simp only [resolved_setHost]
          exact hresolved
        · refine (congrArg Client.originFd hself).trans ?_
          rw [originFd_setHost]
          exact horigin
      · exact hset.unresolved j hj
    case connected => exact hset.connected
  · exact hset

/-- Parsing what was read either leaves the parser in front of its end, or ends it and asks for the
host. -/
theorem parseRequest (h : Told s) (hi : i < s.made)
    (hp : (s.clients i).reqData.parserState ≠ .FINISHED) : Told (s.parseRequest i) := by
  obtain ⟨-, hresolved, horigin, hasked⟩ := h.parsing i hp
  unfold Proxy.parseRequest
  simp only
  split
  · exact h.steady (((Steady.refl s).use i).stop Status.noConfusion)
  · next r hr =>
    have hcomplete : ∀ t : Proxy, Steady t
        (t.modify i fun c => { c with requestComplete := r.success }) := fun t =>
      (Steady.refl t).modify ⟨rfl, rfl, fun _ => rfl, rfl, .inl rfl⟩
    have hused : Told (s.use i) := h.steady ((Steady.refl s).use i)
    have hbufs : Told (s.onBuffers i fun c =>
        { c with reqData := r.rData, preReqParseBuf := r.bIn, postReqParseBuf := r.bOut }) :=
      hused.parsed hp (.inl rfl) rfl rfl
    have hself : (s.onBuffers i fun c =>
        { c with reqData := r.rData, preReqParseBuf := r.bIn, postReqParseBuf := r.bOut }).clients
        i = { s.clients i with
          reqData := r.rData, preReqParseBuf := r.bIn, postReqParseBuf := r.bOut } :=
      clients_modify_self (s.use i) i _
    rcases checkRequest_calls hr with hcalls | ⟨-, hfinished, call, hcalls⟩
    · rw [hcalls]
      exact hbufs.steady (hcomplete _)
    · rw [hcalls]
      refine Told.steady (hbufs.setHost hi ?_ ?_ ?_ hasked call.1 call.2) (hcomplete _)
      · rw [hself]
        exact hfinished
      · rw [hself]
        exact hresolved
      · rw [hself]
        exact horigin

/-- A new client is as new, and the others stay as they are. -/
theorem accept (h : Told s) (o : AcceptCalls) : Told (s.listenReadHandler o) := by
  cases ho : o.accept with
  | none =>
    unfold listenReadHandler
    rwa [ho]
  | some fd =>
    have ha := accepts_listenReadHandler (s := s) ho
    have hnew : s.made ∉ s.resolving := fun hmem => Nat.lt_irrefl _ (h.unresolved _ hmem).1
    constructor
    case parsing =>
      intro j hj
      rw [ha.resolving]
      by_cases hjm : j = s.made
      · subst hjm
        exact ⟨ha.client.state, by rw [ha.client.host], ha.client.originFd, hnew⟩
      · rw [ha.others j hjm] at hj ⊢
        exact h.parsing j hj
    case resolving => exact ha.resolving ▸ h.resolving
    case unresolved =>
      intro j hj
      obtain ⟨hmade, hresolved, horigin⟩ := h.unresolved j (ha.resolving ▸ hj)
      rw [ha.others j (Nat.ne_of_lt hmade), ha.made]
      exact ⟨Nat.lt_succ_of_lt hmade, hresolved, horigin⟩
    case connected =>
      intro j hj
      by_cases hjm : j = s.made
      · subst hjm
        exact absurd ha.client.originFd hj
      · rw [ha.others j hjm] at hj ⊢
        exact h.connected j hj

/-- A client with an address gets an origin to connect to. -/
theorem connecting (h : Told s) (hres : (s.clients i).host.resolved = true) (fd : Int) :
    Told (s.connecting i fd) := by
  have hp := h.finished_of_resolved hres
  have hcases : ∀ j, (s.connecting i fd).clients j = s.clients j ∨ j = i ∧
      (s.connecting i fd).clients i = { s.clients i with state := .SEND_REQ, originFd := fd } := by
    intro j
    by_cases hj : j = i
    · exact .inr ⟨hj, clients_connecting_self s i fd⟩
    · exact .inl (clients_connecting_of_ne s fd hj)
  constructor
  case parsing =>
    intro j hj
    rcases hcases j with heq | ⟨rfl, heq⟩
    · rw [heq] at hj ⊢
      exact h.parsing j hj
    · rw [heq] at hj
      exact absurd hp hj
  case resolving => exact h.resolving
  case unresolved =>
    intro j hj
    rcases hcases j with heq | ⟨rfl, heq⟩
    · rw [heq]
      exact h.unresolved j hj
    · have hno := (h.unresolved j hj).2.1
      rw [hres] at hno
      cases hno
  case connected =>
    intro j hj
    rcases hcases j with heq | ⟨rfl, heq⟩
    · rw [heq] at hj ⊢
      exact h.connected j hj
    · rw [heq]
      exact hres

/-- Whatever `client_block` ends in, a client gets an origin only with an address. -/
theorem blockEnd (h : Told s) {o : BlockCalls} (he : BlockEnd s i o s') : Told s' := by
  cases he with
  | unresolved _ => exact h.steady ((Steady.refl s).unregister _)
  | noSocket hres _ =>
    have hp := h.finished_of_resolved hres
    exact h.steady ((Steady.refl s).modify ⟨rfl, rfl, fun hne => absurd hp hne, rfl, .inl rfl⟩)
  | unwatched hres _ _ => exact h.connecting hres _
  | watched hres _ _ _ _ _ _ =>
    have hc := h.connecting hres
    exact ⟨(hc _).parsing, h.resolving, (hc _).unresolved, (hc _).connected⟩
  | refused hres _ _ _ _ _ =>
    have hc := h.connecting hres
    exact ⟨(hc _).parsing, h.resolving, (hc _).unresolved, (hc _).connected⟩

/-- A resolver's thread that ends is no more, whether it found an address or not. -/
theorem resolve (h : Told s) (i : ClientId) (found : Bool) : Told (s.resolve i found) := by
  unfold Proxy.resolve
  split
  · next hi =>
    obtain ⟨hmade, hresolved, horigin⟩ := h.unresolved i hi
    have hp : (s.clients i).reqData.parserState = .FINISHED := by
      by_contra hne
      exact (h.parsing i hne).2.2.2 hi
    have hcases : ∀ j, ({ s with
        resolving := s.resolving.erase i, notifying := i :: s.notifying }.modify i fun c =>
          { c with host := { c.host with resolved := found } } : Proxy).clients j = s.clients j ∧
          j ≠ i ∨ j = i ∧ ({ s with
        resolving := s.resolving.erase i, notifying := i :: s.notifying }.modify i fun c =>
          { c with host := { c.host with resolved := found } } : Proxy).clients i =
          { s.clients i with host := { (s.clients i).host with resolved := found } } := by
      intro j
      by_cases hj : j = i
      · exact .inr ⟨hj, clients_modify_self _ _ _⟩
      · exact .inl ⟨clients_modify_of_ne _ _ hj, hj⟩
    constructor
    case parsing =>
      intro j hj
      rcases hcases j with ⟨heq, -⟩ | ⟨rfl, heq⟩
      · rw [heq] at hj ⊢
        obtain ⟨hstate, hres, hfd, hnone⟩ := h.parsing j hj
        exact ⟨hstate, hres, hfd, fun hmem => hnone (List.mem_of_mem_erase hmem)⟩
      · rw [heq] at hj
        exact absurd hp hj
    case resolving => exact h.resolving.erase i
    case unresolved =>
      intro j hj
      obtain ⟨hji, hj⟩ := (h.resolving.mem_erase_iff).mp hj
      rcases hcases j with ⟨heq, -⟩ | ⟨rfl, -⟩
      · rw [heq]
        exact h.unresolved j hj
      · exact absurd rfl hji
    case connected =>
      intro j hj
      rcases hcases j with ⟨heq, -⟩ | ⟨rfl, heq⟩
      · rw [heq] at hj ⊢
        exact h.connected j hj
      · rw [heq] at hj
        exact absurd horigin hj
  · exact h

end Told

/-- Between the statements of a handler of client `i`, which has its slot until it is closed. -/
structure Attended (i : ClientId) (s : Proxy) : Prop where
  ownedBy : OwnedBy i s
  bound : s.Live i → s.sel.handlerAt (s.clients i).clientFd = some (.client i)

namespace Attended

/-- A quiet part of the handler leaves the client its slot. -/
theorem quiet (h : Attended i s) (hq : Quiet i s s') : Attended i s' where
  ownedBy := h.ownedBy.quiet hq
  bound hi := by
    obtain ⟨l, hl, hquiet⟩ := hq.trace
    rw [hq.handlers, hq.client.clientFd]
    exact h.bound ((not_ended_append (fun _ hmem => hquiet _ hmem) s s' hl hq.made).mp hi)

/-- Giving the client its host leaves it its slot. -/
theorem setHost (h : Attended i s) (host : List UInt8) (port : Int) :
    Attended i (s.clientSetHost i host port) where
  ownedBy := h.ownedBy.setHost host port
  bound hi := by
    have hlive : s.Live i := by
      unfold clientSetHost at hi
      simp only at hi
      split at hi
      · exact ⟨hi.1, fun seconds hmem => hi.2 seconds (List.mem_cons_of_mem _
          (List.mem_cons_of_mem _ hmem))⟩
      · exact ⟨hi.1, fun seconds hmem => hi.2 seconds (List.mem_cons_of_mem _ hmem)⟩
    rw [sel_clientSetHost, clients_clientSetHost, Function.update_self, clientFd_setHost]
    exact h.bound hlive

/-- The call that may announce the host leaves the client its slot. -/
theorem asks (h : Attended i s) (ha : Asks i s s') : Attended i s' :=
  keeps_asks (fun _ _ h hq => h.quiet hq) (fun _ host port h => h.setHost host port) h ha

/-- Unregistering the client's descriptor closes it: the slot it has is its own. -/
theorem not_live (h : Attended i s) : ¬Live (s.unregister (s.clients i).clientFd) i := by
  intro hi
  rcases h.ownedBy.slot with hslot | hslot
  · rw [unregister_of_none hslot] at hi
    exact absurd (hslot.symm.trans (h.bound hi)) (Option.some_ne_none _).symm
  · have he := h.ownedBy.owned.ends h.ownedBy.slots hslot
    exact ((he.live i).mp hi).2 rfl

/-- Behind the unregistering of its descriptor the client is closed, and its slot is no longer asked
for. -/
theorem unregister (h : Attended i s) : Attended i (s.unregister (s.clients i).clientFd) :=
  ⟨h.ownedBy.of_unregister, fun hi => absurd hi h.not_live⟩

end Attended

/-- A client that is not closed behind a quiet part was not closed in front of it. -/
theorem Quiet.live_before (h : Quiet i s s') (hj : s'.Live j) : s.Live j := by
  obtain ⟨l, hl, hquiet⟩ := h.trace
  exact (not_ended_append (fun _ hmem => hquiet _ hmem) s s' hl h.made).mp hj

/-- Giving a client its host closes nobody. -/
theorem live_of_setHost {host : List UInt8} {port : Int}
    (h : (s.clientSetHost i host port).Live j) : s.Live j := by
  unfold clientSetHost at h
  simp only at h
  split at h
  · exact ⟨h.1, fun seconds hmem => h.2 seconds (List.mem_cons_of_mem _
      (List.mem_cons_of_mem _ hmem))⟩
  · exact ⟨h.1, fun seconds hmem => h.2 seconds (List.mem_cons_of_mem _ hmem)⟩

/-- `client_read` behind the end of the request parser: only a failed `read` closes the client. -/
theorem clientRead_ended (h : (s.clients i).state = .NO_ORIGIN)
    (hp : (s.clients i).reqData.parserState = .FINISHED) (hok : (s.clients i).reqData.state = .OK)
    (r : Option (List UInt8)) :
    Quiet i s (s.clientRead i r) ∧ ¬s.ReadFails i r ∨
      s.ReadFails i r ∧ ∃ s₁, Quiet i s s₁ ∧
        Quiet i (s₁.unregister (s.clients i).clientFd) (s.clientRead i r) := by
  have huse : Quiet i s (s.use i) := (Quiet.refl i s).use
  have hdrain : ∀ t, Steady s t → ∀ readBytes, Quiet i t
      (if (t.receive i readBytes).status ≠ .running then t.receive i readBytes
        else if ((t.receive i readBytes).clients i).reqData.state ≠ .OK then
          (t.receive i readBytes).unregister (s.clients i).clientFd
        else (t.receive i readBytes).drainRequest i) := by
    intro t ht readBytes
    have hreceive := (Quiet.refl i t).receive readBytes
    have hparsed := ((ht.receive i readBytes).clients i).parsed.trans hok
    rw [if_neg (not_not.mpr hparsed)]
    split
    · exact hreceive
    · exact hreceive.drainRequest
  unfold clientRead
  simp only [h]
  split
  · next hroom =>
    rw [if_neg (not_not.mpr hp)]
    have hread : (s.use i).sysRead (s.clients i).clientFd r
        (bufferWriteSpace (s.clients i).preReqParseBuf) = s.sysRead (s.clients i).clientFd r
        (bufferWriteSpace (s.clients i).preReqParseBuf) := rfl
    rw [hread]
    generalize hbytes : s.sysRead (s.clients i).clientFd r
      (bufferWriteSpace (s.clients i).preReqParseBuf) = readBytes
    cases readBytes with
    | none =>
      refine .inr ⟨⟨h, hroom, hbytes⟩, _, huse, ?_⟩
      exact hdrain _ (((Steady.refl s).use i).unregister _) none
    | some bytes =>
      refine .inl ⟨huse.trans (hdrain _ ((Steady.refl s).use i) (some bytes)), fun hfails => ?_⟩
      rw [hfails.2.2] at hbytes
      cases hbytes
  · next hroom =>
    exact .inl ⟨huse.setInterest fun _ => .inl rfl, fun hfails => hroom hfails.2.1⟩

/-- `client_read` in front of the call of `checkRequest`. -/
theorem clientRead_parsing (h : (s.clients i).state = .NO_ORIGIN)
    (hp : (s.clients i).reqData.parserState ≠ .FINISHED) (r : Option (List UInt8)) :
    Steady s (s.clientRead i r) ∨
      ∃ t, Steady s t ∧ (Quiet i s t ∨ ∃ s₁, Quiet i s s₁ ∧
        Quiet i (s₁.unregister (s.clients i).clientFd) t) ∧
      s.clientRead i r =
        if (t.parseRequest i).status ≠ .running then t.parseRequest i
        else if ((t.parseRequest i).clients i).reqData.state ≠ .OK then
          (t.parseRequest i).unregister (s.clients i).clientFd
        else (t.parseRequest i).drainRequest i := by
  have huse := (Steady.refl s).use i
  have hquiet : Quiet i s (s.use i) := (Quiet.refl i s).use
  unfold clientRead
  simp only [h]
  split
  · refine .inr ⟨_, ?_, ?_, rfl⟩
    · split
      · exact (huse.unregister _).receive i _
      · exact huse.receive i _
    · split
      · exact .inr ⟨_, hquiet, (Quiet.refl i _).receive _⟩
      · exact .inl (hquiet.receive _)
  · exact .inl (huse.setInterest _ _)

/-- `client_read` keeps what is told of the clients. Its cases are the state, and whether the parser
has ended. -/
theorem Told.clientRead (h : Told s) (hi : i < s.made) (r : Option (List UInt8)) :
    Told (s.clientRead i r) := by
  by_cases hp : (s.clients i).reqData.parserState = .FINISHED
  · exact h.steady (steady_clientRead_of_finished hp r)
  · rcases clientRead_parsing (h.parsing i hp).1 hp r with hs | ⟨t, ht, -, heq⟩
    · exact h.steady hs
    · have hparse := (h.steady ht).parseRequest (ht.made ▸ hi)
        fun hp' => hp ((ht.clients i).parserState.symm.trans hp')
      rw [heq]
      split
      · exact hparse
      · split
        · exact hparse.steady ((Steady.refl _).unregister _)
        · exact hparse.steady ((Steady.refl _).drainRequest i)

/-- Every handler that the selector calls keeps what is told of the clients. -/
theorem Told.call (h : Told s) (hslots : Slots s) {c : Call} (hreg : s.Registered c) :
    Told (s.call c) := by
  cases c with
  | accept o => exact h.accept o
  | clientRead i r =>
    obtain ⟨fd, hfd⟩ := hreg
    exact h.clientRead (hslots.client fd i hfd).2 r
  | clientWrite i r => exact h.steady (steady_clientWrite s i r)
  | clientBlock fd i o => exact h.blockEnd (hslots.clientBlock hreg o)
  | remoteRead i r => exact h.steady (steady_remoteRead s i r)
  | remoteWrite i r =>
    refine h.steady (steady_remoteWrite i r fun hstate => h.finished_of_state ?_)
    rw [hstate]
    exact ClientState.noConfusion

/-- What is told of the clients is preserved by a run in which the slots are. -/
theorem preserved_told : Preserved (fun s _ => Slots s) Told where
  call _ _ h _ hreg hslots := h.call hslots hreg
  clock _ _ h := ⟨h.parsing, h.resolving, h.unresolved, h.connected⟩
  resolve _ i found h := h.resolve i found
  notify _ _ h := by
    unfold Proxy.notify
    split
    · exact ⟨h.parsing, h.resolving, h.unresolved, h.connected⟩
    · exact h
  resumed _ s' _ _ _ _ _ h := h.steady ((Steady.refl s').act _)
  cleared _ h := ⟨h.parsing, h.resolving, h.unresolved, h.connected⟩
  crashed s h := h.steady ((Steady.refl s).stop Status.noConfusion)

/-- At the start nothing was asked for. -/
theorem Started.told (h : Started s) : Told s := by
  obtain ⟨conf, registered, others, -, rfl⟩ := h
  exact ⟨fun _ _ => ⟨rfl, rfl, rfl, List.not_mem_nil⟩, List.nodup_nil, nofun,
    fun _ hne => absurd rfl hne⟩

namespace Fine

/-- Where nobody is revived and no parser goes on, no parser finds an error. -/
theorem same (h : Fine s) (hrun : s'.status = .running → s.status = .running)
    (hlive : ∀ j, s'.Live j → s.Live j)
    (hparsed : ∀ j, s'.Live j → (s'.clients j).reqData.state = (s.clients j).reqData.state) :
    Fine s' := by
  intro hr j hj
  rw [hparsed j hj]
  exact h (hrun hr) j (hlive j hj)

/-- `client_read` closes the client in whose request the parser finds an error, before it
returns. -/
theorem clientRead (h : Fine s) (htold : Told s) (hi : Attended i s) (r : Option (List UInt8)) :
    Fine (s.clientRead i r) := by
  by_cases hp : (s.clients i).reqData.parserState = .FINISHED
  · exact h.steady (steady_clientRead_of_finished hp r)
  · rcases clientRead_parsing (htold.parsing i hp).1 hp r with hs | ⟨t, ht, hread, heq⟩
    · exact h.steady hs
    · have hfd : (t.clients i).clientFd = (s.clients i).clientFd := by
        rcases hread with hq | ⟨s₁, hq, hq'⟩
        · exact hq.client.clientFd
        · rw [hq'.client.clientFd, (closing_unregister s₁ _).clientFd i]
          exact hq.client.clientFd
      have hat : Attended i t := by
        rcases hread with hq | ⟨s₁, hq, hq'⟩
        · exact hi.quiet hq
        · rw [← hq.client.clientFd] at hq'
          exact (hi.quiet hq).unregister.quiet hq'
      have hasks := asks_parseRequest t i
      have hparsed := hat.asks hasks
      have hfine := h.steady ht
      rw [heq, ← hfd, ← asks_clientFd hasks]
      generalize t.parseRequest i = u at hasks hparsed
      -- The other clients keep what they have parsed.
      have hothers : ∀ j, j ≠ i → u.status = .running → u.Live j →
          (u.clients j).reqData.state = .OK := by
        intro j hj hrun hlive
        rcases hasks with hq | ⟨s₁, host, port, hq, hq'⟩
        · rw [hq.others j hj]
          exact hfine (hq.running hrun) j (hq.live_before hlive)
        · rw [hq'.others j hj, clients_clientSetHost, Function.update_of_ne hj, hq.others j hj]
          have hset := live_of_setHost (hq'.live_before hlive)
          have hstatus := status_clientSetHost s₁ i host port
          exact hfine (hq.running (hstatus ▸ hq'.running hrun)) j (hq.live_before hset)
      split
      · next hstop => exact fun hrun => absurd hrun hstop
      · next hrun =>
        have hrunning := not_not.mp hrun
        split
        · intro _ j hj
          have hs := (Steady.refl u).unregister (u.clients i).clientFd
          by_cases hji : j = i
          · subst hji
            exact absurd hj hparsed.not_live
          · rw [(hs.clients j).parsed]
            exact hothers j hji hrunning (hs.live hj)
        · next hok =>
          intro _ j hj
          have hs := (Steady.refl u).drainRequest i
          rw [(hs.clients j).parsed]
          by_cases hji : j = i
          · subst hji
            exact not_not.mp hok
          · exact hothers j hji hrunning (hs.live hj)

/-- The parser of a new client has read nothing. -/
theorem accept (h : Fine s) (o : AcceptCalls) : Fine (s.listenReadHandler o) := by
  cases ho : o.accept with
  | none =>
    unfold listenReadHandler
    rwa [ho]
  | some fd =>
    have ha := accepts_listenReadHandler (s := s) ho
    obtain ⟨l, hl, -⟩ := (piped_transformationsNew (s.openFd s.made fd) s.made o.transf).trace
    intro hrun j hj
    by_cases hjm : j = s.made
    · subst hjm
      rw [ha.client.reqData]
      rfl
    · rw [ha.others j hjm]
      refine h (ha.status ▸ hrun) j ⟨?_, fun seconds hmem => hj.2 seconds ?_⟩
      · have hlt := hj.1
        rw [ha.made, Nat.lt_succ_iff_lt_or_eq] at hlt
        exact hlt.resolve_right hjm
      · rw [ha.trace, hl]
        exact List.mem_cons_of_mem _ (List.mem_append_right l (List.mem_cons_of_mem _ hmem))

/-- Connecting an origin leaves the parsers alone. -/
theorem connecting (h : Fine s) (fd : Int) : Fine (s.connecting i fd) := by
  refine h.same id (fun j hj => ⟨hj.1, fun seconds hmem =>
    hj.2 seconds (List.mem_cons_of_mem _ hmem)⟩) fun j _ => ?_
  by_cases hj : j = i
  · subst hj
    rw [clients_connecting_self]
  · rw [clients_connecting_of_ne s fd hj]

/-- Whatever `client_block` ends in, it leaves the parsers alone. -/
theorem blockEnd (h : Fine s) {o : BlockCalls} (he : BlockEnd s i o s') : Fine s' := by
  cases he with
  | unresolved _ => exact h.steady ((Steady.refl s).unregister _)
  | noSocket _ _ =>
    refine h.same id (fun _ hj => hj) fun j _ => ?_
    by_cases hj : j = i
    · subst hj
      rw [clients_modify_self]
    · rw [clients_modify_of_ne s _ hj]
  | unwatched _ _ _ => exact h.connecting _
  | @watched _ fd _ _ _ _ _ _ _ => exact h.connecting (i := i) fd
  | refused _ _ _ _ _ _ => exact nofun

/-- Every handler that the selector calls closes the clients whose parser finds an error. -/
theorem call (h : Fine s) (htold : Told s) (hslots : Slots s) (howned : Owned s) {c : Call}
    (hreg : s.Registered c) : Fine (s.call c) := by
  cases c with
  | accept o => exact h.accept o
  | clientRead i r =>
    obtain ⟨fd, hfd⟩ := hreg
    refine h.clientRead htold ⟨howned.ownedBy hslots hfd, fun _ => ?_⟩ r
    rw [(hslots.client fd i hfd).1]
    exact hfd
  | clientWrite i r => exact h.steady (steady_clientWrite s i r)
  | clientBlock fd i o => exact h.blockEnd (hslots.clientBlock hreg o)
  | remoteRead i r => exact h.steady (steady_remoteRead s i r)
  | remoteWrite i r =>
    refine h.steady (steady_remoteWrite i r fun hstate => htold.finished_of_state ?_)
    rw [hstate]
    exact ClientState.noConfusion

/-- That no parser of an open client has found an error is preserved by a run in which the slots and
the descriptors are owned. -/
theorem preserved : Preserved (fun s _ => (Slots s ∧ Owned s) ∧ Told s) Fine where
  call _ _ h _ hreg hP := h.call hP.2 hP.1.1 hP.1.2 hreg
  clock _ _ h := h
  resolve s i found h := by
    unfold Proxy.resolve
    split
    · refine h.same id (fun _ hj => hj) fun j _ => ?_
      by_cases hj : j = i
      · subst hj
        rw [clients_modify_self]
      · rw [clients_modify_of_ne _ _ hj]
    · exact h
  notify _ _ h := by
    unfold Proxy.notify
    split <;> exact h
  resumed _ s' _ _ _ _ _ h := h.steady ((Steady.refl s').act _)
  cleared _ h := h
  crashed s h := h.steady ((Steady.refl s).stop Status.noConfusion)

end Fine

/-- No client has a transformation. -/
def Plain (s : Proxy) : Prop := ∀ i, (s.clients i).shouldTransform = false

namespace Plain

/-- A change of one client that leaves `should_transform` alone. -/
theorem modify (h : Plain s) {f : Client → Client}
    (hf : (f (s.clients i)).shouldTransform = (s.clients i).shouldTransform) :
    Plain (s.modify i f) := by
  intro j
  by_cases hj : j = i
  · subst hj
    rw [clients_modify_self, hf]
    exact h j
  · rw [clients_modify_of_ne s f hj]
    exact h j

/-- A quiet part of a handler asks for no transformation. -/
theorem quiet (h : Plain s) (hq : Quiet i s s') : Plain s' := by
  intro j
  by_cases hj : j = i
  · subst hj
    exact hq.client.shouldTransform.trans (h j)
  · rw [hq.others j hj]
    exact h j

/-- Closing connections asks for no transformation. -/
theorem closing (h : Plain s) (hc : Closing s s') : Plain s' := by
  intro j
  rw [hc.clients j]
  exact h j

/-- Giving a client its host asks for no transformation. -/
theorem setHost (h : Plain s) (host : List UInt8) (port : Int) :
    Plain (s.clientSetHost i host port) := by
  intro j
  rw [clients_clientSetHost]
  exact h.modify (i := i) (f := fun _ => ((s.clients i).setHost host port).2)
    (shouldTransform_setHost (s.clients i) host port) j

/-- No handler asks for a transformation: only `client_new` writes `should_transform`. -/
theorem call (h : Plain s) (hslots : Slots s) {c : Call} (hreg : s.Registered c) :
    Plain (s.call c) := by
  have hun : ∀ (t : Proxy) (fd : Int), Plain t → Plain (t.unregister fd) :=
    fun t fd ht => ht.closing (closing_unregister t fd)
  cases c with
  | accept o =>
    intro j
    cases ho : o.accept with
    | none =>
      change ((s.listenReadHandler o).clients j).shouldTransform = _
      unfold listenReadHandler
      rw [ho]
      exact h j
    | some fd =>
      have ha := accepts_listenReadHandler (s := s) ho
      change ((s.listenReadHandler o).clients j).shouldTransform = _
      by_cases hj : j = s.made
      · subst hj
        exact ha.client.shouldTransform
      · rw [ha.others j hj]
        exact h j
  | clientRead i r =>
    exact keeps_clientRead (i := i) (fun _ _ h hq => h.quiet hq)
      (fun _ host port h => h.setHost host port) (fun _ _ h => h.modify rfl)
      (fun t h => hun t _ h) h r
  | clientWrite i r =>
    exact keeps_clientWrite (i := i) (fun _ _ h hq => h.quiet hq) (fun t h => hun t _ h) h r
  | clientBlock fd i o =>
    have hconn : ∀ x, Plain (s.connecting i x) := fun x =>
      Plain.modify (s := s.openFd i x) h rfl
    have he := hslots.clientBlock hreg o
    change Plain (s.clientBlock fd i o)
    generalize s.clientBlock fd i o = t at he ⊢
    cases he with
    | unresolved _ => exact hun _ _ h
    | noSocket _ _ => exact h.modify rfl
    | unwatched _ _ _ => exact hconn _
    | watched _ _ _ _ _ _ _ => exact fun j => hconn _ j
    | refused _ _ _ _ _ _ => exact fun j => hconn _ j
  | remoteRead i r =>
    exact keeps_remoteRead (i := i) (fun _ _ h hq => h.quiet hq) (fun t h => hun t _ h) h r
  | remoteWrite i r =>
    exact keeps_remoteWrite (i := i) (fun _ _ h hq => h.quiet hq) (fun _ _ h => h.modify rfl)
      (fun t h => hun t _ h) h r

/-- That no client has a transformation is preserved by every run. -/
theorem preserved : Preserved (fun s _ => Slots s) Plain where
  call _ _ h _ hreg hslots := h.call hslots hreg
  clock _ _ h := h
  resolve s i found h := by
    unfold Proxy.resolve
    split
    · exact Plain.modify (s := { s with
        resolving := s.resolving.erase i, notifying := i :: s.notifying }) h rfl
    · exact h
  notify _ _ h := by
    unfold Proxy.notify
    split <;> exact h
  resumed _ _ _ _ _ _ _ h := h
  cleared _ h := h
  crashed _ h := h

end Plain

/-- What is known of every client in every run, when the system keeps its promise. -/
structure Known (s : Proxy) : Prop where
  slots : Slots s
  owned : Owned s
  told : Told s
  fine : Fine s
  plain : Plain s

/-- What is known of the clients is preserved by every run in which the system keeps its promise. -/
theorem preserved_known {P : Proxy → Call → Prop} (hP : ∀ s c, P s c → s.OsCall c) :
    Preserved P Known := by
  have htold := (preserved_owned hP).and (preserved_told.mono fun _ _ h => h.2.1)
  have hfine := htold.and (Fine.preserved.mono fun _ _ h => h.2)
  refine (hfine.and (Plain.preserved.mono fun _ _ h => h.2.1.1.1)).congr fun s => ?_
  exact ⟨fun h => ⟨⟨⟨⟨h.slots, h.owned⟩, h.told⟩, h.fine⟩, h.plain⟩,
    fun h => ⟨h.1.1.1.1, h.1.1.1.2, h.1.1.2, h.1.2, h.2⟩⟩

/-- What is known of the clients holds at the start, where there is none. -/
theorem Started.known (h : Started s) : Known s where
  slots := h.slots
  owned := h.owned
  told := h.told
  fine := by
    obtain ⟨conf, registered, others, -, rfl⟩ := h
    exact fun _ j hj => absurd hj.1 (Nat.not_lt_zero j)
  plain := by
    obtain ⟨conf, registered, others, -, rfl⟩ := h
    exact fun _ => rfl

end Proxy

end HttpProxy
