import HttpProxy.ProxyRuns

/-!
# Relations that handlers keep

What a handler can do to what a relation between states looks at: the clients, the trace and the bytes
counted. A relation that the few steps of this kind keep is kept by every handler; one lemma for each
handler says so. `Frame` is what goes on beside the requests and the responses, `RequestFrame` and
`ResponseFrame` what is done about those of one client.
-/

namespace HttpProxy

/-- A byte of a request or a response is read or written. -/
def Action.Moves : Action → Prop
  | .received _ _ | .sent _ _ | .fetched _ _ | .delivered _ _ => True
  | _ => False

namespace Client

/-- A step that is about neither the request nor the response. -/
structure Idle (c c' : Client) : Prop where
  reqData : c'.reqData = c.reqData
  preReqParseBuf : c'.preReqParseBuf = c.preReqParseBuf
  postReqParseBuf : c'.postReqParseBuf = c.postReqParseBuf
  resData : c'.resData = c.resData
  preResParseBuf : c'.preResParseBuf = c.preResParseBuf
  postResParseBuf : c'.postResParseBuf = c.postResParseBuf

/-- A step of the request: nothing of the response changes, and what is to be sent is at most added
to. -/
structure RequestStep (c c' : Client) : Prop where
  resData : c'.resData = c.resData
  preResParseBuf : c'.preResParseBuf = c.preResParseBuf
  postResParseBuf : c'.postResParseBuf = c.postResParseBuf
  queued : c.postReqParseBuf.bytes <+: c'.postReqParseBuf.bytes

/-- A step of the response: nothing of the request changes, and what is to be delivered is at most added
to. -/
structure ResponseStep (c c' : Client) : Prop where
  reqData : c'.reqData = c.reqData
  preReqParseBuf : c'.preReqParseBuf = c.preReqParseBuf
  postReqParseBuf : c'.postReqParseBuf = c.postReqParseBuf
  queued : c.postResParseBuf.bytes <+: c'.postResParseBuf.bytes

/-- What the parsers work on in a new client. -/
structure Unread (c : Client) : Prop where
  reqData : c.reqData = defaultRequestStruct
  preReqParseBuf : ∃ n, c.preReqParseBuf = bufferInitR RESERVED_SPACE n
  postReqParseBuf : c.postReqParseBuf.bytes = []
  resData : c.resData = defaultResponseStruct
  preResParseBuf : ∃ n, c.preResParseBuf = bufferInitR RESERVED_SPACE n
  postResParseBuf : c.postResParseBuf.bytes = []

/-- What is written to a buffer is behind what it holds. -/
theorem prefix_writeAll (b : Buffer) (l : List UInt8) : b.bytes <+: (bufferWriteAll b l).bytes := by
  rw [Buffer.writeAll_eq]
  exact List.prefix_append _ _

end Client

namespace Proxy

/-- A relation that is kept by what is done beside the requests and the responses. -/
structure Frame (R : Proxy → Proxy → Prop) : Prop where
  refl : ∀ s, R s s
  trans : ∀ s s' s'', R s s' → R s' s'' → R s s''
  act : ∀ s a, ¬a.Moves → R s (s.act a)
  modify : ∀ s i f, Client.Idle (s.clients i) (f (s.clients i)) → R s (s.modify i f)
  frame : ∀ s s', s'.clients = s.clients → s'.trace = s.trace → s'.made = s.made →
    s'.metrics.TRANSFERED_BYTES = s.metrics.TRANSFERED_BYTES →
    (s'.status = .running → s.status = .running) → R s s'

/-- A relation that is kept by whatever is done about the request of a client. -/
structure RequestFrame (i : ClientId) (R : Proxy → Proxy → Prop) : Prop where
  modify : ∀ s f, Client.RequestStep (s.clients i) (f (s.clients i)) → R s (s.modify i f)
  receive : ∀ s bytes, R s (s.act (.received i bytes))
  send : ∀ s bytes, bytes <+: (s.clients i).postReqParseBuf.bytes →
    R s (((s.count bytes.length).onBuffers i fun c =>
      { c with postReqParseBuf := bufferReadAdv c.postReqParseBuf bytes.length }).act (.sent i bytes))

/-- A relation that is kept by whatever is done about the response of a client. -/
structure ResponseFrame (i : ClientId) (R : Proxy → Proxy → Prop) : Prop where
  modify : ∀ s f, Client.ResponseStep (s.clients i) (f (s.clients i)) → R s (s.modify i f)
  fetch : ∀ s bytes, R s (s.act (.fetched i bytes))
  deliver : ∀ s bytes, bytes <+: (s.clients i).postResParseBuf.bytes →
    R s (((s.count bytes.length).onBuffers i fun c =>
      { c with postResParseBuf := bufferReadAdv c.postResParseBuf bytes.length }).act
        (.delivered i bytes))

variable {R : Proxy → Proxy → Prop} {s s' : Proxy} {i : ClientId}

/-- What `write` takes is the first of what it is given. -/
theorem prefix_of_sysWrite {fd : Int} {r : Option Nat} {l bytes : List UInt8}
    (h : s.sysWrite fd r l = some bytes) : bytes <+: l := by
  unfold sysWrite at h
  split at h
  · obtain ⟨n, -, rfl⟩ := Option.map_eq_some_iff.mp h
    exact List.take_prefix n l
  · cases h

namespace Frame

theorem use (h : Frame R) (hs : R s s') : R s (s'.use i) :=
  h.trans _ _ _ hs (h.act s' _ id)

/-- A change of a client that is about neither the request nor the response. -/
theorem modified (h : Frame R) (hs : R s s') {f : Client → Client}
    (hf : Client.Idle (s'.clients i) (f (s'.clients i))) : R s (s'.modify i f) :=
  h.trans _ _ _ hs (h.modify _ _ _ hf)

/-- Something done that touches neither a client nor the trace. -/
theorem framed (h : Frame R) (hs : R s s') {s'' : Proxy} (hclients : s''.clients = s'.clients)
    (htrace : s''.trace = s'.trace) (hmade : s''.made = s'.made)
    (hmetrics : s''.metrics.TRANSFERED_BYTES = s'.metrics.TRANSFERED_BYTES)
    (hstatus : s''.status = .running → s'.status = .running) : R s s'' :=
  h.trans _ _ _ hs (h.frame _ _ hclients htrace hmade hmetrics hstatus)

/-- A change of interest is not looked at. -/
theorem setInterest (h : Frame R) (hs : R s s') (fd : Int) (x : FdInterest) :
    R s (s'.setInterest fd x) := h.framed hs rfl rfl rfl rfl id

/-- The end of the process is not looked at. -/
theorem stop (h : Frame R) (hs : R s s') {status : Status} (hstatus : status ≠ .running) :
    R s (s'.stop status) :=
  h.framed hs rfl rfl rfl rfl fun hrun => absurd hrun hstatus

/-- Opening a descriptor is not looked at. -/
theorem openFd (h : Frame R) (hs : R s s') (fd : Int) : R s (s'.openFd i fd) := by
  have hfds : R s { s' with fds := fd :: s'.fds } := h.framed hs rfl rfl rfl rfl id
  exact h.trans _ _ _ hfds (h.act _ _ id)

/-- Closing a descriptor is not looked at. -/
theorem closeFd (h : Frame R) (hs : R s s') (fd : Int) : R s (s'.closeFd i fd) := by
  have hfds : R s { s' with fds := s'.fds.filter (· ≠ fd) } := h.framed hs rfl rfl rfl rfl id
  exact h.trans _ _ _ hfds (h.act _ _ id)

/-- Closing an origin is not looked at. -/
theorem remoteClose (h : Frame R) (hs : R s s') : R s (s'.remoteClose i) :=
  h.modified (h.closeFd hs _) ⟨rfl, rfl, rfl, rfl, rfl, rfl⟩

/-- Unregistering a descriptor is not looked at, to any depth of the nested calls. -/
theorem unregisterAt (h : Frame R) (depth : Nat) (hs : R s s') (fd : Int) :
    R s (unregisterAt depth s' fd) := by
  induction depth generalizing s' fd with
  | zero => exact hs
  | succ depth ih =>
    unfold Proxy.unregisterAt
    split
    · exact hs
    · split
      · exact hs
      · next handlers _ =>
        suffices hclosed : R s (handleClose (Proxy.unregisterAt depth) s' handlers) from
          h.framed hclosed rfl rfl rfl rfl id
        cases handlers with
        | remote i => exact h.remoteClose hs
        | other => exact hs
        | client i =>
          have hcounted : R s
              { s' with metrics := metricCloseConnection (s'.clients i).initTime s'.now s'.metrics } :=
            h.framed hs rfl rfl rfl rfl id
          refine h.trans _ _ _ ?_ (h.act _ _ id)
          refine h.closeFd ?_ _
          split
          · exact h.modified (ih (h.closeFd hcounted _) _) ⟨rfl, rfl, rfl, rfl, rfl, rfl⟩
          · exact hcounted

/-- Unregistering a descriptor is not looked at. -/
theorem unregister (h : Frame R) (hs : R s s') (fd : Int) : R s (s'.unregister fd) :=
  h.unregisterAt 2 hs fd

/-- Giving a client its host is not looked at. -/
theorem clientSetHost (h : Frame R) (hs : R s s') (host : List UInt8) (port : Int) :
    R s (s'.clientSetHost i host port) := by
  have hset : R s ((s'.use i).modify i fun _ => ((s'.clients i).setHost host port).2) := by
    refine h.modified (h.use hs) ?_
    rw [setHost_frame]
    exact ⟨rfl, rfl, rfl, rfl, rfl, rfl⟩
  unfold Proxy.clientSetHost
  dsimp only
  split
  · generalize (s'.use i).modify i (fun _ => ((s'.clients i).setHost host port).2) = t at hset ⊢
    have hresolving : R s { t with resolving := i :: t.resolving } := h.framed hset rfl rfl rfl rfl id
    exact h.trans _ _ _ hresolving (h.act _ _ id)
  · exact hset

/-! ## The request -/

/-- A step of the request, with the mark that the client was used. -/
theorem onRequest (h : Frame R) (hreq : RequestFrame i R) (hs : R s s') {f : Client → Client}
    (hf : Client.RequestStep (s'.clients i) (f (s'.clients i))) : R s (s'.onBuffers i f) :=
  h.trans _ _ _ (h.use hs) (hreq.modify _ _ hf)

/-- Parsing the request is a step of it, also where the parser does not return. -/
theorem parseRequest (h : Frame R) (hreq : RequestFrame i R) (hs : R s s') :
    R s (s'.parseRequest i) := by
  unfold Proxy.parseRequest
  dsimp only
  split
  · exact h.stop (h.use hs) Status.noConfusion
  · next r hr =>
    obtain ⟨t, -, rfl⟩ := checkRequest_eq_some_iff.mp hr
    refine h.modified ?_ ⟨rfl, rfl, rfl, rfl, rfl, rfl⟩
    refine List.foldlRecOn (motive := R s) _ _ ?_ fun t ht call _ => h.clientSetHost ht call.1 call.2
    exact h.onRequest hreq hs ⟨rfl, rfl, rfl, Client.prefix_writeAll _ _⟩

/-- Emptying the buffer in front of the parser is a step of the request. -/
theorem drainRequest (h : Frame R) (hreq : RequestFrame i R) (hs : R s s') :
    R s (s'.drainRequest i) :=
  h.onRequest hreq hs ⟨rfl, rfl, rfl, Client.prefix_writeAll _ _⟩

/-- A read from the client, also when it fails or finds the end. -/
theorem receive (h : Frame R) (hreq : RequestFrame i R) (hs : R s s') (bytes : Option (List UInt8)) :
    R s (s'.receive i bytes) := by
  cases bytes with
  | none => exact h.use hs
  | some bytes =>
    exact h.trans _ _ _ (h.onRequest hreq hs ⟨rfl, rfl, rfl, List.prefix_rfl⟩) (hreq.receive _ bytes)

/-! ## The handlers -/

/-- `client_read` keeps a relation that steps of the request keep. -/
theorem clientRead (h : Frame R) (hreq : RequestFrame i R) (s : Proxy) (r : Option (List UInt8)) :
    R s (s.clientRead i r) := by
  have huse : R s (s.use i) := h.use (h.refl s)
  unfold Proxy.clientRead
  dsimp only
  split
  · split
    · generalize (s.use i).sysRead (s.clients i).clientFd r
        (bufferWriteSpace (s.clients i).preReqParseBuf) = bytes
      have hclosed : R s (if bytes = none then (s.use i).unregister (s.clients i).clientFd
          else s.use i) := by
        split
        · exact h.unregister huse _
        · exact huse
      generalize (if bytes = none then (s.use i).unregister (s.clients i).clientFd else s.use i) = t
        at hclosed ⊢
      have hparsed : R s (if (s.clients i).reqData.parserState ≠ .FINISHED then
          (t.receive i bytes).parseRequest i else t.receive i bytes) := by
        split
        · exact h.parseRequest hreq (h.receive hreq hclosed bytes)
        · exact h.receive hreq hclosed bytes
      generalize (if (s.clients i).reqData.parserState ≠ .FINISHED then
          (t.receive i bytes).parseRequest i else t.receive i bytes) = u at hparsed ⊢
      split
      · exact hparsed
      · split
        · exact h.unregister hparsed _
        · exact h.drainRequest hreq hparsed
    · exact h.setInterest huse _ _
  · split
    · have hparsed := h.parseRequest hreq (h.receive hreq huse
        ((s.use i).sysRead (s.clients i).clientFd r (bufferWriteSpace (s.clients i).preReqParseBuf)))
      split
      · exact hparsed
      · exact h.setInterest (h.modified (h.drainRequest hreq hparsed) ⟨rfl, rfl, rfl, rfl, rfl, rfl⟩) _ _
    · exact h.setInterest huse _ _
  · exact h.refl s

/-- What is done about an origin that can be written to, when the relation is kept by what is
sent. -/
theorem remoteWrite (h : Frame R) (s : Proxy) (r : Option Nat)
    (hsend : ∀ bytes, bytes <+: ((s.use i).clients i).postReqParseBuf.bytes →
      R (s.use i) ((((s.use i).count bytes.length).onBuffers i fun c =>
        { c with postReqParseBuf := bufferReadAdv c.postReqParseBuf bytes.length }).act (.sent i bytes))) :
    R s (s.remoteWrite i r) := by
  have huse : R s (s.use i) := h.use (h.refl s)
  unfold Proxy.remoteWrite
  dsimp only
  split
  · split
    · split
      · exact h.unregister (h.setInterest huse _ _) _
      · next bytes hbytes =>
        exact h.setInterest (h.trans _ _ _ huse (hsend bytes (prefix_of_sysWrite hbytes))) _ _
    · split
      · exact h.modified (h.setInterest huse _ _) ⟨rfl, rfl, rfl, rfl, rfl, rfl⟩
      · exact h.setInterest huse _ _
  · exact h.refl s

/-- `client_block` keeps every such relation. -/
theorem clientBlock (h : Frame R) (s : Proxy) (fd : Int) (i : ClientId) (o : BlockCalls) :
    R s (s.clientBlock fd i o) := by
  unfold Proxy.clientBlock
  dsimp only
  split
  · exact h.unregister (h.refl s) _
  · split
    · exact h.modified (h.refl s) ⟨rfl, rfl, rfl, rfl, rfl, rfl⟩
    · next x _ =>
      have hopened := h.modified (i := i) (f := fun c => { c with state := .SEND_REQ, originFd := x })
        (h.openFd (i := i) (h.refl s) x) ⟨rfl, rfl, rfl, rfl, rfl, rfl⟩
      split
      · exact hopened
      · exact hopened
      · split
        · exact h.framed hopened rfl rfl rfl rfl Status.noConfusion
        · split
          · exact h.framed hopened rfl rfl rfl rfl Status.noConfusion
          · exact h.framed hopened rfl rfl rfl rfl id

/-- What is done about a client that can be written to, when the relation is kept by what is
delivered. -/
theorem clientWrite (h : Frame R) (s : Proxy) (r : Option Nat)
    (hdeliver : ∀ bytes, bytes <+: ((s.use i).clients i).postResParseBuf.bytes →
      R (s.use i) ((((s.use i).count bytes.length).onBuffers i fun c =>
        { c with postResParseBuf := bufferReadAdv c.postResParseBuf bytes.length }).act
          (.delivered i bytes))) :
    R s (s.clientWrite i r) := by
  have huse : R s (s.use i) := h.use (h.refl s)
  unfold Proxy.clientWrite
  dsimp only
  split
  · split
    · split
      · exact h.unregister huse _
      · next bytes hbytes =>
        exact h.setInterest (h.trans _ _ _ huse (hdeliver bytes (prefix_of_sysWrite hbytes))) _ _
    · split
      · exact h.unregister huse _
      · split
        · exact h.unregister huse _
        · exact huse
  · exact h.refl s

/-- Setting the interests behind a response is not looked at. -/
theorem responseInterests (h : Frame R) (hs : R s s') : R s (s'.responseInterests i) := by
  unfold Proxy.responseInterests
  dsimp only
  split
  · split
    · exact h.setInterest (h.setInterest hs _ _) _ _
    · exact h.setInterest hs _ _
  · split
    · exact h.setInterest hs _ _
    · exact hs

/-- Parsing the response is a step of it, and then at most an origin is closed. -/
theorem parseResponse (h : Frame R) (hres : ResponseFrame i R) (hs : R s s')
    (bytes : List UInt8) : R s (s'.parseResponse i bytes) := by
  have hread : R s ((s'.onBuffers i fun c =>
      { c with preResParseBuf := bufferWriteAdv c.preResParseBuf bytes }).act (.fetched i bytes)) :=
    h.trans _ _ _ (h.trans _ _ _ (h.use hs) (hres.modify _ _ ⟨rfl, rfl, rfl, List.prefix_rfl⟩)) (hres.fetch _ bytes)
  unfold Proxy.parseResponse
  dsimp only
  generalize (s'.onBuffers i fun c =>
    { c with preResParseBuf := bufferWriteAdv c.preResParseBuf bytes }).act (.fetched i bytes) = t
    at hread ⊢
  split
  · exact h.stop (h.use hread) Status.noConfusion
  · next r hr =>
    obtain ⟨u, -, rfl⟩ := Option.map_eq_some_iff.mp hr
    have hparsed := h.trans _ _ _ (h.use (i := i) hread) (hres.modify (t.use i) (fun c =>
      { c with
        resData := u.2.rData
        preResParseBuf := u.2.io.b
        postResParseBuf := bufferWriteAll (t.clients i).postResParseBuf u.2.io.out
        preTransfBuf := bufferWriteAll (t.clients i).preTransfBuf u.2.transf })
      ⟨rfl, rfl, rfl, Client.prefix_writeAll _ _⟩)
    split
    · exact h.stop hparsed Status.noConfusion
    · split
      · exact h.responseInterests (h.setInterest (h.unregister hparsed _) _ _)
      · exact h.responseInterests hparsed

/-- What is done about an origin that can be read from, when the relation is kept by the parse of what is
read. -/
theorem remoteRead (h : Frame R) (s : Proxy) (r : Option (List UInt8))
    (hparse : ∀ bytes, bytes ≠ [] → (s.clients i).state = .READ_RESP →
      bufferCanWrite (s.clients i).preResParseBuf = true →
      s.sysRead (s.clients i).originFd r (bufferWriteSpace (s.clients i).preResParseBuf) = some bytes →
      R (s.use i) ((s.use i).parseResponse i bytes)) :
    R s (s.remoteRead i r) := by
  have huse : R s (s.use i) := h.use (h.refl s)
  unfold Proxy.remoteRead
  dsimp only
  split
  · next hstate =>
    split
    · next hcan =>
      split
      · exact h.unregister (h.setInterest huse _ _) _
      · exact huse
      · next bytes hnil hread => exact h.trans _ _ _ huse (hparse bytes hnil hstate hcan hread)
    · exact h.setInterest huse _ _
  · exact h.refl s

/-- The end of a resolution is not looked at. -/
theorem resolve (h : Frame R) (s : Proxy) (i : ClientId) (found : Bool) :
    R s (s.resolve i found) := by
  unfold Proxy.resolve
  split
  · have hthread : R s { s with resolving := s.resolving.erase i, notifying := i :: s.notifying } :=
      h.framed (h.refl s) rfl rfl rfl rfl id
    exact h.modified hthread ⟨rfl, rfl, rfl, rfl, rfl, rfl⟩
  · exact h.refl s

/-- The notification of a resolution is not looked at. -/
theorem notify (h : Frame R) (s : Proxy) (i : ClientId) : R s (s.notify i) := by
  unfold Proxy.notify
  split
  · exact h.framed (h.refl s) rfl rfl rfl rfl id
  · exact h.refl s

/-! ## New clients -/

/-- The pipes of a transformation are not looked at. -/
theorem transformationsNew (h : Frame R) (hs : R s s') (t : TransfCalls) :
    R s (s'.transformationsNew i t).2 := by
  unfold Proxy.transformationsNew
  split
  · exact hs
  · next in₀ in₁ _ =>
    have hin := h.openFd (i := i) (h.openFd (i := i) hs in₀) in₁
    dsimp only
    split
    · exact h.closeFd (h.closeFd hin _) _
    · next out₀ out₁ _ =>
      have hout := h.openFd (i := i) (h.openFd (i := i) hin out₀) out₁
      split
      · exact hout
      · split
        · exact hout
        · next errorFd _ =>
          have herror := h.openFd (i := i) hout errorFd
          split
          · exact h.closeFd (h.closeFd herror _) _
          · exact h.closeFd (h.closeFd (h.closeFd (h.closeFd (h.closeFd herror _) _) _) _) _

/-- A new connection, when the relation holds of a state and the one with a new client. -/
theorem accept (h : Frame R)
    (hnew : ∀ t c, t.made = s.made → Client.Unread c →
      R t ({ t with made := t.made + 1 }.modify t.made fun _ => c))
    (o : AcceptCalls) : R s (s.listenReadHandler o) := by
  cases ho : o.accept with
  | none =>
    unfold listenReadHandler
    rw [ho]
    exact h.refl s
  | some fd =>
    have hpiped := piped_transformationsNew (s.openFd s.made fd) s.made o.transf
    have hpipes := h.transformationsNew (i := s.made) (h.openFd (i := s.made) (h.refl s) fd) o.transf
    rw [listenReadHandler_some ho rfl]
    generalize (s.openFd s.made fd).transformationsNew s.made o.transf = t at hpiped hpipes ⊢
    have hmade : t.2.made = s.made := by
      rw [hpiped.frame]
      rfl
    rw [← hmade]
    have hclient := h.trans _ _ _ hpipes (hnew t.2
      { Client.fresh (fun _ => true) t.2.config with
        clientFd := fd
        transfInFd := (t.1.getD (-1, -1)).1
        transfOutFd := (t.1.getD (-1, -1)).2
        initTime := t.2.now } hmade ⟨rfl, ⟨_, rfl⟩, rfl, rfl, ⟨_, rfl⟩, rfl⟩)
    exact h.framed (h.trans _ _ _ hclient (h.act _ (.made t.2.made) id)) rfl rfl rfl rfl id

end Frame

end Proxy

end HttpProxy
