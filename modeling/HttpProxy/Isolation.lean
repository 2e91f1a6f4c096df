import HttpProxy.Library.Unwinding
import HttpProxy.Outside

/-!
# An origin affects its own client only

Two runs of the proxy that have the same events but for those of one client, from when its host is
known, leave the other clients the same: what a handler of the client does stays with the client,
and what a handler of another client does is the same in both runs. What an origin sends can still
end the process, in both runs for all clients: `remote_read` exits at the first response in which
the parser finds an error.
-/

namespace HttpProxy

/-- The proxy calls `handle_block` for its jobs only. -/
def Event.ForJobs : Event → Prop
  | .block _ _ => False
  | _ => True

instance : ∀ e : Event, Decidable e.ForJobs
  | .block _ _ => .isFalse id
  | .clock _ | .accept _ | .read _ _ | .write _ _ | .resolved _ _ | .notified _
  | .notifications _ => .isTrue trivial

/-- A call of a handler of client `i`. -/
def Call.Of (i : ClientId) : Call → Prop
  | .clientRead k _ | .clientWrite k _ | .clientBlock _ k _ | .remoteRead k _
  | .remoteWrite k _ => k = i
  | .accept _ => False

namespace Proxy

variable {s s' t t' : Proxy} {i j : ClientId}

/-! ## The handlers of the client -/

namespace SameBut

/-- Status and resolutions aside, a handler that only works on client `i` changes nothing else. -/
theorem of_quiet (hq : Quiet i s s') (hplain : Plain s) (ho : OwnedBy i s) :
    SameBut i s { s' with status := s.status } where
  status := rfl
  config := hq.config
  made := hq.made
  resolving := hq.resolving
  notifying := hq.notifying
  jobs := hq.jobs
  now := hq.now
  others := hq.others
  clientFd := hq.client.clientFd
  slots fd := by
    have hkept : s.Mine i fd → s.Mine i fd ∧ Mine { s' with status := s.status } i fd :=
      fun hm => ⟨hm, hm.of_handlerAt (congrFun hq.handlers fd)⟩
    by_cases hc : fd = (s.clients i).clientFd
    · exact .inr (hkept (hc ▸ ho.slot.imp id .inl))
    · by_cases hr : fd = (s.clients i).originFd
      · exact .inr (hkept (hr ▸ (ho.owned.slot_origin i).imp id fun h => .inr h.1))
      · exact .inl (hq.slots (hplain i) fd hc hr)
  live j hj := by
    obtain ⟨l, hl, hquiet⟩ := hq.trace
    exact not_ended_append (fun _ hmem => hquiet _ hmem) s _ hl hq.made

/-- A client that is ended is the only one that changes. -/
theorem of_ends (ho : OwnedBy i s) (he : Ends i s s') : SameBut i s s' where
  status := he.closing.status
  config := he.closing.config
  made := he.closing.made
  resolving := he.closing.resolving
  notifying := he.closing.notifying
  jobs := he.closing.jobs
  now := he.closing.now
  others := he.others
  clientFd := he.closing.clientFd i
  slots fd := by
    have hnone := he.handlerAt fd
    rw [he.slots fd]
    split at hnone
    · next hfd =>
      refine .inr ⟨?_, .inl hnone⟩
      rcases hfd with rfl | rfl
      · exact ho.slot.imp id .inl
      · exact (ho.owned.slot_origin i).imp id fun h => .inr h.1
    · next hfd => exact .inl (if_neg hfd)
  live j hj := (he.live j).trans (and_iff_left hj)

/-- Unregistering a client's descriptor stays with the client. -/
theorem of_unregister_client (ho : OwnedBy i s) :
    SameBut i s (s.unregister (s.clients i).clientFd) := by
  rcases ho.unregister with heq | ⟨-, he⟩
  · rw [heq]
    exact refl i s
  · exact of_ends ho he

/-- A change of one client stays with the client. -/
theorem of_modify (s : Proxy) {f : Client → Client}
    (hf : (f (s.clients i)).clientFd = (s.clients i).clientFd) : SameBut i s (s.modify i f) :=
  { refl i s with
    others := fun _ hj => clients_modify_of_ne s f hj
    clientFd := by rw [clients_modify_self, hf] }

/-- Unregistering a client's origin stays with the client. -/
theorem of_unregister_origin (ho : Owned s) (hs : Slots s) (i : ClientId) :
    SameBut i s (s.unregister (s.clients i).originFd) := by
  rcases ho.unregister_origin hs i with heq | ⟨hremote, -, -, heq⟩
  · rw [heq]
    exact refl i s
  · rw [heq]
    have hclosed : SameBut i s { s with fds := s.fds.filter (· ≠ (s.clients i).originFd) } :=
      { refl i s with }
    have hunset : SameBut i s (s.remoteClose i) :=
      (hclosed.acted (a := .closed i (s.clients i).originFd) nofun).trans (of_modify _ rfl)
    refine { hunset with slots := fun fd => ?_ }
    by_cases hfd : fd = (s.clients i).originFd
    · subst hfd
      refine .inr ⟨.inr (.inr hremote), .inl ?_⟩
      exact (congrFun (Selector.handlerAt_clear s.sel _) _).trans (Function.update_self _ _ _)
    · exact .inl (Function.update_of_ne hfd _ _)

end SameBut

/-- What a handler of client `i` has done by some statement, status and resolutions aside. -/
structure Alone (i : ClientId) (s t : Proxy) : Prop where
  same : SameBut i s { t with status := s.status, resolving := s.resolving }
  ownedBy : OwnedBy i t
  plain : Plain t

namespace Alone

/-- At the start of a handler nothing was done. -/
theorem refl (ho : OwnedBy i s) (hp : Plain s) : Alone i s s := ⟨.refl i s, ho, hp⟩

/-- Whatever else, the status and the resolutions do not count. -/
theorem next (h : Alone i s t)
    (hsame : SameBut i t { t' with status := t.status, resolving := t.resolving })
    (ho : OwnedBy i t') (hp : Plain t') : Alone i s t' :=
  ⟨h.same.trans { hsame with status := rfl, resolving := rfl }, ho, hp⟩

/-- Quiet parts of the client's handler stay with the client. -/
theorem quiet (h : Alone i s t) (hq : Quiet i t t') : Alone i s t' := by
  have hsame := SameBut.of_quiet hq h.plain h.ownedBy
  exact h.next { hsame with status := rfl, resolving := rfl } (h.ownedBy.quiet hq) (h.plain.quiet hq)

/-- Giving the client its host stays with the client. -/
theorem setHost (h : Alone i s t) (host : List UInt8) (port : Int) :
    Alone i s (t.clientSetHost i host port) := by
  refine h.next ?_ (h.ownedBy.setHost host port) (h.plain.setHost host port)
  have hset : SameBut i t ((t.use i).modify i fun _ => ((t.clients i).setHost host port).2) :=
    ((SameBut.refl i t).acted (a := .used i) nofun).trans
      (SameBut.of_modify _ (clientFd_setHost (t.clients i) host port))
  unfold clientSetHost
  simp only
  split
  · have hasked := hset.acted (a := .asked i) nofun
    exact { hasked with status := rfl, resolving := rfl }
  · exact { hset with status := rfl, resolving := rfl }

/-- Setting the client's state stays with the client. -/
theorem setState (h : Alone i s t) (g : Client → ClientState) :
    Alone i s (t.modify i fun c => { c with state := g c }) := by
  have hsame := SameBut.of_modify (i := i) (f := fun c => { c with state := g c }) t rfl
  exact h.next { hsame with status := rfl, resolving := rfl } (h.ownedBy.setState g) (h.plain.modify rfl)

/-- Unregistering the client's descriptor stays with the client. -/
theorem unregister_client (h : Alone i s t) : Alone i s (t.unregister (t.clients i).clientFd) := by
  have hsame := SameBut.of_unregister_client h.ownedBy
  exact h.next { hsame with status := rfl, resolving := rfl } h.ownedBy.of_unregister
    (h.plain.closing (closing_unregister t _))

/-- Unregistering the client's origin stays with the client. -/
theorem unregister_origin (h : Alone i s t) : Alone i s (t.unregister (t.clients i).originFd) := by
  have hsame := SameBut.of_unregister_origin h.ownedBy.owned h.ownedBy.slots i
  have hclosing := closing_unregister t (t.clients i).originFd
  refine h.next { hsame with status := rfl, resolving := rfl }
    ⟨h.ownedBy.owned.of_unregister_origin h.ownedBy.slots i, h.ownedBy.slots.closing hclosing, ?_⟩
    (h.plain.closing hclosing)
  rw [hclosing.clientFd i]
  rcases hclosing.handlers (t.clients i).clientFd with heq | hnone
  · rw [heq]
    exact h.ownedBy.slot
  · exact .inl hnone

end Alone

/-! ## When the process keeps running -/

/-- The request parser returns when `client_read` calls it. -/
def ParsesRequest (s : Proxy) (i : ClientId) (r : Option (List UInt8)) : Prop :=
  let c := s.clients i
  let readBytes := s.sysRead c.clientFd r (bufferWriteSpace c.preReqParseBuf)
  c.state = .NO_ORIGIN ∨ c.state = .SEND_REQ → bufferCanWrite c.preReqParseBuf = true →
    checkRequest c.reqData (readBytes.elim c.preReqParseBuf (bufferWriteAdv c.preReqParseBuf))
      c.postReqParseBuf ≠ none

instance (s : Proxy) (i : ClientId) (r : Option (List UInt8)) : Decidable (s.ParsesRequest i r) :=
  inferInstanceAs (Decidable (_ → _ → _))

/-- The response parser returns without an error when `remote_read` calls it. -/
def ParsesResponse (s : Proxy) (i : ClientId) (r : Option (List UInt8)) : Prop :=
  let c := s.clients i
  c.state = .READ_RESP → bufferCanWrite c.preResParseBuf = true →
    ∀ bytes ∈ s.sysRead c.originFd r (bufferWriteSpace c.preResParseBuf), bytes ≠ [] →
      (checkResponse c.resData (bufferWriteAdv c.preResParseBuf bytes) c.postResParseBuf
        c.preTransfBuf).map (·.rData.state) = some .RES_OK

instance (s : Proxy) (i : ClientId) (r : Option (List UInt8)) : Decidable (s.ParsesResponse i r) :=
  inferInstanceAs (Decidable (_ → _ → ∀ bytes ∈ _, _ → _))

/-- The calls that neither end the process nor connect a client a second time. -/
def Isolates (s : Proxy) : Call → Prop
  | .clientRead i r => s.ParsesRequest i r
  | .remoteRead i r => s.ParsesResponse i r
  | .clientBlock _ i o => (s.clients i).host.resolved = true → ∀ x ∈ o.socket,
      s.sel.handlerAt (s.clients i).originFd = none ∧ (o.connect = .inProgress → x < ITEMS_MAX_SIZE)
  | .accept _ | .clientWrite _ _ | .remoteWrite _ _ => True

instance (s : Proxy) : ∀ c, Decidable (s.Isolates c)
  | .clientRead i r => inferInstanceAs (Decidable (s.ParsesRequest i r))
  | .remoteRead i r => inferInstanceAs (Decidable (s.ParsesResponse i r))
  | .clientBlock _ _ _ => inferInstanceAs (Decidable (_ → ∀ x ∈ _, _ ∧ _))
  | .accept _ | .clientWrite _ _ | .remoteWrite _ _ => .isTrue trivial

/-- A call that isolates connects no client that has an origin. -/
theorem Isolates.connectsFree {c : Call} (h : s.Isolates c) : s.ConnectsFree c := by
  cases c with
  | clientBlock fd i o =>
    intro hres hs
    obtain ⟨x, hx⟩ := Option.ne_none_iff_exists'.mp hs
    exact (h hres x hx).1
  | _ => trivial

/-- Closing does not end the process. -/
theorem status_unregister (s : Proxy) (fd : Int) : (s.unregister fd).status = s.status :=
  (closing_unregister s fd).status

theorem status_setInterest (s : Proxy) (fd : Int) (w : FdInterest) :
    (s.setInterest fd w).status = s.status := rfl

theorem status_modify (s : Proxy) (i : ClientId) (f : Client → Client) :
    (s.modify i f).status = s.status := rfl

/-- Moving the request on does not end the process. -/
theorem status_drainRequest (s : Proxy) (i : ClientId) : (s.drainRequest i).status = s.status := rfl

/-- A call of the request parser that returns does not end the process. -/
theorem status_parseRequest
    (h : checkRequest (s.clients i).reqData (s.clients i).preReqParseBuf
      (s.clients i).postReqParseBuf ≠ none) : (s.parseRequest i).status = s.status := by
  unfold parseRequest
  simp only
  split
  · next hnone => exact absurd hnone h
  · next r hr =>
    rcases checkRequest_calls hr with hcalls | ⟨-, -, call, hcalls⟩
    · rw [hcalls]
      rfl
    · rw [hcalls]
      exact status_clientSetHost _ i _ _

/-- A read from the client does not end the process. -/
theorem status_receive (s : Proxy) (i : ClientId) (r : Option (List UInt8)) :
    (s.receive i r).status = s.status := by
  cases r <;> rfl

/-- `client_read` does not end the process when its parser returns. -/
theorem status_clientRead {r : Option (List UInt8)} (h : s.ParsesRequest i r) :
    (s.clientRead i r).status = s.status := by
  have hparse : ∀ t readBytes, t.clients i = s.clients i ∨
      (∃ fd, t = (s.use i).unregister fd) →
      checkRequest (s.clients i).reqData (readBytes.elim (s.clients i).preReqParseBuf
        (bufferWriteAdv (s.clients i).preReqParseBuf)) (s.clients i).postReqParseBuf ≠ none →
      ((t.receive i readBytes).parseRequest i).status = t.status := by
    intro t readBytes ht hreturns
    have hclient : (t.clients i).reqData = (s.clients i).reqData ∧
        (t.clients i).preReqParseBuf = (s.clients i).preReqParseBuf ∧
        (t.clients i).postReqParseBuf = (s.clients i).postReqParseBuf := by
      rcases ht with heq | ⟨fd, rfl⟩
      · rw [heq]
        exact ⟨rfl, rfl, rfl⟩
      · rw [(closing_unregister (s.use i) fd).clients i]
        exact ⟨rfl, rfl, rfl⟩
    rw [status_parseRequest, status_receive]
    cases readBytes with
    | none => rwa [receive, Proxy.use, act, hclient.1, hclient.2.1, hclient.2.2]
    | some bytes =>
      rw [clients_receive]
      simp only
      rwa [hclient.1, hclient.2.1, hclient.2.2]
  unfold ParsesRequest at h
  simp only at h
  unfold clientRead
  simp only
  split
  · next hstate =>
    split
    · next hroom =>
      have hreturns := h (.inl hstate) hroom
      generalize hbytes : (s.use i).sysRead (s.clients i).clientFd r _ = readBytes
      rw [show s.sysRead (s.clients i).clientFd r (bufferWriteSpace (s.clients i).preReqParseBuf) =
        readBytes from hbytes] at hreturns
      -- What follows the parser closes the connection or moves bytes.
      have hrest : ∀ t : Proxy, t.status = s.status → ∀ fd,
          (if t.status ≠ .running then t
            else if (t.clients i).reqData.state ≠ .OK then t.unregister fd
            else t.drainRequest i).status = s.status := by
        intro t ht fd
        split
        · exact ht
        · split
          · rw [status_unregister, ht]
          · exact ht
      refine hrest _ ?_ _
      cases readBytes with
      | none =>
        split
        · exact (hparse _ none (.inr ⟨_, rfl⟩) hreturns).trans (status_unregister _ _)
        · exact status_unregister _ _
      | some bytes =>
        split
        · exact hparse _ (some bytes) (.inl rfl) hreturns
        · rfl
    · rfl
  · next hstate =>
    split
    · next hroom =>
      have hreturns := h (.inr hstate) hroom
      have hparsed := hparse (s.use i) _ (.inl rfl) hreturns
      split
      · exact hparsed
      · rw [status_setInterest, status_modify, status_drainRequest]
        exact hparsed
    · rfl
  · rfl

/-- `client_write` does not end the process. -/
theorem status_clientWrite (s : Proxy) (i : ClientId) (r : Option Nat) :
    (s.clientWrite i r).status = s.status := by
  unfold clientWrite
  simp only
  split
  · split
    · split
      · exact status_unregister _ _
      · rfl
    · split
      · exact status_unregister _ _
      · split
        · exact status_unregister _ _
        · rfl
  · rfl

/-- Setting the interests behind a response does not end the process. -/
theorem status_responseInterests (s : Proxy) (i : ClientId) :
    (s.responseInterests i).status = s.status := by
  unfold responseInterests
  simp only
  split
  · split <;> rfl
  · split <;> rfl

/-- A call of the response parser without an error does not end the process. -/
theorem status_parseResponse {bytes : List UInt8}
    (h : (checkResponse (s.clients i).resData (bufferWriteAdv (s.clients i).preResParseBuf bytes)
      (s.clients i).postResParseBuf (s.clients i).preTransfBuf).map (·.rData.state) = some .RES_OK) :
    (s.parseResponse i bytes).status = s.status := by
  obtain ⟨r, hr, hok⟩ := Option.map_eq_some_iff.mp h
  unfold parseResponse
  simp only
  generalize ht : (s.onBuffers i _).act (.fetched i bytes) = t
  have hclient : t.clients i = { s.clients i with
      preResParseBuf := bufferWriteAdv (s.clients i).preResParseBuf bytes } := by
    rw [← ht]
    exact Function.update_self _ _ _
  rw [hclient, hr]
  simp only
  rw [if_neg (not_not.mpr hok)]
  have hst : t.status = s.status := by rw [← ht]; rfl
  split
  · rw [status_responseInterests]
    unfold responseFinished
    exact (status_unregister _ _).trans hst
  · rw [status_responseInterests]
    exact hst

/-- `remote_read` ends the process only through its parser. -/
theorem status_remoteRead {r : Option (List UInt8)} (h : s.ParsesResponse i r) :
    (s.remoteRead i r).status = s.status := by
  unfold remoteRead
  simp only
  split
  · next hstate =>
    split
    · next hroom =>
      split
      · exact status_unregister _ _
      · rfl
      · next bytes hne hbytes =>
        exact status_parseResponse (s := s.use i) (h hstate hroom bytes hbytes hne)
    · rfl
  · rfl

/-- `remote_write` does not end the process. -/
theorem status_remoteWrite (s : Proxy) (i : ClientId) (r : Option Nat) :
    (s.remoteWrite i r).status = s.status := by
  unfold remoteWrite
  simp only
  split
  · split
    · split
      · exact status_unregister _ _
      · rfl
    · split <;> rfl
  · rfl

/-- `client_block` does not end the process, when no second connection is attempted and the descriptor
is in the table. -/
theorem status_blockEnd {fd : Int} {o : BlockCalls} (ho : Owned s)
    (hos : s.OsCall (.clientBlock fd i o)) (hP : s.Isolates (.clientBlock fd i o))
    (he : BlockEnd s i o t) : t.status = s.status := by
  cases he with
  | unresolved _ => exact status_unregister _ _
  | noSocket _ _ => rfl
  | unwatched _ _ _ => rfl
  | watched _ _ _ _ _ _ _ => rfl
  | refused hres hs hc _ _ hbad =>
    obtain ⟨hx, hclosed⟩ := hos _ hs
    rcases hbad with hbad | hbad
    · have hlt := (hP hres _ hs).2 hc
      unfold invalidFd at hbad
      simp only [Bool.or_eq_true, decide_eq_true_eq] at hbad
      omega
    · exact absurd (SameBut.free_slot ho hclosed) hbad

/-- A call that meets the condition leaves the process running. -/
theorem status_call (hslots : Slots s) (ho : Owned s) {c : Call} (hreg : s.Registered c)
    (hos : s.OsCall c) (hP : s.Isolates c) : (s.call c).status = s.status := by
  cases c with
  | accept o =>
    change (s.listenReadHandler o).status = _
    cases ha : o.accept with
    | none =>
      unfold listenReadHandler
      rw [ha]
    | some fd => exact (accepts_listenReadHandler ha).status
  | clientRead i r => exact status_clientRead hP
  | clientWrite i r => exact status_clientWrite s i r
  | clientBlock fd i o => exact status_blockEnd ho hos hP (hslots.clientBlock hreg o)
  | remoteRead i r => exact status_remoteRead hP
  | remoteWrite i r => exact status_remoteWrite s i r

/-! ## The program's own slots -/

/-- No client and no job has a descriptor that the program registered for itself. -/
structure KeepsOff (s : Proxy) : Prop where
  clients : ∀ i, s.sel.handlerAt (s.clients i).clientFd ≠ some .other
  jobs : ∀ j ∈ s.jobs, s.sel.handlerAt j.fd ≠ some .other

namespace KeepsOff

/-- The slots that are no client's were so before. -/
theorem fewer (h : KeepsOff s)
    (hsel : ∀ fd, t.sel.handlerAt fd = some .other → s.sel.handlerAt fd = some .other)
    (hfd : ∀ j, (t.clients j).clientFd = (s.clients j).clientFd)
    (hjobs : ∀ j ∈ t.jobs, j ∈ s.jobs) : KeepsOff t where
  clients j heq := h.clients j (hsel _ (hfd j ▸ heq))
  jobs j hj heq := h.jobs j (hjobs j hj) (hsel _ heq)

/-- A quiet part changes no handlers. -/
theorem quiet (h : KeepsOff s) (hq : Quiet i s t) : KeepsOff t := by
  refine h.fewer (fun fd hfd => hq.handlers ▸ hfd) (fun j => ?_) fun j hj => hq.jobs ▸ hj
  by_cases hj : j = i
  · exact hj ▸ hq.client.clientFd
  · rw [hq.others j hj]

/-- Closing empties slots, and gives none to the program. -/
theorem closing (h : KeepsOff s) (hc : Closing s t) : KeepsOff t := by
  refine h.fewer (fun fd hfd => ?_) hc.clientFd fun j hj => hc.jobs ▸ hj
  rcases hc.handlers fd with heq | hnone
  · exact heq ▸ hfd
  · exact absurd (hnone.symm.trans hfd) (Option.some_ne_none _).symm

/-- A change of one client that leaves its descriptor. -/
theorem modify (h : KeepsOff s) {f : Client → Client}
    (hf : (f (s.clients i)).clientFd = (s.clients i).clientFd) : KeepsOff (s.modify i f) := by
  refine h.fewer (fun _ hfd => hfd) (fun j => ?_) fun _ hj => hj
  by_cases hj : j = i
  · subst hj
    rw [clients_modify_self, hf]
  · rw [clients_modify_of_ne s f hj]

/-- Giving a client its host takes down its own descriptor for the job. -/
theorem setHost (h : KeepsOff s) (host : List UInt8) (port : Int) :
    KeepsOff (s.clientSetHost i host port) := by
  have hset := h.modify (f := fun _ => ((s.clients i).setHost host port).2)
    (clientFd_setHost (s.clients i) host port)
  unfold clientSetHost
  simp only
  split
  · exact hset.fewer (fun _ hfd => hfd) (fun _ => rfl) fun _ hj => hj
  · exact hset.fewer (fun _ hfd => hfd) (fun _ => rfl) fun _ hj => hj

/-- The descriptor of a new origin is no client's. -/
theorem connecting (h : KeepsOff s) (fd : Int) : KeepsOff (s.connecting i fd) :=
  KeepsOff.modify (s := s.openFd i fd) (h.fewer (fun _ hfd => hfd) (fun _ => rfl) fun _ hj => hj) rfl

/-- Whatever `client_block` ends in, the program keeps its slots. -/
theorem blockEnd (h : KeepsOff s) {o : BlockCalls} (he : BlockEnd s i o t) : KeepsOff t := by
  cases he with
  | unresolved _ => exact h.closing (closing_unregister s _)
  | noSocket _ _ => exact h.modify rfl
  | unwatched _ _ _ => exact h.connecting _
  | @watched _ x _ _ _ hfree sel hsel _ =>
    refine (h.connecting x).fewer (fun fd hfd => ?_) (fun _ => rfl) fun _ hj => hj
    change sel.handlerAt fd = _ at hfd
    rw [hsel, Function.update_apply] at hfd
    split at hfd
    · cases hfd
    · exact hfd
  | refused _ _ _ hsel _ _ =>
    exact (h.connecting _).fewer (fun fd hfd => congrFun hsel fd ▸ hfd) (fun _ => rfl) fun _ hj => hj

/-- A new descriptor is not one that the program registered for itself. -/
theorem accept (h : KeepsOff s) (ho : Owned s) {o : AcceptCalls} (hos : s.OsCall (.accept o)) :
    KeepsOff (s.listenReadHandler o) := by
  cases ha : o.accept with
  | none =>
    unfold listenReadHandler
    rwa [ha]
  | some fd =>
    have hacc := accepts_listenReadHandler (s := s) ha
    have hclosed := ((hos fd ha).2 fd List.mem_cons_self).2
    generalize s.listenReadHandler o = t at hacc ⊢
    have hsel : ∀ fd', t.sel.handlerAt fd' = some .other → s.sel.handlerAt fd' = some .other := by
      intro fd' hfd'
      rw [hacc.sel] at hfd'
      rcases Selector.register_eq s.sel fd (.client s.made) OP_READ with
        ⟨-, -, -, hreg, -⟩ | ⟨-, -, hsame⟩
      · rw [hreg, Function.update_apply] at hfd'
        split at hfd'
        · cases hfd'
        · exact hfd'
      · rwa [hsame] at hfd'
    constructor
    case clients =>
      intro j heq
      by_cases hj : j = s.made
      · subst hj
        rw [hacc.client.clientFd] at heq
        exact absurd ((SameBut.free_slot ho hclosed).symm.trans (hsel fd heq))
          (Option.some_ne_none _).symm
      · rw [hacc.others j hj] at heq
        exact h.clients j (hsel _ heq)
    case jobs => exact fun j hj heq => h.jobs j (hacc.jobs ▸ hj) (hsel _ heq)

/-- No handler touches the program's own slots. -/
theorem call (h : KeepsOff s) (hslots : Slots s) (ho : Owned s) {c : Call} (hreg : s.Registered c)
    (hos : s.OsCall c) : KeepsOff (s.call c) := by
  have hun : ∀ (t : Proxy) (fd : Int), KeepsOff t → KeepsOff (t.unregister fd) :=
    fun t fd ht => ht.closing (closing_unregister t fd)
  cases c with
  | accept o => exact h.accept ho hos
  | clientRead i r =>
    exact keeps_clientRead (i := i) (fun _ _ h hq => h.quiet hq)
      (fun _ host port h => h.setHost host port) (fun _ _ h => h.modify rfl)
      (fun t h => hun t _ h) h r
  | clientWrite i r =>
    exact keeps_clientWrite (i := i) (fun _ _ h hq => h.quiet hq) (fun t h => hun t _ h) h r
  | clientBlock fd i o => exact h.blockEnd (hslots.clientBlock hreg o)
  | remoteRead i r =>
    exact keeps_remoteRead (i := i) (fun _ _ h hq => h.quiet hq) (fun t h => hun t _ h) h r
  | remoteWrite i r =>
    exact keeps_remoteWrite (i := i) (fun _ _ h hq => h.quiet hq) (fun _ _ h => h.modify rfl)
      (fun t h => hun t _ h) h r

/-- That the program keeps its own slots is preserved by every run with what is owned. -/
theorem preserved : Preserved (fun s c => s.OsCall c ∧ Slots s ∧ Owned s) KeepsOff where
  call _ _ h _ hreg hP := h.call hP.2.1 hP.2.2 hreg hP.1
  clock _ _ h := h.fewer (fun _ hfd => hfd) (fun _ => rfl) fun _ hj => hj
  resolve s i found h := by
    unfold Proxy.resolve
    split
    · exact KeepsOff.modify (s := { s with
        resolving := s.resolving.erase i, notifying := i :: s.notifying })
        (h.fewer (fun _ hfd => hfd) (fun _ => rfl) fun _ hj => hj) rfl
    · exact h
  notify s i h := by
    unfold Proxy.notify
    split
    · refine ⟨h.clients, fun j hj => ?_⟩
      rcases List.mem_cons.mp hj with rfl | hj
      · exact h.clients i
      · exact h.jobs j hj
    · exact h
  resumed _ _ _ _ _ _ _ h := h.fewer (fun _ hfd => hfd) (fun _ => rfl) fun _ hj => hj
  cleared _ h := h.fewer (fun _ hfd => hfd) (fun _ => rfl) nofun
  crashed _ h := h.fewer (fun _ hfd => hfd) (fun _ => rfl) fun _ hj => hj

end KeepsOff

/-! ## The invariant of a run -/

/-- What is known between two events of a run that isolates its clients. -/
structure Sound (s : Proxy) : Prop where
  running : s.status = .running
  known : Known s
  tended : Tended s
  keepsOff : KeepsOff s

/-- What is known of a run that isolates its clients is preserved by it. -/
theorem preserved_sound {P : Proxy → Call → Prop} (hP : ∀ s c, P s c → s.OsCall c ∧ s.Isolates c) :
    Preserved P fun s => (Known s ∧ Tended s) ∧ KeepsOff s := by
  have hknown := preserved_known fun s c h => (hP s c h).1
  have htended := hknown.and (Tended.preserved.mono fun s c h =>
    ⟨⟨(hP s c h.1).1, (hP s c h.1).2.connectsFree⟩, h.2.slots, h.2.owned⟩)
  exact htended.and (KeepsOff.preserved.mono fun s c h =>
    ⟨(hP s c h.1).1, h.2.1.slots, h.2.1.owned⟩)

/-- The calls of a run that isolates its clients. -/
abbrev Peaceful (s : Proxy) (c : Call) : Prop := s.OsCall c ∧ s.Isolates c

/-- `handle_block_notifications` calls `client_block` or nothing. -/
theorem handleJob_cases (h : KeepsOff s) {k : Job} (hk : k ∈ s.jobs) (o : BlockCalls) :
    (∃ i, s.sel.handlerAt k.fd = some (.client i) ∧
        s.handleJob k o = (s.clientBlock k.fd i o).act (.resumed k.owner i)) ∨
      (∀ i, s.sel.handlerAt k.fd ≠ some (.client i)) ∧ s.handleJob k o = s := by
  unfold handleJob handleBlock
  cases hslot : s.sel.handlerAt k.fd with
  | none => exact .inr ⟨nofun, rfl⟩
  | some x =>
    cases x with
    | client i => exact .inl ⟨i, rfl, rfl⟩
    | remote i => exact .inr ⟨nofun, rfl⟩
    | other => exact absurd hslot (h.jobs k hk)

namespace Sound

/-- A job is handled in a state of the run, and leaves one. -/
theorem handleJob (h : Sound s) {k : Job} (hk : k ∈ s.jobs) {o : BlockCalls}
    (hP : BlockMeets Peaceful s k.fd o) : Sound (s.handleJob k o) := by
  have hkept := (preserved_sound (P := Peaceful) fun _ _ h => h).handleJob
    ⟨⟨h.known, h.tended⟩, h.keepsOff⟩ h.running hk hP
  refine ⟨?_, hkept.1.1, hkept.1.2, hkept.2⟩
  rcases handleJob_cases h.keepsOff hk o with ⟨i, hi, heq⟩ | ⟨-, heq⟩
  · obtain ⟨hos, hiso⟩ := hP i hi
    rw [heq]
    exact (status_blockEnd h.known.owned hos hiso (h.known.slots.clientBlock hi o)).trans h.running
  · rw [heq]
    exact h.running

/-- The jobs taken down are handled one after the other. The induction is on those still to
handle. -/
theorem handleJobs (h : Sound s) {jobs : List Job} (hjobs : ∀ k ∈ jobs, k ∈ s.jobs)
    {os : List BlockCalls} (hP : JobsMeet Peaceful s jobs os) : Sound (s.handleJobs jobs os) := by
  induction jobs generalizing s os with
  | nil =>
    have hcleared := (preserved_sound (P := Peaceful) fun _ _ h => h).cleared s
      ⟨⟨h.known, h.tended⟩, h.keepsOff⟩
    exact ⟨h.running, hcleared.1.1, hcleared.1.2, hcleared.2⟩
  | cons k jobs ih =>
    have hjob := h.handleJob (hjobs k List.mem_cons_self) hP.1
    unfold Proxy.handleJobs
    simp only
    rw [if_neg (not_not.mpr hjob.running)]
    refine ih hjob (fun k' hk' => ?_) (hP.2 hjob.running)
    rw [Preserved.jobs_handleJob]
    exact hjobs k' (List.mem_cons_of_mem k hk')

/-- A handler that meets the conditions leaves a state of the run. -/
theorem call (h : Sound s) {c : Call} (hreg : s.Registered c) (hP : Peaceful s c) :
    Sound (s.call c) := by
  have hkept := (preserved_sound (P := Peaceful) fun _ _ h => h).call s c
    ⟨⟨h.known, h.tended⟩, h.keepsOff⟩ h.running hreg hP
  exact ⟨(status_call h.known.slots h.known.owned hreg hP.1 hP.2).trans h.running,
    hkept.1.1, hkept.1.2, hkept.2⟩

/-- An event that meets the conditions leaves a state of the run. -/
theorem handle (h : Sound s) {e : Event} (he : e.ForJobs) (hP : Meets Peaceful s e) :
    Sound (s.handle e) := by
  have hkept := (preserved_sound (P := Peaceful) fun _ _ h => h).handle
    ⟨⟨h.known, h.tended⟩, h.keepsOff⟩ h.running hP
  refine ⟨?_, hkept.1.1, hkept.1.2, hkept.2⟩
  cases e with
  | clock now => exact h.running
  | accept o => exact (h.call (c := .accept o) trivial hP).running
  | read fd r =>
    change (s.handleRead fd r).status = _
    unfold handleRead
    split
    · next i hi => exact (h.call (c := .clientRead i r) ⟨fd, hi⟩ (hP.1 i hi)).running
    · next i hi => exact (h.call (c := .remoteRead i r) ⟨fd, hi⟩ (hP.2 i hi)).running
    · exact h.running
  | write fd r =>
    change (s.handleWrite fd r).status = _
    unfold handleWrite
    split
    · next i hi => exact (h.call (c := .clientWrite i r) ⟨fd, hi⟩ (hP.1 i hi)).running
    · next i hi => exact (h.call (c := .remoteWrite i r) ⟨fd, hi⟩ (hP.2 i hi)).running
    · exact h.running
  | block fd o => exact he.elim
  | resolved i found =>
    change (s.resolve i found).status = _
    unfold resolve
    split <;> exact h.running
  | notified i =>
    change (s.notify i).status = _
    unfold notify
    split <;> exact h.running
  | notifications os => exact (h.handleJobs (fun _ hk => hk) hP).running

end Sound

/-! ## The handlers of the client, as a whole -/

/-- Client `i` was made, and the request parser is through with it. -/
structure Through (s : Proxy) (i : ClientId) : Prop where
  made : i < s.made
  finished : (s.clients i).reqData.parserState = .FINISHED

theorem Through.congr (h : Through s i) (hmade : t.made = s.made)
    (hclient : (t.clients i).reqData.parserState = (s.clients i).reqData.parserState) :
    Through t i := ⟨hmade ▸ h.made, hclient.trans h.finished⟩

/-- What `client_block` leaves of the rest when it leaves the process running. -/
theorem SameBut.of_blockEnd (ho : OwnedBy i s) {o : BlockCalls} (he : BlockEnd s i o t)
    (hrun : t.status = .running) : SameBut i s t ∧
      (t.clients i).reqData.parserState = (s.clients i).reqData.parserState := by
  have hconn : ∀ x, SameBut i s (s.connecting i x) := by
    intro x
    have hopen : SameBut i s { s with fds := x :: s.fds } := { refl i s with }
    exact (hopen.acted (a := .opened i x) nofun).trans (of_modify _ rfl)
  have hparser : ∀ x, ((s.connecting i x).clients i).reqData.parserState =
      (s.clients i).reqData.parserState := fun x =>
    congrArg (fun c => c.reqData.parserState) (clients_connecting_self s i x)
  have hslots : ∀ {sel : Selector Handlers} {x : Int}, (s.Mine i x) →
      Mine { s with sel := sel } i x → (∀ fd, fd ≠ x → sel.handlerAt fd = s.sel.handlerAt fd) →
      (∀ fd, fd ≠ x → fd ≠ (s.clients i).clientFd → sel.fds fd = s.sel.fds fd) →
      SameBut i s { s.connecting i x with sel := sel } := by
    intro sel x hmine hmine' hsel hfds
    refine { hconn x with slots := fun fd => ?_ }
    by_cases hx : fd = x
    · exact .inr ⟨hx ▸ hmine, hx ▸ hmine'⟩
    · by_cases hfd : fd = (s.clients i).clientFd
      · have hown : s.Mine i fd := hfd ▸ ho.slot.imp id .inl
        exact .inr ⟨hown, hown.of_handlerAt (hsel fd hx)⟩
      · exact .inl (hfds fd hx hfd)
  cases he with
  | unresolved _ =>
    refine ⟨of_unregister_client ho, ?_⟩
    rw [(closing_unregister s _).clients i]
  | noSocket _ _ =>
    refine ⟨of_modify s rfl, ?_⟩
    rw [clients_modify_self]
  | unwatched _ _ _ => exact ⟨hconn _, hparser _⟩
  | watched _ _ _ _ hfree hsel hrest =>
    refine ⟨hslots (.inl hfree) (.inr (.inr ?_)) (fun fd hx => ?_) hrest, hparser _⟩
    · exact (congrFun hsel _).trans (Function.update_self _ _ _)
    · rw [hsel, Function.update_of_ne hx]
  | refused _ _ _ _ _ _ => cases hrun

/-- A handler of the client stays with the client, and its parser stays at its end. -/
theorem SameBut.of_call (h : Sound s) (hi : Through s i) {c : Call} (hc : c.Of i)
    (hreg : s.Registered c) (hP : Peaceful s c) : SameBut i s (s.call c) ∧ Through (s.call c) i := by
  have hst := status_call h.known.slots h.known.owned hreg hP.1 hP.2
  have hclient : ∀ {fd}, s.sel.handlerAt fd = some (.client i) → Alone i s s :=
    fun hfd => .refl (h.known.owned.ownedBy h.known.slots hfd) h.known.plain
  have hremote : ∀ {fd}, s.sel.handlerAt fd = some (.remote i) → Alone i s s := fun hfd =>
    .refl ⟨h.known.owned, h.known.slots, h.known.owned.slot_client (h.tended _ _ hfd).1⟩
      h.known.plain
  have hend : ∀ {t}, t = s.call c → Alone i s t → Steady s t →
      SameBut i s (s.call c) ∧ Through (s.call c) i := by
    rintro t rfl halone hsteady
    exact ⟨{ halone.same with status := hst, resolving := hsteady.resolving },
      hi.congr hsteady.made (hsteady.clients i).parserState⟩
  cases c with
  | accept o => exact hc.elim
  | clientRead k r =>
    obtain rfl : k = i := hc
    obtain ⟨fd, hfd⟩ := hreg
    exact hend rfl (keeps_clientRead (fun _ _ h hq => Alone.quiet h hq)
      (fun _ host port h => h.setHost host port) (fun _ g h => h.setState g)
      (fun _ h => h.unregister_client) (hclient hfd) r) (steady_clientRead_of_finished hi.finished r)
  | clientWrite k r =>
    obtain rfl : k = i := hc
    obtain ⟨fd, hfd⟩ := hreg
    exact hend rfl (keeps_clientWrite (fun _ _ h hq => Alone.quiet h hq)
      (fun _ h => h.unregister_client) (hclient hfd) r) (steady_clientWrite s k r)
  | clientBlock fd k o =>
    obtain rfl : k = i := hc
    have he := h.known.slots.clientBlock hreg o
    obtain ⟨hsame, hparser⟩ := SameBut.of_blockEnd (hclient hreg).ownedBy he
      (hst.trans h.running)
    exact ⟨hsame, hi.congr hsame.made hparser⟩
  | remoteRead k r =>
    obtain rfl : k = i := hc
    obtain ⟨fd, hfd⟩ := hreg
    exact hend rfl (keeps_remoteRead (fun _ _ h hq => Alone.quiet h hq)
      (fun _ h => h.unregister_origin) (hremote hfd) r) (steady_remoteRead s k r)
  | remoteWrite k r =>
    obtain rfl : k = i := hc
    obtain ⟨fd, hfd⟩ := hreg
    exact hend rfl (keeps_remoteWrite (fun _ _ h hq => Alone.quiet h hq)
      (fun _ g h => h.setState g) (fun _ h => h.unregister_origin) (hremote hfd) r)
      (steady_remoteWrite k r fun _ => hi.finished)

namespace Through

/-- A handler of another client leaves client `i` as it is. -/
theorem of_other (hi : Through s i) (hslots : Slots s) {c : Call} (hc : ¬c.Of i)
    (hreg : s.Registered c) : Through (s.call c) i := by
  -- Whatever leaves the client as it is keeps it past its headers.
  have hkeep : ∀ {u v : Proxy}, Through u i → v.made = u.made → v.clients i = u.clients i →
      Through v i := fun hu hmade hclient => hu.congr hmade (by rw [hclient])
  have hquiet : ∀ {k}, k ≠ i → ∀ u v, Through u i → Quiet k u v → Through v i :=
    fun hk u v hu hq => hkeep hu hq.made (hq.others i hk.symm)
  have hstate : ∀ {k}, k ≠ i → ∀ (u : Proxy) (g : Client → ClientState), Through u i →
      Through (u.modify k fun c => { c with state := g c }) i :=
    fun hk u g hu => hkeep hu rfl (clients_modify_of_ne u _ hk.symm)
  have hun : ∀ (u : Proxy) (fd : Int), Through u i → Through (u.unregister fd) i := by
    intro u fd hu
    have hclosing := closing_unregister u fd
    exact hu.congr hclosing.made (by rw [hclosing.clients i])
  cases c with
  | accept o =>
    change Through (s.listenReadHandler o) i
    cases ho : o.accept with
    | none =>
      unfold listenReadHandler
      rwa [ho]
    | some fd =>
      have ha := accepts_listenReadHandler (s := s) ho
      refine ⟨by rw [ha.made]; exact Nat.lt_succ_of_lt hi.made, ?_⟩
      rw [ha.others i (Nat.ne_of_lt hi.made)]
      exact hi.finished
  | clientRead k r =>
    have hk : k ≠ i := hc
    refine keeps_clientRead (hquiet hk) (fun u host port hu => ?_) (hstate hk)
      (fun u hu => hun u _ hu) hi r
    refine hu.congr ?_ ?_
    · unfold clientSetHost
      simp only
      split <;> rfl
    · rw [clients_clientSetHost, Function.update_of_ne hk.symm]
  | clientWrite k r =>
    exact keeps_clientWrite (i := k) (hquiet hc) (fun u hu => hun u _ hu) hi r
  | clientBlock fd k o =>
    have hk : k ≠ i := hc
    have he := hslots.clientBlock hreg o
    change Through (s.clientBlock fd k o) i
    generalize s.clientBlock fd k o = t at he ⊢
    cases he with
    | unresolved _ => exact hun s _ hi
    | noSocket _ _ => exact hkeep hi rfl (clients_modify_of_ne s _ hk.symm)
    | unwatched _ _ _ => exact hkeep hi rfl (clients_connecting_of_ne s _ hk.symm)
    | watched _ _ _ _ _ _ _ => exact hkeep hi rfl (clients_connecting_of_ne s _ hk.symm)
    | refused _ _ _ _ _ _ => exact hkeep hi rfl (clients_connecting_of_ne s _ hk.symm)
  | remoteRead k r => exact keeps_remoteRead (i := k) (hquiet hc) (fun u hu => hun u _ hu) hi r
  | remoteWrite k r =>
    exact keeps_remoteWrite (i := k) (hquiet hc) (hstate hc) (fun u hu => hun u _ hu) hi r

/-- The parser of a client stays at its end in every run. -/
theorem preserved (i : ClientId) :
    Preserved (fun s c => Peaceful s c ∧ (Known s ∧ Tended s) ∧ KeepsOff s) (Through · i) where
  call s c hi hrun hreg hP := by
    have h : Sound s := ⟨hrun, hP.2.1.1, hP.2.1.2, hP.2.2⟩
    by_cases hc : c.Of i
    · exact (SameBut.of_call h hi hc hreg hP.1).2
    · exact hi.of_other h.known.slots hc hreg
  clock _ _ h := h.congr rfl rfl
  resolve s k found h := by
    unfold Proxy.resolve
    split
    · refine h.congr rfl ?_
      by_cases hk : i = k
      · subst hk
        exact congrArg (fun c => c.reqData.parserState) (clients_modify_self _ i _)
      · exact congrArg (fun c => c.reqData.parserState) (clients_modify_of_ne _ _ hk)
    · exact h
  notify _ _ h := by
    unfold Proxy.notify
    split
    · exact h.congr rfl rfl
    · exact h
  resumed _ _ _ _ _ _ _ h := h.congr rfl rfl
  cleared _ h := h.congr rfl rfl
  crashed _ h := h.congr rfl rfl

/-- The parser of a client stays at its end behind every event. -/
theorem handle (h : Sound s) (hi : Through s i) {e : Event} (hP : Meets Peaceful s e) :
    Through (s.handle e) i :=
  (((preserved_sound fun _ _ h => h).and (preserved i)).handle
    ⟨⟨⟨h.known, h.tended⟩, h.keepsOff⟩, hi⟩ h.running hP).2

/-- The origin of a client is registered when the parser is through. -/
theorem of_remote (h : Sound s) {fd : Int} (hfd : s.sel.handlerAt fd = some (.remote i)) :
    Through s i := by
  obtain ⟨hlive, horigin, hne⟩ := h.tended fd i hfd
  rw [← horigin] at hne
  exact ⟨hlive.1, h.known.told.finished_of_resolved (h.known.told.connected i hne)⟩

end Through

/-! ## Two runs -/

namespace SameBut

/-- Reading from a descriptor of client `i` or from one that nobody has. -/
theorem of_handleRead (h : Sound s) (hi : Through s i) {fd : Int} (hm : s.Mine i fd)
    {r : Option (List UInt8)} (hP : Meets Peaceful s (.read fd r)) :
    SameBut i s (s.handleRead fd r) := by
  unfold handleRead
  rcases hm with hnone | hslot | hslot
  · rw [hnone]
    exact refl i s
  · rw [hslot]
    exact (of_call h hi (c := .clientRead i r) rfl ⟨fd, hslot⟩ (hP.1 i hslot)).1
  · rw [hslot]
    exact (of_call h hi (c := .remoteRead i r) rfl ⟨fd, hslot⟩ (hP.2 i hslot)).1

/-- A write to one of the client's descriptors stays with the client. -/
theorem of_handleWrite (h : Sound s) (hi : Through s i) {fd : Int} (hm : s.Mine i fd)
    {r : Option Nat} (hP : Meets Peaceful s (.write fd r)) : SameBut i s (s.handleWrite fd r) := by
  unfold handleWrite
  rcases hm with hnone | hslot | hslot
  · rw [hnone]
    exact refl i s
  · rw [hslot]
    exact (of_call h hi (c := .clientWrite i r) rfl ⟨fd, hslot⟩ (hP.1 i hslot)).1
  · rw [hslot]
    exact (of_call h hi (c := .remoteWrite i r) rfl ⟨fd, hslot⟩ (hP.2 i hslot)).1

/-- A job of the client stays with the client. -/
theorem of_handleJob (h : Sound s) (hi : Through s i) {k : Job} (hk : k ∈ s.jobs)
    (hm : s.Mine i k.fd) {o : BlockCalls} (hP : BlockMeets Peaceful s k.fd o) :
    SameBut i s (s.handleJob k o) := by
  rcases handleJob_cases h.keepsOff hk o with ⟨j, hj, heq⟩ | ⟨-, heq⟩
  · obtain rfl : j = i := by
      by_contra hji
      exact not_mine hj (fun h => hji (Handlers.client.inj h)) nofun hm
    rw [heq]
    exact (of_call h hi (c := .clientBlock k.fd j o) rfl hj (hP j hj)).1.acted nofun
  · rw [heq]
    exact refl i s

/-- A slot that is not client `i`'s is the same in both. -/
theorem handlerAt_eq (hs : SameBut i s s') {fd : Int} (hm : ¬s.Mine i fd) :
    s'.sel.handlerAt fd = s.sel.handlerAt fd := handlerAt_of_fds (hs.slot_eq hm)

/-- A slot that is the client's is so in both. -/
theorem mine (hs : SameBut i s s') {fd : Int} (hm : s.Mine i fd) : s'.Mine i fd := by
  rcases hs.slots fd with heq | ⟨-, hm'⟩
  · exact hm.of_handlerAt (handlerAt_of_fds heq)
  · exact hm'

/-- A slot that is not the client's has the handlers of another one. -/
theorem ne_of_not_mine {fd : Int} (hm : ¬s.Mine i fd)
    (hfd : s.sel.handlerAt fd = some (.client j) ∨ s.sel.handlerAt fd = some (.remote j)) :
    j ≠ i := by
  rintro rfl
  exact hm (.inr hfd)

/-- Both proxies are in front of a handler of another client. -/
theorem both (hs : SameBut i s s') (h : Sound s) (h' : Sound s') {fd : Int} (hm : ¬s.Mine i fd)
    (hfd : s.sel.handlerAt fd = some (.client j)) : Both i j fd s s' :=
  ⟨hs, h.known.owned.ownedBy h.known.slots hfd,
    h'.known.owned.ownedBy h'.known.slots ((hs.handlerAt_eq hm).trans hfd),
    (h.known.slots.client fd j hfd).1⟩

/-- A read of another client's descriptor does the same in both; one of the client's own stays with
it. -/
theorem handleRead (hs : SameBut i s s') (h : Sound s) (h' : Sound s') (hi : Through s i)
    (hi' : Through s' i) {fd : Int} {r : Option (List UInt8)} (hP : Meets Peaceful s (.read fd r))
    (hP' : Meets Peaceful s' (.read fd r)) :
    SameBut i (s.handleRead fd r) (s'.handleRead fd r) := by
  by_cases hm : s.Mine i fd
  · exact (of_handleRead h hi hm hP).symm.trans
      (hs.trans (of_handleRead h' hi' (hs.mine hm) hP'))
  · unfold Proxy.handleRead
    rw [hs.handlerAt_eq hm]
    split
    · next j hj =>
      exact (hs.both h h' hm hj).clientRead (ne_of_not_mine hm (.inl hj))
        (h.known.owned.live_of_slot hj) r
    · next j hj =>
      exact Served.remoteRead ⟨hs, h.known.owned, h'.known.owned, h.known.slots⟩
        (ne_of_not_mine hm (.inr hj)) (h.tended fd j hj).1 r
    · exact hs

/-- A write to another client's descriptor does the same in both; one to the client's own stays with
it. -/
theorem handleWrite (hs : SameBut i s s') (h : Sound s) (h' : Sound s') (hi : Through s i)
    (hi' : Through s' i) {fd : Int} {r : Option Nat} (hP : Meets Peaceful s (.write fd r))
    (hP' : Meets Peaceful s' (.write fd r)) :
    SameBut i (s.handleWrite fd r) (s'.handleWrite fd r) := by
  by_cases hm : s.Mine i fd
  · exact (of_handleWrite h hi hm hP).symm.trans
      (hs.trans (of_handleWrite h' hi' (hs.mine hm) hP'))
  · unfold Proxy.handleWrite
    rw [hs.handlerAt_eq hm]
    split
    · next j hj =>
      exact (hs.both h h' hm hj).clientWrite (ne_of_not_mine hm (.inl hj))
        (h.known.owned.live_of_slot hj) r
    · next j hj =>
      exact Served.remoteWrite ⟨hs, h.known.owned, h'.known.owned, h.known.slots⟩
        (ne_of_not_mine hm (.inr hj)) (h.tended fd j hj).1 r
    · exact hs

/-- A job of another client does the same in both; one of the client's own stays with it. -/
theorem handleJob (hs : SameBut i s s') (h : Sound s) (h' : Sound s') (hi : Through s i)
    (hi' : Through s' i) {k : Job} (hk : k ∈ s.jobs) {o : BlockCalls}
    (hP : BlockMeets Peaceful s k.fd o) (hP' : BlockMeets Peaceful s' k.fd o) :
    SameBut i (s.handleJob k o) (s'.handleJob k o) := by
  have hk' : k ∈ s'.jobs := hs.jobs ▸ hk
  by_cases hm : s.Mine i k.fd
  · exact (of_handleJob h hi hk hm hP).symm.trans
      (hs.trans (of_handleJob h' hi' hk' (hs.mine hm) hP'))
  · have hslot := hs.handlerAt_eq hm
    rcases handleJob_cases h.keepsOff hk o with ⟨j, hj, heq⟩ | ⟨hnone, heq⟩
    · rcases handleJob_cases h'.keepsOff hk' o with ⟨j', hj', heq'⟩ | ⟨hnone', -⟩
      · obtain rfl : j' = j :=
          Handlers.client.inj (Option.some.inj (hj'.symm.trans (hslot.trans hj)))
        have hboth := hs.both h h' hm hj
        rw [heq, heq']
        exact (hs.clientBlock (ne_of_not_mine hm (.inl hj)) hj hboth.ownedBy hboth.ownedBy'
          (hP j' hj).1 (hP' j' hj').1).act _
      · exact absurd (hslot.trans hj) (hnone' j)
    · rcases handleJob_cases h'.keepsOff hk' o with ⟨j', hj', -⟩ | ⟨-, heq'⟩
      · exact absurd (hslot.symm.trans hj') (hnone j')
      · rw [heq, heq']
        exact hs

/-- The jobs do the same in both, one after the other. The induction is on those still to handle. -/
theorem handleJobs (hs : SameBut i s s') (h : Sound s) (h' : Sound s') (hi : Through s i)
    (hi' : Through s' i) {jobs : List Job} (hjobs : ∀ k ∈ jobs, k ∈ s.jobs)
    {os : List BlockCalls} (hP : JobsMeet Peaceful s jobs os) (hP' : JobsMeet Peaceful s' jobs os) :
    SameBut i (s.handleJobs jobs os) (s'.handleJobs jobs os) := by
  induction jobs generalizing s s' os with
  | nil => exact { hs with jobs := rfl }
  | cons k jobs ih =>
    have hk := hjobs k List.mem_cons_self
    have hk' : k ∈ s'.jobs := hs.jobs ▸ hk
    have hjob := h.handleJob hk hP.1
    have hjob' := h'.handleJob hk' hP'.1
    have hthrough : ∀ {u : Proxy}, Sound u → Through u i → k ∈ u.jobs → ∀ {o},
        BlockMeets Peaceful u k.fd o → Through (u.handleJob k o) i := fun hu hi hk _ hP =>
      (((preserved_sound fun _ _ h => h).and (Through.preserved i)).handleJob
        ⟨⟨⟨hu.known, hu.tended⟩, hu.keepsOff⟩, hi⟩ hu.running hk hP).2
    unfold Proxy.handleJobs
    simp only
    rw [if_neg (not_not.mpr hjob.running), if_neg (not_not.mpr hjob'.running)]
    refine ih (hs.handleJob h h' hi hi' hk hP.1 hP'.1) hjob hjob' (hthrough h hi hk hP.1)
      (hthrough h' hi' hk' hP'.1) (fun k' hk' => ?_) (hP.2 hjob.running) (hP'.2 hjob'.running)
    rw [Preserved.jobs_handleJob]
    exact hjobs k' (List.mem_cons_of_mem k hk')

/-- The same event in both leaves them the same but for the client. The cases are the events. -/
theorem handle (hs : SameBut i s s') (h : Sound s) (h' : Sound s') (hi : Through s i)
    (hi' : Through s' i) {e : Event} (he : e.ForJobs) (hP : Meets Peaceful s e)
    (hP' : Meets Peaceful s' e) : SameBut i (s.handle e) (s'.handle e) := by
  cases e with
  | clock now => exact { hs with now := rfl }
  | accept o => exact hs.accept hi.made h.known.owned h'.known.owned hP.1 hP'.1
  | read fd r => exact hs.handleRead h h' hi hi' hP hP'
  | write fd r => exact hs.handleWrite h h' hi hi' hP hP'
  | block fd o => exact he.elim
  | resolved k found => exact hs.resolve k found
  | notified k => exact hs.notify k
  | notifications os =>
    change SameBut i (s.handleJobs s.jobs os) (s'.handleJobs s'.jobs os)
    rw [hs.jobs]
    exact hs.handleJobs h h' hi hi' (fun _ hk => hk) hP (hs.jobs ▸ hP')

end SameBut

/-- An event of client `i`'s origin, of the client when the request parser is through with it, or of
a descriptor that nobody has. -/
def OwnEvent (i : ClientId) (s : Proxy) : Event → Prop
  | .read fd _ | .write fd _ =>
    s.sel.handlerAt fd = none ∨ s.sel.handlerAt fd = some (.remote i) ∨
      s.sel.handlerAt fd = some (.client i) ∧ (s.clients i).reqData.parserState = .FINISHED
  | _ => False

/-- Two proxies are the same, or the same but for a client with whom the request parser is through
in both. -/
def Unaffected (i : ClientId) (s s' : Proxy) : Prop :=
  s = s' ∨ SameBut i s s' ∧ Through s i ∧ Through s' i

theorem step_of_running (h : s.status = .running) (e : Event) : s.step e = s.handle e := if_pos h

/-- What an event of client `i` itself does stays with the client. -/
theorem Unaffected.own (h : Sound s) {e : Event} (he : OwnEvent i s e) (hP : Meets Peaceful s e) :
    Unaffected i s (s.handle e) := by
  have hthrough : ∀ {fd}, s.sel.handlerAt fd = some (.remote i) ∨
      s.sel.handlerAt fd = some (.client i) ∧ (s.clients i).reqData.parserState = .FINISHED →
      Through s i ∧ s.Mine i fd := by
    rintro fd (hslot | ⟨hslot, hfin⟩)
    · exact ⟨.of_remote h hslot, .inr (.inr hslot)⟩
    · exact ⟨⟨(h.known.slots.client fd i hslot).2, hfin⟩, .inr (.inl hslot)⟩
  cases e with
  | read fd r =>
    rcases he with hnone | hslot
    · refine .inl ?_
      change s = s.handleRead fd r
      rw [handleRead, hnone]
    · obtain ⟨hi, hm⟩ := hthrough hslot
      exact .inr ⟨SameBut.of_handleRead h hi hm hP, hi, hi.handle h hP⟩
  | write fd r =>
    rcases he with hnone | hslot
    · refine .inl ?_
      change s = s.handleWrite fd r
      rw [handleWrite, hnone]
    · obtain ⟨hi, hm⟩ := hthrough hslot
      exact .inr ⟨SameBut.of_handleWrite h hi hm hP, hi, hi.handle h hP⟩
  | _ => exact he.elim

theorem Unaffected.symm (h : Unaffected i s s') : Unaffected i s' s :=
  h.imp Eq.symm fun h => ⟨h.1.symm, h.2.2, h.2.1⟩

/-- Two steps that do not affect the others are one. -/
theorem Unaffected.trans (h : Unaffected i s s') (h' : Unaffected i s' t) : Unaffected i s t := by
  rcases h with rfl | ⟨hs, hi, hmid⟩
  · exact h'
  · rcases h' with rfl | ⟨hs', -, hi'⟩
    · exact .inr ⟨hs, hi, hmid⟩
    · exact .inr ⟨hs.trans hs', hi, hi'⟩

/-- The conditions of the unwinding: an event of the client alone is not seen, and a common event is
the same for all. -/
theorem unwinds (i : ClientId) :
    Unwinding.Unwinds step (OwnEvent i)
      (fun s e => e.ForJobs ∧ (s.status = .running → Meets Peaceful s e)) Sound
      (Unaffected i) where
  keeps s e h hok := by
    rw [step_of_running h.running]
    exact h.handle hok.1 (hok.2 h.running)
  same s s' e h h' hR hok hok' := by
    rw [step_of_running h.running, step_of_running h'.running]
    rcases hR with rfl | ⟨hs, hi, hi'⟩
    · exact .inl rfl
    · have hP := hok.2 h.running
      have hP' := hok'.2 h'.running
      exact .inr ⟨hs.handle h h' hi hi' hok.1 hP hP', hi.handle h hP, hi'.handle h' hP'⟩
  left s s' e h _ hR he hok := by
    rw [step_of_running h.running]
    exact (Unaffected.own h he (hok.2 h.running)).symm.trans hR
  symm _ _ h := h.symm

/-- A run that meets the conditions meets them along the unwinding. -/
theorem along_of_always {es : List Event} (h : Always Peaceful s es)
    (hes : ∀ e ∈ es, e.ForJobs) :
    Unwinding.Along step (fun s e => e.ForJobs ∧ (s.status = .running → Meets Peaceful s e))
      s es := by
  induction es generalizing s with
  | nil => trivial
  | cons e es ih =>
    exact ⟨⟨hes e List.mem_cons_self, h.1⟩, ih h.2 fun e' he' => hes e' (List.mem_cons_of_mem e he')⟩

/-- The events of the second of two corresponding runs are of the kinds of the first's. -/
theorem forJobs_of_corresponds {es es' : List Event}
    (hc : Unwinding.Corresponds step (OwnEvent i) s s' es es') (hes : ∀ e ∈ es, e.ForJobs) :
    ∀ e ∈ es', e.ForJobs := by
  induction hc with
  | nil => exact hes
  | same e _ ih =>
    intro e' he'
    rcases List.mem_cons.mp he' with rfl | he'
    · exact hes e' List.mem_cons_self
    · exact ih (fun x hx => hes x (List.mem_cons_of_mem e hx)) e' he'
  | left _ _ ih => exact ih fun x hx => hes x (List.mem_cons_of_mem _ hx)
  | @right _ s' _ _ e he _ ih =>
    intro e' he'
    rcases List.mem_cons.mp he' with rfl | he'
    · cases e' with
      | block fd o => exact he.elim
      | _ => trivial
    · exact ih hes e' he'

/-- The process runs in both, and every client but `i` is the same, with its slots. -/
structure Isolated (i : ClientId) (s s' : Proxy) : Prop where
  running : s.status = .running
  running' : s'.status = .running
  clients : ∀ j, j ≠ i → s'.clients j = s.clients j
  slots : ∀ j, j ≠ i → ∀ fd item, item.handler = .client j ∨ item.handler = .remote j →
    (s'.sel.fds fd = some item ↔ s.sel.fds fd = some item)

/-- The slots of another client are the same in both. -/
theorem SameBut.slots_iff (h : SameBut i s s') (hj : j ≠ i) (fd : Int) {item : Item Handlers}
    (hitem : item.handler = .client j ∨ item.handler = .remote j) :
    s'.sel.fds fd = some item ↔ s.sel.fds fd = some item := by
  have hnot : ∀ {u : Proxy}, u.Mine i fd → u.sel.fds fd ≠ some item := by
    intro u hm heq
    have hslot : u.sel.handlerAt fd = some item.handler := by
      rw [Selector.handlerAt, heq, Option.map_some]
    refine not_mine hslot ?_ ?_ hm
    · rcases hitem with hitem | hitem <;> rw [hitem]
      · exact fun heq => hj (Handlers.client.inj heq)
      · intro heq
        cases heq
    · rcases hitem with hitem | hitem <;> rw [hitem]
      · intro heq
        cases heq
      · exact fun heq => hj (Handlers.remote.inj heq)
  rcases h.slots fd with heq | ⟨hm, hm'⟩
  · rw [heq]
  · exact iff_of_false (hnot hm') (hnot hm)

/-- Two runs that differ in the events of client `i` behind its request leave the process running
and the other clients the same, when the parsers return, no response is refused and a client is
connected once. -/
theorem origin_isolated (hs : Started s) (i : ClientId) {es es' : List Event}
    (hc : Unwinding.Corresponds step (OwnEvent i) s s es es') (hes : ∀ e ∈ es, e.ForJobs)
    (h : Always Peaceful s es) (h' : Always Peaceful s es') :
    Isolated i (s.run es) (s.run es') := by
  have hsound : Sound s := by
    refine ⟨?_, hs.known, hs.tended, ?_⟩
    · obtain ⟨conf, registered, others, -, rfl⟩ := hs
      rfl
    · have hslots := hs.slots
      obtain ⟨conf, registered, others, -, rfl⟩ := hs
      refine ⟨fun j => ?_, nofun⟩
      rw [show ((initial conf registered others).clients j).clientFd = -1 from rfl,
        hslots.handlerAt_neg_one]
      exact Option.some_ne_none _ ∘ Eq.symm
  obtain ⟨hend, hend', hR⟩ := (unwinds i).run hc hsound hsound (.inl rfl)
    (along_of_always h hes) (along_of_always h' (forJobs_of_corresponds hc hes))
  refine ⟨hend.running, hend'.running, ?_, ?_⟩
  · rcases hR with heq | ⟨hsame, -, -⟩
    · exact fun j _ => congrArg (·.clients j) heq.symm
    · exact hsame.others
  · intro j hj fd item hitem
    rcases hR with heq | ⟨hsame, -, -⟩
    · rw [show s.run es = s.run es' from heq]
    · exact hsame.slots_iff hj fd hitem

/-- Client 0 has sent its request, and client 1 is connected to the proxy. -/
def twoClients : List Event :=
  connects 0 7 8 ++ [.accept ⟨some 9, noPipes⟩, .write 8 (some 100), .write 8 (some 100)]

/-- Two runs that differ in what the first client's origin answers. -/
theorem corresponds_answers (b b' : List UInt8) :
    Unwinding.Corresponds step (OwnEvent 0) mainLoop mainLoop
      (twoClients ++ [.read 8 (some b)]) (twoClients ++ [.read 8 (some b')]) := by
  have hslot : (mainLoop.run twoClients).sel.handlerAt 8 = some (.remote 0) := by decide +kernel
  exact .prepend _ (.left (.inr (.inl hslot)) (.right (.inr (.inl hslot)) (.nil _ _)))

theorem origin_isolated_answers : Isolated 0
    (mainLoop.run (twoClients ++ [.read 8 (some (lit "HTTP/1.1 200 OK\r\n"))]))
    (mainLoop.run (twoClients ++ [.read 8 (some (lit "HTTP/1.0 404 "))])) :=
  origin_isolated started_mainLoop 0 (corresponds_answers _ _) (by decide) (by decide +kernel)
    (by decide +kernel)

/-- One byte that is no response from the origin of client 0 ends the process for client 1. -/
theorem origin_ends_process :
    Unwinding.Corresponds step (OwnEvent 0) mainLoop mainLoop
      (twoClients ++ [.read 8 (some (lit "HTTP/1.1 200 OK\r\n"))])
      (twoClients ++ [.read 8 (some (lit "X"))]) ∧
    Always OsCall mainLoop (twoClients ++ [.read 8 (some (lit "HTTP/1.1 200 OK\r\n"))]) ∧
    Always OsCall mainLoop (twoClients ++ [.read 8 (some (lit "X"))]) ∧
    ¬Isolated 0 (mainLoop.run (twoClients ++ [.read 8 (some (lit "HTTP/1.1 200 OK\r\n"))]))
      (mainLoop.run (twoClients ++ [.read 8 (some (lit "X"))])) := by
  refine ⟨corresponds_answers _ _, by decide +kernel, by decide +kernel, fun h => ?_⟩
  have hexits : (mainLoop.run (twoClients ++ [.read 8 (some (lit "X"))])).status = .exited 42 := by
    decide +kernel
  cases hexits.symm.trans h.running'

end Proxy

end HttpProxy
