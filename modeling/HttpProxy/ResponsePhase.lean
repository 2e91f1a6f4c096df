import HttpProxy.RequestPassing
import HttpProxy.RequestPath
import HttpProxy.ResponseCuts

/-!
# Where the response phase starts

`remote_write` goes on to the response when nothing is queued and `request_complete` is set, which the
parser does when it has found the host. So whether the origin was sent the whole head by then depends on
what had been read of it. By `head_forwarded` it was, as long as no byte of the head was lost on the way and
`remote_write` only goes on behind the end of the head.
-/

namespace HttpProxy

/-! ## The head in the bytes received -/

section Head

variable {l : List UInt8}

/-- As long as it has no end all of it is head. -/
theorem headSection_of_not (h : ¬HasHead l) : headSection l = l := by
  rcases headSection_cases l with ⟨heq, -⟩ | ⟨g, t, rfl, -, -⟩
  · exact heq
  · exact absurd ⟨g, t, by rw [List.append_assoc]⟩ h

/-- A head without an end goes on in what is received next. -/
theorem headSection_cut (h : ¬HasHead l) (w : List UInt8) :
    ∃ u v, w = u ++ v ∧ headSection (l ++ w) = l ++ u ∧ (¬HasHead (l ++ w) → v = []) := by
  rcases headSection_cases (l ++ w) with ⟨heq, -⟩ | ⟨g, t, hw, heq, -⟩
  · exact ⟨w, [], (List.append_nil w).symm, heq, fun _ => rfl⟩
  · have hends : HasHead (g ++ [CR, LF, CR, LF]) := (List.suffix_append g _).isInfix
    have hpre : g ++ [CR, LF, CR, LF] <+: l ++ w := ⟨t, by rw [hw, List.append_assoc]⟩
    have hbehind : l <+: g ++ [CR, LF, CR, LF] := by
      by_contra hnot
      have hlt : (g ++ [CR, LF, CR, LF]).length ≤ l.length := by
        by_contra hlen
        exact hnot (List.prefix_of_prefix_length_le (List.prefix_append l w) hpre (Nat.le_of_not_le hlen))
      exact h (hends.trans (List.prefix_of_prefix_length_le hpre (List.prefix_append l w) hlt).isInfix)
    obtain ⟨u, hu⟩ := hbehind
    rw [← hu, List.prefix_append_right_inj] at hpre
    obtain ⟨v, rfl⟩ := hpre
    refine ⟨u, v, rfl, heq.trans hu.symm, fun hnot => absurd (hends.append t) ?_⟩
    rw [List.append_assoc, ← hw]
    exact hnot

end Head

/-! ## A read of the head -/

/-- In front of the end of a head the parser has rejected nothing, and nothing is left to read. -/
structure AwaitsHead (rd : RequestData) (b : Buffer) : Prop where
  wf : rd.Wf
  state : rd.state = .OK
  readable : b.Readable
  empty : b.cells = []

namespace AwaitsHead

variable {rd : RequestData} {b bOut : Buffer} {u v : List UInt8}

/-- What is read of the head is all in front of the parser. -/
theorem front (h : AwaitsHead rd b) (hu : 0 ∉ u) (hroom : b.write + (u ++ v).length ≤ b.limit) :
    (bufferWriteAll b (u ++ v)).Wf ∧ u <+: (bufferWriteAll b (u ++ v)).front := by
  refine ⟨Buffer.wf_writeAll h.readable.wf hroom, prefix_front (v := v) ?_ hu⟩
  rw [Buffer.cells_writeAll h.readable.wf hroom, h.empty, List.nil_append]

/-- What is readable is emptied by the loop behind the parser. -/
theorem drained {rd : RequestData} (hw : rd.Wf) (hs : rd.state = .OK) (hb : b.Readable) :
    AwaitsHead rd (drain b bOut).1 := by
  obtain ⟨hwf, hcells, hkeeps, -⟩ := drain_nonzero bOut hb.wf hb.cells_ne_zero
  refine ⟨hw, hs, ⟨hwf, ?_, hkeeps.infLimit.trans hb.reserved⟩, hcells⟩
  rw [Buffer.cells_eq_nil.mp hcells]
  exact List.not_mem_nil

/-- A call, and the loop behind it, pass on what is read of the head. -/
theorem call (h : AwaitsHead rd b) (hu : 0 ∉ u) (hroom : b.write + (u ++ v).length ≤ b.limit)
    {r : RequestResult} (hr : checkRequest rd (bufferWriteAll b (u ++ v)) bOut = some r) :
    (drain r.bIn r.bOut).2 = bufferWriteAll bOut (reqPassed rd (bufferWriteAll b (u ++ v))) ∧
      (unblanked u).Sublist (reqPassed rd (bufferWriteAll b (u ++ v))) ∧
      (v = [] → r.rData.state = .OK → AwaitsHead r.rData (drain r.bIn r.bOut).1) := by
  obtain ⟨hwf, hfront⟩ := h.front hu hroom
  obtain ⟨-, hdrain, hcarries⟩ := checkRequest_carries h.wf hwf hr
  refine ⟨hdrain, (unblanked_sublist hfront.sublist).trans hcarries, ?_⟩
  rintro rfl hok
  rw [List.append_nil] at hr
  exact .drained (checkRequest_wf h.wf hr) hok (checkRequest_readable h.wf h.state (h.readable.writeAll hu) hr)

/-- Behind the end of the parser the loop passes on what is read of the head. -/
theorem passed (h : AwaitsHead rd b) (hp : rd.parserState = .FINISHED) (hu : 0 ∉ u)
    (hroom : b.write + (u ++ v).length ≤ b.limit) (bOut : Buffer) :
    (drain (bufferWriteAll b (u ++ v)) bOut).2 = bufferWriteAll bOut (reqPassed rd (bufferWriteAll b (u ++ v))) ∧
      (unblanked u).Sublist (reqPassed rd (bufferWriteAll b (u ++ v))) ∧
      (v = [] → AwaitsHead rd (drain (bufferWriteAll b (u ++ v)) bOut).1) := by
  obtain ⟨hwf, hfront⟩ := h.front hu hroom
  rw [reqPassed_of_finished hp]
  refine ⟨drain_front hwf bOut, ?_, ?_⟩
  · exact (sublist_unblanked u).trans hfront.sublist
  · rintro rfl
    rw [List.append_nil]
    exact .drained h.wf h.state (h.readable.writeAll hu)

end AwaitsHead

namespace Proxy

/-! ## The property and its condition -/

/-- The origin of client `i` was sent all of the request's head up to the empty line at its end: each byte,
in order, but the blanks, of which the parser passes on one for a run of them. -/
def HeadSent (s : Proxy) (i : ClientId) : Prop :=
  HasHead (s.received i) ∧ (unblanked (headSection (s.received i))).Sublist (s.sent i)

/-- In the response phase of client `i` the whole head of its request was sent. -/
def ForwardsHead (i : ClientId) (s : Proxy) : Prop := (s.clients i).state = .READ_RESP → s.HeadSent i

/-- Reads of client `i` up to the end of the head bring no zero byte of it, and find room for all that they
make the parser pass on; and the response phase starts behind the head. -/
def HeadFirst (i : ClientId) (s : Proxy) : Call → Prop
  | .clientRead j r => j = i → ∀ bytes ∈ s.reading i r,
    HasHead (s.received i) ∨ 0 ∉ headSection (s.received i ++ bytes) ∧
      Fits (s.clients i).postReqParseBuf
        (reqPassed (s.clients i).reqData (bufferWriteAll (s.clients i).preReqParseBuf bytes))
  | .remoteWrite j _ => j = i → (s.clients i).state = .SEND_REQ →
    bufferCanRead (s.clients i).postReqParseBuf = false → (s.clients i).requestComplete = true →
      HasHead (s.received i)
  | _ => True

instance (i : ClientId) (s : Proxy) : ∀ c, Decidable (HeadFirst i s c)
  | .clientRead _ _ => inferInstanceAs (Decidable (_ → ∀ bytes ∈ _, _ ∨ _ ∧ _))
  | .remoteWrite _ _ => inferInstanceAs (Decidable (_ → _ → _ → _ → _))
  | .accept _ | .clientWrite _ _ | .clientBlock _ _ _ | .remoteRead _ _ => .isTrue trivial

instance (i : ClientId) (s : Proxy) : Decidable (HeadSent s i) := inferInstanceAs (Decidable (_ ∧ _))

variable {s s' : Proxy} {i j : ClientId}

/-! ## Clients that are gone -/

/-- Client `i` has no origin, and no descriptor is registered for it: none of its handlers is called. -/
structure Gone (i : ClientId) (s : Proxy) : Prop where
  made : i < s.made
  state : (s.clients i).state = .NO_ORIGIN
  slots : ∀ fd, s.sel.handlerAt fd ≠ some (.client i)

namespace Gone

/-- Slots are emptied, or filled with something else. -/
theorem fewer (h : Gone i s) (hmade : s.made ≤ s'.made) (hstate : (s'.clients i).state = (s.clients i).state)
    (hslots : ∀ fd, s'.sel.handlerAt fd = some (.client i) → s.sel.handlerAt fd = some (.client i)) :
    Gone i s' :=
  ⟨h.made.trans_le hmade, hstate.trans h.state, fun fd hfd => h.slots fd (hslots fd hfd)⟩

/-- A quiet part registers nothing. -/
theorem quiet (h : Gone i s) (hq : Quiet j s s') : Gone i s' := by
  refine h.fewer hq.made.ge ?_ fun fd hfd => hq.handlers ▸ hfd
  by_cases hj : i = j
  · exact hj ▸ hq.client.state
  · rw [hq.others i hj]

/-- Closing registers nothing. -/
theorem closing (h : Gone i s) (hc : Closing s s') : Gone i s' := by
  refine h.fewer hc.made.ge ?_ fun fd hfd => ?_
  · rw [hc.clients i]
  · rcases hc.handlers fd with heq | heq
    · exact heq ▸ hfd
    · rw [heq] at hfd
      cases hfd

/-- Another client is changed. -/
theorem modify (h : Gone i s) (hj : i ≠ j) (f : Client → Client) : Gone i (s.modify j f) :=
  h.fewer le_rfl (by rw [clients_modify_of_ne s f hj]) fun _ => id

/-- Another client is given its host. -/
theorem setHost (h : Gone i s) (hj : i ≠ j) (host : List UInt8) (port : Int) :
    Gone i (s.clientSetHost j host port) := by
  have hset := h.modify hj fun _ => ((s.clients j).setHost host port).2
  unfold clientSetHost
  dsimp only
  split
  · exact hset.fewer le_rfl rfl fun _ => id
  · exact hset.fewer le_rfl rfl fun _ => id

/-- Another client is connected to its origin. -/
theorem blockEnd (h : Gone i s) (hj : i ≠ j) {o : BlockCalls} (he : BlockEnd s j o s') : Gone i s' := by
  have hconnect (fd : Int) : Gone i (s.connecting j fd) := by
    refine Gone.modify (s := s.openFd j fd) ?_ hj _
    exact h.fewer le_rfl rfl fun _ => id
  cases he with
  | unresolved _ => exact h.closing (closing_unregister s _)
  | noSocket _ _ => exact h.modify hj _
  | unwatched _ _ _ => exact hconnect _
  | @watched _ fd _ _ _ _ sel hsel _ =>
    refine (hconnect fd).fewer le_rfl rfl fun fd' hfd' => ?_
    change sel.handlerAt fd' = _ at hfd'
    rw [hsel] at hfd'
    by_cases hfd : fd' = fd
    · rw [hfd, Function.update_self] at hfd'
      cases hfd'
    · rw [Function.update_of_ne hfd] at hfd'
      exact hfd'
  | @refused _ fd _ _ sel hsel _ _ =>
    refine (hconnect fd).fewer le_rfl rfl fun fd' hfd' => ?_
    change sel.handlerAt fd' = _ at hfd'
    rwa [hsel] at hfd'

/-- A new connection gets a slot of its own client. -/
theorem accept (h : Gone i s) (o : AcceptCalls) : Gone i (s.listenReadHandler o) := by
  cases ho : o.accept with
  | none =>
    unfold listenReadHandler
    rwa [ho]
  | some fd =>
    have ha := accepts_listenReadHandler (s := s) ho
    have hi : i ≠ s.made := h.made.ne
    refine h.fewer (ha.made ▸ Nat.le_succ _) (by rw [ha.others i hi]) fun fd' hfd' => ?_
    rw [ha.sel] at hfd'
    rcases Selector.register_eq s.sel fd (.client s.made) OP_READ with ⟨-, -, -, hsel, -⟩ | ⟨-, -, hsel⟩
    · rw [hsel] at hfd'
      by_cases hfd : fd' = fd
      · rw [hfd, Function.update_self] at hfd'
        exact absurd (Handlers.client.inj (Option.some.inj hfd')).symm hi
      · rwa [Function.update_of_ne hfd] at hfd'
    · rwa [hsel] at hfd'

/-- The handlers of others, and of the client's origin, leave it gone. -/
theorem call (h : Gone i s) (hslots : Slots s) {c : Call} (hreg : s.Registered c) : Gone i (s.call c) := by
  have hunregister : ∀ (t : Proxy) (fd : Int), Gone i t → Gone i (t.unregister fd) :=
    fun t fd ht => ht.closing (closing_unregister t fd)
  have hother : ∀ {j fd}, s.sel.handlerAt fd = some (.client j) → i ≠ j := by
    rintro j fd hfd rfl
    exact h.slots fd hfd
  cases c with
  | accept o => exact h.accept o
  | clientRead j r =>
    obtain ⟨fd, hfd⟩ := hreg
    exact keeps_clientRead (i := j) (fun _ _ h hq => h.quiet hq)
      (fun _ host port h => h.setHost (hother hfd) host port) (fun _ _ h => h.modify (hother hfd) _)
      (fun t h => hunregister t _ h) h r
  | clientWrite j r =>
    exact keeps_clientWrite (i := j) (fun _ _ h hq => h.quiet hq) (fun t h => hunregister t _ h) h r
  | clientBlock fd j o => exact h.blockEnd (hother hreg) (hslots.clientBlock hreg o)
  | remoteRead j r =>
    exact keeps_remoteRead (i := j) (fun _ _ h hq => h.quiet hq) (fun t h => hunregister t _ h) h r
  | remoteWrite j r =>
    rcases remoteWrite_effect s j r with hq | ⟨hsend, s₁, hq, hend⟩ | ⟨s₁, hq, hend⟩
    · exact h.quiet hq
    · have hj : i ≠ j := by
        rintro rfl
        cases h.state.symm.trans hsend
      change Gone i (s.remoteWrite j r)
      rw [hend]
      exact (h.quiet hq).modify hj _
    · change Gone i (s.remoteWrite j r)
      rw [hend]
      exact hunregister s₁ _ (h.quiet hq)

/-- A client without an origin is gone when its descriptor is unregistered. -/
theorem unregister (hslots : Slots s) (hi : i < s.made) (hstate : (s.clients i).state = .NO_ORIGIN) :
    Gone i (s.unregister (s.clients i).clientFd) := by
  have hc := closing_unregister s (s.clients i).clientFd
  refine ⟨hc.made ▸ hi, ?_, fun fd hfd => ?_⟩
  · rw [hc.clients i]
    exact hstate
  · rcases hc.handlers fd with heq | heq
    · have hold : s.sel.handlerAt fd = some (.client i) := heq ▸ hfd
      have hvalid := hslots.valid fd (by rw [hold]; exact Option.some_ne_none _)
      obtain rfl := (hslots.client fd i hold).1
      rw [unregister_of_client hvalid hold] at hfd
      change ((clientClose (unregisterAt 1) s i).sel.clear _).handlerAt _ = _ at hfd
      rw [Selector.handlerAt_clear, Function.update_self] at hfd
      cases hfd
    · rw [heq] at hfd
      cases hfd

end Gone

/-! ## What is read and sent is only added to -/

/-- Actions are only added to the trace. -/
theorem frame_trace : Frame fun s s' => s.trace <:+ s'.trace where
  refl _ := List.suffix_rfl
  trans _ _ _ h h' := h.trans h'
  act _ a _ := List.suffix_cons a _
  modify _ _ _ _ := List.suffix_rfl
  frame _ _ _ htrace _ _ _ := htrace ▸ List.suffix_rfl

theorem requestFrame_trace (i : ClientId) : RequestFrame i fun s s' => s.trace <:+ s'.trace where
  modify _ _ _ := List.suffix_rfl
  receive _ _ := List.suffix_cons _ _
  send _ _ _ := (List.suffix_cons _ _).trans (List.suffix_cons _ _)

theorem responseFrame_trace (i : ClientId) : ResponseFrame i fun s s' => s.trace <:+ s'.trace where
  modify _ _ _ := List.suffix_rfl
  fetch _ _ := List.suffix_cons _ _
  deliver _ _ _ := (List.suffix_cons _ _).trans (List.suffix_cons _ _)

/-- What more actions moved is behind what was moved. -/
theorem bytesOf_prefix (pick : Action → List UInt8) {l l' : List Action} (h : l <:+ l') :
    bytesOf pick l <+: bytesOf pick l' := by
  obtain ⟨m, rfl⟩ := h
  induction m with
  | nil => exact List.prefix_rfl
  | cons a m ih =>
    rw [List.cons_append, bytesOf_cons]
    exact ih.trans (List.prefix_append _ _)

/-- A call adds to what was read and sent. -/
theorem trace_call (s : Proxy) (c : Call) : s.trace <:+ (s.call c).trace :=
  frame_trace.call requestFrame_trace responseFrame_trace (fun _ _ => List.suffix_rfl) s c

/-- A head that was sent stays sent. -/
theorem HeadSent.grows (h : s.HeadSent i) (ht : s.trace <:+ s'.trace) : s'.HeadSent i := by
  obtain ⟨hhead, hsent⟩ := h
  obtain ⟨w, hw⟩ : s.received i <+: s'.received i := bytesOf_prefix (Action.receivedFrom i) ht
  have hgrows : s.sent i <+: s'.sent i := bytesOf_prefix (Action.sentFor i) ht
  refine ⟨hw ▸ hhead.append w, ?_⟩
  rw [← hw, headSection_append hhead]
  exact hsent.trans hgrows.sublist

/-! ## What a read does -/

/-- The parser of a client that has read `l` has found no error, and in front of the end of the head it
awaits more of it. -/
structure HeadReady (l : List UInt8) (x : RequestData × Buffer) : Prop where
  state : x.1.state = .OK
  awaits : ¬HasHead l → bufferCanWrite x.2 = true → AwaitsHead x.1 x.2

/-- No byte of the head of client `i` but blanks was lost on the way to its origin. -/
def KeepsHead (i : ClientId) : Proxy → Prop :=
  (requestPath i).Relays (fun got l => (unblanked (headSection l)).Sublist got) HeadReady

/-- The parser of a new client awaits the head. -/
theorem headReady_nil {c : Client} (hc : c.Unread) : HeadReady [] ((requestPath i).parser c) := by
  obtain ⟨n, hpre⟩ := hc.preReqParseBuf
  change HeadReady [] (c.reqData, c.preReqParseBuf)
  rw [hpre, hc.reqData]
  refine ⟨rfl, fun _ hcan => ?_⟩
  have hroom : RESERVED_SPACE < n := of_decide_eq_true hcan
  exact ⟨.default, rfl, ⟨Buffer.wf_initR hroom.le, List.not_mem_nil, rfl⟩, rfl⟩

variable {t : Proxy} {rd : RequestData} {pre post : Buffer} {l w : List UInt8}

/-- What is read of the head is in the queue behind what is there. -/
theorem Reached.keepsHead (h : Reached i s t w rd pre post) (hs : KeepsHead i s) (hi : i < s.made)
    {u : List UInt8} (hhead : headSection (s.received i ++ w) = s.received i ++ u)
    (hopen : ¬HasHead (s.received i)) (hpost : post = bufferWriteAll (s.clients i).postReqParseBuf l)
    (hfits : Fits (s.clients i).postReqParseBuf l) (hl : (unblanked u).Sublist l) (hok : rd.state = .OK)
    (hawaits : ¬HasHead (s.received i ++ w) → AwaitsHead rd pre) : KeepsHead i t := by
  refine Path.Relays.moves hs hi h.made h.received h.sent (h.post.trans hpost) (fun hstream => ?_)
    fun _ => ?_
  · change (unblanked (headSection (s.received i))).Sublist (s.requestStream i) at hstream
    change (unblanked (headSection (s.received i ++ w))).Sublist
      (s.requestStream i ++ l.take (bufferWriteSpace (s.clients i).postReqParseBuf))
    rw [headSection_of_not hopen] at hstream
    rw [hhead, unblanked_append, List.take_of_length_le hfits]
    exact hstream.append hl
  · change HeadReady (s.received i ++ w) ((t.clients i).reqData, (t.clients i).preReqParseBuf)
    rw [h.reqData, h.pre]
    exact ⟨hok, fun hnot _ => hawaits hnot⟩

/-- Behind the head nothing but its parser is asked of a read. -/
theorem KeepsHead.of_head (h : KeepsHead i s) (hi : i < s.made) (hhead : HasHead (s.received i)) (c : Call)
    (hok : ((s.call c).clients i).reqData.state = .OK) : KeepsHead i (s.call c) := by
  obtain ⟨w, hw⟩ : s.received i <+: (s.call c).received i :=
    bytesOf_prefix (Action.receivedFrom i) (trace_call s c)
  have hgrows := (frame_grows i).call (requestFrame_grows i) (responseFrame_grows i) (grows_new i) s c
  have hafter : HasHead ((s.call c).received i) := hw ▸ hhead.append w
  refine ⟨fun hle => absurd (hi.trans_le hgrows.made) (Nat.not_lt.mpr hle), fun _ _ => ?_, fun _ => ?_⟩
  · exact ⟨hok, fun hnot => absurd hafter hnot⟩
  · change (unblanked (headSection ((s.call c).received i))).Sublist ((s.call c).requestStream i)
    rw [← hw, headSection_append hhead]
    exact (h.stream hi).trans (hgrows.request hi).sublist

/-- A parser that succeeds reports no error. -/
theorem state_of_success {bIn bOut : Buffer} {r : RequestResult} (h : checkRequest rd bIn bOut = some r)
    (hok : r.success = true) : r.rData.state = rd.state := by
  obtain ⟨x, hloop, rfl⟩ := checkRequest_eq_some_iff.mp h
  have hx : x.1 = true := (reportError_fst x).symm.trans hok
  rw [reportError_of_success hx]
  refine Loop.run_induction (P := fun s r => r.2.rData.state = s.rData.state) ?_ ?_ hloop
  · intro s r hend
    unfold loopBody at hend
    dsimp only at hend
    split at hend
    · cases hend
    · obtain rfl := Sum.inr.inj hend
      exact (hostStep_iteration s).state
  · intro s s' r hgo ih
    obtain ⟨-, hs'⟩ := loopBody_eq_inl.mp hgo
    exact ih.trans (hs' ▸ (hostStep_iteration s).state)

/-- A request that is refused announces no host. -/
theorem calls_of_refused {bIn bOut : Buffer} {r : RequestResult} (h : checkRequest rd bIn bOut = some r)
    (hs : rd.state = .OK) (hr : r.rData.state ≠ .OK) : r.calls = [] := by
  rcases checkRequest_calls h with hcalls | ⟨hok, -, -⟩
  · exact hcalls
  · exact absurd ((state_of_success h hok).trans hs) hr

/-- A client that is unregistered by its read is gone. -/
theorem Gone.of_shut (hslots : Slots s) (hi : i < s.made) (hstate : (s.clients i).state = .NO_ORIGIN)
    (h : ShutByRead i s t) : Gone i t := by
  obtain ⟨s₁, s₂, u, hq, hc, hq', rfl⟩ := h
  refine .unregister (((hslots.quiet hq).closing hc).quiet hq') ?_ ?_
  · rwa [hq'.made, hc.made, hq.made]
  · rw [hq'.client.state, hc.clients i]
    exact hq.client.state.trans hstate

/-- `client_read` passes on what it reads of the head, or unregisters the client. -/
theorem KeepsHead.clientRead (h : KeepsHead i s) (htold : Told s) (hslots : Slots s) (hi : i < s.made)
    (hrun : s.status = .running) {r : Option (List UInt8)} (hfirst : HeadFirst i s (.clientRead i r))
    (hrun' : (s.clientRead i r).status = .running) :
    Gone i (s.clientRead i r) ∨ KeepsHead i (s.clientRead i r) := by
  cases hw : s.reading i r with
  | none => exact .inr (h.same (still_clientRead hw).same)
  | some w =>
    obtain ⟨hstate, hcan, hfits⟩ := of_reading hw
    have hready : HeadReady (s.received i) ((s.clients i).reqData, (s.clients i).preReqParseBuf) :=
      h.ready hi hrun
    have hread := readEnd_clientRead hrun hw
    -- A parser that goes on has found no error.
    have hok : ∀ r', checkRequest (s.clients i).reqData (bufferWriteAll (s.clients i).preReqParseBuf w)
        (s.clients i).postReqParseBuf = some r' →
        ((s.clients i).state = .NO_ORIGIN → r'.rData.state = .OK) → r'.rData.state = .OK := by
      intro r' hr hno
      rcases hstate with hstate | hstate
      · exact hno hstate
      · have hp : (s.clients i).reqData.parserState = .FINISHED :=
          htold.finished_of_state (by rw [hstate]; exact ClientState.noConfusion)
        rw [checkRequest_finished hp hr]
        exact hready.state
    by_cases hhead : HasHead (s.received i)
    · have hkept := h.of_head hi hhead (.clientRead i r)
      cases hread with
      | moved _ _ hreached => exact .inr (hkept (hreached.reqData ▸ hready.state))
      | parsed hr hno _ hreached => exact .inr (hkept (hreached.reqData ▸ hok _ hr hno))
      | refused hno hr hrefused hshut =>
        exact .inl (.of_shut hslots hi hno (hshut (calls_of_refused hr hready.state hrefused)))
      | failed _ _ hfailed => exact absurd hready.state hfailed
      | spins _ hstatus => exact absurd hrun' hstatus
    · obtain ⟨hz, hroom⟩ := (hfirst rfl w hw).resolve_left hhead
      have hawaits := hready.awaits hhead hcan
      obtain ⟨u, v, rfl, heq, hend⟩ := headSection_cut hhead w
      rw [heq] at hz
      have hu : 0 ∉ u := fun hmem => hz (List.mem_append_right _ hmem)
      cases hread with
      | moved _ hp hreached =>
        obtain ⟨hpost, hl, hafter⟩ := hawaits.passed hp hu hfits (s.clients i).postReqParseBuf
        exact .inr (hreached.keepsHead h hi heq hhead hpost hroom hl hready.state
          fun hnot => hafter (hend hnot))
      | parsed hr hno _ hreached =>
        have hstate' := hok _ hr hno
        obtain ⟨hpost, hl, hafter⟩ := hawaits.call hu hfits hr
        exact .inr (hreached.keepsHead h hi heq hhead hpost hroom hl hstate'
          fun hnot => hafter (hend hnot) hstate')
      | refused hno hr hrefused hshut =>
        exact .inl (.of_shut hslots hi hno (hshut (calls_of_refused hr hready.state hrefused)))
      | failed _ _ hfailed => exact absurd hready.state hfailed
      | spins _ hstatus => exact absurd hrun' hstatus

/-! ## What the handlers do to the state -/

/-- `remote_write` starts the response phase, when nothing is queued and the request is complete. -/
theorem state_remoteWrite {r : Option Nat} (h : ((s.remoteWrite i r).clients i).state = .READ_RESP) :
    (s.clients i).state = .READ_RESP ∨ (s.clients i).state = .SEND_REQ ∧
      bufferCanRead (s.clients i).postReqParseBuf = false ∧ (s.clients i).requestComplete = true := by
  have huse : Quiet i s (s.use i) := (Quiet.refl i s).use
  have hquiet : ∀ t, Quiet i s t → (t.clients i).state = .READ_RESP → (s.clients i).state = .READ_RESP :=
    fun t ht hstate => ht.client.state.symm.trans hstate
  unfold remoteWrite at h
  dsimp only at h
  split at h
  · next hsend =>
    split at h
    · split at h
      · rw [(closing_unregister _ _).clients i] at h
        exact .inl (hquiet _ (huse.setInterest fun _ => .inl rfl) h)
      · next bytes _ =>
        have hsent := (huse.count bytes.length).onBuffers (f := fun c =>
          { c with postReqParseBuf := bufferReadAdv c.postReqParseBuf bytes.length })
          fun _ => ⟨rfl, rfl, rfl, rfl, rfl, rfl, rfl, rfl⟩
        exact .inl (hquiet _ ((hsent.act (a := .sent i bytes) rfl).setInterest fun _ => .inl rfl) h)
    · next hcan =>
      split at h
      · next hcomplete => exact .inr ⟨hsend, Bool.eq_false_iff.mpr hcan, hcomplete⟩
      · exact .inl (hquiet _ (huse.setInterest fun _ => .inr rfl) h)
  · exact .inl h

section Responding

/-- A quiet part leaves the state of every client. -/
theorem Quiet.state (h : Quiet j s s') (i : ClientId) : (s'.clients i).state = (s.clients i).state := by
  by_cases hj : i = j
  · exact hj ▸ h.client.state
  · rw [h.others i hj]

/-- Giving a client its host starts no response phase. -/
theorem state_setHost (h : (s.clients i).state ≠ .READ_RESP) (host : List UInt8) (port : Int) :
    ((s.clientSetHost j host port).clients i).state ≠ .READ_RESP := by
  rw [clients_clientSetHost]
  by_cases hj : i = j
  · subst hj
    rw [Function.update_self]
    unfold Client.setHost
    split
    · split <;> exact ClientState.noConfusion
    · split
      · exact h
      · exact ClientState.noConfusion
  · rwa [Function.update_of_ne hj]

/-- What the parts of a handler do beside giving a state starts no response phase. -/
theorem responding_parts (i j : ClientId) :
    (∀ s s' : Proxy, (s.clients i).state ≠ .READ_RESP → Quiet j s s' → (s'.clients i).state ≠ .READ_RESP) ∧
      (∀ (s : Proxy) fd, (s.clients i).state ≠ .READ_RESP → ((s.unregister fd).clients i).state ≠ .READ_RESP) ∧
      ∀ (s : Proxy) (g : Client → ClientState), i ≠ j → (s.clients i).state ≠ .READ_RESP →
        ((s.modify j fun c => { c with state := g c }).clients i).state ≠ .READ_RESP := by
  refine ⟨fun s s' h hq => ?_, fun s fd h => ?_, fun s g hj h => ?_⟩
  · rwa [hq.state i]
  · rw [(closing_unregister s fd).clients i]
    exact h
  · rwa [clients_modify_of_ne s _ hj]

/-- `client_read` starts no response phase of a client whose parser has found no error: while the request
is sent the parser is at its end, and the state goes back to the first. -/
theorem responding_clientRead (h : (s.clients i).state ≠ .READ_RESP) (hrun : s.status = .running)
    (htold : Told s) (hok : (s.clients i).reqData.state = .OK) (r : Option (List UInt8)) :
    ((s.clientRead i r).clients i).state ≠ .READ_RESP := by
  obtain ⟨hquiet, hunregister, -⟩ := responding_parts i i
  have hasks : ∀ {s s' : Proxy}, (s.clients i).state ≠ .READ_RESP → Asks i s s' →
      (s'.clients i).state ≠ .READ_RESP :=
    keeps_asks hquiet fun _ host port h => state_setHost h host port
  by_cases hno : (s.clients i).state = .NO_ORIGIN
  · obtain ⟨s₁, s₂, s₃, hq, hread, ha, hend⟩ := clientRead_noOrigin hno r
    have h₂ : (s₂.clients i).state ≠ .READ_RESP := by
      rcases hread with ⟨rfl, -⟩ | ⟨rfl, -⟩
      · exact hquiet _ _ h hq
      · exact hunregister s₁ _ (hquiet _ _ h hq)
    rcases hend with hend | hend
    · exact hend ▸ hasks h₂ ha
    · exact hend ▸ hunregister s₃ _ (hasks h₂ ha)
  · by_cases hsend : (s.clients i).state = .SEND_REQ
    · rcases clientRead_sendReq hsend r with ha | ⟨hcan, -⟩
      · exact hasks h ha
      · have hw : s.reading i r = some ((s.sysRead (s.clients i).clientFd r
            (bufferWriteSpace (s.clients i).preReqParseBuf)).getD []) := if_pos ⟨.inr hsend, hcan⟩
        have hp : (s.clients i).reqData.parserState = .FINISHED := htold.finished_of_state hno
        cases readEnd_clientRead hrun hw with
        | moved hno' _ _ => exact absurd hno' hno
        | parsed hr _ hstate _ =>
          rw [hstate hsend, checkRequest_finished hp hr, hok]
          exact ClientState.noConfusion
        | refused hno' _ _ _ => exact absurd hno' hno
        | failed hno' _ _ => exact absurd hno' hno
        | spins hr _ => exact absurd hr (checkRequest_ne_none hp)
    · rwa [clientRead_otherwise hno hsend]

/-- The response phase of a client is started by `remote_write` for it alone, when nothing is queued and the
request is complete. -/
theorem responding_call (hslots : Slots s) (htold : Told s) (hrun : s.status = .running) {c : Call}
    (hreg : s.Registered c) (hok : ∀ r, c = .clientRead i r → (s.clients i).reqData.state = .OK)
    (h : ((s.call c).clients i).state = .READ_RESP) :
    (s.clients i).state = .READ_RESP ∨ (∃ r, c = .remoteWrite i r) ∧ (s.clients i).state = .SEND_REQ ∧
      bufferCanRead (s.clients i).postReqParseBuf = false ∧ (s.clients i).requestComplete = true := by
  by_cases hstate : (s.clients i).state = .READ_RESP
  · exact .inl hstate
  · cases c with
    | accept o =>
      refine absurd h ?_
      change ((s.listenReadHandler o).clients i).state ≠ _
      cases ho : o.accept with
      | none =>
        unfold listenReadHandler
        rwa [ho]
      | some fd =>
        have ha := accepts_listenReadHandler (s := s) ho
        by_cases hi : i = s.made
        · rw [hi, ha.client.state]
          exact ClientState.noConfusion
        · rwa [ha.others i hi]
    | clientRead j r =>
      by_cases hj : i = j
      · subst hj
        exact absurd h (responding_clientRead hstate hrun htold (hok r rfl) r)
      · obtain ⟨hquiet, hunregister, hmodify⟩ := responding_parts i j
        exact absurd h (keeps_clientRead (J := fun t => (t.clients i).state ≠ .READ_RESP) hquiet
          (fun _ host port h => state_setHost h host port) (fun t g => hmodify t g hj)
          (fun t => hunregister t _) hstate r)
    | clientWrite j r =>
      obtain ⟨hquiet, hunregister, -⟩ := responding_parts i j
      exact absurd h (keeps_clientWrite (J := fun t => (t.clients i).state ≠ .READ_RESP) hquiet
        (fun t => hunregister t _) hstate r)
    | clientBlock fd j o =>
      obtain ⟨-, hunregister, hmodify⟩ := responding_parts i j
      have hconnect (fd' : Int) : ((s.connecting j fd').clients i).state ≠ .READ_RESP := by
        by_cases hj : i = j
        · subst hj
          rw [clients_connecting_self]
          exact ClientState.noConfusion
        · rwa [clients_connecting_of_ne s fd' hj]
      have hend := hslots.clientBlock hreg o
      refine absurd h ?_
      change ((s.clientBlock fd j o).clients i).state ≠ _
      generalize s.clientBlock fd j o = t at hend ⊢
      cases hend with
      | unresolved _ => exact hunregister s _ hstate
      | noSocket _ _ =>
        by_cases hj : i = j
        · subst hj
          rw [clients_modify_self]
          exact ClientState.noConfusion
        · exact hmodify s (fun _ => .CLI_ERROR) hj hstate
      | unwatched _ _ _ => exact hconnect _
      | watched _ _ _ _ _ _ _ => exact hconnect _
      | refused _ _ _ _ _ _ => exact hconnect _
    | remoteRead j r =>
      obtain ⟨hquiet, hunregister, -⟩ := responding_parts i j
      exact absurd h (keeps_remoteRead (J := fun t => (t.clients i).state ≠ .READ_RESP) hquiet
        (fun t => hunregister t _) hstate r)
    | remoteWrite j r =>
      by_cases hj : i = j
      · subst hj
        exact .inr ⟨⟨r, rfl⟩, (state_remoteWrite h).resolve_left hstate⟩
      · obtain ⟨hquiet, hunregister, hmodify⟩ := responding_parts i j
        exact absurd h (keeps_remoteWrite (J := fun t => (t.clients i).state ≠ .READ_RESP) hquiet
          (fun t g => hmodify t g hj) (fun t => hunregister t _) hstate r)

end Responding

/-! ## Runs -/

/-- What holds of the head of client `i` in every state of a run. -/
structure TracksHead (i : ClientId) (s : Proxy) : Prop where
  kept : s.status = .running → Gone i s ∨ KeepsHead i s
  forwards : ForwardsHead i s

namespace TracksHead

/-- Each call keeps it. -/
theorem call (h : TracksHead i s) (hrun : s.status = .running) (hslots : Slots s) (htold : Told s) {c : Call}
    (hreg : s.Registered c) (hfirst : HeadFirst i s c) : TracksHead i (s.call c) := by
  constructor
  · intro hrun'
    rcases h.kept hrun with hgone | hkeeps
    · exact .inl (hgone.call hslots hreg)
    · by_cases hread : ∃ r, c = .clientRead i r
      · obtain ⟨r, rfl⟩ := hread
        obtain ⟨fd, hfd⟩ := hreg
        exact hkeeps.clientRead htold hslots (hslots.client fd i hfd).2 hrun hfirst hrun'
      · exact .inr (relays_beside hkeeps (.refl _) (fun _ => headReady_nil) hslots hreg
          fun r hr => hread ⟨r, hr⟩)
  · intro hstate
    have hok (r : Option (List UInt8)) (hc : c = .clientRead i r) : (s.clients i).reqData.state = .OK := by
      subst hc
      obtain ⟨fd, hfd⟩ := hreg
      rcases h.kept hrun with hgone | hkeeps
      · exact absurd hfd (hgone.slots fd)
      · exact (hkeeps.ready (hslots.client fd i hfd).2 hrun).state
    rcases responding_call hslots htold hrun hreg hok hstate with hold | ⟨⟨r, rfl⟩, hsend, hempty, hcomplete⟩
    · exact (h.forwards hold).grows (trace_call s c)
    · -- Nothing is queued: what was passed on of the head was sent.
      have hhead : HasHead (s.received i) := hfirst rfl hsend hempty hcomplete
      refine HeadSent.grows ⟨hhead, ?_⟩ (trace_call s _)
      rcases h.kept hrun with hgone | hkeeps
      · exact absurd (hgone.state.symm.trans hsend) ClientState.noConfusion
      · obtain ⟨fd, hfd⟩ := hreg
        have hstream : (unblanked (headSection (s.received i))).Sublist
            (s.sent i ++ (s.clients i).postReqParseBuf.bytes) := hkeeps.stream (hslots.remote fd i hfd)
        have hnil : (s.clients i).postReqParseBuf.bytes = [] :=
          List.isEmpty_iff.mp (Bool.not_eq_eq_eq_not.mp hempty)
        rwa [hnil, List.append_nil] at hstream

/-- What goes on beside the handlers keeps it. -/
theorem aside (h : TracksHead i s) (hstill : (requestPath i).Still s s') (htrace : s.trace <:+ s'.trace)
    (hstate : (s'.clients i).state = (s.clients i).state) (hsel : s'.sel = s.sel) : TracksHead i s' := by
  constructor
  · intro hrun
    rcases h.kept (hstill.status hrun) with hgone | hkeeps
    · exact .inl (hgone.fewer hstill.made.ge hstate fun fd hfd => hsel ▸ hfd)
    · exact .inr (hkeeps.same hstill.same)
  · exact fun hresp => (h.forwards (hstate.symm.trans hresp)).grows htrace

theorem preserved (i : ClientId) :
    Preserved (fun s c => HeadFirst i s c ∧ Slots s ∧ Told s) (TracksHead i) where
  call _ _ h hrun hreg hP := h.call hrun hP.2.1 hP.2.2 hreg hP.1
  clock s _ h := h.aside ((requestPath i).frame_still.framed (.refl s) rfl rfl rfl rfl id) List.suffix_rfl
    rfl rfl
  resolve s j found h := by
    refine h.aside ((requestPath i).frame_still.resolve s j found) (frame_trace.resolve s j found) ?_ ?_
    · unfold Proxy.resolve
      split
      · by_cases hj : i = j
        · subst hj
          rw [clients_modify_self]
        · rw [clients_modify_of_ne _ _ hj]
      · rfl
    · unfold Proxy.resolve
      split <;> rfl
  notify s j h := by
    refine h.aside ((requestPath i).frame_still.notify s j) (frame_trace.notify s j) ?_ ?_
    · unfold Proxy.notify
      split <;> rfl
    · unfold Proxy.notify
      split <;> rfl
  resumed _ t _ _ _ _ _ h :=
    h.aside ((requestPath i).frame_still.act t _ id) (List.suffix_cons _ _) rfl rfl
  cleared s h := h.aside ((requestPath i).frame_still.framed (.refl s) rfl rfl rfl rfl id) List.suffix_rfl
    rfl rfl
  crashed s h := h.aside ((requestPath i).frame_still.stop (.refl s) Status.noConfusion) List.suffix_rfl
    rfl rfl

end TracksHead

end Proxy

end HttpProxy
