import HttpProxy.Paths
import HttpProxy.ResponseFragments

/-!
# The response of a client, from its origin to its connection

What a client received, with what is queued for it, is what the parser's machine makes of all the bytes
read from its origin (`response_relayed`), whatever happens in between: partial reads and writes, other
clients, resolutions and closed connections. The cuts have to be those that the parser comes back from,
and what a call of the parser passes on has to fit in the buffer it writes to; the bytes that do not fit
are left out, and what remains is in order (`response_subsequence`).
-/

namespace HttpProxy

/-! ## The parser of a client -/

/-- A parser that has read its response needs no more of it. -/
theorem checkResponse_finished {rd : ResponseData} (h : rd.parserState = .RES_FINISHED)
    (bIn bOut bTransf : Buffer) :
    ∃ r, checkResponse rd bIn bOut bTransf = some r ∧ r.rData = rd ∧ r.bOut = bOut := by
  have hbody : resLoopBody (resCallStart rd bIn) = .inr (true, resCallStart rd bIn) := by
    unfold resLoopBody resIteration
    rw [show (resCallStart rd bIn).rData.parserState = .RES_FINISHED from h]
    rfl
  have hloop : responseLoop (responseFuel bIn) (resCallStart rd bIn) = some (true, resCallStart rd bIn) :=
    Loop.run_succ_of_ends hbody _
  unfold checkResponse checkResponseInner
  rw [hloop]
  exact ⟨_, rfl, rfl, rfl⟩

/-- The parser of a client waits for more of a response, with the machine in `q`, or is at its
end. -/
inductive ResMachine.Attends (q : ResMachine) (rd : ResponseData) (b : Buffer) : Prop
  | rests {bOut bTransf : Buffer} (resting : ResFeed.Resting ⟨rd, b, bOut, bTransf⟩ q)
  | finished (parserState : rd.parserState = .RES_FINISHED) {unread : List Cell}
      (halted : q.ctl = .halt .finished unread)

/-- A call on what was read does what the machine does on it. -/
theorem ResMachine.Attends.call {q : ResMachine} {rd : ResponseData} {b : Buffer} (h : q.Attends rd b)
    {w : List UInt8} (hw : w ≠ []) (hcut : q.Resumes (fresh w)) (hnul : NoNul q (fresh w))
    (hfits : b.write + w.length ≤ b.limit) (bOut bTransf : Buffer) :
    ∃ r, checkResponse rd (bufferWriteAll b w) bOut bTransf = some r ∧
      r.bOut = bufferWriteAll bOut (outs (resMachine.emitted q (fresh w))) ∧
      (r.rData.state = .RES_OK → (resMachine.stateAfter q (fresh w)).Attends r.rData r.bIn) := by
  cases h with
  | rests resting =>
    have hresting : ResFeed.Resting ⟨rd, b, bOut, bTransf⟩ q :=
      ⟨resting.inv, resting.rests, resting.wf, resting.room, resting.cells⟩
    have hwrite : b.write = b.infLimit := hresting.write
    obtain ⟨r, hr, hend, hout, -⟩ := hresting.moves hw hcut (hwrite ▸ hfits) hnul
    refine ⟨r, hr, hout, fun hstate => ?_⟩
    cases hend with
    | waits success rests wf keeps cells => exact .rests (hresting.after rests wf keeps cells)
    | rejects unread success state after => exact absurd hstate state
    | finished parserState wf keeps after =>
      rw [after]
      exact .finished parserState rfl
  | @finished parserState unread halted =>
    obtain ⟨r, hr, hrd, hout⟩ := checkResponse_finished parserState (bufferWriteAll b w) bOut bTransf
    have hrun := resMachine_run_of_halt halted (fresh w)
    refine ⟨r, hr, ?_, fun _ => ?_⟩
    · rw [Transducer.emitted, hrun]
      exact hout
    · rw [Transducer.stateAfter, hrun, hrd]
      exact .finished parserState rfl

namespace ResMachine

instance (q : ResMachine) (rest : List Cell) : Decidable (q.Resumes rest) :=
  decidable_of_iff
    (q.Recalled ∧ (q.ctl = .chunkSize none → rest.head?.all (Radix.hex.isDigit ·.1) = true))
    ⟨fun h => ⟨h.1, fun hctl => (Option.all_eq_true _ _).mp (h.2 hctl)⟩,
      fun h => ⟨h.recalled, fun hctl => (Option.all_eq_true _ _).mpr (h.digit hctl)⟩⟩

/-- The machine met a zero byte where it is the end of the input. -/
def isNul (q : ResMachine) : Bool :=
  match q.ctl with
  | .halt .nul _ => true
  | _ => false

end ResMachine

instance (q : ResMachine) (l : List Cell) : Decidable (NoNul q l) :=
  decidable_of_iff ((resMachine.stateAfter q l).isNul = false) <| by
    unfold NoNul ResMachine.isNul
    generalize (resMachine.stateAfter q l).ctl = ctl
    constructor
    · rintro h unread rfl
      cases h
    · intro h
      split
      · next unread => exact absurd rfl (h unread)
      · rfl

namespace Proxy

/-! ## The way of a response -/

/-- From the origin of client `i` to the client. -/
def responsePath (i : ClientId) : Path (ResponseData × Buffer) where
  client := i
  input := Action.fetchedFor i
  output := Action.deliveredTo i
  parser c := (c.resData, c.preResParseBuf)
  queue := Client.postResParseBuf
  quiet a h := ⟨(Action.of_not_moves h i).2.2.1, (Action.of_not_moves h i).2.2.2.1⟩
  idle c c' h := ⟨by rw [h.resData, h.preResParseBuf], h.postResParseBuf⟩

/-- What was read from the origin of the client. -/
def fetched (s : Proxy) (i : ClientId) : List UInt8 := (responsePath i).read s

/-- What was written to the client. -/
def delivered (s : Proxy) (i : ClientId) : List UInt8 := (responsePath i).written s

/-- The parser's machine behind a response. -/
def parsedResponse (l : List UInt8) : ResMachine := resMachine.stateAfter (.initial false) (fresh l)

/-- What the parser's machine makes of a response. -/
def relayedResponse (l : List UInt8) : List UInt8 := outs (resMachine.emitted (.initial false) (fresh l))

/-- Where the parser's machine is with the response of the client. -/
def parsing (s : Proxy) (i : ClientId) : ResMachine := parsedResponse (s.fetched i)

/-- What the parser's machine makes of what was read from the origin of the client. -/
def relayed (s : Proxy) (i : ClientId) : List UInt8 := relayedResponse (s.fetched i)

/-- What `remote_read` reads. -/
def arriving (s : Proxy) (i : ClientId) (r : Option (List UInt8)) : Option (List UInt8) :=
  if (s.clients i).state = .READ_RESP then
    s.sysRead (s.clients i).originFd r (bufferWriteSpace (s.clients i).preResParseBuf)
  else none

/-- The response of client `i` is cut where the parser comes back from, without a zero byte outside the
data of a body, and `room` holds of the buffer for the client and what goes there. -/
def Arrives (room : Buffer → List UInt8 → Prop) (i : ClientId) (s : Proxy) : Call → Prop
  | .remoteRead j r => j = i → ∀ bytes ∈ s.arriving i r, bytes ≠ [] →
    (s.parsing i).Resumes (fresh bytes) ∧ NoNul (s.parsing i) (fresh bytes) ∧
      room (s.clients i).postResParseBuf (outs (resMachine.emitted (s.parsing i) (fresh bytes)))
  | _ => True

instance (room : Buffer → List UInt8 → Prop) [∀ b l, Decidable (room b l)] (i : ClientId) (s : Proxy) :
    ∀ c, Decidable (Arrives room i s c)
  | .remoteRead _ _ => inferInstanceAs (Decidable (_ → ∀ bytes ∈ _, _ → _ ∧ _ ∧ _))
  | .accept _ | .clientRead _ _ | .clientWrite _ _ | .clientBlock _ _ _ | .remoteWrite _ _ =>
    .isTrue trivial

/-- The parser of a client that has read `l` of its response. -/
def ResponseReady (l : List UInt8) (x : ResponseData × Buffer) : Prop :=
  bufferCanWrite x.2 = true → (parsedResponse l).Attends x.1 x.2

/-- What holds of the response of a client, of which `B` relates what it got to what was made of
it. -/
def RelaysResponse (B : List UInt8 → List UInt8 → Prop) (i : ClientId) : Proxy → Prop :=
  (responsePath i).Relays (fun got l => B got (relayedResponse l) ∧ NoNul (.initial false) (fresh l))
    ResponseReady

variable {B : List UInt8 → List UInt8 → Prop} {room : Buffer → List UInt8 → Prop} {s s' : Proxy}
  {i : ClientId}

theorem frame_response (B : List UInt8 → List UInt8 → Prop) (i : ClientId) :
    Frame fun s s' => RelaysResponse B i s → RelaysResponse B i s' :=
  (responsePath i).frame_relays _ _

/-- Requests leave a response alone. -/
theorem requestFrame_response (B : List UInt8 → List UInt8 → Prop) (i j : ClientId) :
    RequestFrame j fun s s' => RelaysResponse B i s → RelaysResponse B i s' where
  modify s f h hs := by
    refine hs.same (Path.Still.modify (fun _ => ?_) fun _ => h.postResParseBuf).same
    exact Prod.ext h.resData h.preResParseBuf
  receive s _ hs := hs.same (Path.Still.act s rfl rfl).same
  send s _ _ hs := hs.same (Path.same_write s _ ⟨rfl, rfl⟩ rfl (.inl rfl) (fun _ => rfl) fun _ => rfl)

/-- The responses of other clients leave it alone. -/
theorem responseFrame_response (B : List UInt8 → List UInt8 → Prop) {i j : ClientId} (hj : i ≠ j) :
    ResponseFrame j fun s s' => RelaysResponse B i s → RelaysResponse B i s' where
  modify _ _ _ hs := hs.same (Path.Still.modify (fun h => absurd h hj) fun h => absurd h hj).same
  fetch s _ hs := hs.same (Path.Still.act s (if_neg (Ne.symm hj)) rfl).same
  deliver s _ _ hs := hs.same (Path.same_write s _ ⟨rfl, rfl⟩ rfl (.inl (if_neg (Ne.symm hj)))
    (fun h => absurd h hj) fun h => absurd h hj)

/-- What is delivered to the client comes off the front of its queue. -/
theorem RelaysResponse.deliver (h : RelaysResponse B i s) (hi : i < s.made) {bytes : List UInt8}
    (hbytes : bytes <+: (s.clients i).postResParseBuf.bytes) :
    RelaysResponse B i (((s.count bytes.length).onBuffers i fun c =>
      { c with postResParseBuf := bufferReadAdv c.postResParseBuf bytes.length }).act
        (.delivered i bytes)) := by
  refine h.same (Path.same_write s _ ⟨rfl, rfl⟩ rfl (.inr ⟨rfl, hi⟩) (fun _ => rfl) fun _ => ?_)
  rw [show (responsePath i).output (.delivered i bytes) = bytes from if_pos rfl]
  exact append_readAdv hbytes

theorem noNul_nil : NoNul (.initial false) (fresh []) := fun _ => ResCtl.noConfusion

theorem responseReady_nil {c : Client} (hc : c.Unread) :
    ResponseReady [] ((responsePath i).parser c) := by
  obtain ⟨n, hpre⟩ := hc.preResParseBuf
  change bufferCanWrite c.preResParseBuf = true → (parsedResponse []).Attends c.resData c.preResParseBuf
  rw [hpre, hc.resData]
  intro hcan
  have hroom : RESERVED_SPACE < n := of_decide_eq_true hcan
  exact .rests (ResFeed.resting_start hroom.le (by decide) false (bufferInit 0) (bufferInit 0))

/-! ## A call of the parser -/

/-- What a call of the parser on `bytes` leaves. -/
theorem RelaysResponse.parsed (hB : Tolerates room B) (h : RelaysResponse B i s) (hi : i < s.made)
    {bytes : List UInt8} {r : ResponseResult} (hmade : s'.made = s.made)
    (htrace : s'.trace = .used i :: .fetched i bytes :: .used i :: s.trace)
    (hdata : (s'.clients i).resData = r.rData) (hpre : (s'.clients i).preResParseBuf = r.bIn)
    (hpost : (s'.clients i).postResParseBuf = r.bOut)
    (hout : r.bOut = bufferWriteAll (s.clients i).postResParseBuf
      (outs (resMachine.emitted (s.parsing i) (fresh bytes))))
    (hnul : NoNul (s.parsing i) (fresh bytes))
    (hroom : room (s.clients i).postResParseBuf (outs (resMachine.emitted (s.parsing i) (fresh bytes))))
    (hattends : s'.status = .running →
      (resMachine.stateAfter (s.parsing i) (fresh bytes)).Attends r.rData r.bIn) :
    RelaysResponse B i s' := by
  have hfetched : s'.fetched i = s.fetched i ++ bytes := by
    have hbytes : Action.fetchedFor i (.fetched i bytes) = bytes := if_pos rfl
    change bytesOf (Action.fetchedFor i) s'.trace = bytesOf (Action.fetchedFor i) s.trace ++ bytes
    rw [htrace, bytesOf_cons, bytesOf_cons, bytesOf_cons, hbytes]
    exact (List.append_nil _).trans (congrArg (· ++ bytes) (List.append_nil _))
  have hdelivered : s'.delivered i = s.delivered i := by
    change bytesOf (Action.deliveredTo i) s'.trace = bytesOf (Action.deliveredTo i) s.trace
    rw [htrace, bytesOf_cons, bytesOf_cons, bytesOf_cons]
    exact (List.append_nil _).trans ((List.append_nil _).trans (List.append_nil _))
  have hrelayed : relayedResponse (s.fetched i ++ bytes) =
      relayedResponse (s.fetched i) ++ outs (resMachine.emitted (s.parsing i) (fresh bytes)) := by
    unfold relayedResponse parsing parsedResponse
    rw [fresh_append, Transducer.emitted_append, outs_append]
  refine h.moves hi hmade hfetched hdelivered (hpost.trans hout) (fun hstream => ⟨?_, ?_⟩) fun hrun _ => ?_
  · change B _ (relayedResponse (s.fetched i ++ bytes))
    rw [hrelayed]
    exact hB.write _ _ _ _ hroom hstream.1
  · change NoNul (.initial false) (fresh (s.fetched i ++ bytes))
    unfold NoNul
    rw [fresh_append, Transducer.stateAfter_append]
    exact hnul
  change (parsedResponse (s.fetched i ++ bytes)).Attends (s'.clients i).resData (s'.clients i).preResParseBuf
  unfold parsedResponse
  rw [fresh_append, Transducer.stateAfter_append, hdata, hpre]
  exact hattends hrun

theorem RelaysResponse.parseResponse (hB : Tolerates room B) (h : RelaysResponse B i s) (hi : i < s.made)
    (hrun : s.status = .running) {bytes : List UInt8} (hne : bytes ≠ [])
    (hcan : bufferCanWrite (s.clients i).preResParseBuf = true)
    (hfits : (s.clients i).preResParseBuf.write + bytes.length ≤ (s.clients i).preResParseBuf.limit)
    (hcut : (s.parsing i).Resumes (fresh bytes)) (hnul : NoNul (s.parsing i) (fresh bytes))
    (hroom : room (s.clients i).postResParseBuf (outs (resMachine.emitted (s.parsing i) (fresh bytes)))) :
    RelaysResponse B i (s.parseResponse i bytes) := by
  have hready : (s.parsing i).Attends (s.clients i).resData (s.clients i).preResParseBuf :=
    h.ready hi hrun hcan
  obtain ⟨r, hr, hout, hattends⟩ := hready.call hne hcut hnul hfits (s.clients i).postResParseBuf
    (s.clients i).preTransfBuf
  have hframe := frame_response B i
  unfold Proxy.parseResponse
  dsimp only
  generalize ht : (s.onBuffers i fun c =>
    { c with preResParseBuf := bufferWriteAdv c.preResParseBuf bytes }).act (.fetched i bytes) = t
  have hclient : t.clients i = { s.clients i with
      preResParseBuf := bufferWriteAdv (s.clients i).preResParseBuf bytes } := by
    rw [← ht]
    exact Function.update_self ..
  have hcheck : checkResponse (t.clients i).resData (t.clients i).preResParseBuf
      (t.clients i).postResParseBuf (t.clients i).preTransfBuf = some r := by
    rw [hclient, ← hr, Buffer.writeAll_of_le hfits]
    rfl
  rw [hcheck]
  dsimp only
  generalize hu : t.onBuffers i (fun c =>
    { c with
      resData := r.rData
      preResParseBuf := r.bIn
      postResParseBuf := r.bOut
      preTransfBuf := r.bTransf }) = u
  have huclient : u.clients i = { t.clients i with
      resData := r.rData
      preResParseBuf := r.bIn
      postResParseBuf := r.bOut
      preTransfBuf := r.bTransf } := by
    rw [← hu]
    exact Function.update_self ..
  -- Whatever follows the parser, its result is what the client has now.
  have hparsed {v : Proxy} (hclients : v.clients = u.clients) (htrace : v.trace = u.trace)
      (hmade : v.made = u.made) (hstate : v.status = .running → r.rData.state = .RES_OK) :
      RelaysResponse B i v := by
    refine h.parsed hB hi ?_ ?_ ?_ ?_ ?_ hout hnul hroom fun hv => hattends (hstate hv)
    · rw [hmade, ← hu, ← ht]
      rfl
    · rw [htrace, ← hu, ← ht]
      rfl
    all_goals rw [hclients, huclient]
  split
  · exact hparsed rfl rfl rfl Status.noConfusion
  · next hstate =>
    have hgoes : RelaysResponse B i u := hparsed rfl rfl rfl fun _ => not_not.mp hstate
    split
    · exact hframe.responseInterests (hframe.setInterest (hframe.unregister (hframe.refl u) _) _ _) hgoes
    · exact hframe.responseInterests (hframe.refl u) hgoes

/-! ## Runs -/

theorem RelaysResponse.call (hB : Tolerates room B) {c : Call} (h : RelaysResponse B i s)
    (hrun : s.status = .running) (hslots : Slots s) (hreg : s.Registered c)
    (harrives : Arrives room i s c) : RelaysResponse B i (s.call c) := by
  have hframe := frame_response B i
  cases c with
  | accept o =>
    exact hframe.accept (fun _ _ _ hc ht => ht.new ⟨hB.nil, noNul_nil⟩ (responseReady_nil hc) hc.postResParseBuf) o h
  | clientRead j r => exact hframe.clientRead (requestFrame_response B i j) s r h
  | clientWrite j r =>
    obtain ⟨fd, hfd⟩ := hreg
    have hj : j < s.made := (hslots.client fd j hfd).2
    refine hframe.clientWrite s r (fun bytes hbytes ht => ?_) h
    by_cases heq : i = j
    · subst heq
      exact ht.deliver hj hbytes
    · exact (responseFrame_response B heq).deliver (s.use j) bytes hbytes ht
  | clientBlock fd j o => exact hframe.clientBlock s fd j o h
  | remoteRead j r =>
    obtain ⟨fd, hfd⟩ := hreg
    have hj : j < s.made := hslots.remote fd j hfd
    refine hframe.remoteRead s r (fun bytes hne hstate hcan hread ht => ?_) h
    by_cases heq : i = j
    · subst heq
      have hfetched : (s.use i).fetched i = s.fetched i :=
        (Path.read_act s (.used i)).trans (List.append_nil _)
      have hparsing : (s.use i).parsing i = s.parsing i := congrArg parsedResponse hfetched
      have harriving : s.arriving i r = some bytes := (if_pos hstate).trans hread
      obtain ⟨hcut, hnul, hroom⟩ := harrives rfl bytes harriving hne
      rw [← hparsing] at hcut hnul hroom
      exact ht.parseResponse hB hj hrun hne hcan (room_of_sysRead hcan hread) hcut hnul hroom
    · exact hframe.parseResponse (responseFrame_response B heq) (hframe.refl _) bytes ht
  | remoteWrite j r => exact hframe.remoteWrite s r (fun bytes => (requestFrame_response B i j).send _ bytes) h

theorem RelaysResponse.run (hB : Tolerates room B) (hs : Started s) {es : List Event}
    (hes : Always (Arrives room i) s es) : RelaysResponse B i (s.run es) :=
  Path.Relays.run (fun _ _ h hrun hslots hreg hP => RelaysResponse.call hB h hrun hslots hreg hP) hs hes

/-- In every state of a run, what a client received with what is queued for it is what the parser's machine
makes of all the bytes read from its origin, when each read is cut where the parser comes back from, has no
zero byte that the parser takes for the end of its input, and what it passes on fits in the queue. -/
theorem response_relayed (hs : Started s) {es : List Event} (hes : Always (Arrives Fits i) s es)
    (hi : i < (s.run es).made) : (s.run es).responseStream i = (s.run es).relayed i :=
  ((RelaysResponse.run tolerates_eq hs hes).stream hi).1

/-- The response of a client in two reads, of which the client took ten bytes in between. -/
def chunkedResponse : List Event :=
  connects 0 7 8 ++ [.write 8 (some 99), .write 8 (some 0),
    .read 8 (some (lit "HTTP/1.1 200 \r\nTransfer-Encoding: chunked\r\n\r\na\r\nabc")),
    .write 7 (some 10), .read 8 (some (lit "defghij\r\n0\r\n\r\n"))]

theorem response_relayed_chunked :
    (mainLoop.run chunkedResponse).responseStream 0 = (mainLoop.run chunkedResponse).relayed 0 ∧
      (mainLoop.run chunkedResponse).delivered 0 = lit "HTTP/1.1 2" :=
  ⟨response_relayed started_mainLoop (by decide +kernel) (by decide +kernel), by decide +kernel⟩

/-- Where the queue has no room for all of it, bytes are left out and the others stay in order. The cuts and
the zero bytes are as before. -/
theorem response_subsequence (hs : Started s) {es : List Event}
    (hes : Always (Arrives (fun _ _ => True) i) s es) (hi : i < (s.run es).made) :
    ((s.run es).responseStream i).Sublist ((s.run es).relayed i) :=
  ((RelaysResponse.run tolerates_sublist hs hes).stream hi).1

/-- The head of the response and what the parser adds to it do not fit in the queue. -/
def overfullResponse : List Event :=
  connects 0 7 8 ++ [.write 8 (some 99), .write 8 (some 0),
    .read 8 (some (lit "HTTP/1.1 200 \r\nTransfer-Encoding: chunked\r\n\r\n")),
    .write 7 (some 99), .read 8 (some (lit "a\r\nabcdefghij\r\n0\r\n\r\n"))]

theorem response_subsequence_overfull :
    ((smallBuffers.run overfullResponse).responseStream 0).Sublist
        ((smallBuffers.run overfullResponse).relayed 0) ∧
      (smallBuffers.run overfullResponse).responseStream 0 ≠
        (smallBuffers.run overfullResponse).relayed 0 :=
  ⟨response_subsequence ⟨_, _, _, by decide, rfl⟩ (by decide +kernel) (by decide +kernel),
    by decide +kernel⟩

end Proxy

end HttpProxy
