import HttpProxy.OriginForm
import HttpProxy.RequestPath
import HttpProxy.ResponseFraming
import HttpProxy.ResponsePath

/-!
# What arrives at the other end

What the parsers make of whole messages is known of a call of theirs. Through the paths of the proxy it
becomes what the peers get, whatever else happens in the run: the origin its request in the proxy's form
(`request_delivered`), and the client the head of the response as the proxy passes it on and then the body,
chunked or not (`body_delivered`, `rewritten_delivered`).
-/

namespace HttpProxy

/-! ## Requests -/

namespace OriginForm

/-- What is passed on of a request in origin form, and of what follows it. -/
theorem relayedRequest_eq (r : OriginForm) (rest : List UInt8) :
    Proxy.relayedRequest (r.bytes ++ rest) = r.relayed ++ CR :: rest := by
  obtain ⟨c, hrun, -⟩ := r.accepted
  have hafter : (reqMachine.stateAfter .initial (fresh r.bytes)).ctl = .halt .accepted [(CR, false)] :=
    congrArg (fun p => p.1.ctl) hrun
  have hemit : reqMachine.emitted .initial (fresh r.bytes) = r.relayed := congrArg Prod.snd hrun
  have hunread : (reqMachine.stateAfter .initial (fresh r.bytes)).unread = [(CR, false)] := by
    unfold ReqMachine.unread
    rw [hafter]
  have hhead : ReqMachine.initial.passes r.bytes = r.relayed ++ [CR] := by
    unfold ReqMachine.passes
    rw [hemit, hunread]
    rfl
  have hrest := (ReqMachine.passes_of_halt hafter rest).2.2
  unfold Proxy.relayedRequest
  rw [ReqMachine.passes_append, hhead, hrest, List.append_assoc]
  rfl

end OriginForm

/-! ## Responses -/

namespace ResponseHead

variable {h : ResponseHead} {stream body content : List UInt8}

theorem passes_of_taken (htakes : (h.taken false).Takes false stream body content) {rd : ResponseData}
    (hknows : Knows false h.statusCode h.lines rd) : rd.toResponseFields.Passes stream body := by
  have hpasses := passes_of_takes ((framing_eq_taken hknows).symm ▸ htakes)
  rwa [hknows.withTransf] at hpasses

/-- A well-formed head is passed on as it is rewritten. -/
theorem WellFormed.relayed_eq (hw : h.WellFormed) : h.relayed false = h.rewritten := by
  have hlen := h.length_lines
  obtain ⟨rd, hknows, hlead⟩ := h.leads_rewritten hw
  obtain ⟨r, hr, hout, -, -⟩ := checkResponseInner_body hlead hknows.withTransf (by omega)
    (wf_bufferOf _) (by rw [List.append_nil]; exact cells_bufferOf _) passes_nil
  unfold ResponseHead.relayed call
  rw [hr]
  exact hout.trans (List.append_nil _)

/-- What is passed on of a response is what a call on all of it passes on. -/
theorem relayedResponse_eq (hp : h.Parsed false)
    (hbody : ∀ rd, Knows false h.statusCode h.lines rd → rd.toResponseFields.Passes stream body)
    (hnul : NoNul (.initial false) (fresh (h.bytes ++ stream))) :
    Proxy.relayedResponse (h.bytes ++ stream) = h.relayed false ++ body := by
  obtain ⟨rd, hknows, hcall⟩ := call_passes hp
  have hne : h.bytes ++ stream ≠ [] := by
    have hend : linesBytes h.lines ++ [CR, LF, CR, LF] ≠ [] :=
      List.append_ne_nil_of_right_ne_nil _ (List.cons_ne_nil _ _)
    exact List.append_ne_nil_of_left_ne_nil (List.append_ne_nil_of_right_ne_nil _ hend) _
  -- The call is on a buffer with room for all of the response, and writes to one with room for both
  -- sides of the equation.
  obtain ⟨n, hn⟩ : ∃ n, RESERVED_SPACE + (h.bytes ++ stream).length = n := ⟨_, rfl⟩
  have hfits : (bufferInitR RESERVED_SPACE n).write + (h.bytes ++ stream).length ≤
      (bufferInitR RESERVED_SPACE n).limit := hn.le
  have hwf : (bufferInitR RESERVED_SPACE n).Wf := Buffer.wf_initR (by omega)
  have hcells : (bufferWriteAll (bufferInitR RESERVED_SPACE n) (h.bytes ++ stream)).cells =
      fresh (h.bytes ++ stream) := by
    rw [Buffer.cells_writeAll hwf hfits, Buffer.cells_eq_nil.mpr rfl, List.nil_append]
  have hattends : (ResMachine.initial false).Attends defaultResponseStruct (bufferInitR RESERVED_SPACE n) :=
    .rests (ResFeed.resting_start (by omega) (by decide) false (bufferInit 0) (bufferInit 0))
  obtain ⟨m, hm⟩ : ∃ m, (Proxy.relayedResponse (h.bytes ++ stream)).length +
    (h.relayed false ++ body).length = m := ⟨_, rfl⟩
  obtain ⟨r, hr, hout, -⟩ := hattends.call hne ⟨trivial, ResCtl.noConfusion⟩ hnul hfits (bufferInit m)
    (bufferInit 0)
  obtain ⟨x, hx, hxout, -⟩ := hcall stream body (hbody rd hknows) _ (Buffer.wf_writeAll hwf hfits) hcells
  have hinner : checkResponseInner defaultResponseStruct
      (bufferWriteAll (bufferInitR RESERVED_SPACE n) (h.bytes ++ stream)) = some x := hx
  have hwritten : r.bOut = bufferWriteAll (bufferInit m) (h.relayed false ++ body) := by
    unfold checkResponse at hr
    rw [hinner] at hr
    rw [← Option.some.inj hr]
    exact congrArg (bufferWriteAll (bufferInit m)) hxout
  have hwrite : (bufferInit m).write = 0 := rfl
  have hlimit : (bufferInit m).limit = m := rfl
  have hsame := congrArg Buffer.bytes (hout.symm.trans hwritten)
  change (bufferWriteAll _ (Proxy.relayedResponse (h.bytes ++ stream))).bytes = _ at hsame
  rwa [Buffer.writeAll_of_le (by omega), Buffer.writeAll_of_le (by omega)] at hsame

end ResponseHead

namespace Proxy

variable {s : Proxy} {es : List Event} {i : ClientId}

/-- What the origin of a client gets of a request in origin form. -/
theorem request_delivered (r : OriginForm) (hs : Started s) (hes : Always (Arises Fits i) s es)
    (hi : i < (s.run es).made) {rest : List UInt8} (hreceived : (s.run es).received i = r.bytes ++ rest) :
    (s.run es).requestStream i = r.relayed ++ CR :: rest := by
  have hstream : (s.run es).requestStream i = relayedRequest ((s.run es).received i) :=
    (RelaysRequest.run tolerates_eq hs hes).stream hi
  rw [hstream, hreceived]
  exact r.relayedRequest_eq rest

/-- `sample` in two reads, with what stands behind its host. -/
def sampleRequest : List Event :=
  [.accept ⟨some 7, noPipes⟩, .read 7 (some (OriginForm.sample.bytes.take 8)),
    .read 7 (some (OriginForm.sample.bytes.drop 8)), .resolved 0 true, .notified 0,
    .notifications [⟨some 8, .inProgress⟩], .write 8 (some 12), .read 7 (some (lit "\n\r\n"))]

theorem request_delivered_sample :
    (mainLoop.run sampleRequest).requestStream 0 = OriginForm.sample.relayed ++ CR :: lit "\n\r\n" ∧
      (mainLoop.run sampleRequest).sent 0 = lit "gEt /a http/" :=
  ⟨request_delivered OriginForm.sample started_mainLoop (by decide +kernel) (by decide +kernel)
    (by decide +kernel), by decide +kernel⟩

/-- What a client gets of a response. -/
theorem RelaysResponse.delivered {h : ResponseHead} (hp : h.Parsed false) (hs : Started s)
    (hes : Always (Arrives Fits i) s es) (hi : i < (s.run es).made) {stream body : List UInt8}
    (hbody : ∀ rd, Knows false h.statusCode h.lines rd → rd.toResponseFields.Passes stream body)
    (hfetched : (s.run es).fetched i = h.bytes ++ stream) :
    (s.run es).responseStream i = h.relayed false ++ body := by
  obtain ⟨hstream, hnul⟩ := (RelaysResponse.run tolerates_eq hs hes).stream hi
  have hread : (responsePath i).read (s.run es) = h.bytes ++ stream := hfetched
  rw [hread] at hstream hnul
  exact hstream.trans (ResponseHead.relayedResponse_eq hp hbody hnul)

/-- The body of a response is delivered behind its head, and nothing behind it. -/
theorem body_delivered {h : ResponseHead} (hp : h.Parsed false) (hs : Started s)
    (hes : Always (Arrives Fits i) s es) (hi : i < (s.run es).made) {stream body content : List UInt8}
    (htakes : (h.taken false).Takes false stream body content)
    (hfetched : (s.run es).fetched i = h.bytes ++ stream) :
    (s.run es).responseStream i = h.relayed false ++ body :=
  RelaysResponse.delivered hp hs hes hi (fun _ hknows => ResponseHead.passes_of_taken htakes hknows) hfetched

def chunkedCoding : FieldLine where
  field := .transferEncoding
  name := lit "Transfer-Encoding:"
  blanks := [HT]
  value := lit "chunked"
  name_eq := by decide
  allBlank := by decide +kernel
  head := by decide +kernel
  isText := by decide +kernel
  isLength := by decide
  nameless := by decide +kernel

/-- `okHead` in front of a chunked body. -/
def chunkedHead : ResponseHead :=
  { okHead with
    lines := [.field chunkedCoding]
    oneLength := by decide }

/-- A chunk and the last one. -/
def chunkOfThree : List UInt8 :=
  lit "3" ++ ([] ++ ([CR, LF] ++ (lit "abc" ++ ([CR, LF] ++
    (lit "0" ++ ([] ++ ([CR, LF] ++ ([] ++ [CR, LF]))))))))

theorem chunkedBody_chunkOfThree : ChunkedBody false chunkOfThree (lit "abc") :=
  .chunk (by decide) ⟨by decide, by decide +kernel, by decide⟩ (.inr (by decide)) (.inl rfl)
    (.last ⟨by decide, by decide +kernel, by decide⟩ (.inl rfl) (.inl rfl))

/-- A chunked response in three reads, and a byte behind it. -/
def chunkedReads : List Event :=
  connects 0 7 8 ++ [.write 8 (some 99), .write 8 (some 0), .read 8 (some chunkedHead.bytes),
    .read 8 (some (lit "3\r\nab")), .write 7 (some 30), .read 8 (some (lit "c\r\n0\r\n\r\nx"))]

theorem body_delivered_chunked :
    (mainLoop.run chunkedReads).responseStream 0 = chunkedHead.relayed false ++ chunkOfThree ∧
      chunkOfThree = lit "3\r\nabc\r\n0\r\n\r\n" ∧
      (mainLoop.run chunkedReads).delivered 0 = lit "HTTP/1.1 200 OK\r\nTransfer-Enco" := by
  have hfetched : (mainLoop.run chunkedReads).fetched 0 = chunkedHead.bytes ++ (chunkOfThree ++ lit "x") := by
    decide +kernel
  have htaken : chunkedHead.taken false = .chunked := by decide +kernel
  have htakes : (chunkedHead.taken false).Takes false (chunkOfThree ++ lit "x") chunkOfThree (lit "abc") := by
    rw [htaken]
    exact ⟨lit "x", rfl, chunkedBody_chunkOfThree⟩
  exact ⟨body_delivered (by decide +kernel) started_mainLoop (by decide +kernel) (by decide +kernel)
    htakes hfetched, by decide, by decide +kernel⟩

/-- A well-formed response is delivered as it is rewritten. -/
theorem rewritten_delivered {h : ResponseHead} (hw : h.WellFormed) (hs : Started s)
    (hes : Always (Arrives Fits i) s es) (hi : i < (s.run es).made) {body : List UInt8}
    (hbody : h.contentLength = some (body.length : Int) ∨ h.contentLength = none ∧ h.statusCode = 200)
    (hfetched : (s.run es).fetched i = h.bytes ++ body) :
    (s.run es).responseStream i = h.rewritten ++ body := by
  rw [← hw.relayed_eq]
  exact RelaysResponse.delivered hw.parsed hs hes hi (fun _ hknows => hw.passes hbody hknows) hfetched

/-- `okHead` and its body, in two reads. -/
def okReads : List Event :=
  connects 0 7 8 ++ [.write 8 (some 99), .write 8 (some 0), .read 8 (some (okHead.bytes.take 20)),
    .write 7 (some 5), .read 8 (some (okHead.bytes.drop 20 ++ lit "hi"))]

theorem rewritten_delivered_ok :
    (mainLoop.run okReads).responseStream 0 = okHead.rewritten ++ lit "hi" ∧
      (mainLoop.run okReads).delivered 0 = lit "HTTP/" :=
  ⟨rewritten_delivered okHead_wellFormed started_mainLoop (by decide +kernel) (by decide +kernel)
    (.inl (by decide)) (by decide +kernel), by decide +kernel⟩

end Proxy

end HttpProxy
