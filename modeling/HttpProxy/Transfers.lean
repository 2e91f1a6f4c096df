import HttpProxy.BufferDeque
import HttpProxy.Observations
import Mathlib.Tactic.Linarith
import Mathlib.Tactic.Ring

/-!
# The bytes that reach the peers

`bytesWritten` counts what the traces say was written to origins and clients; `requestStream` and
`responseStream` are what a peer received so far with what is queued for it. Both are about whole runs:
the relations are kept by every handler (`Frame.call`), so they hold between a state and every
state that a run leads to.
-/

namespace HttpProxy

/-- The bytes of the actions of one kind, first to last. -/
def bytesOf (pick : Action → List UInt8) (trace : List Action) : List UInt8 :=
  trace.reverse.flatMap pick

theorem bytesOf_cons (pick : Action → List UInt8) (a : Action) (trace : List Action) :
    bytesOf pick (a :: trace) = bytesOf pick trace ++ pick a := by
  unfold bytesOf
  rw [List.reverse_cons, List.flatMap_append, List.flatMap_singleton]

namespace Action

/-- What is read from client `i`. -/
def receivedFrom (i : ClientId) : Action → List UInt8
  | .received j bytes => if j = i then bytes else []
  | _ => []

/-- What is written to the origin of client `i`. -/
def sentFor (i : ClientId) : Action → List UInt8
  | .sent j bytes => if j = i then bytes else []
  | _ => []

/-- What is read from the origin of client `i`. -/
def fetchedFor (i : ClientId) : Action → List UInt8
  | .fetched j bytes => if j = i then bytes else []
  | _ => []

/-- What is written to client `i`. -/
def deliveredTo (i : ClientId) : Action → List UInt8
  | .delivered j bytes => if j = i then bytes else []
  | _ => []

/-- How many bytes are written to an origin or a client. -/
def written : Action → Nat
  | .sent _ bytes | .delivered _ bytes => bytes.length
  | _ => 0

/-- An action that moves no byte of a request or a response moves none of any kind. -/
theorem of_not_moves {a : Action} (h : ¬a.Moves) (i : ClientId) :
    a.receivedFrom i = [] ∧ a.sentFor i = [] ∧ a.fetchedFor i = [] ∧ a.deliveredTo i = [] ∧
      a.written = 0 := by
  cases a with
  | received | sent | fetched | delivered => exact absurd trivial h
  | _ => exact ⟨rfl, rfl, rfl, rfl, rfl⟩

end Action

/-- How many bytes were written to origins and clients. -/
def bytesWritten (trace : List Action) : Nat := (trace.map Action.written).sum

theorem bytesWritten_cons (a : Action) (trace : List Action) :
    bytesWritten (a :: trace) = a.written + bytesWritten trace := List.sum_cons

namespace Proxy

variable {R : Proxy → Proxy → Prop} {s s' : Proxy} {i : ClientId}

/-! ## Runs -/

namespace Frame

/-- What all the frames keep, a call of a handler keeps. -/
theorem call (h : Frame R) (hreq : ∀ i, RequestFrame i R) (hres : ∀ i, ResponseFrame i R)
    (hnew : ∀ t c, R t ({ t with made := t.made + 1 }.modify t.made fun _ => c)) (s : Proxy) (c : Call) :
    R s (s.call c) := by
  cases c with
  | accept o => exact h.accept (fun t c _ _ => hnew t c) o
  | clientRead i r => exact h.clientRead (hreq i) s r
  | clientWrite i r => exact h.clientWrite s r fun bytes => (hres i).deliver (s.use i) bytes
  | clientBlock fd i o => exact h.clientBlock s fd i o
  | remoteRead i r =>
    exact h.remoteRead s r fun bytes _ _ _ _ => h.parseResponse (hres i) (h.refl _) bytes
  | remoteWrite i r => exact h.remoteWrite s r fun bytes => (hreq i).send (s.use i) bytes

/-- What the handlers keep, the steps that are no handler's keep as well. -/
theorem preserved (h : Frame R) {P : Proxy → Call → Prop} {I : Proxy → Prop}
    (hI : ∀ {s s'}, R s s' → I s → I s')
    (hcall : ∀ s c, I s → s.status = .running → s.Registered c → P s c → I (s.call c)) :
    Preserved P I where
  call := hcall
  clock s _ hs := hI (h.framed (h.refl s) rfl rfl rfl rfl id) hs
  resolve s i found hs := hI (h.resolve s i found) hs
  notify s i hs := hI (h.notify s i) hs
  resumed _ t _ _ _ _ _ ht := hI (h.act t _ id) ht
  cleared s hs := hI (h.framed (h.refl s) rfl rfl rfl rfl id) hs
  crashed s hs := hI (h.stop (h.refl s) Status.noConfusion) hs

/-- The relation holds between a state and where a run leads. -/
theorem run (h : Frame R) (hreq : ∀ i, RequestFrame i R) (hres : ∀ i, ResponseFrame i R)
    (hnew : ∀ t c, R t ({ t with made := t.made + 1 }.modify t.made fun _ => c)) (s : Proxy)
    (es : List Event) : R s (s.run es) := by
  have hkept : Preserved (fun _ _ => True) (R s) :=
    h.preserved (fun ht ht' => h.trans _ _ _ ht' ht)
      fun t c ht _ _ _ => h.trans _ _ _ ht (h.call hreq hres hnew t c)
  exact hkept.run (h.refl s) (always_of_forall (fun _ _ => trivial) s es)

end Frame

/-! ## The bytes counted -/

/-- As many bytes are counted as are written. -/
def SameBytes (s s' : Proxy) : Prop :=
  s'.metrics.TRANSFERED_BYTES + bytesWritten s.trace = s.metrics.TRANSFERED_BYTES + bytesWritten s'.trace

/-- What is written is counted. -/
theorem sameBytes_write (s : Proxy) (i : ClientId) (f : Client → Client) {a : Action} {n : Nat}
    (ha : a.written = n) : SameBytes s (((s.count n).onBuffers i f).act a) := by
  have htrace : bytesWritten (((s.count n).onBuffers i f).act a).trace = n + bytesWritten s.trace := by
    rw [show (((s.count n).onBuffers i f).act a).trace = a :: .used i :: s.trace from rfl, bytesWritten_cons,
      bytesWritten_cons, ha]
    exact congrArg (n + ·) (Nat.zero_add _)
  unfold SameBytes
  rw [htrace, show (((s.count n).onBuffers i f).act a).metrics.TRANSFERED_BYTES =
    s.metrics.TRANSFERED_BYTES + n from rfl, Nat.cast_add]
  ring

/-- An action that writes nothing leaves the sum. -/
theorem sameBytes_act (s : Proxy) {a : Action} (ha : a.written = 0) : SameBytes s (s.act a) := by
  unfold SameBytes
  rw [show (s.act a).trace = a :: s.trace from rfl, bytesWritten_cons, ha, Nat.zero_add]
  rfl

/-- The sum is kept by what goes on beside the requests and the responses. -/
theorem frame_sameBytes : Frame SameBytes where
  refl _ := rfl
  trans s s' s'' h h' := by
    unfold SameBytes at h h' ⊢
    linarith
  act s a ha := sameBytes_act s (Action.of_not_moves ha 0).2.2.2.2
  modify _ _ _ _ := rfl
  frame s s' _ htrace _ hmetrics _ := by
    unfold SameBytes
    rw [htrace, hmetrics]

/-- The sum is kept by the steps of a request: `count` has what `sent` has. -/
theorem requestFrame_sameBytes (i : ClientId) : RequestFrame i SameBytes where
  modify _ _ _ := rfl
  receive s _ := sameBytes_act s rfl
  send s _ _ := sameBytes_write s i _ rfl

/-- The sum is kept by the steps of a response: `count` has what `delivered` has. -/
theorem responseFrame_sameBytes (i : ClientId) : ResponseFrame i SameBytes where
  modify _ _ _ := rfl
  fetch s _ := sameBytes_act s rfl
  deliver s _ _ := sameBytes_write s i _ rfl

/-- `TRANSFERED_BYTES` is what was written to origins and clients, in every state of every run. -/
theorem transfered_bytes (hs : Started s) (es : List Event) :
    (s.run es).metrics.TRANSFERED_BYTES = bytesWritten (s.run es).trace := by
  obtain ⟨conf, registered, others, -, rfl⟩ := hs
  have hrun := frame_sameBytes.run requestFrame_sameBytes responseFrame_sameBytes (fun _ _ => rfl)
    (initial conf registered others) es
  unfold SameBytes at hrun
  have hzero : ((bytesWritten (initial conf registered others).trace : Nat) : ℚ) = 0 := Nat.cast_zero
  have hmetrics : (initial conf registered others).metrics.TRANSFERED_BYTES = 0 := rfl
  rwa [hzero, hmetrics, add_zero, zero_add] at hrun

/-- Of a request the system takes five bytes. -/
theorem transfered_bytes_partial :
    (mainLoop.run (connects 0 7 8 ++ [.write 8 (some 5)])).metrics.TRANSFERED_BYTES = 5 := by
  have hcounted := transfered_bytes started_mainLoop (connects 0 7 8 ++ [.write 8 (some 5)])
  have hwritten : bytesWritten (mainLoop.run (connects 0 7 8 ++ [.write 8 (some 5)])).trace = 5 := by
    decide +kernel
  rw [hwritten] at hcounted
  exact hcounted

/-! ## What is queued -/

section Stream

variable {pick : Action → List UInt8} {queue : Client → Buffer}

/-- What the trace has of one kind, and behind it what a queue of the client holds. -/
def stream (s : Proxy) (pick : Action → List UInt8) (queue : Client → Buffer) (i : ClientId) :
    List UInt8 :=
  bytesOf pick s.trace ++ (queue (s.clients i)).bytes

/-- A stream is read off the clients and the trace. -/
theorem stream_frame (hclients : s'.clients = s.clients) (htrace : s'.trace = s.trace) :
    s'.stream pick queue i = s.stream pick queue i := by
  unfold stream
  rw [hclients, htrace]

/-- An action that the stream does not pick. -/
theorem stream_act (s : Proxy) {a : Action} (h : pick a = []) :
    (s.act a).stream pick queue i = s.stream pick queue i := by
  unfold stream
  rw [show (s.act a).trace = a :: s.trace from rfl, bytesOf_cons, h, List.append_nil]
  rfl

/-- A client whose queue is added to. -/
theorem stream_modify {j : ClientId} {f : Client → Client}
    (h : (queue (s.clients j)).bytes <+: (queue (f (s.clients j))).bytes) :
    s.stream pick queue i <+: (s.modify j f).stream pick queue i := by
  have hclients : (s.modify j f).clients = Function.update s.clients j (f (s.clients j)) := rfl
  refine (List.prefix_append_right_inj _).mpr ?_
  rw [hclients]
  by_cases hj : i = j
  · subst hj
    rw [Function.update_self]
    exact h
  · have hclient : Function.update s.clients j (f (s.clients j)) i = s.clients i :=
      Function.update_of_ne hj ..
    exact hclient.symm ▸ List.prefix_rfl

/-- What is written to a peer comes off the front of its queue. -/
theorem stream_write (s : Proxy) {j : ClientId} {f : Client → Client} {a : Action} (n : Nat)
    (hused : pick (.used j) = []) (hother : i ≠ j → pick a = [])
    (hqueue : i = j → pick a ++ (queue (f (s.clients j))).bytes = (queue (s.clients j)).bytes) :
    (((s.count n).onBuffers j f).act a).stream pick queue i = s.stream pick queue i := by
  have htrace : bytesOf pick (((s.count n).onBuffers j f).act a).trace =
      bytesOf pick s.trace ++ pick a := by
    rw [show (((s.count n).onBuffers j f).act a).trace = a :: .used j :: s.trace from rfl, bytesOf_cons,
      bytesOf_cons, hused, List.append_nil]
  have hclients : (((s.count n).onBuffers j f).act a).clients =
      Function.update s.clients j (f (s.clients j)) := rfl
  unfold stream
  rw [htrace, hclients, List.append_assoc]
  by_cases hj : i = j
  · subst hj
    rw [Function.update_self, hqueue rfl]
  · rw [Function.update_of_ne hj, hother hj, List.nil_append]

/-- What is taken off the front of a buffer, in front of what is left. -/
theorem append_readAdv {b : Buffer} {bytes : List UInt8} (h : bytes <+: b.bytes) :
    bytes ++ (bufferReadAdv b bytes.length).bytes = b.bytes := by
  obtain ⟨rest, hrest⟩ := h
  rw [Buffer.bytes_readAdv, Int.toNat_natCast, ← hrest, List.drop_left]

end Stream

/-- What was written to the origin, and behind it what is queued for it. -/
def requestStream (s : Proxy) (i : ClientId) : List UInt8 :=
  s.stream (Action.sentFor i) Client.postReqParseBuf i

/-- What was written to the client, and behind it what is queued for it. -/
def responseStream (s : Proxy) (i : ClientId) : List UInt8 :=
  s.stream (Action.deliveredTo i) Client.postResParseBuf i

/-- The streams of a client that exists are only added to. -/
structure Grows (i : ClientId) (s s' : Proxy) : Prop where
  made : s.made ≤ s'.made
  request : i < s.made → s.requestStream i <+: s'.requestStream i
  response : i < s.made → s.responseStream i <+: s'.responseStream i

/-- Streams that stay as they are grow. -/
theorem Grows.of_eq (hmade : s.made ≤ s'.made) (hrequest : s'.requestStream i = s.requestStream i)
    (hresponse : s'.responseStream i = s.responseStream i) : Grows i s s' :=
  ⟨hmade, fun _ => hrequest.symm ▸ List.prefix_rfl, fun _ => hresponse.symm ▸ List.prefix_rfl⟩

/-- The streams grow by nothing that goes on beside the requests and the responses. -/
theorem frame_grows (i : ClientId) : Frame (Grows i) where
  refl _ := .of_eq le_rfl rfl rfl
  trans _ _ _ h h' :=
    ⟨h.made.trans h'.made, fun hi => (h.request hi).trans (h'.request (hi.trans_le h.made)),
      fun hi => (h.response hi).trans (h'.response (hi.trans_le h.made))⟩
  act s a ha := by
    obtain ⟨-, hsent, -, hdelivered, -⟩ := Action.of_not_moves ha i
    exact .of_eq le_rfl (stream_act s hsent) (stream_act s hdelivered)
  modify s j f h :=
    ⟨le_rfl, fun _ => stream_modify (h.postReqParseBuf ▸ List.prefix_rfl),
      fun _ => stream_modify (h.postResParseBuf ▸ List.prefix_rfl)⟩
  frame s s' hclients htrace hmade _ _ :=
    .of_eq hmade.ge (stream_frame hclients htrace) (stream_frame hclients htrace)

/-- The streams grow by the steps of a request. -/
theorem requestFrame_grows (i j : ClientId) : RequestFrame j (Grows i) where
  modify s f h :=
    ⟨le_rfl, fun _ => stream_modify h.queued,
      fun _ => stream_modify (h.postResParseBuf ▸ List.prefix_rfl)⟩
  receive s _ := .of_eq le_rfl (stream_act s rfl) (stream_act s rfl)
  send s bytes h := by
    refine .of_eq le_rfl (stream_write s _ rfl (fun hj => if_neg (Ne.symm hj)) fun hj => ?_)
      (stream_write s _ rfl (fun _ => rfl) fun _ => rfl)
    rw [show Action.sentFor i (.sent j bytes) = bytes from if_pos hj.symm]
    exact append_readAdv h

/-- The streams grow by the steps of a response. -/
theorem responseFrame_grows (i j : ClientId) : ResponseFrame j (Grows i) where
  modify s f h :=
    ⟨le_rfl, fun _ => stream_modify (h.postReqParseBuf ▸ List.prefix_rfl),
      fun _ => stream_modify h.queued⟩
  fetch s _ := .of_eq le_rfl (stream_act s rfl) (stream_act s rfl)
  deliver s bytes h := by
    refine .of_eq le_rfl (stream_write s _ rfl (fun _ => rfl) fun _ => rfl)
      (stream_write s _ rfl (fun hj => if_neg (Ne.symm hj)) fun hj => ?_)
    rw [show Action.deliveredTo i (.delivered j bytes) = bytes from if_pos hj.symm]
    exact append_readAdv h

/-- A new client takes nothing of the clients there are. -/
theorem grows_new (i : ClientId) (s : Proxy) (c : Client) :
    Grows i s ({ s with made := s.made + 1 }.modify s.made fun _ => c) := by
  have hclients (hi : i < s.made) :
      ({ s with made := s.made + 1 }.modify s.made fun _ => c).clients i = s.clients i :=
    Function.update_of_ne hi.ne ..
  refine ⟨Nat.le_succ _, fun hi => ?_, fun hi => ?_⟩
  · unfold requestStream stream
    rw [hclients hi]
    exact List.prefix_rfl
  · unfold responseStream stream
    rw [hclients hi]
    exact List.prefix_rfl

/-- In every run, what a peer has received and what is queued for it is only added to: nothing queued is
lost, changed, sent twice or out of order. -/
theorem streams_grow (s : Proxy) (es : List Event) (hi : i < s.made) :
    s.requestStream i <+: (s.run es).requestStream i ∧
      s.responseStream i <+: (s.run es).responseStream i := by
  have hrun := (frame_grows i).run (requestFrame_grows i) (responseFrame_grows i) (grows_new i) s es
  exact ⟨hrun.request hi, hrun.response hi⟩

/-- The request of a client that just connected. -/
theorem streams_grow_connects :
    let s := mainLoop.run [.accept ⟨some 7, noPipes⟩]
    let s' := s.run ((connects 0 7 8).tail ++ [.write 8 (some 5)])
    s.requestStream 0 <+: s'.requestStream 0 ∧ s.responseStream 0 <+: s'.responseStream 0 ∧
      bytesOf (Action.sentFor 0) s'.trace = lit "GET /" := by
  intro s s'
  have hgrow := streams_grow (i := 0) s ((connects 0 7 8).tail ++ [.write 8 (some 5)]) (by decide +kernel)
  exact ⟨hgrow.1, hgrow.2, by decide +kernel⟩

end Proxy

end HttpProxy
