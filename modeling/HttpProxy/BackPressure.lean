import HttpProxy.ResponseCalls
import HttpProxy.ResponsePath

/-!
# Responses under back-pressure

`remote_read` calls the parser whatever room is left in the buffer it writes to, and `buffer_write` drops
the bytes that find none. What the parser has to write (`resWritten`) does not depend on that room, so a
run of the proxy can be compared with the same calls on a buffer without a limit (`Produces`): by
`produces_along_iff` nothing is lost just if there is room for all of it at every read.
-/

namespace HttpProxy

/-! ## What the parser has to write -/

/-- What a call of the parser has to write to the client's buffer. -/
def resWritten (rd : ResponseData) (bIn : Buffer) : List UInt8 :=
  (checkResponseInner rd bIn).elim [] fun r => r.2.io.out

/-- What the calls on the fragments have to write. -/
def callsOutput (rd : ResponseData) (bIn : Buffer) : List (List UInt8) → List UInt8
  | [] => []
  | w :: ws =>
    resWritten rd (bufferWriteAll bIn w) ++
      match checkResponse rd (bufferWriteAll bIn w) (bufferInit 0) (bufferInit 0) with
      | none => []
      | some r => if r.rData.state ≠ .RES_OK then [] else callsOutput r.rData r.bIn ws

section Output

variable {rd : ResponseData} {bIn bOut bTransf : Buffer} {r : ResponseResult}

/-- A call writes what it has to, as far as there is room. -/
theorem bOut_of_checkResponse (h : checkResponse rd bIn bOut bTransf = some r) :
    r.bOut = bufferWriteAll bOut (resWritten rd bIn) := by
  obtain ⟨u, hu, rfl⟩ := Option.map_eq_some_iff.mp h
  unfold resWritten
  rw [hu]
  rfl

/-- What the buffers it writes to hold is nothing to the parser. -/
theorem checkResponse_outputs (h : checkResponse rd bIn bOut bTransf = some r) (bOut' bTransf' : Buffer) :
    ∃ r', checkResponse rd bIn bOut' bTransf' = some r' ∧ r'.rData = r.rData ∧ r'.bIn = r.bIn := by
  obtain ⟨u, hu, rfl⟩ := Option.map_eq_some_iff.mp h
  unfold checkResponse
  rw [hu]
  exact ⟨_, rfl, rfl, rfl⟩

/-- Calls on fragments go on behind the fragments in front. The induction is on these. -/
theorem resCalls_append (ws vs : List (List UInt8)) : ∀ {f g : ResFeed}, resCalls f ws = some g →
    g.rData.state = .RES_OK → resCalls f (ws ++ vs) = resCalls g vs := by
  induction ws with
  | nil =>
    rintro f g ⟨⟩ -
    rfl
  | cons w ws ih =>
    intro f g h hstate
    unfold resCalls at h
    rw [List.cons_append, resCalls]
    split at h
    · cases h
    · split at h
      · next herror =>
        cases h
        exact absurd hstate herror
      · next hok =>
        rw [if_neg hok]
        exact ih h hstate

/-- What is written on fragments is written behind what was written on those in front. -/
theorem callsOutput_append (ws vs : List (List UInt8)) : ∀ {rd : ResponseData} {b bOut bTransf : Buffer}
    {g : ResFeed}, resCalls ⟨rd, b, bOut, bTransf⟩ ws = some g → g.rData.state = .RES_OK →
    callsOutput rd b (ws ++ vs) = callsOutput rd b ws ++ callsOutput g.rData g.bIn vs := by
  induction ws with
  | nil =>
    rintro rd b bOut bTransf g ⟨⟩ -
    rfl
  | cons w ws ih =>
    intro rd b bOut bTransf g h hstate
    unfold resCalls at h
    rw [List.cons_append, callsOutput, callsOutput]
    split at h
    · cases h
    · next r hr =>
      obtain ⟨r', hr', hdata, hin⟩ := checkResponse_outputs hr (bufferInit 0) (bufferInit 0)
      rw [hr']
      dsimp only
      rw [hdata, hin]
      split at h
      · next herror =>
        cases h
        exact absurd hstate herror
      · next hok => rw [if_neg hok, if_neg hok, ih h hstate, List.append_assoc]

/-- The calls return, and write what they have to. The induction is on the fragments. -/
theorem resCalls_output (ws : List (List UInt8)) : ∀ {rd : ResponseData}, rd.Reachable →
    ∀ b bOut bTransf, ∃ g, resCalls ⟨rd, b, bOut, bTransf⟩ ws = some g ∧
      g.bOut = bufferWriteAll bOut (callsOutput rd b ws) ∧ g.rData.Reachable := by
  induction ws with
  | nil => exact fun h b bOut bTransf => ⟨_, rfl, rfl, h⟩
  | cons w ws ih =>
    intro rd h b bOut bTransf
    obtain ⟨-, ⟨r, hr⟩, -⟩ := checkResponse_returns h (bufferWriteAll b w) bOut bTransf
    obtain ⟨r', hr', hdata, hin⟩ := checkResponse_outputs hr (bufferInit 0) (bufferInit 0)
    unfold resCalls callsOutput
    rw [hr, hr']
    dsimp only
    rw [hdata, hin, Buffer.writeAll_append, ← bOut_of_checkResponse hr]
    split
    · exact ⟨_, rfl, rfl, .call h hr⟩
    · exact ih (.call h hr) r.bIn r.bOut r.bTransf

/-- The parser of a new response. -/
theorem reachable_default : ({ defaultResponseStruct with withTransf := false } : ResponseData).Reachable :=
  .default _

/-- Without a limit of the buffer for the client, the calls on the fragments leave `l` there. -/
def Produces (b : Buffer) (ws : List (List UInt8)) (l : List UInt8) : Prop :=
  ∃ room, ∀ n, room ≤ n →
    ∃ g, resCalls (.start false b (bufferInit n) (bufferInit n)) ws = some g ∧ g.bOut.bytes = l

/-- With room for it all, that is what the calls have to write. -/
theorem produces_iff {b : Buffer} {ws : List (List UInt8)} {l : List UInt8} :
    Produces b ws l ↔ l = callsOutput defaultResponseStruct b ws := by
  have hbytes (n : Nat) (hn : (callsOutput defaultResponseStruct b ws).length ≤ n) :
      ∃ g, resCalls (.start false b (bufferInit n) (bufferInit n)) ws = some g ∧
        g.bOut.bytes = callsOutput defaultResponseStruct b ws := by
    obtain ⟨g, hg, hout, -⟩ := resCalls_output ws reachable_default b (bufferInit n) (bufferInit n)
    refine ⟨g, hg, ?_⟩
    rw [hout, Buffer.writeAll_of_le]
    · rfl
    · exact (Nat.zero_add _).symm ▸ hn
  constructor
  · rintro ⟨room, h⟩
    obtain ⟨g, hg, hl⟩ := h (max room _) (le_max_left _ _)
    obtain ⟨g', hg', hl'⟩ := hbytes _ (le_max_right room _)
    obtain rfl := Option.some.inj (hg.symm.trans hg')
    exact hl.symm.trans hl'
  · rintro rfl
    exact ⟨_, hbytes⟩

end Output

namespace Proxy

/-! ## What a client's origin sent -/

/-- What is read from the origin of client `i` at once. -/
def fragment (i : ClientId) : Action → Option (List UInt8)
  | .fetched j bytes => if j = i then some bytes else none
  | _ => none

/-- The reads from the origin of the client. -/
def fetches (s : Proxy) (i : ClientId) : List (List UInt8) := s.trace.reverse.filterMap (fragment i)

/-- What the parser has to write for what is read from the origin of client `i` fits in the buffer that it
writes to. -/
def OutputFits (i : ClientId) (s : Proxy) : Call → Prop
  | .remoteRead j r => j = i → ∀ bytes ∈ s.arriving i r, bytes ≠ [] →
    Fits (s.clients i).postResParseBuf
      (resWritten (s.clients i).resData (bufferWriteAdv (s.clients i).preResParseBuf bytes))
  | _ => True

instance (i : ClientId) (s : Proxy) : ∀ c, Decidable (OutputFits i s c)
  | .remoteRead _ _ => inferInstanceAs (Decidable (_ → ∀ bytes ∈ _, _ → _))
  | .accept _ | .clientRead _ _ | .clientWrite _ _ | .clientBlock _ _ _ | .remoteWrite _ _ =>
    .isTrue trivial

variable {s s' : Proxy} {i : ClientId} {b : Buffer}

/-- A read from the origin is behind those before it. -/
theorem fetches_act (s : Proxy) (a : Action) : (s.act a).fetches i = s.fetches i ++ (fragment i a).toList := by
  have htrace : (s.act a).trace.reverse = s.trace.reverse ++ [a] := List.reverse_cons
  unfold fetches
  rw [htrace, List.filterMap_append]
  cases h : fragment i a <;> simp [h]

/-- Nothing is read from another action. -/
theorem fragment_of_not_moves {a : Action} (h : ¬a.Moves) : fragment i a = none := by
  cases a
  case fetched => exact absurd trivial h
  all_goals rfl

/-- A step that is not about the response of client `i`, or writes some of it to the client. -/
structure Kept (i : ClientId) (s s' : Proxy) : Prop where
  made : s.made ≤ s'.made
  status : s'.status = .running → s.status = .running
  fetches : s'.fetches i = s.fetches i
  resData : i < s.made → (s'.clients i).resData = (s.clients i).resData
  preResParseBuf : i < s.made → (s'.clients i).preResParseBuf = (s.clients i).preResParseBuf
  stream : i < s.made → s'.responseStream i = s.responseStream i

/-- A change of a client that leaves its response. -/
theorem Kept.modify (s : Proxy) (j : ClientId) {f : Client → Client}
    (resData : i = j → (f (s.clients j)).resData = (s.clients j).resData)
    (pre : i = j → (f (s.clients j)).preResParseBuf = (s.clients j).preResParseBuf)
    (post : i = j → (f (s.clients j)).postResParseBuf = (s.clients j).postResParseBuf) :
    Kept i s (s.modify j f) := by
  have hclients : (s.modify j f).clients = Function.update s.clients j (f (s.clients j)) := rfl
  by_cases hj : i = j
  · subst hj
    refine ⟨le_rfl, id, rfl, fun _ => ?_, fun _ => ?_, fun _ => ?_⟩
    · rw [hclients, Function.update_self, resData rfl]
    · rw [hclients, Function.update_self, pre rfl]
    · unfold responseStream Proxy.stream
      rw [hclients, Function.update_self, post rfl]
      rfl
  · have hclient : (s.modify j f).clients i = s.clients i := Function.update_of_ne hj ..
    refine ⟨le_rfl, id, rfl, fun _ => ?_, fun _ => ?_, fun _ => ?_⟩
    · rw [hclient]
    · rw [hclient]
    · unfold responseStream Proxy.stream
      rw [hclient]
      rfl

/-- An action that moves none of the response. -/
theorem Kept.act (s : Proxy) {a : Action} (hread : fragment i a = none)
    (hwritten : Action.deliveredTo i a = []) : Kept i s (s.act a) where
  made := le_rfl
  status := id
  fetches := by rw [fetches_act, hread, Option.toList_none, List.append_nil]
  resData _ := rfl
  preResParseBuf _ := rfl
  stream _ := stream_act s hwritten

/-- What goes on beside the requests and the responses keeps a response. -/
theorem frame_kept (i : ClientId) : Frame (Kept i) where
  refl _ := ⟨le_rfl, id, rfl, fun _ => rfl, fun _ => rfl, fun _ => rfl⟩
  trans _ _ _ h h' := by
    refine ⟨h.made.trans h'.made, h.status ∘ h'.status, h'.fetches.trans h.fetches, ?_, ?_, ?_⟩
    · exact fun hi => (h'.resData (hi.trans_le h.made)).trans (h.resData hi)
    · exact fun hi => (h'.preResParseBuf (hi.trans_le h.made)).trans (h.preResParseBuf hi)
    · exact fun hi => (h'.stream (hi.trans_le h.made)).trans (h.stream hi)
  act s a ha := .act s (fragment_of_not_moves ha) (Action.of_not_moves ha i).2.2.2.1
  modify s j f h := .modify s j (fun _ => h.resData) (fun _ => h.preResParseBuf) fun _ => h.postResParseBuf
  frame s s' hclients htrace hmade _ hstatus := by
    refine ⟨hmade.ge, hstatus, ?_, fun _ => by rw [hclients], fun _ => by rw [hclients], fun _ => ?_⟩
    · unfold fetches
      rw [htrace]
    · exact stream_frame hclients htrace

/-- What is written of the queue to a peer. -/
theorem Kept.write (s : Proxy) {j : ClientId} (n : Nat) {f : Client → Client} {a : Action}
    (hread : fragment i a = none) (hother : i ≠ j → Action.deliveredTo i a = [])
    (resData : i = j → (f (s.clients j)).resData = (s.clients j).resData)
    (pre : i = j → (f (s.clients j)).preResParseBuf = (s.clients j).preResParseBuf)
    (post : i = j → Action.deliveredTo i a ++ (f (s.clients j)).postResParseBuf.bytes =
      (s.clients j).postResParseBuf.bytes) :
    Kept i s (((s.count n).onBuffers j f).act a) where
  made := le_rfl
  status := id
  fetches := by
    rw [fetches_act, hread, Option.toList_none, List.append_nil]
    exact (fetches_act (s.count n) (.used j)).trans (List.append_nil _)
  resData _ := Path.client_modify (p := responsePath i) (s := (s.count n).use j) resData
  preResParseBuf _ := Path.client_modify (p := responsePath i) (s := (s.count n).use j) pre
  stream _ := stream_write s n rfl hother post

/-- Requests keep a response. -/
theorem requestFrame_kept (i j : ClientId) : RequestFrame j (Kept i) where
  modify s _ h := .modify s j (fun _ => h.resData) (fun _ => h.preResParseBuf) fun _ => h.postResParseBuf
  receive s _ := .act s rfl rfl
  send s _ _ := .write s _ rfl (fun _ => rfl) (fun _ => rfl) (fun _ => rfl) fun _ => rfl

/-- The responses of other clients keep it. -/
theorem responseFrame_kept {i j : ClientId} (hj : i ≠ j) : ResponseFrame j (Kept i) where
  modify s _ _ := .modify s j (fun h => absurd h hj) (fun h => absurd h hj) fun h => absurd h hj
  fetch s _ := .act s (if_neg (Ne.symm hj)) rfl
  deliver s _ _ := .write s _ rfl (fun _ => if_neg (Ne.symm hj)) (fun h => absurd h hj)
    (fun h => absurd h hj) fun h => absurd h hj

/-- A new client takes nothing of the response of another. -/
theorem kept_new (s : Proxy) (c : Client) :
    Kept i s ({ s with made := s.made + 1 }.modify s.made fun _ => c) := by
  have hclients (hi : i < s.made) :
      ({ s with made := s.made + 1 }.modify s.made fun _ => c).clients i = s.clients i :=
    Function.update_of_ne hi.ne ..
  refine ⟨Nat.le_succ _, id, rfl, fun hi => ?_, fun hi => ?_, fun hi => ?_⟩
  · rw [hclients hi]
  · rw [hclients hi]
  · unfold responseStream Proxy.stream
    rw [hclients hi]
    rfl

/-- What is delivered to a client comes off the front of its queue. -/
theorem kept_deliver (s : Proxy) (j : ClientId) {bytes : List UInt8}
    (h : bytes <+: (s.clients j).postResParseBuf.bytes) :
    Kept i s (((s.count bytes.length).onBuffers j fun c =>
      { c with postResParseBuf := bufferReadAdv c.postResParseBuf bytes.length }).act
        (.delivered j bytes)) := by
  refine .write s _ rfl (fun hj => if_neg (Ne.symm hj)) (fun _ => rfl) (fun _ => rfl) fun hj => ?_
  rw [show Action.deliveredTo i (.delivered j bytes) = bytes from if_pos hj.symm]
  exact append_readAdv h

/-- A call that reads nothing of the response of client `i` keeps it. -/
theorem kept_call (s : Proxy) {c : Call}
    (h : ∀ r bytes, c = .remoteRead i r → s.arriving i r = some bytes → bytes = []) : Kept i s (s.call c) := by
  have hframe := frame_kept i
  cases c with
  | accept o => exact hframe.accept (fun t c _ _ => kept_new t c) o
  | clientRead j r => exact hframe.clientRead (requestFrame_kept i j) s r
  | clientWrite j r => exact hframe.clientWrite s r fun bytes => kept_deliver (s.use j) j
  | clientBlock fd j o => exact hframe.clientBlock s fd j o
  | remoteRead j r =>
    refine hframe.remoteRead s r fun bytes hne hstate _ hread => ?_
    by_cases hj : i = j
    · subst hj
      exact absurd (h r bytes rfl ((if_pos hstate).trans hread)) hne
    · exact hframe.parseResponse (responseFrame_kept hj) (hframe.refl _) bytes
  | remoteWrite j r => exact hframe.remoteWrite s r fun bytes => (requestFrame_kept i j).send _ bytes

/-! ## A read -/

/-- What is read is given to the parser. -/
theorem remoteRead_arriving {r : Option (List UInt8)} {bytes : List UInt8} (h : s.arriving i r = some bytes)
    (hne : bytes ≠ []) :
    bufferCanWrite (s.clients i).preResParseBuf = true ∧
      (s.clients i).preResParseBuf.write + bytes.length ≤ (s.clients i).preResParseBuf.limit ∧
      s.remoteRead i r = (s.use i).parseResponse i bytes := by
  unfold arriving at h
  split at h
  · next hstate =>
    have hcan : bufferCanWrite (s.clients i).preResParseBuf = true := by
      by_contra hfull
      have hspace : bufferWriteSpace (s.clients i).preResParseBuf = 0 :=
        Nat.sub_eq_zero_of_le (Nat.not_lt.mp fun hlt => hfull (decide_eq_true hlt))
      rw [hspace] at h
      unfold sysRead at h
      split at h
      · obtain ⟨l, -, hl⟩ := Option.map_eq_some_iff.mp h
        exact hne hl.symm
      · cases h
    refine ⟨hcan, room_of_sysRead hcan h, ?_⟩
    have hread : (s.use i).sysRead (s.clients i).originFd r (bufferWriteSpace (s.clients i).preResParseBuf) =
        some bytes := h
    unfold remoteRead
    dsimp only
    rw [hstate]
    dsimp only
    rw [if_pos hcan, hread]
    cases bytes with
    | nil => exact absurd rfl hne
    | cons c bytes => rfl
  · cases h

/-- What the parser does with what was read is all that happens to the response. -/
theorem kept_parseResponse {bytes : List UInt8} {r : ResponseResult}
    (hr : checkResponse (s.clients i).resData (bufferWriteAdv (s.clients i).preResParseBuf bytes)
      (s.clients i).postResParseBuf (s.clients i).preTransfBuf = some r) :
    ∃ u : Proxy, Kept i u (s.parseResponse i bytes) ∧
      ((s.parseResponse i bytes).status = .running → r.rData.state = .RES_OK) ∧
      u.made = s.made ∧ u.fetches i = s.fetches i ++ [bytes] ∧ (u.clients i).resData = r.rData ∧
      (u.clients i).preResParseBuf = r.bIn ∧ (u.clients i).postResParseBuf = r.bOut ∧
      bytesOf (Action.deliveredTo i) u.trace = bytesOf (Action.deliveredTo i) s.trace := by
  have hframe := frame_kept i
  unfold parseResponse
  dsimp only
  generalize ht : (s.onBuffers i fun c =>
    { c with preResParseBuf := bufferWriteAdv c.preResParseBuf bytes }).act (.fetched i bytes) = t
  have hclient : t.clients i = { s.clients i with
      preResParseBuf := bufferWriteAdv (s.clients i).preResParseBuf bytes } := by
    rw [← ht]
    exact Function.update_self ..
  have hcheck : checkResponse (t.clients i).resData (t.clients i).preResParseBuf
      (t.clients i).postResParseBuf (t.clients i).preTransfBuf = some r := by
    rw [hclient]
    exact hr
  rw [hcheck]
  dsimp only
  generalize hu : t.onBuffers i (fun c =>
    { c with
      resData := r.rData
      preResParseBuf := r.bIn
      postResParseBuf := r.bOut
      preTransfBuf := r.bTransf }) = u
  have huclient : u.clients i = { t.clients i with
      resData := r.rData
      preResParseBuf := r.bIn
      postResParseBuf := r.bOut
      preTransfBuf := r.bTransf } := by
    rw [← hu]
    exact Function.update_self ..
  have htrace : u.trace = .used i :: .fetched i bytes :: .used i :: s.trace := by
    rw [← hu, ← ht]
    rfl
  have hmade : u.made = s.made := by
    rw [← hu, ← ht]
    rfl
  have hfetches : u.fetches i = s.fetches i ++ [bytes] := by
    have hbytes : fragment i (.fetched i bytes) = some bytes := if_pos rfl
    have hacts : u.fetches i = (((s.use i).act (.fetched i bytes)).use i).fetches i := by
      unfold fetches
      rw [htrace]
      rfl
    rw [hacts, use, fetches_act, fetches_act, use, fetches_act, hbytes]
    exact (List.append_nil _).trans (congrArg (· ++ [bytes]) (List.append_nil _))
  have hdelivered : bytesOf (Action.deliveredTo i) u.trace = bytesOf (Action.deliveredTo i) s.trace := by
    rw [htrace, bytesOf_cons, bytesOf_cons, bytesOf_cons]
    exact (List.append_nil _).trans ((List.append_nil _).trans (List.append_nil _))
  refine ⟨u, ?_, ?_, hmade, hfetches, by rw [huclient], by rw [huclient], by rw [huclient], hdelivered⟩
  · split
    · exact hframe.stop (hframe.refl u) Status.noConfusion
    · split
      · exact hframe.responseInterests (hframe.setInterest (hframe.unregister (hframe.refl u) _) _ _)
      · exact hframe.responseInterests (hframe.refl u)
  · split
    · exact fun h => Status.noConfusion h
    · next hstate => exact fun _ => not_not.mp hstate

/-! ## The client and the calls without a limit -/

/-- The client's parser is where the calls on what was read so far leave it. -/
structure Tracks (b : Buffer) (i : ClientId) (s : Proxy) : Prop where
  made : i < s.made
  calls : ∃ g, resCalls (.start false b (bufferInit 0) (bufferInit 0)) (s.fetches i) = some g ∧
    g.rData.Reachable ∧ (s.status = .running → g.rData.state = .RES_OK ∧
      g.rData = (s.clients i).resData ∧ g.bIn = (s.clients i).preResParseBuf)

/-- What the calls on what was read so far write without a limit. -/
def produced (b : Buffer) (i : ClientId) (s : Proxy) : List UInt8 :=
  callsOutput defaultResponseStruct b (s.fetches i)

/-- What keeps a response keeps its client's parser where it is. -/
theorem Tracks.kept (h : Tracks b i s) (hk : Kept i s s') : Tracks b i s' ∧ produced b i s' = produced b i s := by
  obtain ⟨g, hg, hreach, hrun⟩ := h.calls
  refine ⟨⟨h.made.trans_le hk.made, g, ?_, hreach, fun hstatus => ?_⟩, ?_⟩
  · rw [hk.fetches]
    exact hg
  · rw [hk.resData h.made, hk.preResParseBuf h.made]
    exact hrun (hk.status hstatus)
  · unfold produced
    rw [hk.fetches]

/-- A read from the origin: as much is queued as there is room for. -/
theorem Tracks.read (h : Tracks b i s) (hrun : s.status = .running) {r : Option (List UInt8)}
    {bytes : List UInt8} (harr : s.arriving i r = some bytes) (hne : bytes ≠ []) :
    let l := resWritten (s.clients i).resData (bufferWriteAdv (s.clients i).preResParseBuf bytes)
    Tracks b i (s.remoteRead i r) ∧ produced b i (s.remoteRead i r) = produced b i s ++ l ∧
      (s.remoteRead i r).responseStream i =
        s.responseStream i ++ l.take (bufferWriteSpace (s.clients i).postResParseBuf) := by
  intro l
  obtain ⟨g, hg, hreach, hsame⟩ := h.calls
  obtain ⟨hstate, hdata, hin⟩ := hsame hrun
  obtain ⟨-, hfits, hremote⟩ := remoteRead_arriving harr hne
  have hadv : bufferWriteAdv (s.clients i).preResParseBuf bytes = bufferWriteAll g.bIn bytes := by
    rw [hin, Buffer.writeAll_of_le hfits]
    rfl
  have hreach' : (s.clients i).resData.Reachable := hdata ▸ hreach
  obtain ⟨-, ⟨r', hr'⟩, -⟩ := checkResponse_returns hreach'
    (bufferWriteAdv (s.clients i).preResParseBuf bytes) (s.clients i).postResParseBuf (s.clients i).preTransfBuf
  obtain ⟨u, hkept, hok, hmade, hfetches, hudata, huin, huout, hdelivered⟩ :=
    kept_parseResponse (s := s.use i) hr'
  have hused : (s.use i).fetches i = s.fetches i := (fetches_act s (.used i)).trans (List.append_nil _)
  rw [hused] at hfetches
  -- The same call of the parser, on buffers without room.
  obtain ⟨r₀, hr₀, hdata₀, hin₀⟩ := checkResponse_outputs hr' g.bOut g.bTransf
  have hcall : resCalls g [bytes] = some r₀.feed := by
    unfold resCalls
    rw [← hadv, hdata, hr₀]
    dsimp only
    split
    · rfl
    · rfl
  have hcalls : resCalls (.start false b (bufferInit 0) (bufferInit 0)) (u.fetches i) = some r₀.feed := by
    rw [hfetches, resCalls_append _ _ hg hstate, hcall]
  have hproduced : produced b i u = produced b i s ++ l := by
    have hlast : callsOutput g.rData g.bIn [bytes] = l := by
      unfold callsOutput
      rw [← hadv, hdata]
      split
      · exact List.append_nil _
      · split
        · exact List.append_nil _
        · exact List.append_nil _
    have happend : callsOutput defaultResponseStruct b (s.fetches i ++ [bytes]) =
        callsOutput defaultResponseStruct b (s.fetches i) ++ callsOutput g.rData g.bIn [bytes] :=
      callsOutput_append _ _ hg hstate
    unfold produced
    rw [hfetches, happend, hlast]
  have hstream : u.responseStream i =
      s.responseStream i ++ l.take (bufferWriteSpace (s.clients i).postResParseBuf) := by
    have hout : r'.bOut = bufferWriteAll (s.clients i).postResParseBuf l := bOut_of_checkResponse hr'
    have hwritten : bytesOf (Action.deliveredTo i) (s.use i).trace = bytesOf (Action.deliveredTo i) s.trace :=
      (bytesOf_cons _ _ _).trans (List.append_nil _)
    change bytesOf (Action.deliveredTo i) u.trace ++ (u.clients i).postResParseBuf.bytes = _
    rw [hdelivered, hwritten, huout, hout, Buffer.writeAll_eq, ← List.append_assoc]
    rfl
  have hlt : i < u.made := hmade ▸ h.made
  rw [hremote]
  refine ⟨⟨hlt.trans_le hkept.made, r₀.feed, ?_, ?_, fun hstatus => ?_⟩, ?_, ?_⟩
  · rw [hkept.fetches]
    exact hcalls
  · change r₀.rData.Reachable
    rw [hdata₀]
    exact .call hreach' hr'
  · rw [hkept.resData hlt, hkept.preResParseBuf hlt, hudata, huin]
    change r₀.rData.state = .RES_OK ∧ r₀.rData = r'.rData ∧ r₀.bIn = r'.bIn
    rw [hdata₀]
    exact ⟨hok hstatus, rfl, hin₀⟩
  · rw [← hproduced]
    unfold produced
    rw [hkept.fetches]
  · rw [hkept.stream hlt, hstream]

/-! ## Runs -/

/-- Either a call reads of the response of client `i` or it keeps it. -/
theorem reads_or_kept (i : ClientId) (s : Proxy) (c : Call) :
    (∃ r bytes, c = .remoteRead i r ∧ s.arriving i r = some bytes ∧ bytes ≠ []) ∨ Kept i s (s.call c) := by
  by_cases h : ∃ r bytes, c = .remoteRead i r ∧ s.arriving i r = some bytes ∧ bytes ≠ []
  · exact .inl h
  · refine .inr (kept_call s fun r bytes hc harr => ?_)
    by_contra hne
    exact h ⟨r, bytes, hc, harr, hne⟩

/-- The client's parser stays where the calls leave it. -/
theorem Tracks.preserved : Preserved (fun _ _ => True) (Tracks b i) := by
  refine (frame_kept i).preserved (fun hk h => (h.kept hk).1) fun s c h hrun _ _ => ?_
  rcases reads_or_kept i s c with ⟨r, bytes, rfl, harr, hne⟩ | hk
  · exact (h.read hrun harr hne).1
  · exact (h.kept hk).1

/-- What the client got, with what is queued for it, is all that was written for it. -/
def Complete (b : Buffer) (i : ClientId) (s : Proxy) : Prop := s.responseStream i = produced b i s

/-- What keeps a response loses nothing of it. -/
theorem Tracks.complete_kept (h : Tracks b i s) (hk : Kept i s s') (hc : Complete b i s) : Complete b i s' := by
  unfold Complete
  rw [(h.kept hk).2, hk.stream h.made]
  exact hc

/-- Where nothing is missing, nothing is missing behind a read just if what it makes the parser write fits. -/
theorem Tracks.complete_read (h : Tracks b i s) (hrun : s.status = .running) (hc : Complete b i s)
    {r : Option (List UInt8)} {bytes : List UInt8} (harr : s.arriving i r = some bytes) (hne : bytes ≠ []) :
    Complete b i (s.remoteRead i r) ↔ Fits (s.clients i).postResParseBuf
      (resWritten (s.clients i).resData (bufferWriteAdv (s.clients i).preResParseBuf bytes)) := by
  obtain ⟨-, hproduced, hstream⟩ := h.read hrun harr hne
  unfold Complete at hc ⊢
  rw [hproduced, hstream, hc, List.append_cancel_left_eq, List.take_eq_self_iff]
  rfl

/-- While everything fits nothing is missing. -/
theorem Complete.preserved : Preserved (OutputFits i) fun s => Tracks b i s ∧ Complete b i s := by
  refine (frame_kept i).preserved (fun hk h => ⟨(h.1.kept hk).1, h.1.complete_kept hk h.2⟩) ?_
  intro s c ⟨h, hc⟩ hrun _ hfits
  refine ⟨Tracks.preserved.call s c h hrun ‹_› trivial, ?_⟩
  rcases reads_or_kept i s c with ⟨r, bytes, rfl, harr, hne⟩ | hk
  · exact (h.complete_read hrun hc harr hne).mpr (hfits rfl bytes harr hne)
  · exact h.complete_kept hk hc

/-- The calls for the jobs read nothing from an origin. -/
theorem jobsMeet_outputFits (jobs : List Job) (os : List BlockCalls) : JobsMeet (OutputFits i) s jobs os := by
  induction jobs generalizing s os with
  | nil => trivial
  | cons j jobs ih => exact ⟨fun _ _ => trivial, fun _ => ih _⟩

/-- An event behind which nothing is missing had room for all it wrote. -/
theorem Tracks.meets (h : Tracks b i s) (hrun : s.status = .running) (hc : Complete b i s) {e : Event}
    (he : Complete b i (s.step e)) : Meets (OutputFits i) s e := by
  cases e with
  | read fd r =>
    refine ⟨fun _ _ => trivial, fun j hj hji bytes harr hne => ?_⟩
    subst hji
    have hstep : s.step (.read fd r) = s.remoteRead j r := by
      unfold step
      rw [if_pos hrun]
      change s.handleRead fd r = _
      unfold handleRead
      rw [hj]
    rw [hstep] at he
    exact (h.complete_read hrun hc harr hne).mp he
  | write fd r => exact ⟨fun _ _ => trivial, fun _ _ => trivial⟩
  | notifications os => exact jobsMeet_outputFits _ os
  | block fd o => exact fun _ _ => trivial
  | accept _ | clock _ | resolved _ _ | notified _ => trivial

/-- Nothing of the response of client `i` was read yet. -/
structure AwaitsResponse (i : ClientId) (s : Proxy) : Prop where
  made : i < s.made
  resData : (s.clients i).resData = defaultResponseStruct
  fetches : s.fetches i = []
  stream : s.responseStream i = []

/-- The parser of a client that waits for its response is at the start of the calls. -/
theorem AwaitsResponse.tracks (h : AwaitsResponse i s) :
    Tracks (s.clients i).preResParseBuf i s ∧ Complete (s.clients i).preResParseBuf i s := by
  refine ⟨⟨h.made, .start false (s.clients i).preResParseBuf (bufferInit 0) (bufferInit 0), ?_, ?_, ?_⟩, ?_⟩
  · rw [h.fetches]
    rfl
  · exact reachable_default
  · exact fun _ => ⟨rfl, h.resData.symm, rfl⟩
  · unfold Complete produced
    rw [h.fetches, h.stream]
    rfl

/-- A run in which nothing is ever missing had room for all it wrote. The induction is on the events. -/
theorem Tracks.always (h : Tracks b i s) (hc : Complete b i s) {es : List Event}
    (hes : ∀ es', es' <+: es → Complete b i (s.run es')) : Always (OutputFits i) s es := by
  induction es generalizing s with
  | nil => trivial
  | cons e es ih =>
    have hstep : Complete b i (s.step e) := hes [e] (List.prefix_append [e] es)
    refine ⟨fun hrun => h.meets hrun hc hstep, ih (Tracks.preserved.step h fun _ => ?_) hstep ?_⟩
    · exact (always_of_forall (fun _ _ => trivial) s [e]).1 ‹_›
    · exact fun es' hpre => hes (e :: es') ((List.prefix_cons_inj e).mpr hpre)

/-- In a run from where nothing of a response was read, what the client got, with what is queued for it, is
in every state what the parser makes of the reads so far without a limit on what it writes to, just if at
every read there was room for what the parser had to write. -/
theorem produces_along_iff (h : AwaitsResponse i s) (es : List Event) :
    (∀ es', es' <+: es → Produces (s.clients i).preResParseBuf ((s.run es').fetches i)
      ((s.run es').responseStream i)) ↔ Always (OutputFits i) s es := by
  obtain ⟨htracks, hcomplete⟩ := h.tracks
  simp only [produces_iff]
  constructor
  · exact htracks.always hcomplete
  · intro hes es' hpre
    obtain ⟨es'', rfl⟩ := hpre
    exact (Complete.preserved.run ⟨htracks, hcomplete⟩ (always_append.mp hes).1).2

/-- Client 0 sends its request and waits for the response. -/
def requests : List Event := connects 0 7 8 ++ [.write 8 (some 99), .write 8 (some 0)]

/-- The response comes in two reads, and the client takes ten bytes in between. -/
def unhurried : List Event :=
  [.read 8 (some (lit "HTTP/1.1 200 \r\nTransfer-Encoding: chunked\r\n\r\na\r\nabc")), .write 7 (some 10),
    .read 8 (some (lit "defghij\r\n0\r\n\r\n"))]

/-- There is room for every read. -/
theorem produces_along_iff_unhurried :
    let s := (mainLoop.run requests).run unhurried
    Produces ((mainLoop.run requests).clients 0).preResParseBuf (s.fetches 0) (s.responseStream 0) ∧
      s.delivered 0 = lit "HTTP/1.1 2" :=
  ⟨(produces_along_iff ⟨by decide +kernel, by decide +kernel, by decide +kernel, by decide +kernel⟩ unhurried).mpr
    (by decide +kernel) unhurried List.prefix_rfl, by decide +kernel⟩

/-- With buffers of 300 bytes there is no room for a head and the line the parser adds to it, all in one
read. -/
def hurried : List Event :=
  [.read 8 (some (lit "HTTP/1.1 200 \r\nTransfer-Encoding: chunked\r\n\r\n")), .write 7 (some 99)]

/-- Bytes of the head are lost although the client takes everything it is offered. -/
theorem not_produces_hurried :
    let s := smallBuffers.run requests
    AwaitsResponse 0 s ∧ (s.clients 0).state = .READ_RESP ∧
      ¬∀ es', es' <+: hurried →
        Produces (s.clients 0).preResParseBuf ((s.run es').fetches 0) ((s.run es').responseStream 0) := by
  refine ⟨⟨by decide +kernel, by decide +kernel, by decide +kernel, by decide +kernel⟩, by decide +kernel, ?_⟩
  intro h
  exact absurd (produces_iff.mp (h hurried List.prefix_rfl)) (by decide +kernel)

end Proxy

end HttpProxy
