import HttpProxy.ResponseRest

/-!
# Responses that arrive in fragments

`resFeed` is what the proxy does with the fragments of a response: it appends each to the input buffer
and calls `checkResponse`, until a call finishes or rejects the response. By `resFeed_run` the fragments
have the outcome of the machine's run over all the bytes, as long as every cut is one the parser can come
back from (`ResMachine.Resumes`); so does the response received whole.

At the other cuts the parser comes back to another state than the one it was in: a number that
overflowed into a negative one is not pushed back, and in front of a chunk's size it pushes back a zero,
which is the last chunk when no digit follows.
-/

namespace HttpProxy

/-! ## Feeding fragments -/

/-- What the caller of the parser holds between two reads from the origin. -/
structure ResFeed where
  rData : ResponseData
  bIn : Buffer
  bOut : Buffer
  bTransf : Buffer
deriving DecidableEq, Repr

/-- A new response. -/
def ResFeed.start (withTransf : Bool) (bIn bOut bTransf : Buffer) : ResFeed :=
  ⟨{ defaultResponseStruct with withTransf := withTransf }, bIn, bOut, bTransf⟩

/-- What a call of `checkResponse` leaves. -/
def ResponseResult.feed (r : ResponseResult) : ResFeed := ⟨r.rData, r.bIn, r.bOut, r.bTransf⟩

/-- `checkResponse` after each fragment; `none` would be a call that does not return. -/
def resFeed (f : ResFeed) : List (List UInt8) → Option ResFeed
  | [] => some f
  | w :: ws =>
    match checkResponse f.rData (bufferWriteAll f.bIn w) f.bOut f.bTransf with
    | none => none
    | some r =>
      if r.rData.state ≠ .RES_OK ∨ r.rData.parserState = .RES_FINISHED then some r.feed
      else resFeed r.feed ws

/-- How far a response came. -/
inductive ResEnding
  | finished (d : ResponseFields)
  | rejected (e : ResponseErr)
  | waiting
deriving DecidableEq, Repr

/-- What came of a response, and what was passed on of it. -/
structure ResOutcome where
  ending : ResEnding
  bOut : Buffer
  bTransf : Buffer
deriving DecidableEq, Repr

def ResFeed.ending (f : ResFeed) : ResEnding :=
  if f.rData.state ≠ .RES_OK then .rejected f.rData.state
  else if f.rData.parserState = .RES_FINISHED then .finished f.rData.toResponseFields
  else .waiting

def ResFeed.outcome (f : ResFeed) : ResOutcome := ⟨f.ending, f.bOut, f.bTransf⟩

def ResMachine.ending (q : ResMachine) : ResEnding :=
  match q.ctl with
  | .halt .finished _ => .finished q.d
  | .halt .rejected _ => .rejected q.d.state
  | _ => .waiting

/-- What comes of the response when the machine reads `l`, with what it passes on written behind what the
two buffers held. -/
def ResMachine.outcome (q : ResMachine) (l : List Cell) (bOut bTransf : Buffer) : ResOutcome where
  ending := (resMachine.stateAfter q l).ending
  bOut := bufferWriteAll bOut (outs (resMachine.emitted q l))
  bTransf := bufferWriteAll bTransf (transfs (resMachine.emitted q l))

/-- The machine at the start of a response. -/
def ResMachine.initial (withTransf : Bool) : ResMachine := ⟨.version 0, { withTransf := withTransf }⟩

/-- A cut, with the machine in `q` and `rest` to come, that the parser comes back from. -/
structure ResMachine.Resumes (q : ResMachine) (rest : List Cell) : Prop where
  recalled : q.Recalled
  digit : q.ctl = .chunkSize none → ∀ x ∈ rest.head?, Radix.hex.isDigit x.1 = true

/-! ## One call -/

theorem consistent_version {rd : ResponseData} (hp : rd.parserState = .RES_VERSION)
    (hv : rd.version = .undefined) : rd.Consistent := by
  refine ⟨fun _ => hv, fun h => ?_, fun h => ?_⟩
  · rw [hp] at h
    cases h
  · rw [hp] at h
    rcases h with h | h <;> cases h

theorem ResRests.consistent {q : ResMachine} {rd : ResponseData} (h : ResRests q rd) (hinv : q.Inv) :
    rd.Consistent := by
  have hb := hinv.bounded
  have hp := h.parserState
  have hw : rd.withTransf = q.d.withTransf := congrArg ResponseFields.withTransf h.fields
  have hversion : rd.version = q.d.version := congrArg ResponseFields.version h.fields
  unfold ResMachine.parserState at hp
  cases hctl : q.ctl <;> rw [hctl] at hp hb
  case version i => exact consistent_version hp (hversion.trans hb.2)
  case versionDigit => exact consistent_version hp (hversion.trans hb)
  case space n =>
    have hn := h.next n hctl
    exact .of_spaces hp (by rw [hn, resAfterSpaces_parserState])
  case data => exact consistent_body (hw ▸ hp)
  case untilClose => exact consistent_body (hw ▸ hp)
  case chunkSize => exact consistent_body (hw ▸ hp)
  case chunkSizeEnd => exact consistent_body (hw ▸ hp)
  case chunkData => exact consistent_body (hw ▸ hp)
  case chunkEnd => exact consistent_body (hw ▸ hp)
  case halt why unread => exact absurd hctl (h.rests why unread)
  all_goals
    refine .of_ne ?_ ?_ ?_ ?_ <;> rw [hp] <;> exact ResponseParserState.noConfusion

/-- Between two calls: the parser came to rest in the state `q` of the machine. -/
structure ResFeed.Resting (f : ResFeed) (q : ResMachine) : Prop where
  inv : q.Inv
  rests : ResRests q f.rData
  wf : f.bIn.Wf
  room : PUSH_BACK_ROOM ≤ f.bIn.infLimit
  cells : f.bIn.cells = pushedBack q.pushBack

namespace ResFeed.Resting

variable {f : ResFeed} {q : ResMachine}

/-- Whatever was pushed back is in the reserved zone. -/
theorem write (h : f.Resting q) : f.bIn.write = f.bIn.infLimit := by
  obtain ⟨hbytes, hread⟩ := Buffer.read_of_cells_pushedBack h.wf h.cells
  have hfits := h.inv.length_pushBack
  have hroom := h.room
  rw [Buffer.write, hbytes, hread]
  omega

/-- A call on a fragment does what the machine does on it. -/
theorem run_call (h : f.Resting q) {w : List UInt8} (hw : w ≠ []) (hcut : q.Resumes (fresh w)) :
    resMachine.run f.rData.machine (f.bIn.cells ++ fresh w) = resMachine.run q (fresh w) := by
  have hne : fresh w ≠ [] := by simpa only [fresh, ne_eq, List.map_eq_nil_iff] using hw
  have hsilent := ResMachine.silent_pushBack h.inv hcut.recalled
  rw [h.cells, h.rests.machine, hsilent.run_append, ResMachine.run_resumed hne hcut.digit]

end ResFeed.Resting

theorem ResCallEnd.congr {q q' : ResMachine} {bIn : Buffer} {l l' : List Cell} {r : ResponseResult}
    (h : ResCallEnd q bIn l r) (hrun : resMachine.stateAfter q l = resMachine.stateAfter q' l') :
    ResCallEnd q' bIn l' r := by
  cases h with
  | waits success rests wf keeps cells =>
    rw [hrun] at rests cells
    exact .waits success rests wf keeps cells
  | rejects unread success state after => exact .rejects unread success state (hrun ▸ after)
  | finished parserState wf keeps after => exact .finished parserState wf keeps (hrun ▸ after)

theorem NoNul.congr {q q' : ResMachine} {l l' : List Cell} (h : NoNul q l)
    (hrun : resMachine.stateAfter q' l' = resMachine.stateAfter q l) : NoNul q' l' := by
  unfold NoNul
  rw [hrun]
  exact h

theorem resMachine_run_of_halt {q : ResMachine} {why : ResHalt} {unread : List Cell}
    (h : q.ctl = .halt why unread) (l : List Cell) :
    resMachine.run q l = (q.goto (.halt why (unread ++ l)), []) := by
  obtain ⟨ctl, d⟩ := q
  obtain rfl : ctl = .halt why unread := h
  exact resMachine_run_halt why unread d l

/-- What is read first of an input without a zero byte has none. -/
theorem NoNul.left {q : ResMachine} {l m : List Cell} (h : NoNul q (l ++ m)) : NoNul q l := by
  intro unread hctl
  have hrest := resMachine_run_of_halt hctl m
  refine h (unread ++ m) ?_
  rw [Transducer.stateAfter_append, Transducer.stateAfter, hrest]
  rfl

theorem NoNul.right {q : ResMachine} {l m : List Cell} (h : NoNul q (l ++ m)) :
    NoNul (resMachine.stateAfter q l) m := by
  refine h.congr ?_
  rw [Transducer.stateAfter_append]

namespace ResFeed.Resting

variable {f : ResFeed} {q : ResMachine}

/-- What a call on a fragment leaves. -/
theorem moves (h : f.Resting q) {w : List UInt8} (hw : w ≠ []) (hcut : q.Resumes (fresh w))
    (hfits : f.bIn.infLimit + w.length ≤ f.bIn.limit) (hnul : NoNul q (fresh w)) :
    ∃ r, checkResponse f.rData (bufferWriteAll f.bIn w) f.bOut f.bTransf = some r ∧
      ResCallEnd q (bufferWriteAll f.bIn w) (fresh w) r ∧
      r.bOut = bufferWriteAll f.bOut (outs (resMachine.emitted q (fresh w))) ∧
      r.bTransf = bufferWriteAll f.bTransf (transfs (resMachine.emitted q (fresh w))) := by
  have hrun := h.run_call hw hcut
  rw [← Buffer.cells_writeAll h.wf (by rw [h.write]; exact hfits)] at hrun
  have hafter : resMachine.stateAfter f.rData.machine (bufferWriteAll f.bIn w).cells =
      resMachine.stateAfter q (fresh w) := congrArg Prod.fst hrun
  have hemit : resMachine.emitted f.rData.machine (bufferWriteAll f.bIn w).cells =
      resMachine.emitted q (fresh w) := congrArg Prod.snd hrun
  have hwf : (bufferWriteAll f.bIn w).Wf := Buffer.wf_writeAll h.wf (by rw [h.write]; exact hfits)
  have hroom : PUSH_BACK_ROOM ≤ (bufferWriteAll f.bIn w).infLimit := by
    rw [Buffer.infLimit_writeAll]
    exact h.room
  obtain ⟨r, hr, hend, hout, htransf⟩ :=
    checkResponse_move f.bOut f.bTransf (h.rests.consistent h.inv) hwf hroom (hnul.congr hafter)
  rw [hemit] at hout htransf
  exact ⟨r, hr, hend.congr hafter, hout, htransf⟩

/-- The parser that waits for more input rests where the machine's run ends. -/
theorem after (h : f.Resting q) {w : List UInt8} {r : ResponseResult}
    (rests : ResRests (resMachine.stateAfter q (fresh w)) r.rData) (wf : r.bIn.Wf)
    (keeps : (bufferWriteAll f.bIn w).Keeps r.bIn)
    (cells : r.bIn.cells = pushedBack (Buffer.clip (bufferWriteAll f.bIn w).infLimit
      (resMachine.stateAfter q (fresh w)).pushBack)) :
    r.feed.Resting (resMachine.stateAfter q (fresh w)) := by
  have hinv := ResMachine.inv_stateAfter h.inv (fresh w)
  have hroom := h.room
  rw [Buffer.infLimit_writeAll, Buffer.clip_of_le (Nat.le_trans hinv.length_pushBack hroom)] at cells
  refine ⟨hinv, rests, wf, ?_, cells⟩
  change PUSH_BACK_ROOM ≤ r.bIn.infLimit
  rw [keeps.infLimit, Buffer.infLimit_writeAll]
  exact hroom

end ResFeed.Resting

/-! ## Any number of calls -/

theorem ResMachine.ending_of_live {q : ResMachine} (h : ∀ why unread, q.ctl ≠ .halt why unread) :
    q.ending = .waiting := by
  unfold ending
  split
  · next hctl => exact absurd hctl (h _ _)
  · next hctl => exact absurd hctl (h _ _)
  · rfl

/-- A parser that has not halted is not at its end. -/
theorem ResMachine.parserState_of_live {q : ResMachine} (h : ∀ why unread, q.ctl ≠ .halt why unread) :
    q.parserState ≠ .RES_FINISHED := by
  unfold parserState
  cases hctl : q.ctl
  case halt why unread => exact absurd hctl (h why unread)
  case data | untilClose | chunkSize | chunkSizeEnd | chunkData | chunkEnd =>
    dsimp only
    split <;> exact ResponseParserState.noConfusion
  all_goals exact ResponseParserState.noConfusion

theorem ResRests.state {q : ResMachine} {rd : ResponseData} (h : ResRests q rd) (hinv : q.Inv) :
    rd.state = .RES_OK ∧ rd.parserState ≠ .RES_FINISHED := by
  refine ⟨?_, ?_⟩
  · rw [h.fields]
    exact hinv.state fun unread => h.rests _ unread
  · rw [h.parserState]
    exact ResMachine.parserState_of_live h.rests

theorem ResMachine.Resumes.of_append {q : ResMachine} {w : List UInt8} {l : List Cell} (hw : w ≠ [])
    (h : q.Resumes (fresh w ++ l)) : q.Resumes (fresh w) := by
  obtain ⟨c, w, rfl⟩ := List.exists_cons_of_ne_nil hw
  exact ⟨h.recalled, fun hctl x hx => h.digit hctl x hx⟩

theorem fresh_flatten (ws : List (List UInt8)) : fresh ws.flatten = (ws.map fresh).flatten :=
  List.map_flatten

/-- The fragments have the outcome of the machine's run over all their bytes, when every cut is one the
parser comes back from. -/
theorem resFeed_run (ws : List (List UInt8)) : ∀ {f : ResFeed} {q : ResMachine}, f.Resting q →
    (∀ w ∈ ws, w ≠ [] ∧ f.bIn.infLimit + w.length ≤ f.bIn.limit) → NoNul q (fresh ws.flatten) →
    (ws ≠ [] → q.Resumes (fresh ws.flatten)) →
    resMachine.AtEveryCut ResMachine.Resumes q (ws.map fresh) →
    (resFeed f ws).map ResFeed.outcome = some (q.outcome (fresh ws.flatten) f.bOut f.bTransf) := by
  induction ws with
  | nil =>
    intro f q h _ _ _ _
    obtain ⟨hstate, hp⟩ := h.rests.state h.inv
    have hending : f.ending = q.ending := by
      rw [ResMachine.ending_of_live h.rests.rests, ResFeed.ending, if_neg (not_not.mpr hstate), if_neg hp]
    exact congrArg (fun e => some (ResOutcome.mk e f.bOut f.bTransf)) hending
  | cons w ws ih =>
    intro f q h hws hnul hcut hcuts
    obtain ⟨hw, hfits⟩ := hws w List.mem_cons_self
    have hcut' := hcut (List.cons_ne_nil _ _)
    rw [List.flatten_cons, fresh_append] at hnul hcut' ⊢
    have hinv := ResMachine.inv_stateAfter h.inv (fresh w)
    obtain ⟨r, hr, hend, hout, htransf⟩ := h.moves hw (hcut'.of_append hw) hfits hnul.left
    have hsplit : q.outcome (fresh w ++ fresh ws.flatten) f.bOut f.bTransf =
        (resMachine.stateAfter q (fresh w)).outcome (fresh ws.flatten) r.bOut r.bTransf := by
      unfold ResMachine.outcome
      rw [Transducer.stateAfter_append, Transducer.emitted_append, outs_append, transfs_append,
        Buffer.writeAll_append, Buffer.writeAll_append, ← hout, ← htransf]
    have hnul' := hnul.right
    rw [hsplit]
    unfold resFeed
    rw [hr]
    dsimp only
    obtain ⟨hcuthead, hcutrest⟩ := hcuts
    cases hend with
    | waits success rests wf keeps cells =>
      obtain ⟨hstate, hp⟩ := rests.state hinv
      rw [if_neg (not_or.mpr ⟨not_not.mpr hstate, hp⟩)]
      have hlimits : r.feed.bIn.infLimit = f.bIn.infLimit ∧ r.feed.bIn.limit = f.bIn.limit :=
        ⟨keeps.infLimit.trans (Buffer.infLimit_writeAll _ _),
          keeps.limit.trans (Buffer.limit_writeAll _ _)⟩
      refine ih (h.after rests wf keeps cells) ?_ hnul' (fun hne => ?_) hcutrest
      · rw [hlimits.1, hlimits.2]
        exact fun v hv => hws v (List.mem_cons_of_mem w hv)
      · rw [fresh_flatten]
        exact hcuthead fun hnil => hne (List.map_eq_nil_iff.mp hnil)
    | rejects unread success state after =>
      rw [if_pos (.inl state), after]
      have hending : r.feed.ending = .rejected r.rData.state := if_pos state
      have hrest := resMachine_run_halt .rejected unread r.rData.toResponseFields (fresh ws.flatten)
      unfold ResMachine.outcome Transducer.stateAfter Transducer.emitted
      rw [hrest]
      exact congrArg (fun e => some (ResOutcome.mk e r.bOut r.bTransf)) hending
    | finished parserState wf keeps after =>
      have hstate : r.rData.state = .RES_OK := by
        rw [after] at hinv
        exact hinv.state fun unread hctl => ResHalt.noConfusion (ResCtl.halt.inj hctl).1
      rw [if_pos (.inr parserState), after]
      have hending : r.feed.ending = .finished r.rData.toResponseFields := by
        rw [ResFeed.ending]
        exact (if_neg (not_not.mpr hstate)).trans (if_pos parserState)
      have hrest := resMachine_run_halt .finished r.bIn.cells r.rData.toResponseFields (fresh ws.flatten)
      unfold ResMachine.outcome Transducer.stateAfter Transducer.emitted
      rw [hrest]
      exact congrArg (fun e => some (ResOutcome.mk e r.bOut r.bTransf)) hending

/-! ## Responses -/

theorem ResMachine.inv_initial (withTransf : Bool) : (initial withTransf).Inv :=
  ⟨fun _ => rfl, by decide, rfl⟩

theorem ResFeed.resting_start {n₀ n : Nat} (h : n₀ ≤ n) (hroom : PUSH_BACK_ROOM ≤ n₀) (withTransf : Bool)
    (bOut bTransf : Buffer) :
    (ResFeed.start withTransf (bufferInitR n₀ n) bOut bTransf).Resting (.initial withTransf) where
  inv := ResMachine.inv_initial withTransf
  rests := ⟨fun _ _ => ResCtl.noConfusion, rfl, rfl, fun _ => ResCtl.noConfusion⟩
  wf := Buffer.wf_initR h
  room := hroom
  cells := Buffer.cells_eq_nil.mpr rfl

/-- The outcome of a response is that of the machine's run over its bytes, when every cut is one that the
parser comes back from and no zero byte is taken for the end of the input. -/
theorem resFeed_eq_outcome (ws : List (List UInt8)) {n₀ n : Nat} (hroom : PUSH_BACK_ROOM ≤ n₀)
    (withTransf : Bool) (bOut bTransf : Buffer) (hn : n₀ ≤ n)
    (hws : ∀ w ∈ ws, w ≠ [] ∧ n₀ + w.length ≤ n)
    (hnul : NoNul (.initial withTransf) (fresh ws.flatten))
    (hcuts : resMachine.AtEveryCut ResMachine.Resumes (.initial withTransf) (ws.map fresh)) :
    (resFeed (.start withTransf (bufferInitR n₀ n) bOut bTransf) ws).map ResFeed.outcome =
      some ((ResMachine.initial withTransf).outcome (fresh ws.flatten) bOut bTransf) :=
  resFeed_run ws (ResFeed.resting_start hn hroom withTransf bOut bTransf) hws hnul
    (fun _ => ⟨trivial, fun h => ResCtl.noConfusion h⟩) hcuts

/-- A response received in fragments has the outcome of the response received whole, when every cut is one
that the parser comes back from, no zero byte stands where the parser takes it for the end of its input,
and the buffer has the room that is pushed back into and room for the whole response. -/
theorem resFeed_fragments {s : List UInt8} {ws : List (List UInt8)} (hs : ws.flatten = s) {n₀ n : Nat}
    (hroom : PUSH_BACK_ROOM ≤ n₀) (hn : n₀ + s.length ≤ n) (withTransf : Bool) (bOut bTransf : Buffer)
    (hne : ∀ w ∈ ws, w ≠ []) (hnul : NoNul (.initial withTransf) (fresh s))
    (hcuts : resMachine.AtEveryCut ResMachine.Resumes (.initial withTransf) (ws.map fresh)) :
    (resFeed (.start withTransf (bufferInitR n₀ n) bOut bTransf) ws).map ResFeed.outcome =
      (resFeed (.start withTransf (bufferInitR n₀ n) bOut bTransf) [s]).map ResFeed.outcome := by
  subst hs
  have hn' : n₀ ≤ n := Nat.le_of_add_right_le hn
  cases ws with
  | nil => rfl
  | cons w ws =>
    have hflat : [(w :: ws).flatten].flatten = (w :: ws).flatten := List.append_nil _
    have hnonempty : (w :: ws).flatten ≠ [] := by
      rw [List.flatten_cons]
      exact List.append_ne_nil_of_left_ne_nil (hne w List.mem_cons_self) _
    have hwhole := resFeed_eq_outcome [(w :: ws).flatten] hroom withTransf bOut bTransf hn'
      (by
        intro u hu
        obtain rfl := List.mem_singleton.mp hu
        exact ⟨hnonempty, hn⟩)
      (by rwa [hflat]) ⟨fun h => absurd rfl h, trivial⟩
    rw [hflat] at hwhole
    rw [hwhole]
    refine resFeed_eq_outcome (w :: ws) hroom withTransf bOut bTransf hn' (fun u hu => ?_) hnul hcuts
    have hlen := (List.sublist_flatten_of_mem hu).length_le
    exact ⟨hne u hu, Nat.le_trans (Nat.add_le_add_left hlen n₀) hn⟩

/-- A chunked response cut inside the data of a chunk. -/
theorem resFeed_fragments_chunk :
    let head := lit "HTTP/1.1 200 \r\nTransfer-Encoding: chunked\r\n\r\n"
    (resFeed (.start false (bufferInitR 255 1024) (bufferInit 1024) (bufferInit 1024))
        [head ++ lit "a\r\nabc", lit "defghij\r\n0\r\n\r\n"]).map ResFeed.outcome =
      (resFeed (.start false (bufferInitR 255 1024) (bufferInit 1024) (bufferInit 1024))
        [head ++ lit "a\r\nabcdefghij\r\n0\r\n\r\n"]).map ResFeed.outcome := by
  have hctl : (resMachine.stateAfter (.initial false) (fresh (lit
      "HTTP/1.1 200 \r\nTransfer-Encoding: chunked\r\n\r\n" ++ lit "a\r\nabc"))).ctl = .chunkData := by
    decide +kernel
  refine resFeed_fragments (by decide) (by decide) (by decide) false _ _ (by decide) ?_
    ⟨fun _ => ⟨?_, ?_⟩, fun h => absurd rfl h, trivial⟩
  · have hend : (resMachine.stateAfter (.initial false) (fresh (lit
        "HTTP/1.1 200 \r\nTransfer-Encoding: chunked\r\n\r\n" ++
          lit "a\r\nabcdefghij\r\n0\r\n\r\n"))).ctl = .halt .finished [] := by decide +kernel
    unfold NoNul
    rw [hend]
    exact fun _ h => ResHalt.noConfusion (ResCtl.halt.inj h).1
  · unfold ResMachine.Recalled
    rw [hctl]
    trivial
  · rw [hctl]
    exact fun h => ResCtl.noConfusion h

/-- Cut in front of a chunk's size that never comes, the response is finished. -/
theorem resFeed_size_cut :
    let head := lit "HTTP/1.1 200 \r\nTransfer-Encoding: chunked\r\n\r\n"
    (resFeed (.start false (bufferInitR 255 1024) (bufferInit 1024) (bufferInit 1024))
        [head, lit "\r\n\r\n"]).map ResFeed.outcome ≠
      (resFeed (.start false (bufferInitR 255 1024) (bufferInit 1024) (bufferInit 1024))
        [head ++ lit "\r\n\r\n"]).map ResFeed.outcome := by
  decide +kernel

end HttpProxy
