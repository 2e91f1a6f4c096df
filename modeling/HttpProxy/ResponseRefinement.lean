import HttpProxy.NumberRange
import HttpProxy.ResponseMachine
import HttpProxy.ResponseTermination

/-!
# The response parser refines its machine

Each function of the parser is one phase of `resMachine`. `resIteration_move` says what one iteration
of the loop of `checkResponseInner` is to the machine, and `checkResponse_move` what a call is: it
leaves the parser where the machine's run over the readable cells of the input ends, with the machine's
emissions written to the two buffers.

Outside of bodies the input has no zero byte, which the parser takes for its end (`NoNul`).
-/

namespace HttpProxy

/-- The machine in control state `ctl` with what the code knows in `s`. -/
def ResState.machineAt (s : ResState) (ctl : ResCtl) : ResMachine := ⟨ctl, s.rData.toResponseFields⟩

/-- Room for everything the parser pushes back. -/
abbrev PUSH_BACK_ROOM : Nat := 20

/-- The parser is between two functions, with `l` to read. -/
structure ResState.Reads (s : ResState) (l : List Cell) : Prop where
  shows_ : s.io.Shows l
  notEmpty : s.io.isBufferEmpty = false
  room : PUSH_BACK_ROOM ≤ s.io.b.infLimit

/-- The machine reads no zero byte that the code takes for the end of its input. -/
def NoNul (q : ResMachine) (l : List Cell) : Prop :=
  ∀ unread, (resMachine.stateAfter q l).ctl ≠ .halt .nul unread

/-- A machine that has halted reads on without doing anything. -/
theorem resMachine_run_halt (why : ResHalt) (unread : List Cell) (d : ResponseFields)
    (l : List Cell) :
    resMachine.run ⟨.halt why unread, d⟩ l = (⟨.halt why (unread ++ l), d⟩, []) := by
  induction l generalizing unread with
  | nil => rw [Transducer.run_nil, List.append_nil]
  | cons x l ih =>
    have hstep : resMachine.step ⟨.halt why unread, d⟩ x = (⟨.halt why (unread ++ [x]), d⟩, []) :=
      ResMachine.step_of_takesZero rfl x
    rw [Transducer.run_cons, hstep, ih, List.append_assoc]
    rfl

/-- What is left to read behind a part of the run has no such zero byte either. -/
theorem NoNul.of_yields {q q' : ResMachine} {l l' : List Cell} {e : List Passed} (h : NoNul q l)
    (hy : resMachine.Yields q l e q' l') : NoNul q' l' := by
  intro unread
  rw [← hy.stateAfter_eq]
  exact h unread

/-- Behind what a function reads there is no such zero byte either. -/
theorem NoNul.of_advance {ι : UInt8 → Passed} {q q' : ResMachine} {io io' : Io} {l l' : List Cell}
    (h : NoNul q l) (adv : Advance resMachine ι q io l q' io' l') : NoNul q' l' := by
  obtain ⟨e, -, hy⟩ := adv.emits
  exact h.of_yields hy

/-- In front of a zero byte that its state does not take the machine halts. -/
theorem NoNul.not_meetsNul {q q' : ResMachine} {l : List Cell} (h : NoNul q l)
    (hq : q'.ctl.takesZero = false) : ¬MeetsNul resMachine q l q' := by
  rintro ⟨e, x, l', hx, hy⟩
  refine h.of_yields hy ([x] ++ l') ?_
  have hstep : resMachine.step q' x = (q'.goto (.halt .nul [x]), []) := if_pos ⟨hx, hq⟩
  rw [Transducer.stateAfter_cons, hstep]
  exact congrArg (fun r => r.1.ctl) (resMachine_run_halt .nul [x] q'.d l')

/-- The byte in front of a state that takes no zero is not zero. -/
theorem NoNul.ne_zero {q : ResMachine} {x : Cell} {l : List Cell} (h : NoNul q (x :: l))
    (hq : q.ctl.takesZero = false) : x.1 ≠ 0 :=
  fun hx => h.not_meetsNul hq ⟨[], x, l, hx, .refl _ _⟩

/-- Two states that differ in what was read, not in the parser's own state. -/
structure ResState.SameCtl (s s' : ResState) : Prop where
  parserState : s'.rData.parserState = s.rData.parserState
  next : s'.rData.next = s.rData.next
  transf : s'.transf = s.transf

/-- A function that reads leaves the parser with the rest to read. -/
theorem ResState.Reads.of_advance {ι : UInt8 → Passed} {q q' : ResMachine} {s s' : ResState}
    {l l' : List Cell} (h : s.Reads l) (adv : Advance resMachine ι q s.io l q' s'.io l')
    (he : s'.io.isBufferEmpty = s.io.isBufferEmpty) : s'.Reads l' :=
  ⟨adv.shows_, he.trans h.notEmpty, adv.keeps.infLimit ▸ h.room⟩

/-- A call of one of the functions of the head, from the machine's state `q` with `l` to read. It
returns `true` with the machine in `done s'`, where `s'` is what it left; it returns `false` because
it ran out of input, or with the machine in `failed s'`. -/
inductive HeadMove (done failed : ResState → ResMachine) (q : ResMachine) (s : ResState)
    (l : List Cell) : Bool × ResState → Prop
  | done {s' : ResState} {l' : List Cell} (same : s.SameCtl s') (reads : s'.Reads l')
      (adv : Advance resMachine .out q s.io l (done s') s'.io l') :
      HeadMove done failed q s l (true, s')
  | failed {s' : ResState} {l' : List Cell} (same : s.SameCtl s') (reads : s'.Reads l')
      (adv : Advance resMachine .out q s.io l (failed s') s'.io l') :
      HeadMove done failed q s l (false, s')
  | waits {s' : ResState} (ctl : ResCtl) (same : s.SameCtl s')
      (rests : ∀ why unread, ctl ≠ .halt why unread)
      (parserState : (s'.machineAt ctl).parserState = s.rData.parserState)
      (next : ∀ n, ctl = .space n → s.rData.next = n.parserState)
      (waits : Waits resMachine .out q s.io l (s'.machineAt ctl) s'.io (s'.machineAt ctl).pushBack) :
      HeadMove done failed q s l (false, s')

/-! ## The utilities in the response machine -/

/-- A byte that is not zero is read by the step of the state. -/
theorem res_step_of_ne {q : ResMachine} {x : Cell} (hx : x.1 ≠ 0) :
    resMachine.step q x = q.stepByte x := ResMachine.step_of_ne hx

/-- A byte that is written as it is read is one step of the machine. -/
theorem advance_res_read {q q' : ResMachine} {io : Io} {x : Cell} {l : List Cell}
    (h : io.Shows (x :: l)) (hx : x.1 ≠ 0) (hs : q.stepByte x = (q', ResMachine.passes x)) :
    Advance resMachine .out q io (x :: l) q'
      { io with b := (bufferRead io.b).2, out := io.out ++ echoed true x } l := by
  rw [← readByte_cons true h hx]
  exact Advance.read true h hx ((res_step_of_ne hx).trans hs)

/-- A match in the parser is a run of the machine through its states inside the format. -/
theorem matchFormat_res (q done miss : ResMachine) (format pre : List UInt8)
    (inside : Nat → ResCtl) (hne : format ≠ []) (hnz : 0 ∉ format)
    (hstep : ∀ i < format.length, ∀ x, x.1 ≠ 0 → (q.goto (inside i)).stepByte x =
      q.stepMatch format i inside done miss.stepByte x)
    {io : Io} {l : List Cell} (h : io.Shows l) :
    MatchMove resMachine .out format pre (fun i => q.goto (inside i)) done miss (q.goto (inside 0))
      io l (matchFormat format pre io) := by
  refine matchFormat_move pre hne hnz (fun i hi x hx => ?_) h
  rw [res_step_of_ne hx, hstep i hi x hx]
  unfold ResMachine.stepMatch stepMatch
  rw [res_step_of_ne hx]
  rfl

/-- A number in the parser is a run of the machine through its states inside a number. -/
theorem getNumber_res (q : ResMachine) (inside : Option Int → ResCtl) (done : Int → ResMachine)
    (miss : ResMachine)
    (hstep : ∀ n x, x.1 ≠ 0 → (q.goto (inside n)).stepByte x =
      stepNumber .dec n (fun n => q.goto (inside n)) (fun v => (done v).stepByte) miss.stepByte
        ResMachine.passes x)
    {io : Io} {l : List Cell} (h : io.Shows l) :
    NumberMove resMachine .out .dec [] (fun n => q.goto (inside n)) done miss (q.goto (inside none))
      io l (getNumber [] io) := by
  refine getNumber_move true [] _ done miss (fun n x hx => ?_) h
  rw [res_step_of_ne hx, hstep n x hx]
  unfold stepNumber
  split
  · rfl
  · cases n with
    | none => exact (res_step_of_ne hx).symm
    | some v => exact (res_step_of_ne hx).symm

/-- What the response parser pushes back with `writePrefix` it pushes back as any other bytes. -/
theorem writePrefix_eq_pushBack (b : Buffer) (pre : List UInt8) : writePrefix b pre = b.pushBack pre := by
  rw [writePrefix, writeToBufReverse, List.take_length]

/-! ## Spaces -/

/-- The control state behind a run of blanks. -/
def ResAfterSpaces.ctl : ResAfterSpaces → ResCtl
  | .status => .status none
  | .value .connection => .connection
  | .value .contentLength => .length none
  | .value .contentEncoding => .encoding 0
  | .value .contentType => .headers
  | .value .transferEncoding => .chunked 0

/-- In front of anything but a blank one space is written, and the byte is read by the state behind
the blanks. -/
theorem stepByte_space (s : ResState) (n : ResAfterSpaces) (x : Cell) :
    (s.machineAt (.space n)).stepByte x =
      if isBlank x.1 then (s.machineAt (.space n), [])
      else (((s.machineAt n.ctl).stepByte x).1, .out SP :: ((s.machineAt n.ctl).stepByte x).2) := by
  cases n with
  | status => rfl
  | value f => cases f <;> rfl

/-- `checkSpaces` goes to the state behind the blanks, or runs out in them. -/
theorem checkResSpaces_move {s : ResState} {l : List Cell} (h : s.Reads l) (n : ResAfterSpaces)
    (hnul : NoNul (s.machineAt (.space n)) l)
    (hp : s.rData.parserState = .RES_SPACE_TRANSITION) (hn : s.rData.next = n.parserState) :
    HeadMove (fun s' => s'.machineAt n.ctl) (fun s' => s'.machineAt n.ctl)
      (s.machineAt (.space n)) s l (checkResSpaces s) := by
  have hblank : ∀ x : Cell, isBlank x.1 = true →
      resMachine.step (s.machineAt (.space n)) x = (s.machineAt (.space n), []) := by
    intro x hx
    have hne : x.1 ≠ 0 := by
      intro h0
      rw [h0] at hx
      cases hx
    rw [res_step_of_ne hne, stepByte_space, if_pos hx]
  obtain ⟨b', l', hmove, hadv, hhead⟩ := moveThroughSpaces_spec (ι := .out) hblank h.shows_
  have hreads : ({ s with io := { s.io with b := b' } } : ResState).Reads l' :=
    h.of_advance hadv rfl
  unfold checkResSpaces
  simp only [hmove]
  cases l' with
  | nil =>
    simp only [List.head?_nil, Option.elim_none, if_true]
    exact .waits (.space n) ⟨rfl, rfl, rfl⟩ nofun hp.symm (fun m hm => by cases hm; exact hn)
      (hadv.waits (Waits.here hadv.shows_ []))
  | cons x l' =>
    have hx : x.1 ≠ 0 := (hnul.of_advance hadv).ne_zero rfl
    simp only [List.head?_cons, Option.elim_some, hx, if_false]
    have hins : resMachine.step (s.machineAt (.space n)) x =
        ((resMachine.step (s.machineAt n.ctl) x).1,
          [SP].map .out ++ (resMachine.step (s.machineAt n.ctl) x).2) := by
      rw [res_step_of_ne hx, res_step_of_ne hx, stepByte_space, hhead x rfl]
      rfl
    have hadv' := hadv.trans (Advance.insert [SP] hadv.shows_ hins)
    exact .done ⟨rfl, rfl, rfl⟩ (h.of_advance hadv' rfl) hadv'

/-! ## Start line -/

/-- `extractHttpVersion` goes on to the blanks in front of the status, rejects the response, or runs
out. -/
theorem extractResVersion_move {s : ResState} {l : List Cell} (h : s.Reads l)
    (hnul : NoNul (s.machineAt (.version 0)) l) (hp : s.rData.parserState = .RES_VERSION)
    (hv : s.rData.version = .undefined) :
    HeadMove (fun s' => s'.machineAt (.space .status))
      (fun s' => (s'.machineAt (.version 0)).reject .RES_VERSION_ERROR) (s.machineAt (.version 0)) s l
      (extractResVersion s) := by
  have hmatch := matchFormat_res (s.machineAt (.version 0)) (s.machineAt .versionDigit)
    ((s.machineAt (.version 0)).reject .RES_VERSION_ERROR) (lit "HTTP/1.") [] .version (by decide)
    (by decide) (fun _ _ _ _ => rfl) h.shows_
  unfold extractResVersion
  generalize matchFormat (lit "HTTP/1.") [] s.io = r at hmatch ⊢
  cases hmatch with
  | @full io l' empty adv =>
    have hreads : ({ s with io := io } : ResState).Reads l' := h.of_advance adv empty
    simp only [if_true]
    cases l' with
    | nil =>
      simp only [readAndWrite_nil adv.shows_, ne_eq, not_true, if_false]
      refine .waits .versionDigit ⟨rfl, rfl, rfl⟩ nofun hp.symm nofun (adv.waits ?_)
      exact Waits.here adv.shows_ (lit "HTTP/1.")
    | cons x l' =>
      have hx : x.1 ≠ 0 := (hnul.of_advance adv).ne_zero rfl
      have hadv := adv.trans (advance_res_read (q := s.machineAt .versionDigit) adv.shows_ hx rfl)
      simp only [readAndWrite_cons adv.shows_ hx, hx, ne_eq, not_false_eq_true, if_true]
      generalize hd : (if x.1 = 0x30 then HttpVersion.v1_0 else if x.1 = 0x31 then .v1_1
        else s.rData.version) = v
      have hset : (s.machineAt .versionDigit).setVersion x.1 =
          ⟨.versionDigit, { s.rData.toResponseFields with version := v }⟩ := by
        rw [← hd]
        rfl
      rw [hset] at hadv
      by_cases hu : v = .undefined
      · rw [ResMachine.afterVersion, if_pos hu] at hadv
        simp only [hu, not_true, decide_false]
        simp only [hu] at hadv
        exact .failed ⟨rfl, rfl, rfl⟩ (h.of_advance hadv empty) hadv
      · rw [ResMachine.afterVersion, if_neg hu] at hadv
        simp only [hu, not_false_eq_true, decide_true]
        exact .done ⟨rfl, rfl, rfl⟩ (h.of_advance hadv empty) hadv
  | @miss io l' empty more adv =>
    have hreads : ({ s with io := io } : ResState).Reads l' := h.of_advance adv empty
    have he : io.isBufferEmpty = false := hreads.notEmpty
    simp only [he, Bool.false_eq_true, if_false, hv, ne_eq, not_true, decide_false]
    exact .failed ⟨rfl, rfl, rfl⟩ hreads adv
  | @short io i lt w =>
    simp only [w.isBufferEmpty, Bool.false_eq_true, if_false, if_true]
    exact .waits (.version i) ⟨rfl, rfl, rfl⟩ nofun hp.symm nofun w
  | nul lt meets => exact absurd meets (hnul.not_meetsNul rfl)

/-- `extractStatus` goes on to the headers with the number, rejects the response, or runs out. -/
theorem extractStatus_move {s : ResState} {l : List Cell} (h : s.Reads l)
    (hnul : NoNul (s.machineAt (.status none)) l) (hp : s.rData.parserState = .STATUS) :
    HeadMove (fun s' => s'.machineAt .headers)
      (fun s' => (s'.machineAt .headers).reject .STATUS_ERROR) (s.machineAt (.status none)) s l
      (extractStatus s) := by
  have hnumber := getNumber_res (s.machineAt .headers) .status
    (fun v => (s.machineAt .headers).setStatus v) ((s.machineAt .headers).reject .STATUS_ERROR)
    (fun _ _ _ => rfl) h.shows_
  unfold extractStatus
  generalize getNumber [] s.io = r at hnumber ⊢
  cases hnumber with
  | number empty more adv => exact .done ⟨rfl, rfl, rfl⟩ (h.of_advance adv empty) adv
  | refused empty more adv => exact .failed ⟨rfl, rfl, rfl⟩ (h.of_advance adv empty) adv
  | @short io n w => exact .waits (.status n) ⟨rfl, rfl, rfl⟩ nofun hp.symm nofun w
  | nul meets => exact absurd meets (hnul.not_meetsNul rfl)

/-! ## Values -/

/-- `checkLength` goes back to the headers, with a length or without one. -/
theorem checkLength_move {s : ResState} {l : List Cell} (h : s.Reads l)
    (hnul : NoNul (s.machineAt (.length none)) l) (hp : s.rData.parserState = .LENGTH_CHECK) :
    HeadMove (fun s' => s'.machineAt .headers) (fun s' => s'.machineAt .headers)
      (s.machineAt (.length none)) s l (checkLength s) := by
  have hnumber := getNumber_res (s.machineAt .headers) .length
    (fun v => (s.machineAt .headers).setBodyLength v) (s.machineAt .headers)
    (fun _ _ _ => rfl) h.shows_
  unfold checkLength
  generalize getNumber [] s.io = r at hnumber ⊢
  cases hnumber with
  | number empty more adv => exact .done ⟨rfl, rfl, rfl⟩ (h.of_advance adv empty) adv
  | refused empty more adv => exact .failed ⟨rfl, rfl, rfl⟩ (h.of_advance adv empty) adv
  | @short io n w => exact .waits (.length n) ⟨rfl, rfl, rfl⟩ nofun hp.symm nofun w
  | nul meets => exact absurd meets (hnul.not_meetsNul rfl)

/-- `checkEncoding` goes back to the headers, where `gzip` was found or not. -/
theorem checkEncoding_move {s : ResState} {l : List Cell} (h : s.Reads l)
    (hnul : NoNul (s.machineAt (.encoding 0)) l) (hp : s.rData.parserState = .ENCODING_CHECK) :
    HeadMove (fun s' => s'.machineAt .headers) (fun s' => s'.machineAt .headers)
      (s.machineAt (.encoding 0)) s l (checkEncoding s) := by
  have hmatch := matchFormat_res (s.machineAt .headers) (s.machineAt .headers).setEncoding
    (s.machineAt .headers) (lit "GZIP") [] .encoding (by decide) (by decide) (fun _ _ _ _ => rfl)
    h.shows_
  unfold checkEncoding
  generalize matchFormat (lit "GZIP") [] s.io = r at hmatch ⊢
  cases hmatch with
  | full empty adv => exact .done ⟨rfl, rfl, rfl⟩ (h.of_advance adv empty) adv
  | miss empty more adv => exact .failed ⟨rfl, rfl, rfl⟩ (h.of_advance adv empty) adv
  | @short io i lt w => exact .waits (.encoding i) ⟨rfl, rfl, rfl⟩ nofun hp.symm nofun w
  | nul lt meets => exact absurd meets (hnul.not_meetsNul rfl)

/-- `checkChunked` goes back to the headers, where `chunked` was found or not. -/
theorem checkChunked_move {s : ResState} {l : List Cell} (h : s.Reads l)
    (hnul : NoNul (s.machineAt (.chunked 0)) l) (hp : s.rData.parserState = .CHUNKED_CHECK) :
    HeadMove (fun s' => s'.machineAt .headers) (fun s' => s'.machineAt .headers)
      (s.machineAt (.chunked 0)) s l (checkChunked s) := by
  have hmatch := matchFormat_res (s.machineAt .headers) (s.machineAt .headers).setChunked
    (s.machineAt .headers) (lit "CHUNKED") [] .chunked (by decide) (by decide) (fun _ _ _ _ => rfl)
    h.shows_
  unfold checkChunked
  generalize matchFormat (lit "CHUNKED") [] s.io = r at hmatch ⊢
  cases hmatch with
  | full empty adv => exact .done ⟨rfl, rfl, rfl⟩ (h.of_advance adv empty) adv
  | miss empty more adv => exact .failed ⟨rfl, rfl, rfl⟩ (h.of_advance adv empty) adv
  | @short io i lt w => exact .waits (.chunked i) ⟨rfl, rfl, rfl⟩ nofun hp.symm nofun w
  | nul lt meets => exact absurd meets (hnul.not_meetsNul rfl)

/-- The value of `Connection` is dropped up to its CR. The induction is on what is left to read. -/
theorem checkConnectionLoop_move {s : ResState} {io : Io} {l : List Cell} (h : io.Shows l)
    (hnul : NoNul (s.machineAt .connection) l) :
    ∃ b l', checkConnectionLoop l.length io.b = (l'.head?.elim 0 Prod.fst, b) ∧
      Advance resMachine .out (s.machineAt .connection) io l (s.machineAt .connection)
        { io with b := b } l' ∧ ∀ x ∈ l'.head?, x.1 = CR := by
  induction l generalizing io with
  | nil =>
    refine ⟨io.b, [], ?_, Advance.refl h, fun x hx => absurd hx (Option.not_mem_none x)⟩
    rw [List.length_nil, checkConnectionLoop, h.peek_nil]
    rfl
  | cons x l ih =>
    have hx := hnul.ne_zero rfl
    by_cases hcr : x.1 = CR
    · refine ⟨io.b, x :: l, ?_, Advance.refl h, ?_⟩
      · rw [List.length_cons, checkConnectionLoop, h.peek]
        exact if_neg fun hc => hc.2 hcr
      · intro y hy
        obtain rfl : x = y := Option.some.inj hy
        exact hcr
    · have hstep : resMachine.step (s.machineAt .connection) x = (s.machineAt .connection, []) :=
        (res_step_of_ne hx).trans (if_neg hcr)
      have hread : Advance resMachine .out (s.machineAt .connection) io (x :: l)
          (s.machineAt .connection) { io with b := (bufferRead io.b).2 } l :=
        ⟨h.read _ _, Buffer.keeps_read h.wf, [], (List.append_nil _).symm, .step l hstep⟩
      obtain ⟨b, l', hloop, hadv, hhead⟩ := ih hread.shows_ (hnul.of_advance hread)
      refine ⟨b, l', ?_, hread.trans hadv, hhead⟩
      rw [List.length_cons, checkConnectionLoop, h.peek]
      exact (if_pos ⟨hx, hcr⟩).trans hloop

/-- `checkConnection` goes back to the headers, with `close` written in the place of the value. -/
theorem checkConnection_move {s : ResState} {l : List Cell} (h : s.Reads l)
    (hnul : NoNul (s.machineAt .connection) l) (hp : s.rData.parserState = .CONNECTION_CHECK) :
    HeadMove (fun s' => s'.machineAt .headers) (fun s' => s'.machineAt .headers)
      (s.machineAt .connection) s l (checkConnection s) := by
  obtain ⟨b, l', hloop, hadv, hhead⟩ := checkConnectionLoop_move h.shows_ hnul
  unfold checkConnection
  rw [h.shows_.length, hloop]
  cases l' with
  | nil =>
    exact .waits .connection ⟨rfl, rfl, rfl⟩ nofun hp.symm nofun
      (hadv.waits (Waits.here hadv.shows_ []))
  | cons x l' =>
    have hcr : x.1 = CR := hhead x rfl
    have hx : x.1 ≠ 0 := (hnul.of_advance hadv).ne_zero rfl
    simp only [List.head?_cons, Option.elim_some, hx, if_false]
    have hins : resMachine.step (s.machineAt .connection) x =
        ((resMachine.step (s.machineAt .headers).setClose x).1,
          (lit "close").map .out ++ (resMachine.step (s.machineAt .headers).setClose x).2) := by
      rw [res_step_of_ne hx, res_step_of_ne hx]
      exact if_pos hcr
    have hadv' := hadv.trans (Advance.insert (lit "close") hadv.shows_ hins)
    exact .done ⟨rfl, rfl, rfl⟩ (h.of_advance hadv' rfl) hadv'

/-! ## Headers -/

/-- What `checkHeaders` is to the machine, or a part of it that goes on to the next byte (`none`):
`q` is where it starts and `k` knows the response. -/
inductive HeadersMove (k q : ResMachine) (io : Io) (l : List Cell) :
    Option ResponseParserState × Io → Prop
  | again {io' : Io} {l' : List Cell} (empty : io'.isBufferEmpty = io.isBufferEmpty)
      (adv : Advance resMachine .out q io l (k.goto .headers) io' l') :
      HeadersMove k q io l (none, io')
  | field {io' : Io} {l' : List Cell} (f : HeaderField) (empty : io'.isBufferEmpty = io.isBufferEmpty)
      (adv : Advance resMachine .out q io l (k.goto (.space (.value f))) io' l') :
      HeadersMove k q io l (some f.check, io')
  | ends {io' : Io} {l' : List Cell} (empty : io'.isBufferEmpty = io.isBufferEmpty)
      (adv : Advance resMachine .out q io l (k.goto (ResMachine.bodyCtl k.d)) io' l') :
      HeadersMove k q io l (some .RES_FINISHED, io')
  | waits {io' : Io} (ctl : ResCtl) (rests : ∀ why unread, ctl ≠ .halt why unread)
      (parserState : (k.goto ctl).parserState = .RES_HEADERS)
      (waits : Waits resMachine .out q io l (k.goto ctl) { io' with isBufferEmpty := true }
        (k.goto ctl).pushBack) : HeadersMove k q io l (some .RES_HEADERS, io')

/-- What was read in front belongs to the move. -/
theorem HeadersMove.prepend {k q q' : ResMachine} {io io' : Io} {l l' : List Cell}
    {r : Option ResponseParserState × Io} (h : Advance resMachine .out q io l q' io' l')
    (he : io'.isBufferEmpty = io.isBufferEmpty) (m : HeadersMove k q' io' l' r) :
    HeadersMove k q io l r := by
  cases m with
  | again empty adv => exact .again (empty.trans he) (h.trans adv)
  | field f empty adv => exact .field f (empty.trans he) (h.trans adv)
  | ends empty adv => exact .ends (empty.trans he) (h.trans adv)
  | waits ctl rests hp w => exact .waits ctl rests hp (h.waits w)

/-- Setting the flag a second time changes nothing of a wait. -/
theorem Waits.setEmpty {q q' : ResMachine} {io io' : Io} {l : List Cell} {p : List UInt8}
    (w : Waits resMachine .out q io l q' io' p) :
    Waits resMachine .out q io l q' { io' with isBufferEmpty := true } p := by
  rw [← w.isBufferEmpty]
  exact w

/-- A name is read like a format, and leads to the blanks in front of the value. -/
theorem stepByte_name (q : ResMachine) (f : HeaderField) (i : Nat) (x : Cell) :
    (q.goto (.name f i)).stepByte x =
      q.stepMatch f.format i (.name f) (q.goto (.space (.value f))) (q.goto .headers).stepByte x := rfl

/-- A name is matched by bytes, none of them zero. -/
theorem HeaderField.format_spec (f : HeaderField) : f.format ≠ [] ∧ 0 ∉ f.format := by
  cases f <;> decide

/-- The name of a field leads to its value, back to the headers, or to the end of the input. -/
theorem checkName_move (k : ResMachine) (f : HeaderField) {io : Io} {l : List Cell}
    (h : io.Shows l) (he : io.isBufferEmpty = false) (hnul : NoNul (k.goto (.name f 0)) l) :
    HeadersMove k (k.goto (.name f 0)) io l (checkName f.format f.known f.check io) := by
  have hmatch := matchFormat_res k (k.goto (.space (.value f))) (k.goto .headers) f.format f.known
    (.name f) f.format_spec.1 f.format_spec.2 (fun i _ x _ => stepByte_name k f i x) h
  unfold checkName
  generalize matchFormat f.format f.known io = r at hmatch ⊢
  cases hmatch with
  | full empty adv => exact .field f empty adv
  | miss empty more adv =>
    simp only [Bool.false_eq_true, if_false, empty.trans he]
    exact .again empty adv
  | @short io' i lt w =>
    simp only [Bool.false_eq_true, if_false, w.isBufferEmpty, if_true]
    exact .waits (.name f i) nofun rfl w.setEmpty
  | nul lt meets => exact absurd meets (hnul.not_meetsNul rfl)

/-- Behind `Content-` one of three names goes on, or none. -/
theorem checkContent_move (k : ResMachine) {io : Io} {l : List Cell} (h : io.Shows l)
    (he : io.isBufferEmpty = false) (hnul : NoNul (k.goto .content) l) :
    HeadersMove k (k.goto .content) io l (checkContent io) := by
  unfold checkContent
  cases l with
  | nil =>
    simp only [readAndWrite_nil h, toupper_zero]
    rw [if_neg (by decide), if_neg (by decide), if_neg (by decide), if_pos trivial,
      writePrefix_eq_pushBack]
    refine .waits .content nofun rfl ?_
    simp only [ResMachine.pushBack, ResMachine.goto]
    exact Waits.here h _
  | cons x l =>
    have hx := hnul.ne_zero rfl
    have hread := advance_res_read (q := k.goto .content) h hx rfl
    have hnul' := hnul.of_advance hread
    simp only [readAndWrite_cons h hx]
    split
    · next hl =>
      simp only [hl, if_true] at hread hnul'
      exact (checkName_move k .contentLength hread.shows_ he hnul').prepend hread rfl
    split
    · next he' =>
      simp only [he', if_true, show ¬(0x45 : UInt8) = 0x4c by decide, if_false] at hread hnul'
      exact (checkName_move k .contentEncoding hread.shows_ he hnul').prepend hread rfl
    split
    · next ht =>
      simp only [ht, if_true, show ¬(0x54 : UInt8) = 0x4c by decide,
        show ¬(0x54 : UInt8) = 0x45 by decide, if_false] at hread hnul'
      exact (checkName_move k .contentType hread.shows_ he hnul').prepend hread rfl
    split
    · next h0 => exact absurd (toupper_eq_zero.mp h0) hx
    · next hl he' ht _ =>
      simp only [hl, he', ht, if_false] at hread
      exact .again rfl hread

/-- A name that is tried where the input ran out is tried on what was pushed back. -/
theorem checkName_pushedBack {format pre : List UInt8} {next : ResponseParserState} {f : UInt8}
    {io : Io} {x : Cell} {l : List Cell} (h : io.Shows (x :: l)) (hx : toupper x.1 ≠ toupper f)
    (h0 : toupper x.1 ≠ 0) (he : io.isBufferEmpty = true) :
    checkName (f :: format) pre next io = (some .RES_HEADERS, io) := by
  have hloop : matchFormatLoop true (f :: format) 0 0 io = (f :: format, 0, toupper x.1, io) := by
    rw [matchFormatLoop, peekUpChar, h.peek]
    exact if_pos hx
  unfold checkName matchFormat matchFormatWith
  simp only [hloop, h0, and_false, if_false, List.isEmpty_cons, Bool.false_eq_true, he, if_true]

/-- Behind `C` one of `Connection` and the `Content-` fields goes on, or none. What is pushed back
here needs the room. -/
theorem checkCon_move (k : ResMachine) {io : Io} {l : List Cell} (h : io.Shows l)
    (he : io.isBufferEmpty = false) (hroom : PUSH_BACK_ROOM ≤ io.b.infLimit)
    (hnul : NoNul (k.goto (.con 0)) l) :
    HeadersMove k (k.goto (.con 0)) io l (checkCon io) := by
  have hon := matchFormat_res k (k.goto (.tent 0)) (k.goto .headers) (lit "ON") (lit "C") .con
    (by decide) (by decide) (fun _ _ _ _ => rfl) h
  unfold checkCon
  obtain ⟨r, hr⟩ : ∃ r, matchFormat (lit "ON") (lit "C") io = r := ⟨_, rfl⟩
  simp only [hr] at hon ⊢
  clear hr
  cases hon with
  | @full io₁ l₁ empty adv =>
    have hnul₁ := hnul.of_advance adv
    have htent := matchFormat_res k (k.goto .content) (k.goto (.name .connection 0)) (lit "TENT-")
      (lit "CON") .tent (by decide) (by decide) (fun _ _ _ _ => rfl) adv.shows_
    simp only [if_true]
    generalize matchFormat (lit "TENT-") (lit "CON") io₁ = r at htent ⊢
    cases htent with
    | full empty' adv' =>
      have he' := ((empty'.trans empty).trans he)
      exact ((checkContent_move k adv'.shows_ he' (hnul₁.of_advance adv')).prepend adv' empty').prepend
        adv empty
    | miss empty' more adv' =>
      have he' := ((empty'.trans empty).trans he)
      exact ((checkName_move k .connection adv'.shows_ he' (hnul₁.of_advance adv')).prepend adv'
        empty').prepend adv empty
    | @short io₂ i lt w =>
      have hfits : Buffer.clip io₁.b.infLimit (lit "CON" ++ (lit "TENT-").take i) =
          0x43 :: (lit "ON" ++ (lit "TENT-").take i) := by
        refine Buffer.clip_of_le ?_
        have hlen : (lit "CON" ++ (lit "TENT-").take i).length ≤ 8 := by
          rw [List.length_append, List.length_take]
          exact Nat.add_le_add_left (Nat.min_le_right i 5) 3
        have hlimit := adv.keeps.infLimit
        unfold PUSH_BACK_ROOM at hroom
        omega
      have hshows := w.shows_
      rw [hfits] at hshows
      have hname : checkName (lit "NECTION:") (lit "CON") .CONNECTION_CHECK io₂ =
          (some .RES_HEADERS, io₂) :=
        checkName_pushedBack hshows (by decide) (by decide) w.isBufferEmpty
      simp only [Bool.false_eq_true, if_false, hname]
      exact .waits (.tent i) nofun rfl (adv.waits w).setEmpty
    | nul lt meets => exact absurd meets (hnul₁.not_meetsNul rfl)
  | miss empty more adv =>
    simp only [Bool.false_eq_true, if_false, empty.trans he]
    exact .again empty adv
  | @short io₁ i lt w =>
    simp only [Bool.false_eq_true, if_false, w.isBufferEmpty, if_true]
    exact .waits (.con i) nofun rfl w.setEmpty
  | nul lt meets => exact absurd meets (hnul.not_meetsNul rfl)

/-- Behind CR LF and a CR. -/
theorem headersEnd_move (k : ResMachine) {io : Io} {l : List Cell} (h : io.Shows l)
    (hnul : NoNul (k.goto .crlfcr) l) :
    HeadersMove k (k.goto .crlfcr) io l
      (if bufferPeek io.b = LF then
        (some .RES_FINISHED, writeToBuf (headersEnd k.d) { io with b := (bufferRead io.b).2 })
      else if bufferPeek io.b = 0 then
        (some .RES_HEADERS, { io with b := writePrefix io.b [CR, LF, CR], isBufferEmpty := true })
      else (none, io)) := by
  cases l with
  | nil =>
    rw [h.peek_nil, if_neg (by decide), if_pos rfl]
    exact .waits .crlfcr nofun rfl (Waits.here h [CR, LF, CR])
  | cons x l =>
    have hx := hnul.ne_zero rfl
    rw [h.peek]
    split
    · next hlf =>
      have hstep : resMachine.step (k.goto .crlfcr) x =
          (k.goto (ResMachine.bodyCtl k.d), (headersEnd k.d).map .out) :=
        (res_step_of_ne hx).trans (if_pos hlf)
      exact .ends rfl ⟨h.read _ _, Buffer.keeps_read h.wf, _, rfl, .step l hstep⟩
    · next hlf =>
      refine .again rfl (Advance.handOver h ?_)
      rw [res_step_of_ne hx, res_step_of_ne hx]
      exact if_neg hlf

/-- Behind CR the headers end, go on, or the input does. -/
theorem checkResHeadersEnd_move (k : ResMachine) {io : Io} {l : List Cell} (h : io.Shows l)
    (he : io.isBufferEmpty = false) (hnul : NoNul (k.goto .cr) l) :
    HeadersMove k (k.goto .cr) io l (checkResHeadersEnd k.d io) := by
  have hmatch := matchFormat_res k (k.goto .crlf) (k.goto .headers) [LF] [CR] (fun _ => .cr)
    (by decide) (by decide)
    (fun i hi _ _ => by
      obtain rfl : i = 0 := Nat.lt_one_iff.mp hi
      rfl) h
  unfold checkResHeadersEnd checkLF
  obtain ⟨r, hr⟩ : ∃ r, matchFormat [LF] [CR] io = r := ⟨_, rfl⟩
  simp only [hr] at hmatch ⊢
  clear hr
  cases hmatch with
  | @full io₁ l₁ empty adv =>
    have hnul₁ := hnul.of_advance adv
    refine HeadersMove.prepend adv empty ?_
    simp only [if_true]
    cases l₁ with
    | nil =>
      rw [adv.shows_.peek_nil, if_neg (by decide), if_pos rfl]
      exact .waits .crlf nofun rfl (Waits.here adv.shows_ [CR, LF])
    | cons x l₁ =>
      have hx := hnul₁.ne_zero rfl
      rw [adv.shows_.peek]
      split
      · next hcr =>
        have hstep : resMachine.step (k.goto .crlf) x = (k.goto .crlfcr, []) :=
          (res_step_of_ne hx).trans (if_pos hcr)
        have hread : Advance resMachine .out (k.goto .crlf) io₁ (x :: l₁) (k.goto .crlfcr)
            { io₁ with b := (bufferRead io₁.b).2 } l₁ :=
          ⟨adv.shows_.read _ _, Buffer.keeps_read adv.shows_.wf, [], (List.append_nil _).symm,
            .step l₁ hstep⟩
        exact (headersEnd_move k hread.shows_ (hnul₁.of_advance hread)).prepend hread rfl
      · next hcr =>
        refine .again rfl (Advance.handOver adv.shows_ ?_)
        rw [res_step_of_ne hx, res_step_of_ne hx]
        exact if_neg hcr
  | miss empty more adv =>
    simp only [Bool.false_eq_true, if_false, empty.trans he]
    exact .again empty adv
  | @short io₁ i lt w =>
    simp only [Bool.false_eq_true, if_false, w.isBufferEmpty, if_true]
    obtain rfl : i = 0 := Nat.lt_one_iff.mp lt
    exact .waits .cr nofun rfl w.setEmpty
  | nul lt meets => exact absurd meets (hnul.not_meetsNul rfl)

/-- One pass of `checkHeaders` is a run of the machine from where its byte led. -/
theorem checkHeadersPass_move (k : ResMachine) (c : UInt8) {io : Io} {l : List Cell}
    (h : io.Shows l) (he : io.isBufferEmpty = false) (hroom : PUSH_BACK_ROOM ≤ io.b.infLimit)
    {ctl : ResCtl} (hctl : ctl = if c = 0x43 then .con 0 else if c = 0x54 then .name .transferEncoding 0
      else if c = CR then .cr else .headers) (hnul : NoNul (k.goto ctl) l) :
    HeadersMove k (k.goto ctl) io l (checkHeadersPass k.d c io) := by
  unfold checkHeadersPass
  split at hctl
  · next hc =>
    subst hctl
    rw [if_pos hc]
    exact checkCon_move k h he hroom hnul
  rw [if_neg ‹_›]
  split at hctl
  · next ht =>
    subst hctl
    rw [if_pos ht]
    exact checkName_move k .transferEncoding h he hnul
  rw [if_neg ‹_›]
  split at hctl
  · next hcr =>
    subst hctl
    rw [if_pos hcr]
    exact checkResHeadersEnd_move k h he hnul
  · next hcr =>
    subst hctl
    rw [if_neg hcr]
    exact .again rfl (Advance.refl h)

/-- The loop of `checkHeaders`. -/
theorem checkHeadersLoop_move (k : ResMachine) (fuel : Nat) {io : Io} {l : List Cell}
    (hf : l.length < fuel) (h : io.Shows l) (he : io.isBufferEmpty = false)
    (hroom : PUSH_BACK_ROOM ≤ io.b.infLimit) (hnul : NoNul (k.goto .headers) l) :
    HeadersMove k (k.goto .headers) io l
      (some (checkHeadersLoop k.d fuel io).1, (checkHeadersLoop k.d fuel io).2) := by
  induction fuel generalizing io l with
  | zero => exact absurd hf (Nat.not_lt_zero _)
  | succ fuel ih =>
    rw [checkHeadersLoop]
    cases l with
    | nil =>
      simp only [readAndWrite_nil h, toupper_zero, if_true]
      exact .waits .headers (fun _ _ => ResCtl.noConfusion) rfl (Waits.here h [])
    | cons x l =>
      have hx := hnul.ne_zero rfl
      have hup : toupper x.1 ≠ 0 := fun h0 => hx (toupper_eq_zero.mp h0)
      have hread := advance_res_read (q := k.goto .headers) h hx rfl
      simp only [readAndWrite_cons h hx, hup, if_false]
      generalize hio : ({ io with b := _, out := _ } : Io) = io₁ at hread ⊢
      have he₁ : io₁.isBufferEmpty = io.isBufferEmpty := by rw [← hio]
      have hroom₁ : PUSH_BACK_ROOM ≤ io₁.b.infLimit := hread.keeps.infLimit ▸ hroom
      have hpass := checkHeadersPass_move k (toupper x.1) hread.shows_ (he₁.trans he) hroom₁ rfl
        (hnul.of_advance hread)
      refine HeadersMove.prepend hread he₁ ?_
      have hnul₁ := hnul.of_advance hread
      generalize checkHeadersPass k.d (toupper x.1) io₁ = r at hpass ⊢
      cases hpass with
      | @again io₂ l₂ empty adv =>
        have hlen : l₂.length < fuel :=
          Nat.lt_of_le_of_lt adv.suffix.length_le (Nat.lt_of_succ_lt_succ hf)
        have hroom₂ : PUSH_BACK_ROOM ≤ io₂.b.infLimit := adv.keeps.infLimit ▸ hroom₁
        exact (ih hlen adv.shows_ (empty.trans (he₁.trans he)) hroom₂
          (hnul₁.of_advance adv)).prepend adv empty
      | field f empty adv => exact .field f empty adv
      | ends empty adv => exact .ends empty adv
      | waits ctl rests hp w => exact .waits ctl rests hp w

/-! ## Counted data -/

section Data

variable {σ β : Type*} {M : Transducer σ Cell β} {ι : UInt8 → β}

/-- In a body a zero byte is read and written as any other. -/
theorem readAndWriteWithZero_cons {io : Io} {x : Cell} {l : List Cell} (h : io.Shows (x :: l)) :
    readAndWriteWithZero io =
      (x.1, { io with b := (bufferRead io.b).2, out := io.out ++ echoed true x }) := by
  simp only [readAndWriteWithZero, Buffer.canRead_cons h.cells, if_true,
    Buffer.read_fst_cons h.cells, Buffer.isReserved_cons h.cells, echoed, Bool.true_and]
  cases x.2 <;> simp

/-- Out of input in a body nothing is pushed back. -/
theorem readAndWriteWithZero_nil {io : Io} (h : io.Shows []) :
    readAndWriteWithZero io = (0, { io with isBufferEmpty := true }) := by
  simp only [readAndWriteWithZero, Buffer.canRead_nil h.cells, Bool.false_eq_true, if_false]

/-- What a call of `writeToTransfBufWithZero` is to a machine with a state `inside n` for every
quantity `n` that is missing. -/
inductive QuantityMove (M : Transducer σ Cell β) (ι : UInt8 → β) (inside : Int → σ) (done : σ) (q : σ)
    (io : Io) (l : List Cell) : Bool × Int × Io → Prop
  | all {io' : Io} {l' : List Cell} (empty : io'.isBufferEmpty = io.isBufferEmpty)
      (adv : Advance M ι q io l done io' l') : QuantityMove M ι inside done q io l (true, 0, io')
  | short {n : Int} {io' : Io} (pos : 0 < n) (waits : Waits M ι q io l (inside n) io' []) :
      QuantityMove M ι inside done q io l (false, n, io')

/-- What was read in front belongs to the move. -/
theorem QuantityMove.prepend {inside : Int → σ} {done q q' : σ} {io io' : Io} {l l' : List Cell}
    {r : Bool × Int × Io} (h : Advance M ι q io l q' io' l')
    (he : io'.isBufferEmpty = io.isBufferEmpty) (m : QuantityMove M ι inside done q' io' l' r) :
    QuantityMove M ι inside done q io l r := by
  cases m with
  | all empty adv => exact .all (empty.trans he) (h.trans adv)
  | short pos w => exact .short pos (h.waits w)

/-- `writeToTransfBufWithZero` passes on what is missing, or what there is. The induction is on what
is left to read. -/
theorem writeToTransfBufWithZero_move (inside : Int → σ) (done : σ)
    (hstep : ∀ n > 0, ∀ x, M.step (inside n) x =
      (if n - 1 > 0 then inside (n - 1) else done, (echoed true x).map ι))
    {n : Int} (hn : 0 < n) {io : Io} {l : List Cell} (h : io.Shows l) (he : io.isBufferEmpty = false) :
    QuantityMove M ι inside done (inside n) io l (writeToTransfBufWithZero n io) := by
  suffices loop : ∀ (fuel : Nat) (n : Int) (io : Io) (l : List Cell), l.length < fuel → 0 < n →
      io.Shows l → io.isBufferEmpty = false →
      QuantityMove M ι inside done (inside n) io l
        (decide ((writeToTransfBufWithZeroLoop fuel n io).1 ≤ 0),
          writeToTransfBufWithZeroLoop fuel n io) by
    refine loop (io.b.bytes.length + 1) n io l ?_ hn h he
    rw [h.length]
    exact Nat.lt_succ_self _
  intro fuel
  induction fuel with
  | zero => exact fun n io l hf => absurd hf (Nat.not_lt_zero _)
  | succ fuel ih =>
    intro n io l hf hn h he
    rw [writeToTransfBufWithZeroLoop, if_pos hn]
    cases l with
    | nil =>
      rw [readAndWriteWithZero_nil h]
      simp only [if_true, Int.not_le.mpr hn, decide_false]
      exact .short hn (Waits.here h [])
    | cons x l =>
      have hread : Advance M ι (inside n) io (x :: l) (if n - 1 > 0 then inside (n - 1) else done)
          { io with b := (bufferRead io.b).2, out := io.out ++ echoed true x } l :=
        ⟨h.read _ _, Buffer.keeps_read h.wf, _, rfl, .step l (hstep n hn x)⟩
      rw [readAndWriteWithZero_cons h]
      dsimp only
      rw [if_neg (Bool.eq_false_iff.mp he)]
      by_cases hlast : n - 1 > 0
      · rw [if_pos hlast] at hread
        exact (ih (n - 1) _ l (Nat.lt_of_succ_lt_succ hf) hlast hread.shows_ he).prepend hread rfl
      · rw [if_neg hlast] at hread
        obtain rfl : n = 1 := by omega
        cases fuel with
        | zero => exact .all rfl hread
        | succ fuel => exact .all rfl hread

/-- A body that goes on to the end of the input is passed on as it is. -/
theorem readAll_move {q : σ} (hstep : ∀ x, M.step q x = (q, (echoed true x).map ι)) {io : Io}
    {l : List Cell} (h : io.Shows l) :
    Advance M ι q io l q (readAll l.length io) [] ∧
      (readAll l.length io).isBufferEmpty = io.isBufferEmpty := by
  induction l generalizing io with
  | nil => exact ⟨Advance.refl h, rfl⟩
  | cons x l ih =>
    have hread : Advance M ι q io (x :: l) q
        { io with b := (bufferRead io.b).2, out := io.out ++ echoed true x } l :=
      ⟨h.read _ _, Buffer.keeps_read h.wf, _, rfl, .step l (hstep x)⟩
    rw [List.length_cons, readAll, if_pos (Buffer.canRead_cons h.cells), readAndWriteWithZero_cons h]
    obtain ⟨hadv, he⟩ := ih hread.shows_
    exact ⟨hread.trans hadv, he⟩

end Data

/-- Behind a byte of the data. -/
theorem setBodyLength_pred (q : ResMachine) {n : Int} (hn : 0 < n) (inside done : ResCtl) :
    (q.setBodyLength (n - 1)).goto (if n - 1 > 0 then inside else done) =
      if n - 1 > 0 then (q.setBodyLength (n - 1)).goto inside else (q.setBodyLength 0).goto done := by
  split
  · rfl
  · rw [show n - 1 = 0 by omega]

/-! ## Chunks -/

section Chunks

variable (k : ResMachine)

/-- The CR and LF behind a chunk or its size are a format of the machine. -/
theorem matchFraming_move (inside : Nat → ResCtl) (done : ResMachine)
    (hstep : ∀ i x, (k.goto (inside i)).stepByte x = k.stepFraming i inside done x)
    {io : Io} {l : List Cell} (h : io.Shows l) :
    MatchMove resMachine (ResMachine.bodyByte k.d) [CR, LF] [] (fun i => k.goto (inside i)) done
      (k.reject .CHUNKS_ERROR) (k.goto (inside 0)) io l
      (matchFormatWith (!k.d.withTransf) [CR, LF] [] io) := by
  refine matchFormat_move [] (by decide) (by decide) (fun i _ x hx => ?_) h
  rw [res_step_of_ne hx, hstep]
  unfold ResMachine.stepFraming stepMatch
  rw [res_step_of_ne hx]
  rfl

/-- The size of a chunk is a number of the machine. -/
theorem getChunkSize_move {io : Io} {l : List Cell} (h : io.Shows l) :
    NumberMove resMachine (ResMachine.bodyByte k.d) .hex [] (fun n => k.goto (.chunkSize n))
      (fun v => (k.setBodyLength v).goto (.chunkSizeEnd 0)) (k.reject .CHUNKS_ERROR)
      (k.goto (.chunkSize none)) io l (getNumberWith .hex (!k.d.withTransf) [] io) := by
  refine getNumber_move _ [] _ _ _ (fun n x hx => ?_) h
  rw [res_step_of_ne hx]
  change k.stepChunkSize n x = _
  unfold ResMachine.stepChunkSize stepNumber
  split
  · rfl
  · cases n with
    | none => exact (res_step_of_ne (q := k.reject .CHUNKS_ERROR) hx).symm
    | some v => exact (res_step_of_ne (q := (k.setBodyLength v).goto (.chunkSizeEnd 0)) hx).symm

/-- What the loop over the chunks is to the machine. -/
inductive ChunksMove (q : ResMachine) (io : Io) (l : List Cell) : Bool × Int × Io → Prop
  | ends {n : Int} {io' : Io} {l' : List Cell} (empty : io'.isBufferEmpty = io.isBufferEmpty)
      (adv : Advance resMachine (ResMachine.bodyByte k.d) q io l
        ((k.setBodyLength n).goto (.halt .finished [])) io' l') : ChunksMove q io l (true, n, io')
  | waits {n : Int} {io' : Io} (ctl : ResCtl) (rests : ∀ why unread, ctl ≠ .halt why unread)
      (parserState : (k.goto ctl).parserState =
        if k.d.withTransf then .BODY_TRANSFORMATION else .BODY_NORMAL)
      (space : ∀ n, ctl ≠ .space n)
      (waits : Waits resMachine (ResMachine.bodyByte k.d) q io l ((k.setBodyLength n).goto ctl) io'
        ((k.setBodyLength n).goto ctl).pushBack) : ChunksMove q io l (false, n, io')
  | failed {n : Int} {io' : Io} {l' : List Cell} {e : List UInt8} (empty : io'.isBufferEmpty = false)
      (out : io'.out = io.out ++ e)
      (yields : resMachine.Yields q l (e.map (ResMachine.bodyByte k.d))
        ((k.setBodyLength n).reject .CHUNKS_ERROR) l') : ChunksMove q io l (false, n, io')

variable {k}

/-- What was read in front belongs to the move. -/
theorem ChunksMove.prepend {q q' : ResMachine} {io io' : Io} {l l' : List Cell}
    {r : Bool × Int × Io} (h : Advance resMachine (ResMachine.bodyByte k.d) q io l q' io' l')
    (he : io'.isBufferEmpty = io.isBufferEmpty) (m : ChunksMove k q' io' l' r) :
    ChunksMove k q io l r := by
  cases m with
  | ends empty adv => exact .ends (empty.trans he) (h.trans adv)
  | waits ctl rests hp hs w => exact .waits ctl rests hp hs (h.waits w)
  | @failed n io'' l'' e empty out yields =>
    obtain ⟨e₀, he₀, hy⟩ := h.emits
    have hy' := hy.trans yields
    rw [← List.map_append] at hy'
    exact .failed empty (by rw [out, he₀, List.append_assoc]) hy'

/-- Chunks that are refused are refused with what was left in the loop. -/
theorem ChunksMove.of_advance {io io' io'' : Io} {l l' : List Cell} {q : ResMachine} {n : Int}
    (adv : Advance resMachine (ResMachine.bodyByte k.d) q io l
      ((k.setBodyLength n).reject .CHUNKS_ERROR) io' l')
    (hout : io''.out = io'.out) (he : io''.isBufferEmpty = false) :
    ChunksMove k q io l (false, n, io'') := by
  obtain ⟨e, hoe, hy⟩ := adv.emits
  exact .failed he (hout.trans hoe) hy

/-- What is missing so far is nothing of the result. -/
theorem ChunksMove.base {n : Int} {q : ResMachine} {io : Io} {l : List Cell} {r : Bool × Int × Io}
    (m : ChunksMove (k.setBodyLength n) q io l r) : ChunksMove k q io l r := by
  cases m with
  | ends empty adv => exact .ends empty adv
  | waits ctl rests hp hs w => exact .waits ctl rests hp hs w
  | failed empty out yields => exact .failed empty out yields

/-- The end of a chunk, whose data is there, and what follows. -/
theorem chunkEnd_move (last : Bool) {io : Io} {l : List Cell} (h : io.Shows l)
    (he : io.isBufferEmpty = false) (hnul : NoNul (k.goto (.chunkEnd last 0)) l)
    (more : Io → Bool × Int × Io)
    (hmore : ∀ io' l', io'.Shows l' → io'.isBufferEmpty = false → l' <:+ l →
      NoNul (k.goto (if last then .halt .finished [] else .chunkSize none)) l' →
      ChunksMove k (k.goto (if last then .halt .finished [] else .chunkSize none)) io' l' (more io')) :
    ChunksMove k (k.goto (.chunkEnd last 0)) io l
      (let (ok, io) := matchFormatWith (!k.d.withTransf) [CR, LF] [] io
      if ok = false then
        (false, k.d.bodyLength,
          { io with b := writePrefix io.b (if last then lit "0\r\n" else lit "1\r\n1") })
      else more io) := by
  have hmatch := matchFraming_move k (.chunkEnd last)
    (k.goto (if last then .halt .finished [] else .chunkSize none)) (fun _ _ => rfl) h
  generalize matchFormatWith (!k.d.withTransf) [CR, LF] [] io = r at hmatch ⊢
  cases hmatch with
  | full empty adv =>
    exact (hmore _ _ adv.shows_ (empty.trans he) adv.suffix (hnul.of_advance adv)).prepend adv empty
  | @miss io' l' empty more adv => exact ChunksMove.of_advance adv rfl (empty.trans he)
  | @short io' i lt w =>
    refine .waits (.chunkEnd last i) nofun rfl nofun ?_
    rw [writePrefix_eq_pushBack]
    exact w.prepend _
  | nul lt meets => exact absurd meets (hnul.not_meetsNul rfl)

/-- The data of a chunk and what follows it. -/
theorem chunkData_move {n : Int} (hn : k.d.bodyLength = n) {io : Io} {l : List Cell} (h : io.Shows l)
    (he : io.isBufferEmpty = false) (hnul : NoNul (k.goto (ResMachine.chunkCtl k.d)) l)
    (more : Int → Io → Bool × Int × Io)
    (hmore : 0 < n → ∀ io' l', io'.Shows l' → io'.isBufferEmpty = false → l' <:+ l →
      NoNul ((k.setBodyLength 0).goto (.chunkSize none)) l' →
      ChunksMove (k.setBodyLength 0) ((k.setBodyLength 0).goto (.chunkSize none)) io' l'
        (more 0 io')) :
    ChunksMove k (k.goto (ResMachine.chunkCtl k.d)) io l
      (let (all, missing, io) := writeToTransfBufWithZero n io
      if all = false then
        (false, missing,
          { io with b := writeHexToBufReverse missing (writePrefix io.b [CR, LF]) })
      else
        let (ok, io) := matchFormatWith (!k.d.withTransf) [CR, LF] [] io
        if ok = false then
          (false, missing,
            { io with b := writePrefix io.b (if n > 0 then lit "1\r\n1" else lit "0\r\n") })
        else if n > 0 then more missing io
        else (true, missing, io)) := by
  unfold ResMachine.chunkCtl at hnul ⊢
  rw [hn] at hnul ⊢
  by_cases hpos : n > 0
  · rw [if_pos hpos] at hnul ⊢
    have hquantity := writeToTransfBufWithZero_move (M := resMachine)
      (ι := ResMachine.bodyByte k.d) (fun n => (k.setBodyLength n).goto .chunkData)
      ((k.setBodyLength 0).goto (.chunkEnd false 0))
      (fun n hn x => (ResMachine.step_of_takesZero rfl x).trans
        (Prod.ext (setBodyLength_pred k hn .chunkData (.chunkEnd false 0)) rfl)) hpos h he
    rw [show (k.setBodyLength n).goto .chunkData = k.goto .chunkData by rw [← hn]; rfl] at hquantity
    generalize writeToTransfBufWithZero n io = r at hquantity ⊢
    cases hquantity with
    | @all io' l' empty adv =>
      simp only [Bool.true_eq_false, if_false, hpos, if_true]
      refine ChunksMove.prepend adv empty ?_
      have hend := chunkEnd_move (k := k.setBodyLength 0) false adv.shows_ (empty.trans he)
        (hnul.of_advance adv) (more 0) fun io'' l'' hshows he' hsuffix =>
          hmore hpos io'' l'' hshows he' (hsuffix.trans adv.suffix)
      exact hend.base
    | @short m io' pos w =>
      simp only [if_true]
      refine .waits .chunkData nofun rfl nofun ?_
      have hcrlf := w.prepend [CR, LF]
      rw [writePrefix_eq_pushBack]
      exact hcrlf.prepend (digitsOf .hex m)
  · rw [if_neg hpos] at hnul ⊢
    rw [writeToTransfBufWithZero_nonpos (Int.not_lt.mp hpos)]
    simp only [Bool.true_eq_false, if_false, hpos]
    subst hn
    exact chunkEnd_move true h he hnul (fun io => (true, k.d.bodyLength, io))
      fun io' l' hshows _ _ _ => .ends rfl (Advance.refl hshows)

/-- The loop over the chunks. -/
theorem chunksLoop_move (fuel : Nat) {n : Int} (hn : k.d.bodyLength = n) {io : Io} {l : List Cell}
    (hf : l.length < fuel) (h : io.Shows l) (he : io.isBufferEmpty = false)
    (hnul : NoNul (k.goto (.chunkSize none)) l) :
    ChunksMove k (k.goto (.chunkSize none)) io l (chunksLoop (!k.d.withTransf) fuel n io) := by
  induction fuel generalizing k n io l with
  | zero => exact absurd hf (Nat.not_lt_zero _)
  | succ fuel ih =>
    subst hn
    rw [chunksLoop_succ]
    have hnumber := getChunkSize_move k h
    obtain ⟨r, hr⟩ : ∃ r, getNumberWith .hex (!k.d.withTransf) [] io = r := ⟨_, rfl⟩
    rw [hr] at hnumber ⊢
    cases hnumber with
    | refused empty more adv => exact ChunksMove.of_advance adv rfl (empty.trans he)
    | @short io' n w =>
      exact .waits (.chunkSize n) (fun _ _ => ResCtl.noConfusion) rfl (fun _ => ResCtl.noConfusion) w
    | nul meets => exact absurd meets (hnul.not_meetsNul rfl)
    | @number v io' l' empty more adv =>
      have hlen : l'.length < l.length := by
        have hshrinks := getNumber_shrinks (by decide) hr
        rwa [h.length, adv.shows_.length] at hshrinks
      have hnul' := hnul.of_advance adv
      refine ChunksMove.prepend adv empty ?_
      have hmatch := matchFraming_move (k.setBodyLength v) .chunkSizeEnd
        ((k.setBodyLength v).goto (ResMachine.chunkCtl (k.setBodyLength v).d)) (fun _ _ => rfl)
        adv.shows_
      dsimp only
      obtain ⟨r, hr'⟩ : ∃ r, matchFormatWith (!k.d.withTransf) [CR, LF] [] io' = r := ⟨_, rfl⟩
      rw [show (k.setBodyLength v).d.withTransf = k.d.withTransf from rfl, hr'] at hmatch
      rw [hr']
      cases hmatch with
      | @miss io'' l'' empty' more' adv' =>
        have he' := (empty'.trans empty).trans he
        simp only [if_true, he', Bool.false_eq_true, if_false]
        exact ChunksMove.of_advance adv' rfl he'
      | @short io'' i lt w =>
        rw [if_pos rfl, if_pos w.isBufferEmpty]
        exact .waits (.chunkSizeEnd i) (fun _ _ => ResCtl.noConfusion) rfl
          (fun _ => ResCtl.noConfusion) (w.prepend (digitsOf .hex v))
      | nul lt meets => exact absurd meets (hnul'.not_meetsNul rfl)
      | @full io'' l'' empty' adv' =>
        simp only [Bool.true_eq_false, if_false]
        refine ChunksMove.prepend (k := k) adv' empty' ?_
        have hlen' := adv'.suffix.length_le
        have hdata := chunkData_move (k := k.setBodyLength v) (n := v) rfl adv'.shows_
          ((empty'.trans empty).trans he) (hnul'.of_advance adv')
          (fun n io => chunksLoop (!k.d.withTransf) fuel n io)
          (fun _ io₃ l₃ hshows he₃ hsuffix hnul₃ => by
            have hlen₃ := hsuffix.length_le
            exact ih (k := (k.setBodyLength v).setBodyLength 0) rfl (by omega) hshows he₃ hnul₃)
        exact hdata.base

/-- What a call of the functions that pass on a body is to the machine. -/
inductive BodyMove (k q : ResMachine) (io : Io) (l : List Cell) : Bool × Int × Io → Prop
  | ends {n : Int} {io' : Io} {l' : List Cell} (empty : io'.isBufferEmpty = false)
      (adv : Advance resMachine (ResMachine.bodyByte k.d) q io l
        ((k.setBodyLength n).goto (.halt .finished [])) io' l') : BodyMove k q io l (true, n, io')
  | waits {n : Int} {io' : Io} {e : List UInt8} (ctl : ResCtl)
      (rests : ∀ why unread, ctl ≠ .halt why unread)
      (parserState : (k.goto ctl).parserState =
        if k.d.withTransf then .BODY_TRANSFORMATION else .BODY_NORMAL)
      (space : ∀ n, ctl ≠ .space n)
      (report : io'.isBufferEmpty = true ∨ k.d.isChunked = false)
      (shows_ : io'.Shows (pushedBack (Buffer.clip io.b.infLimit ((k.setBodyLength n).goto ctl).pushBack)))
      (keeps : io.b.Keeps io'.b) (out : io'.out = io.out ++ e)
      (yields : resMachine.Yields q l (e.map (ResMachine.bodyByte k.d))
        ((k.setBodyLength n).goto ctl) []) : BodyMove k q io l (false, n, io')
  | failed {n : Int} {io' : Io} {l' : List Cell} {e : List UInt8} (isChunked : k.d.isChunked = true)
      (empty : io'.isBufferEmpty = false) (out : io'.out = io.out ++ e)
      (yields : resMachine.Yields q l (e.map (ResMachine.bodyByte k.d))
        ((k.setBodyLength n).reject .CHUNKS_ERROR) l') : BodyMove k q io l (false, n, io')

/-- A body is passed on as the machine does it: in chunks, by its length, or up to the end of the
connection. -/
theorem extractBodyWith_move {io : Io} {l : List Cell} (h : io.Shows l)
    (he : io.isBufferEmpty = false) (hnul : NoNul (k.goto (ResMachine.bodyCtl k.d)) l)
    (hbody : k.d.isChunked = false → k.d.bodyLength < 0 →
      ¬(k.d.withTransf = false ∧ k.d.status ≠ 200)) :
    BodyMove k (k.goto (ResMachine.bodyCtl k.d)) io l
      (extractBodyWith (!k.d.withTransf) k.d io) := by
  unfold extractBodyWith
  unfold ResMachine.bodyCtl at hnul ⊢
  split at hnul
  · next hc =>
    rw [if_pos hc, if_pos hc]
    unfold extractChunked
    have hchunks := chunksLoop_move (k := k) (io.b.bytes.length + 1) rfl
      (h.length ▸ Nat.lt_succ_self _) h he hnul
    generalize chunksLoop (!k.d.withTransf) (io.b.bytes.length + 1) k.d.bodyLength io = r
      at hchunks ⊢
    cases hchunks with
    | ends empty adv => exact .ends (empty.trans he) adv
    | waits ctl rests hp hs w =>
      obtain ⟨e, hout, hy⟩ := w.emits
      exact .waits ctl rests hp hs (.inl w.isBufferEmpty) w.shows_ w.keeps hout hy
    | failed empty out yields => exact .failed hc empty out yields
  · next hc =>
    rw [if_neg hc, if_neg hc]
    have hc' := Bool.eq_false_iff.mpr hc
    split at hnul
    · next hpos =>
      rw [if_pos hpos, if_pos (Int.le_of_lt hpos)]
      have hquantity := writeToTransfBufWithZero_move (M := resMachine)
        (ι := ResMachine.bodyByte k.d) (fun n => (k.setBodyLength n).goto .data)
        ((k.setBodyLength 0).goto (.halt .finished []))
        (fun n hn x => (ResMachine.step_of_takesZero rfl x).trans
          (Prod.ext (setBodyLength_pred k hn .data (.halt .finished [])) rfl)) hpos h he
      rw [show (k.setBodyLength k.d.bodyLength).goto .data = k.goto .data from rfl] at hquantity
      generalize writeToTransfBufWithZero k.d.bodyLength io = r at hquantity ⊢
      cases hquantity with
      | all empty adv => exact .ends (empty.trans he) adv
      | short pos w =>
        obtain ⟨e, hout, hy⟩ := w.emits
        exact .waits .data (fun _ _ => ResCtl.noConfusion) rfl (fun _ => ResCtl.noConfusion)
          (.inl w.isBufferEmpty) w.shows_ w.keeps hout hy
    · next hpos =>
      rw [if_neg hpos]
      -- Without a length and without chunks the body goes on to the end of the connection.
      by_cases hzero : k.d.bodyLength = 0
      · rw [if_pos (.inl hzero), hzero, if_pos (Int.le_refl 0),
          writeToTransfBufWithZero_nonpos (Int.le_refl 0)]
        have hadv : Advance resMachine (ResMachine.bodyByte k.d)
            (k.goto (.halt .finished [])) io l ((k.setBodyLength 0).goto (.halt .finished [])) io l := by
          rw [← hzero]
          exact Advance.refl h
        exact .ends he hadv
      · have hneg : k.d.bodyLength < 0 := by omega
        have hopen : ¬(k.d.bodyLength = 0 ∨ k.d.withTransf = false ∧ k.d.status ≠ 200) := by
          rintro (h0 | hno)
          · exact hzero h0
          · exact hbody hc' hneg hno
        rw [if_neg hopen, if_neg (Int.not_le.mpr hneg), h.length]
        obtain ⟨hadv, hempty⟩ := readAll_move (M := resMachine) (ι := ResMachine.bodyByte k.d)
          (q := k.goto .untilClose) (fun x => ResMachine.step_of_takesZero rfl x) h
        obtain ⟨e, hout, hy⟩ := hadv.emits
        have hrest : pushedBack (Buffer.clip io.b.infLimit
            ((k.setBodyLength k.d.bodyLength).goto .untilClose).pushBack) = [] := by
          simp [ResMachine.pushBack, ResMachine.goto, Buffer.clip]
        exact .waits .untilClose (fun _ _ => ResCtl.noConfusion) rfl (fun _ => ResCtl.noConfusion)
          (.inr hc') (hrest ▸ hadv.shows_) hadv.keeps hout hy

end Chunks

/-! ## Iterations -/

/-- From `s` with `l` to read to `s'` with `l'` the buffers got what the machine emits from `q` to
`q'`. -/
def Emits (q : ResMachine) (s : ResState) (l : List Cell) (q' : ResMachine) (s' : ResState)
    (l' : List Cell) : Prop :=
  ∃ e, s'.io.out = s.io.out ++ outs e ∧ s'.transf = s.transf ++ transfs e ∧
    resMachine.Yields q l e q' l'

theorem Emits.refl (q : ResMachine) (s : ResState) (l : List Cell) : Emits q s l q s l :=
  ⟨[], (List.append_nil _).symm, (List.append_nil _).symm, .refl q l⟩

/-- What was emitted on two parts of the way was emitted on the whole. -/
theorem Emits.trans {q q' q'' : ResMachine} {s s' s'' : ResState} {l l' l'' : List Cell}
    (h : Emits q s l q' s' l') (h' : Emits q' s' l' q'' s'' l'') : Emits q s l q'' s'' l'' := by
  obtain ⟨e, hout, htransf, hy⟩ := h
  obtain ⟨e', hout', htransf', hy'⟩ := h'
  refine ⟨e ++ e', ?_, ?_, hy.trans hy'⟩
  · rw [hout', hout, outs_append, List.append_assoc]
  · rw [htransf', htransf, transfs_append, List.append_assoc]

/-- What is left to read behind an iteration has no such zero byte either. -/
theorem NoNul.of_emits {q q' : ResMachine} {s s' : ResState} {l l' : List Cell} (h : NoNul q l)
    (hemits : Emits q s l q' s' l') : NoNul q' l' := by
  obtain ⟨e, -, -, hy⟩ := hemits
  exact h.of_yields hy

/-- In the head everything goes to the client. -/
theorem Emits.of_head {q q' : ResMachine} {s s' : ResState} {l l' : List Cell}
    (h : ∃ e, s'.io.out = s.io.out ++ e ∧ resMachine.Yields q l (e.map .out) q' l')
    (ht : s'.transf = s.transf) : Emits q s l q' s' l' := by
  obtain ⟨e, hout, hy⟩ := h
  exact ⟨e.map .out, by rw [hout, outs_map_out], by rw [ht, transfs_map_out, List.append_nil], hy⟩

/-- The response data of a parser resting in the machine's state `q`. -/
structure ResRests (q : ResMachine) (rd : ResponseData) : Prop where
  rests : ∀ why unread, q.ctl ≠ .halt why unread
  fields : rd.toResponseFields = q.d
  parserState : rd.parserState = q.parserState
  next : ∀ n, q.ctl = .space n → rd.next = n.parserState

/-- What holds of the response data between the iterations, and so between calls. -/
structure ResponseData.Consistent (rd : ResponseData) : Prop where
  version : rd.parserState = .RES_VERSION → rd.version = .undefined
  next : rd.parserState = .RES_SPACE_TRANSITION → (resAfterSpaces rd.next).parserState = rd.next
  body : rd.parserState = .BODY_NORMAL ∨ rd.parserState = .BODY_TRANSFORMATION →
    rd.parserState = if rd.withTransf then .BODY_TRANSFORMATION else .BODY_NORMAL

/-- In most states there is nothing to hold. -/
theorem ResponseData.Consistent.of_ne {rd : ResponseData} (hv : rd.parserState ≠ .RES_VERSION)
    (hs : rd.parserState ≠ .RES_SPACE_TRANSITION) (hn : rd.parserState ≠ .BODY_NORMAL)
    (ht : rd.parserState ≠ .BODY_TRANSFORMATION) : rd.Consistent :=
  ⟨fun h => absurd h hv, fun h => absurd h hs, fun h => h.elim (fun h => absurd h hn)
    fun h => absurd h ht⟩

/-- In front of blanks the data hold what the state behind them is. -/
theorem ResponseData.Consistent.of_spaces {rd : ResponseData} (hp : rd.parserState = .RES_SPACE_TRANSITION)
    (hn : (resAfterSpaces rd.next).parserState = rd.next) : rd.Consistent := by
  refine ⟨?_, fun _ => hn, ?_⟩
  · rw [hp]
    exact fun h => nomatch h
  · rw [hp]
    exact fun h => nomatch h

/-- The state kept in `next` is the one it was made from. -/
theorem resAfterSpaces_parserState (n : ResAfterSpaces) : resAfterSpaces n.parserState = n := by
  cases n with
  | status => rfl
  | value f => cases f <;> rfl

/-- What one iteration of the loop of `checkResponseInner` is to the machine. -/
inductive ResIterMove (q : ResMachine) (s : ResState) (l : List Cell) : ResFlags × ResState → Prop
  | goes {t : ResState} {m : List Cell} (consistent : t.rData.Consistent) (reads : t.Reads m)
      (keeps : s.io.b.Keeps t.io.b) (emits : Emits q s l t.rData.machine t m) :
      ResIterMove q s l ({}, t)
  | waits {t : ResState} {p : ResMachine} (rests : ResRests p t.rData)
      (report : reportResError (false, t) = (false, t))
      (shows_ : t.io.Shows (pushedBack (Buffer.clip s.io.b.infLimit p.pushBack)))
      (keeps : s.io.b.Keeps t.io.b) (emits : Emits q s l p t []) :
      ResIterMove q s l ({ success := false }, t)
  | rejects {t : ResState} {m : List Cell} (empty : t.io.isBufferEmpty = false)
      (error : resErrorOf t ≠ .RES_OK)
      (emits : Emits q s l
        ⟨.halt .rejected [], { t.rData.toResponseFields with state := resErrorOf t }⟩ t m) :
      ResIterMove q s l ({ success := false }, t)
  | finished {f : ResFlags} {t : ResState} {m : List Cell} (stops : (f.success && f.active) = false)
      (parserState : t.rData.parserState = .RES_FINISHED)
      (report : reportResError (f.success, t) = (f.success, t)) (shows_ : t.io.Shows m)
      (keeps : s.io.b.Keeps t.io.b)
      (emits : Emits q s l ⟨.halt .finished [], t.rData.toResponseFields⟩ t m) :
      ResIterMove q s l (f, t)

/-- Out of input no error is reported. -/
theorem reportResError_of_empty {r : Bool × ResState} (h : r.2.io.isBufferEmpty = true) :
    reportResError r = r :=
  if_neg fun hc => Bool.false_ne_true (hc.2.symm.trans h)

/-- A function that succeeded has no error to report. -/
theorem reportResError_of_success {r : Bool × ResState} (h : r.1 = true) : reportResError r = r :=
  if_neg fun hc => Bool.false_ne_true (hc.1.symm.trans h)

/-- A function of the head that ran out of input. -/
theorem ResIterMove.of_waits {q : ResMachine} {s s' : ResState} {l : List Cell} (ctl : ResCtl)
    (same : s.SameCtl s') (rests : ∀ why unread, ctl ≠ .halt why unread)
    (parserState : (s'.machineAt ctl).parserState = s.rData.parserState)
    (next : ∀ n, ctl = .space n → s.rData.next = n.parserState)
    (w : Waits resMachine .out q s.io l (s'.machineAt ctl) s'.io (s'.machineAt ctl).pushBack) :
    ResIterMove q s l ({ success := false }, s') :=
  .waits ⟨rests, rfl, same.parserState.trans parserState.symm,
      fun n hn => same.next.trans (next n hn)⟩
    (reportResError_of_empty w.isBufferEmpty) w.shows_ w.keeps (Emits.of_head w.emits same.transf)

/-- What a case of the head goes on with: all but the parser's own state is as it was. -/
structure GoesOn (s' : ResState) (q : ResMachine) (s'' : ResState) : Prop where
  io : s''.io = s'.io
  transf : s''.transf = s'.transf
  machine : s''.rData.machine = q
  consistent : s''.rData.Consistent

/-- A case that goes on when what it checks is there, as a move. -/
theorem checkResCase_move {q : ResMachine} {s : ResState} {l : List Cell} {r : Bool × ResState}
    {next : ResState → ResState} {done failed : ResState → ResMachine}
    (hnext : ∀ s' : ResState, s.SameCtl s' → GoesOn s' (done s') (next s'))
    (hfail : ∀ s' : ResState, s.SameCtl s' → r = (false, s') → s'.io.isBufferEmpty = false →
      failed s' = ⟨.halt .rejected [], { s'.rData.toResponseFields with state := resErrorOf s' }⟩ ∧
        resErrorOf s' ≠ .RES_OK)
    (m : HeadMove done failed q s l r) : ResIterMove q s l (checkResCase r next) := by
  cases m with
  | @done s' l' same reads adv =>
    obtain ⟨hio, htransf, hmachine, hconsistent⟩ := hnext s' same
    have reads' : (next s').Reads l' := by
      refine ⟨?_, ?_, ?_⟩ <;> rw [hio]
      · exact reads.shows_
      · exact reads.notEmpty
      · exact reads.room
    refine .goes hconsistent reads' ?_ ?_
    · rw [hio]
      exact adv.keeps
    · rw [hmachine]
      refine Emits.of_head ?_ (htransf.trans same.transf)
      rw [hio]
      exact adv.emits
  | @failed s' l' same reads adv =>
    obtain ⟨hfailed, herror⟩ := hfail s' same rfl reads.notEmpty
    exact .rejects reads.notEmpty herror (Emits.of_head (hfailed ▸ adv.emits) same.transf)
  | waits ctl same rests hp next w => exact .of_waits ctl same rests hp next w

theorem consistent_gotoHeaders (s : ResState) : (s.goto .RES_HEADERS).rData.Consistent :=
  .of_ne ResponseParserState.noConfusion ResponseParserState.noConfusion
    ResponseParserState.noConfusion ResponseParserState.noConfusion

/-- A value, whatever it is. -/
theorem valueCase_move {q : ResMachine} {s : ResState} {l : List Cell} {r : Bool × ResState}
    (m : HeadMove (fun s' => s'.machineAt .headers) (fun s' => s'.machineAt .headers) q s l r) :
    ResIterMove q s l (valueCase r) := by
  cases m with
  | @done s' l' same reads adv =>
    exact .goes (t := s'.goto .RES_HEADERS) (consistent_gotoHeaders s')
      ⟨reads.shows_, reads.notEmpty, reads.room⟩ adv.keeps (Emits.of_head adv.emits same.transf)
  | @failed s' l' same reads adv =>
    unfold valueCase
    rw [if_neg (by rw [reads.notEmpty]; exact fun h => Bool.false_ne_true h.2)]
    exact .goes (t := s'.goto .RES_HEADERS) (consistent_gotoHeaders s')
      ⟨reads.shows_, reads.notEmpty, reads.room⟩ adv.keeps (Emits.of_head adv.emits same.transf)
  | @waits s' ctl same rests hp next w =>
    unfold valueCase
    rw [if_pos ⟨rfl, w.isBufferEmpty⟩]
    exact .of_waits ctl same rests hp next w

/-- The machine in the state a call starts in, by the parser's state. -/
theorem ResponseData.machine_eq {rd : ResponseData} {c : ResCtl} (h : rd.startCtl = c) :
    rd.machine = ⟨c, rd.toResponseFields⟩ := by rw [ResponseData.machine, h]

/-- The parser that checks a field's value is where the machine is behind the blanks. -/
theorem startCtl_check {rd : ResponseData} {n : ResAfterSpaces} (h : rd.parserState = n.parserState) :
    rd.startCtl = n.ctl := by
  rw [ResponseData.startCtl, h]
  cases n with
  | status => rfl
  | value f => cases f <;> rfl

/-- In front of a value the data hold nothing more. -/
theorem consistent_check {rd : ResponseData} {n : ResAfterSpaces} (h : rd.parserState = n.parserState) :
    rd.Consistent := by
  refine .of_ne ?_ ?_ ?_ ?_ <;> rw [h]
  all_goals
    cases n with
    | status => decide
    | value f => cases f <;> decide

/-- The parser in front of a body is where the machine is. -/
theorem startCtl_body {rd : ResponseData}
    (h : rd.parserState = if rd.withTransf then .BODY_TRANSFORMATION else .BODY_NORMAL) :
    rd.startCtl = ResMachine.bodyCtl rd.toResponseFields := by
  rw [ResponseData.startCtl, h]
  cases rd.withTransf <;> rfl

/-- In front of a body the data hold which of the two states it is. -/
theorem consistent_body {rd : ResponseData}
    (h : rd.parserState = if rd.withTransf then .BODY_TRANSFORMATION else .BODY_NORMAL) :
    rd.Consistent := by
  refine ⟨fun hv => ?_, fun hv => ?_, fun _ => h⟩
  all_goals
    rw [h] at hv
    split at hv <;> cases hv

/-- A case whose function succeeded goes on. -/
theorem checkResCase_true (s : ResState) (next : ResState → ResState) :
    checkResCase (true, s) next = ({}, next s) := if_neg (Bool.not_eq_false _ ▸ rfl)

/-- The parser in front of blanks is where the machine is. -/
theorem startCtl_spaces {rd : ResponseData} {n : ResAfterSpaces}
    (hp : rd.parserState = .RES_SPACE_TRANSITION) (hn : rd.next = n.parserState) :
    rd.startCtl = .space n := by
  rw [ResponseData.startCtl, hp]
  exact congrArg ResCtl.space (hn ▸ resAfterSpaces_parserState n)

/-- Behind a field the parser goes to the blanks in front of its value. -/
theorem afterHeaders_field {s : ResState} (h : s.rData.next ≠ .RES_FINISHED) :
    afterHeaders s = s.goto .RES_SPACE_TRANSITION := if_neg h

/-- Behind the last header the parser goes to the body. -/
theorem afterHeaders_end {s : ResState} (h : s.rData.next = .RES_FINISHED) :
    afterHeaders s = s.goto (if s.rData.withTransf then .BODY_TRANSFORMATION else .BODY_NORMAL) :=
  if_pos h

theorem HeaderField.check_ne (f : HeaderField) : f.check ≠ .RES_HEADERS ∧ f.check ≠ .RES_FINISHED := by
  cases f <;> decide

/-- A pass over the headers, as a move: it ends behind the name of a field that is looked at, at the
body, or at the end of the input. -/
theorem headersCase_move {s : ResState} {l : List Cell} (h : s.Reads l)
    (hnul : NoNul (s.machineAt .headers) l) (hp : s.rData.parserState = .RES_HEADERS) :
    ResIterMove (s.machineAt .headers) s l (checkResCase (checkHeaders s) afterHeaders) := by
  have hmove := checkHeadersLoop_move (s.machineAt .headers) (s.io.b.bytes.length + 1)
    (h.shows_.length ▸ Nat.lt_succ_self _) h.shows_ h.notEmpty h.room hnul
  unfold checkHeaders
  rw [show (s.machineAt .headers).d = s.rData.toResponseFields from rfl] at hmove
  generalize checkHeadersLoop s.rData.toResponseFields (s.io.b.bytes.length + 1) s.io = r at hmove ⊢
  obtain ⟨next, io⟩ := r
  dsimp only at hmove ⊢
  generalize ho : (some next, io) = o at hmove
  cases hmove with
  | again => cases ho
  | @field io' l' f empty adv =>
    obtain ⟨rfl, rfl⟩ : next = f.check ∧ io = io' := by cases ho; exact ⟨rfl, rfl⟩
    rw [if_neg f.check_ne.1]
    rw [checkResCase_true, afterHeaders_field f.check_ne.2]
    have hreads : (({ s with io := io }.setNext f.check).goto .RES_SPACE_TRANSITION).Reads l' :=
      h.of_advance adv empty
    refine .goes ?_ hreads adv.keeps (Emits.of_head ?_ rfl)
    · exact .of_spaces rfl (congrArg ResAfterSpaces.parserState (resAfterSpaces_parserState (.value f)))
    · rw [ResponseData.machine_eq (startCtl_spaces (n := .value f) rfl rfl)]
      exact adv.emits
  | @ends io' l' empty adv =>
    obtain ⟨rfl, rfl⟩ : next = .RES_FINISHED ∧ io = io' := by cases ho; exact ⟨rfl, rfl⟩
    rw [if_neg (by decide), checkResCase_true, afterHeaders_end rfl]
    have hreads : (({ s with io := io }.setNext .RES_FINISHED).goto
        (if s.rData.withTransf then .BODY_TRANSFORMATION else .BODY_NORMAL)).Reads l' :=
      h.of_advance adv empty
    refine .goes (consistent_body rfl) hreads adv.keeps (Emits.of_head ?_ rfl)
    rw [ResponseData.machine_eq (startCtl_body rfl)]
    exact adv.emits
  | @waits io' ctl rests hps w =>
    obtain ⟨rfl, rfl⟩ : next = .RES_HEADERS ∧ io = io' := by cases ho; exact ⟨rfl, rfl⟩
    rw [if_pos rfl]
    refine .waits (p := (s.machineAt .headers).goto ctl) ⟨rests, rfl, hp.trans hps.symm, ?_⟩
      (reportResError_of_empty rfl) w.shows_ w.keeps (Emits.of_head w.emits rfl)
    intro n hn
    rw [show ctl = .space n from hn] at hps
    cases hps

/-- A body, as a move: what was passed on of it went to one of the two buffers. -/
theorem bodyCase_move {s s' : ResState} {l : List Cell} (h : s.Reads l)
    (hp : s.rData.parserState = if s.rData.withTransf then .BODY_TRANSFORMATION else .BODY_NORMAL)
    {ok : Bool} {n : Int} {io₀ io : Io} (hio₀ : io₀.b = s.io.b)
    (m : BodyMove s.rData.machine s.rData.machine io₀ l (ok, n, io))
    (hrData : s'.rData = { s.rData with bodyLength := n }) (hb : s'.io.b = io.b)
    (he : s'.io.isBufferEmpty = io.isBufferEmpty)
    (hpassed : ∀ e, io.out = io₀.out ++ e →
      s'.io.out = s.io.out ++ outs (e.map (ResMachine.bodyByte s.rData.toResponseFields)) ∧
        s'.transf = s.transf ++ transfs (e.map (ResMachine.bodyByte s.rData.toResponseFields))) :
    ResIterMove s.rData.machine s l (checkResCase (ok, s') (·.goto .RES_FINISHED)) := by
  have hshows : ∀ {l' : List Cell}, io.Shows l' → s'.io.Shows l' :=
    fun hs => ⟨hb.symm ▸ hs.wf, hb.symm ▸ hs.cells⟩
  have hkeeps : io₀.b.Keeps io.b → s.io.b.Keeps s'.io.b := by
    rw [hio₀, hb]
    exact id
  have hps : s'.rData.parserState = if s'.rData.withTransf then .BODY_TRANSFORMATION
      else .BODY_NORMAL := by
    rw [hrData]
    exact hp
  -- The body ends, waits for more, or is refused for a chunk.
  cases m with
  | @ends _ _ l' empty adv =>
    obtain ⟨e, hout, hy⟩ := adv.emits
    obtain ⟨hio, htransf⟩ := hpassed e hout
    rw [checkResCase_true]
    refine .goes (.of_ne ResponseParserState.noConfusion ResponseParserState.noConfusion
      ResponseParserState.noConfusion ResponseParserState.noConfusion)
      (t := s'.goto .RES_FINISHED) (m := l')
      ⟨hshows adv.shows_, he.trans empty, (hkeeps adv.keeps).infLimit ▸ h.room⟩ (hkeeps adv.keeps)
      ⟨_, hio, htransf, ?_⟩
    have hmachine : (s'.goto .RES_FINISHED).rData.machine =
        (s.rData.machine.setBodyLength n).goto (.halt .finished []) := by
      rw [ResponseData.machine_eq (c := .halt .finished []) rfl]
      change (⟨_, s'.rData.toResponseFields⟩ : ResMachine) = _
      rw [hrData]
      rfl
    rw [hmachine]
    exact hy
  | @waits _ _ e ctl rests parserState space report shows_ keeps out yields =>
    obtain ⟨hio, htransf⟩ := hpassed e out
    refine .waits (p := (s.rData.machine.setBodyLength n).goto ctl) ⟨rests, ?_, ?_, ?_⟩ ?_ ?_
      (hkeeps keeps) ⟨_, hio, htransf, yields⟩
    · rw [hrData]
      rfl
    · rw [hrData]
      exact hp.trans parserState.symm
    · exact fun m hm => absurd hm (space m)
    -- Only a chunk that fails is reported while there is input.
    · rcases report with hempty | hchunked
      · exact reportResError_of_empty (he.trans hempty)
      · have herr : resErrorOf s' = s'.rData.state := by
          have hc : s'.rData.isChunked = false := by
            rw [hrData]
            exact hchunked
          unfold resErrorOf
          rw [hps, hc]
          cases s'.rData.withTransf <;> rfl
        unfold reportResError
        rw [herr]
        split <;> rfl
    · rw [← hio₀]
      exact hshows shows_
  | @failed _ _ l' e isChunked empty out yields =>
    obtain ⟨hio, htransf⟩ := hpassed e out
    have herr : resErrorOf s' = .CHUNKS_ERROR := by
      have hc : s'.rData.isChunked = true := by
        rw [hrData]
        exact isChunked
      unfold resErrorOf
      rw [hps, hc]
      cases s'.rData.withTransf <;> rfl
    refine .rejects (m := l') (he.trans empty) (by rw [herr]; decide) ⟨_, hio, htransf, ?_⟩
    rw [herr, hrData]
    exact yields

/-- The iteration in `BODY_NORMAL` is the machine's run over the body. -/
theorem bodyNormal_move {s : ResState} {l : List Cell} (h : s.Reads l) (hc : s.rData.Consistent)
    (hnul : NoNul s.rData.machine l) (hp : s.rData.parserState = .BODY_NORMAL) :
    ResIterMove s.rData.machine s l (checkResCase (extractBody s) (·.goto .RES_FINISHED)) := by
  have hbody := hc.body (.inl hp)
  have hw : s.rData.withTransf = false := by
    rw [hp] at hbody
    cases hw : s.rData.withTransf with
    | false => rfl
    | true =>
      rw [hw] at hbody
      cases hbody
  have hmachine := ResponseData.machine_eq (startCtl_body hbody)
  unfold extractBody
  split
  · next hno =>
    -- The machine has halted: there is no body.
    have hctl : ResMachine.bodyCtl s.rData.toResponseFields = .halt .finished [] := by
      unfold ResMachine.bodyCtl
      rw [if_neg (by rw [hno.1]; exact Bool.false_ne_true), if_neg (by omega),
        if_pos (.inr ⟨hw, hno.2.2⟩)]
    rw [hctl] at hmachine
    refine .finished (m := l) rfl rfl (reportResError_of_empty rfl) ⟨h.shows_.wf, h.shows_.cells⟩
      (Buffer.Keeps.refl _) ?_
    exact ⟨[], (List.append_nil _).symm, (List.append_nil _).symm, hmachine ▸ .refl _ _⟩
  · next hno =>
    have hmove := extractBodyWith_move (k := s.rData.machine) h.shows_ h.notEmpty
      (hmachine ▸ hnul) (fun h1 h2 h3 => hno ⟨h1, h2, h3.2⟩)
    rw [show s.rData.machine.d = s.rData.toResponseFields from rfl, hw,
      show s.rData.machine.goto (ResMachine.bodyCtl s.rData.toResponseFields) = s.rData.machine from
        hmachine.symm] at hmove
    dsimp only
    change BodyMove _ _ _ _ (extractBodyWith true s.rData.toResponseFields s.io) at hmove
    generalize extractBodyWith true s.rData.toResponseFields s.io = r at hmove ⊢
    obtain ⟨ok, n, io⟩ := r
    refine bodyCase_move h hbody rfl hmove rfl rfl rfl fun e he => ?_
    have hbyte : ResMachine.bodyByte s.rData.toResponseFields = .out := by
      funext c
      exact if_neg (Bool.eq_false_iff.mp hw)
    rw [hbyte, outs_map_out, transfs_map_out, List.append_nil]
    exact ⟨he, rfl⟩

/-- The iteration in `BODY_TRANSFORMATION` is the machine's run over the body. -/
theorem bodyTransformation_move {s : ResState} {l : List Cell} (h : s.Reads l)
    (hc : s.rData.Consistent) (hnul : NoNul s.rData.machine l)
    (hp : s.rData.parserState = .BODY_TRANSFORMATION) :
    ResIterMove s.rData.machine s l (checkResCase (extractBodyTransf s) (·.goto .RES_FINISHED)) := by
  have hbody := hc.body (.inr hp)
  have hw : s.rData.withTransf = true := by
    rw [hp] at hbody
    cases hw : s.rData.withTransf with
    | true => rfl
    | false =>
      rw [hw] at hbody
      cases hbody
  have hmachine := ResponseData.machine_eq (startCtl_body hbody)
  have hshows : ({ s.io with out := [] } : Io).Shows l := ⟨h.shows_.wf, h.shows_.cells⟩
  have hmove := extractBodyWith_move (k := s.rData.machine) hshows h.notEmpty (hmachine ▸ hnul)
    (fun _ _ hno => Bool.false_ne_true (hno.1.symm.trans hw))
  rw [show s.rData.machine.d = s.rData.toResponseFields from rfl, hw,
    show s.rData.machine.goto (ResMachine.bodyCtl s.rData.toResponseFields) = s.rData.machine from
      hmachine.symm] at hmove
  unfold extractBodyTransf
  change BodyMove _ _ _ _ (extractBodyWith false s.rData.toResponseFields { s.io with out := [] }) at hmove
  generalize extractBodyWith false s.rData.toResponseFields { s.io with out := [] } = r at hmove ⊢
  obtain ⟨ok, n, io⟩ := r
  have hinput : ({ s.io with out := [] } : Io).b = s.io.b := rfl
  refine bodyCase_move h hbody hinput hmove rfl rfl rfl fun e (he : io.out = e) => ?_
  have hbyte : ResMachine.bodyByte s.rData.toResponseFields = .transf := by
    funext c
    exact if_pos hw
  rw [hbyte, outs_map_transf, transfs_map_transf, List.append_nil]
  exact ⟨rfl, congrArg (s.transf ++ ·) he⟩

/-- Blanks are not found only where the input ends. -/
theorem checkResSpaces_false {s s' : ResState} (h : checkResSpaces s = (false, s')) :
    s'.io.isBufferEmpty = true := by
  unfold checkResSpaces at h
  dsimp only at h
  split at h <;> cases h
  rfl

/-- One iteration of the loop of `checkResponseInner`, as a move of the machine. -/
theorem resIteration_move {s : ResState} {l : List Cell} (h : s.Reads l) (hc : s.rData.Consistent)
    (hnul : NoNul s.rData.machine l) : ResIterMove s.rData.machine s l (resIteration s) := by
  unfold resIteration
  cases hp : s.rData.parserState with
  | RES_SPACE_TRANSITION =>
    have hn := hc.next hp
    generalize resAfterSpaces s.rData.next = n at hn
    rw [ResponseData.machine_eq (startCtl_spaces hp hn.symm)] at hnul ⊢
    refine checkResCase_move (fun s' same => ?_) (fun s' _ hr he => ?_)
      (checkResSpaces_move h n hnul hp hn.symm)
    · have hcheck : (s'.goto s'.rData.next).rData.parserState = n.parserState :=
        same.next.trans hn.symm
      exact ⟨rfl, rfl, ResponseData.machine_eq (startCtl_check hcheck), consistent_check hcheck⟩
    -- Blanks are never refused: only the end of the input stops them.
    · exact absurd (checkResSpaces_false hr) (Bool.eq_false_iff.mp he)
  | RES_VERSION =>
    have hctl : s.rData.startCtl = .version 0 := by rw [ResponseData.startCtl, hp]
    rw [ResponseData.machine_eq hctl] at hnul ⊢
    refine checkResCase_move (fun s' _ => ⟨rfl, rfl, rfl, .of_spaces rfl rfl⟩)
      (fun s' same _ _ => ?_) (extractResVersion_move h hnul hp (hc.version hp))
    have herr : resErrorOf s' = .RES_VERSION_ERROR := by rw [resErrorOf, same.parserState, hp]
    rw [herr]
    exact ⟨rfl, by decide⟩
  | STATUS =>
    have hctl : s.rData.startCtl = .status none := by rw [ResponseData.startCtl, hp]
    rw [ResponseData.machine_eq hctl] at hnul ⊢
    refine checkResCase_move (fun s' _ => ⟨rfl, rfl, rfl, consistent_gotoHeaders s'⟩)
      (fun s' same _ _ => ?_) (extractStatus_move h hnul hp)
    have herr : resErrorOf s' = .STATUS_ERROR := by rw [resErrorOf, same.parserState, hp]
    rw [herr]
    exact ⟨rfl, by decide⟩
  | RES_HEADERS =>
    have hctl : s.rData.startCtl = .headers := by rw [ResponseData.startCtl, hp]
    rw [ResponseData.machine_eq hctl] at hnul ⊢
    exact headersCase_move h hnul hp
  | LENGTH_CHECK =>
    have hctl : s.rData.startCtl = .length none := by rw [ResponseData.startCtl, hp]
    rw [ResponseData.machine_eq hctl] at hnul ⊢
    exact valueCase_move (checkLength_move h hnul hp)
  | ENCODING_CHECK =>
    have hctl : s.rData.startCtl = .encoding 0 := by rw [ResponseData.startCtl, hp]
    rw [ResponseData.machine_eq hctl] at hnul ⊢
    exact valueCase_move (checkEncoding_move h hnul hp)
  | CHUNKED_CHECK =>
    have hctl : s.rData.startCtl = .chunked 0 := by rw [ResponseData.startCtl, hp]
    rw [ResponseData.machine_eq hctl] at hnul ⊢
    exact valueCase_move (checkChunked_move h hnul hp)
  | CONNECTION_CHECK =>
    have hctl : s.rData.startCtl = .connection := by rw [ResponseData.startCtl, hp]
    rw [ResponseData.machine_eq hctl] at hnul ⊢
    exact valueCase_move (checkConnection_move h hnul hp)
  | TYPE_CHECK =>
    have hctl : s.rData.startCtl = .headers := by rw [ResponseData.startCtl, hp]
    rw [ResponseData.machine_eq hctl] at hnul ⊢
    exact valueCase_move (.done ⟨rfl, rfl, rfl⟩ h (Advance.refl h.shows_))
  | BODY_NORMAL => exact bodyNormal_move h hc hnul hp
  | BODY_TRANSFORMATION => exact bodyTransformation_move h hc hnul hp
  | RES_FINISHED =>
    have hctl : s.rData.startCtl = .halt .finished [] := by rw [ResponseData.startCtl, hp]
    rw [ResponseData.machine_eq hctl]
    exact .finished rfl hp (reportResError_of_success rfl) h.shows_ (Buffer.Keeps.refl _)
      (Emits.refl _ _ _)

/-! ## The call -/

/-- How the loop of a call that starts with the machine in `q` and `l` to read ends, after its error was
reported. -/
inductive ResLoopEnd (q : ResMachine) (s : ResState) (l : List Cell) : Bool × ResState → Prop
  | waits {t : ResState} {p : ResMachine} (rests : ResRests p t.rData)
      (shows_ : t.io.Shows (pushedBack (Buffer.clip s.io.b.infLimit p.pushBack)))
      (keeps : s.io.b.Keeps t.io.b) (emits : Emits q s l p t []) : ResLoopEnd q s l (false, t)
  | rejects {t : ResState} {m : List Cell} (state : t.rData.state ≠ .RES_OK)
      (emits : Emits q s l ⟨.halt .rejected [], t.rData.toResponseFields⟩ t m) :
      ResLoopEnd q s l (false, t)
  | finished {ok : Bool} {t : ResState} {m : List Cell} (parserState : t.rData.parserState = .RES_FINISHED)
      (shows_ : t.io.Shows m) (keeps : s.io.b.Keeps t.io.b)
      (emits : Emits q s l ⟨.halt .finished [], t.rData.toResponseFields⟩ t m) :
      ResLoopEnd q s l (ok, t)

/-- What an iteration emitted belongs to the end of the loop. -/
theorem ResLoopEnd.prepend {q p : ResMachine} {s s' : ResState} {l l' : List Cell}
    {r : Bool × ResState} (hemits : Emits q s l p s' l') (hkeeps : s.io.b.Keeps s'.io.b)
    (m : ResLoopEnd p s' l' r) : ResLoopEnd q s l r := by
  cases m with
  | waits rests shows_ keeps emits =>
    exact .waits rests (hkeeps.infLimit ▸ shows_) (hkeeps.trans keeps) (hemits.trans emits)
  | rejects state emits => exact .rejects state (hemits.trans emits)
  | finished parserState shows_ keeps emits =>
    exact .finished parserState shows_ (hkeeps.trans keeps) (hemits.trans emits)

/-- The loop of a call, as a move of the machine: what one iteration is carries over by induction on
the iterations. -/
theorem responseLoop_move {fuel : Nat} {s : ResState} {r : Bool × ResState}
    (hr : responseLoop fuel s = some r) {l : List Cell} (h : s.Reads l) (hc : s.rData.Consistent)
    (hnul : NoNul s.rData.machine l) : ResLoopEnd s.rData.machine s l (reportResError r) := by
  refine Loop.run_induction
    (P := fun s r => ∀ l, s.Reads l → s.rData.Consistent → NoNul s.rData.machine l →
      ResLoopEnd s.rData.machine s l (reportResError r)) ?_ ?_ hr l h hc hnul
  · intro s r hend l h hc hnul
    have hmove := resIteration_move h hc hnul
    unfold resLoopBody at hend
    generalize resIteration s = i at hmove hend
    cases hmove with
    | goes => cases hend
    | waits rests report shows_ keeps emits =>
      obtain rfl := Sum.inr.inj hend
      rw [report]
      exact .waits rests shows_ keeps emits
    | @rejects t m empty error emits =>
      obtain rfl := Sum.inr.inj hend
      have hreport : reportResError (false, t) =
          (false, { t with rData := { t.rData with state := resErrorOf t } }) := if_pos ⟨rfl, empty⟩
      rw [hreport]
      exact .rejects error emits
    | @finished f t m stops parserState report shows_ keeps emits =>
      dsimp only at hend
      rw [stops] at hend
      obtain rfl := Sum.inr.inj hend
      rw [report]
      exact .finished parserState shows_ keeps emits
  · intro s s' r hgo ih l h hc hnul
    have hmove := resIteration_move h hc hnul
    obtain ⟨hflags, rfl⟩ := resLoopBody_eq_inl.mp hgo
    generalize resIteration s = i at *
    cases hmove with
    | goes consistent reads keeps emits =>
      have hnul' := hnul.of_emits emits
      exact ResLoopEnd.prepend emits keeps (ih _ reads consistent hnul')
    | waits => cases hflags
    | rejects => cases hflags
    | finished stops =>
      obtain rfl : _ = ({} : ResFlags) := hflags
      cases stops

/-- Data that are consistent with the machine are well formed. -/
theorem ResponseData.Consistent.wf {rd : ResponseData} (h : rd.Consistent) : rd.Wf := by
  intro hp
  rw [← h.next hp]
  generalize resAfterSpaces rd.next = n
  cases n with
  | status => rfl
  | value f => cases f <;> rfl

/-- Where a call of `checkResponse` on the cells `l` leaves the parser and its input: where the machine's
run over them ends. -/
inductive ResCallEnd (q : ResMachine) (bIn : Buffer) (l : List Cell) (r : ResponseResult) : Prop
  | waits (success : r.success = false) (rests : ResRests (resMachine.stateAfter q l) r.rData)
      (wf : r.bIn.Wf) (keeps : bIn.Keeps r.bIn)
      (cells : r.bIn.cells =
        pushedBack (Buffer.clip bIn.infLimit (resMachine.stateAfter q l).pushBack))
  | rejects (unread : List Cell) (success : r.success = false) (state : r.rData.state ≠ .RES_OK)
      (after : resMachine.stateAfter q l = ⟨.halt .rejected unread, r.rData.toResponseFields⟩)
  | finished (parserState : r.rData.parserState = .RES_FINISHED) (wf : r.bIn.Wf)
      (keeps : bIn.Keeps r.bIn)
      (after : resMachine.stateAfter q l = ⟨.halt .finished r.bIn.cells, r.rData.toResponseFields⟩)

/-- What a call emitted up to where the machine halts is what the run emits. -/
theorem Emits.halt {q : ResMachine} {s s' : ResState} {l l' : List Cell} {why : ResHalt}
    {d : ResponseFields} (h : Emits q s l ⟨.halt why [], d⟩ s' l') :
    resMachine.stateAfter q l = ⟨.halt why l', d⟩ ∧
      s'.io.out = s.io.out ++ outs (resMachine.emitted q l) ∧
      s'.transf = s.transf ++ transfs (resMachine.emitted q l) := by
  obtain ⟨e, hout, htransf, hy⟩ := h
  have hrun := resMachine_run_halt why [] d l'
  rw [hy.stateAfter_eq, hy.emitted_eq, Transducer.stateAfter, Transducer.emitted, hrun,
    List.append_nil]
  exact ⟨rfl, hout, htransf⟩

/-- What a call emitted up to the end of the input is what the run emits. -/
theorem Emits.all {q q' : ResMachine} {s s' : ResState} {l : List Cell} (h : Emits q s l q' s' []) :
    resMachine.stateAfter q l = q' ∧ s'.io.out = s.io.out ++ outs (resMachine.emitted q l) ∧
      s'.transf = s.transf ++ transfs (resMachine.emitted q l) := by
  obtain ⟨e, hout, htransf, hy⟩ := h
  rw [hy.stateAfter_eq, hy.emitted_eq, Transducer.emitted_nil, List.append_nil]
  exact ⟨rfl, hout, htransf⟩

/-- A call of `checkResponse` computes the machine's run over its input. -/
theorem checkResponse_move {rd : ResponseData} {bIn : Buffer} (bOut bTransf : Buffer)
    (hc : rd.Consistent) (hwf : bIn.Wf) (hroom : PUSH_BACK_ROOM ≤ bIn.infLimit)
    (hnul : NoNul rd.machine bIn.cells) :
    ∃ r, checkResponse rd bIn bOut bTransf = some r ∧ ResCallEnd rd.machine bIn bIn.cells r ∧
      r.bOut = bufferWriteAll bOut (outs (resMachine.emitted rd.machine bIn.cells)) ∧
      r.bTransf = bufferWriteAll bTransf (transfs (resMachine.emitted rd.machine bIn.cells)) := by
  obtain ⟨r, hr⟩ := responseLoop_returns hc.wf bIn
  have hmove := responseLoop_move hr (s := resCallStart rd bIn) ⟨⟨hwf, rfl⟩, rfl, hroom⟩ hc hnul
  unfold checkResponse checkResponseInner
  rw [hr, Option.map_some, Option.map_some]
  generalize reportResError r = t at hmove
  refine ⟨_, rfl, ?_⟩
  cases hmove with
  | waits rests shows_ keeps emits =>
    obtain ⟨hafter, hout, htransf⟩ := emits.all
    subst hafter
    exact ⟨.waits rfl rests shows_.wf keeps shows_.cells, congrArg (bufferWriteAll bOut) hout,
      congrArg (bufferWriteAll bTransf) htransf⟩
  | rejects state emits =>
    obtain ⟨hafter, hout, htransf⟩ := emits.halt
    exact ⟨.rejects _ rfl state hafter, congrArg (bufferWriteAll bOut) hout,
      congrArg (bufferWriteAll bTransf) htransf⟩
  | finished parserState shows_ keeps emits =>
    obtain ⟨hafter, hout, htransf⟩ := emits.halt
    refine ⟨.finished parserState shows_.wf keeps ?_, congrArg (bufferWriteAll bOut) hout,
      congrArg (bufferWriteAll bTransf) htransf⟩
    rw [shows_.cells]
    exact hafter

end HttpProxy
