import HttpProxy.ResponseRefinement

/-!
# Where the response parser rests

Between calls the parser keeps of the machine's state its parser state, the fields it filled in and the
bytes it pushed back. `ResMachine.silent_pushBack` says that this suffices: the machine started again in
the parser state comes back, over the bytes pushed back and without passing anything on, to the state it
was in; only a chunk size without digits becomes a zero (`ResCtl.resumed`).

`ResMachine.Inv` is what the machine's states hold for this. It cannot promise that a number is not
negative: an overflow makes it so, and then no digits are pushed back (`ResMachine.Recalled`).
-/

namespace HttpProxy

/-! ## The invariant of the machine -/

def ResCtl.Bounded (d : ResponseFields) : ResCtl → Prop
  | .version i => i < (lit "HTTP/1.").length ∧ d.version = .undefined
  | .versionDigit => d.version = .undefined
  | .status n | .length n => ∃ v, n = some v ∧ v < 2 ^ 31
  | .con i => i < (lit "ON").length
  | .tent i => i < (lit "TENT-").length
  | .name f i => i < f.format.length ∧ (f = .connection → 0 < i)
  | .encoding i => i < (lit "GZIP").length
  | .chunked i => i < (lit "CHUNKED").length
  | .data => ResMachine.bodyCtl d = .data
  | .untilClose => ResMachine.bodyCtl d = .untilClose
  | .chunkSize n => d.isChunked = true ∧ ∀ v, n = some v → v < 2 ^ 31
  | .chunkSizeEnd i => d.isChunked = true ∧ 0 < i ∧ i < [CR, LF].length ∧ d.bodyLength < 2 ^ 31
  | .chunkData => d.isChunked = true ∧ 0 < d.bodyLength ∧ d.bodyLength < 2 ^ 31
  | .chunkEnd last i =>
    d.isChunked = true ∧ i < [CR, LF].length ∧
      if last then d.bodyLength ≤ 0 else d.bodyLength = 0
  | .space _ | .headers | .content | .cr | .crlf | .crlfcr | .connection | .halt _ _ => True

/-- What holds in every state of a run. -/
structure ResMachine.Inv (q : ResMachine) : Prop where
  state : (∀ unread, q.ctl ≠ .halt .rejected unread) → q.d.state = .RES_OK
  bounded : q.ctl.Bounded q.d

namespace ResMachine

variable {q : ResMachine} {x : Cell}

/-- A machine without an error keeps the invariant where the place it goes to is a place inside its
format. -/
theorem inv_goto {c : ResCtl} (hs : q.d.state = .RES_OK) (hb : c.Bounded q.d) : (q.goto c).Inv :=
  ⟨fun _ => hs, hb⟩

/-- A machine that rejected the response has only its error to keep. -/
theorem inv_rejected (q : ResMachine) (e : ResponseErr) (x : Cell) :
    (stepHalt (q.reject e) x).1.Inv :=
  ⟨fun h => absurd rfl (h _), trivial⟩

/-- A step in a format stays inside it, completes it or misses it. -/
theorem inv_stepMatch {format : List UInt8} {i : Nat} {g : Nat → ResCtl} {done : ResMachine}
    {miss : Cell → Out} {emit : Cell → List Passed} (hs : q.d.state = .RES_OK)
    (hi : i < format.length) (hinside : ∀ j < format.length, 0 < j → (g j).Bounded q.d)
    (hdone : done.Inv) (hmiss : (miss x).1.Inv) :
    (HttpProxy.stepMatch format i (fun i => q.goto (g i)) done miss emit x).1.Inv := by
  unfold HttpProxy.stepMatch
  split
  · split
    · exact hdone
    · next hne => exact inv_goto hs (hinside (i + 1) (by omega) (Nat.succ_pos i))
  · exact hmiss

/-- A step in a number adds a digit, which an `int` holds, or ends it. -/
theorem inv_stepNumber {r : Radix} {n : Option Int} {inside : Option Int → ResCtl}
    {done : Int → Cell → Out} {miss : Cell → Out} {emit : Cell → List Passed}
    (hs : q.d.state = .RES_OK) (hinside : ∀ v : Int, v < 2 ^ 31 → (inside (some v)).Bounded q.d)
    (hdone : ∀ v, n = some v → (done v x).1.Inv) (hmiss : n = none → (miss x).1.Inv) :
    (stepNumber r n (fun n => q.goto (inside n)) done miss emit x).1.Inv := by
  unfold stepNumber
  split
  · exact inv_goto hs (hinside _ (toInt32_lt _))
  · cases n with
    | none => exact hmiss rfl
    | some v => exact hdone v rfl

/-! ### One lemma for each step function -/

/-- In the headers the machine looks for the first byte of a field and for CR. -/
theorem inv_stepHeaders (hs : q.d.state = .RES_OK) : (q.stepHeaders x).1.Inv := by
  unfold stepHeaders
  refine inv_goto hs ?_
  split
  · exact (Nat.zero_lt_succ _ : 0 < (lit "ON").length)
  split
  · exact ⟨by decide, HeaderField.noConfusion⟩
  split <;> trivial

/-- In a name the machine stays inside it, or has found the field. -/
theorem inv_stepName (hs : q.d.state = .RES_OK) {f : HeaderField} {i : Nat} (hi : i < f.format.length) :
    (q.stepName f i x).1.Inv :=
  inv_stepMatch hs hi (fun _ hj hpos => ⟨hj, fun _ => hpos⟩) (inv_goto hs trivial)
    (inv_stepHeaders hs)

/-- Behind `Content-` one of three names begins, or none. -/
theorem inv_stepContent (hs : q.d.state = .RES_OK) : (q.stepContent x).1.Inv := by
  unfold stepContent
  refine inv_goto hs ?_
  split
  · exact ⟨by decide, HeaderField.noConfusion⟩
  split
  · exact ⟨by decide, HeaderField.noConfusion⟩
  split
  · exact ⟨by decide, HeaderField.noConfusion⟩
  · trivial

theorem inv_stepTent (hs : q.d.state = .RES_OK) {i : Nat} (hi : i < (lit "TENT-").length) :
    (q.stepTent i x).1.Inv :=
  inv_stepMatch hs hi (fun _ hj _ => hj) (inv_goto hs trivial) (inv_stepName hs (by decide))

theorem inv_stepCon (hs : q.d.state = .RES_OK) {i : Nat} (hi : i < (lit "ON").length) :
    (q.stepCon i x).1.Inv :=
  inv_stepMatch hs hi (fun _ hj _ => hj)
    (inv_goto (c := .tent 0) hs (Nat.zero_lt_succ _ : 0 < (lit "TENT-").length)) (inv_stepHeaders hs)

theorem inv_stepCrlf (hs : q.d.state = .RES_OK) : (q.stepCrlf x).1.Inv := by
  unfold stepCrlf
  split
  · exact inv_goto hs trivial
  · exact inv_stepHeaders hs

theorem inv_stepCr (hs : q.d.state = .RES_OK) : (q.stepCr x).1.Inv := by
  refine inv_stepMatch (g := fun _ => .cr) hs (Nat.zero_lt_succ _) (fun _ _ _ => ?_)
    (inv_goto hs trivial) (inv_stepHeaders hs)
  trivial

/-- In front of the size of a chunk there is nothing but that there are chunks. -/
theorem bounded_chunkSize {d : ResponseFields} (hc : d.isChunked = true) :
    (ResCtl.chunkSize none).Bounded d := by
  refine ⟨hc, fun v hv => ?_⟩
  cases hv

/-- Where a body starts. -/
theorem bounded_bodyCtl (d : ResponseFields) : (bodyCtl d).Bounded d := by
  by_cases hc : d.isChunked = true
  · rw [bodyCtl, if_pos hc]
    exact bounded_chunkSize hc
  by_cases hpos : d.bodyLength > 0
  · have h : bodyCtl d = .data := by rw [bodyCtl, if_neg hc, if_pos hpos]
    rw [h]
    exact h
  by_cases hno : d.bodyLength = 0 ∨ d.withTransf = false ∧ d.status ≠ 200
  · rw [bodyCtl, if_neg hc, if_neg hpos, if_pos hno]
    trivial
  · have h : bodyCtl d = .untilClose := by rw [bodyCtl, if_neg hc, if_neg hpos, if_neg hno]
    rw [h]
    exact h

/-- Behind the last line of the head the body begins, or the response ends. -/
theorem inv_stepCrlfcr (hs : q.d.state = .RES_OK) : (q.stepCrlfcr x).1.Inv := by
  unfold stepCrlfcr
  split
  · exact inv_goto hs (bounded_bodyCtl q.d)
  · exact inv_stepHeaders hs

/-- A length goes back to the headers with its number. -/
theorem inv_stepLength (hs : q.d.state = .RES_OK) (n : Option Int) : (q.stepLength n x).1.Inv :=
  inv_stepNumber hs (fun v hv => ⟨v, rfl, hv⟩) (fun v _ => inv_stepHeaders (q := q.setBodyLength v) hs)
    fun _ => inv_stepHeaders hs

theorem inv_stepEncoding (hs : q.d.state = .RES_OK) {i : Nat} (hi : i < (lit "GZIP").length) :
    (q.stepEncoding i x).1.Inv :=
  inv_stepMatch hs hi (fun _ hj _ => hj) (inv_goto (q := q.setEncoding) hs trivial) (inv_stepHeaders hs)

theorem inv_stepChunked (hs : q.d.state = .RES_OK) {i : Nat} (hi : i < (lit "CHUNKED").length) :
    (q.stepChunked i x).1.Inv :=
  inv_stepMatch hs hi (fun _ hj _ => hj) (inv_goto (q := q.setChunked) hs trivial) (inv_stepHeaders hs)

theorem inv_stepConnection (hs : q.d.state = .RES_OK) : (q.stepConnection x).1.Inv := by
  unfold stepConnection
  split
  · exact inv_stepHeaders (q := q.setClose) hs
  · exact inv_goto hs trivial

/-- In front of a value the machine goes to the state that checks it. -/
theorem inv_stepValue (hs : q.d.state = .RES_OK) (f : HeaderField) : (q.stepValue f x).1.Inv := by
  cases f with
  | connection => exact inv_stepConnection hs
  | contentLength => exact inv_stepLength hs none
  | contentEncoding => exact inv_stepEncoding hs (by decide)
  | contentType => exact inv_stepHeaders hs
  | transferEncoding => exact inv_stepChunked hs (by decide)

theorem inv_stepStatus (hs : q.d.state = .RES_OK) (n : Option Int) : (q.stepStatus n x).1.Inv :=
  inv_stepNumber hs (fun v hv => ⟨v, rfl, hv⟩) (fun v _ => inv_stepHeaders (q := q.setStatus v) hs)
    fun _ => inv_rejected q _ x

/-- Behind blanks the state is the one they lead to. -/
theorem inv_stepSpace (hs : q.d.state = .RES_OK) (n : ResAfterSpaces) : (q.stepSpace n x).1.Inv := by
  unfold stepSpace
  split
  · exact inv_goto hs trivial
  · cases n with
    | status => exact inv_stepStatus hs none
    | value f => exact inv_stepValue hs f

/-- The digit of the version is set once: none was set before. -/
theorem inv_stepVersionDigit (hs : q.d.state = .RES_OK) : (q.stepVersionDigit x).1.Inv := by
  unfold stepVersionDigit afterVersion
  dsimp only
  split
  · exact ⟨fun h => absurd rfl (h _), trivial⟩
  · exact inv_goto (q := q.setVersion x.1) hs trivial

theorem inv_stepVersion (hs : q.d.state = .RES_OK) {i : Nat} (hi : i < (lit "HTTP/1.").length)
    (hv : q.d.version = .undefined) : (q.stepVersion i x).1.Inv :=
  inv_stepMatch hs hi (fun _ hj _ => ⟨hj, hv⟩) (inv_goto (c := .versionDigit) hs hv)
    (inv_rejected q _ x)

/-- A byte of the body counts it down, until it is over. -/
theorem inv_stepData (hs : q.d.state = .RES_OK) (hb : bodyCtl q.d = .data) : (q.stepData x).1.Inv := by
  unfold stepData
  dsimp only
  refine inv_goto (q := q.setBodyLength _) hs ?_
  split
  · next hpos =>
    have hc : ¬q.d.isChunked = true := by
      intro hc
      rw [bodyCtl, if_pos hc] at hb
      cases hb
    change bodyCtl { q.d with bodyLength := q.d.bodyLength - 1 } = .data
    exact (if_neg hc).trans (if_pos hpos)
  · trivial

/-- The CR and LF between chunks, or the error of the chunks. -/
theorem inv_stepFraming (hs : q.d.state = .RES_OK) {i : Nat} {inside : Nat → ResCtl} {done : ResMachine}
    (hi : i < [CR, LF].length) (hinside : ∀ j < [CR, LF].length, 0 < j → (inside j).Bounded q.d)
    (hdone : done.Inv) : (q.stepFraming i inside done x).1.Inv :=
  inv_stepMatch hs hi hinside hdone (inv_rejected q _ x)

theorem inv_stepChunkSizeEnd (hs : q.d.state = .RES_OK) (hc : q.d.isChunked = true) {i : Nat}
    (hi : i < [CR, LF].length) (hlt : q.d.bodyLength < 2 ^ 31) : (q.stepChunkSizeEnd i x).1.Inv := by
  refine inv_stepFraming hs hi (fun _ hj hpos => ⟨hc, hpos, hj, hlt⟩) (inv_goto hs ?_)
  unfold chunkCtl
  split
  · next hpos => exact ⟨hc, hpos, hlt⟩
  · next hpos => exact ⟨hc, Nat.zero_lt_succ _, Int.not_lt.mp hpos⟩

/-- A digit of a chunk's size, or its end. -/
theorem inv_stepChunkSize (hs : q.d.state = .RES_OK) {n : Option Int}
    (h : (ResCtl.chunkSize n).Bounded q.d) : (q.stepChunkSize n x).1.Inv := by
  obtain ⟨hc, hlt⟩ := h
  refine inv_stepNumber hs (fun v hv => ⟨hc, fun w hw => Option.some.inj hw ▸ hv⟩) (fun v hv => ?_)
    fun _ => inv_rejected q _ x
  exact inv_stepChunkSizeEnd (q := q.setBodyLength v) hs hc (Nat.zero_lt_succ _) (hlt v hv)

/-- A byte of a chunk counts it down, until its end. -/
theorem inv_stepChunkData (hs : q.d.state = .RES_OK) (h : ResCtl.chunkData.Bounded q.d) :
    (q.stepChunkData x).1.Inv := by
  obtain ⟨hc, hpos, hlt⟩ := h
  unfold stepChunkData
  dsimp only
  refine inv_goto (q := q.setBodyLength _) hs ?_
  split
  · next hpos' => exact ⟨hc, hpos', Int.lt_trans (Int.sub_lt_self _ Int.zero_lt_one) hlt⟩
  · refine ⟨hc, Nat.zero_lt_succ _, ?_⟩
    change q.d.bodyLength - 1 = 0
    omega

/-- Behind a chunk the next one begins, or the response ends with the last. -/
theorem inv_stepChunkEnd (hs : q.d.state = .RES_OK) {last : Bool} {i : Nat}
    (h : (ResCtl.chunkEnd last i).Bounded q.d) : (q.stepChunkEnd last i x).1.Inv := by
  obtain ⟨hc, hi, hlength⟩ := h
  refine inv_stepFraming hs hi (fun _ hj _ => ⟨hc, hj, hlength⟩) (inv_goto hs ?_)
  split
  · trivial
  · exact bounded_chunkSize hc

/-! ### The machine -/

/-- A machine that stopped keeps what it stopped with. -/
theorem inv_halted (h : q.Inv) {why : ResHalt} {unread : List Cell} (hctl : q.ctl = .halt why unread) :
    (q.stepHalt x).1.Inv := by
  obtain ⟨ctl, d⟩ := q
  obtain rfl : ctl = .halt why unread := hctl
  refine ⟨fun hne => h.state fun u hu => ?_, trivial⟩
  cases hu
  exact hne _ rfl

/-- The invariant holds behind every byte. The cases are the control states. -/
theorem inv_stepByte (h : q.Inv) : (q.stepByte x).1.Inv := by
  have hb := h.bounded
  by_cases hrejected : ∃ unread, q.ctl = .halt .rejected unread
  · obtain ⟨unread, hctl⟩ := hrejected
    unfold stepByte
    rw [hctl]
    exact inv_halted h hctl
  push Not at hrejected
  have hs := h.state hrejected
  unfold stepByte
  cases hctl : q.ctl <;> rw [hctl] at hb
  case version => exact inv_stepVersion hs hb.1 hb.2
  case versionDigit => exact inv_stepVersionDigit hs
  case space n => exact inv_stepSpace hs n
  case status n => exact inv_stepStatus hs n
  case headers => exact inv_stepHeaders hs
  case con => exact inv_stepCon hs hb
  case tent => exact inv_stepTent hs hb
  case content => exact inv_stepContent hs
  case name => exact inv_stepName hs hb.1
  case cr => exact inv_stepCr hs
  case crlf => exact inv_stepCrlf hs
  case crlfcr => exact inv_stepCrlfcr hs
  case length n => exact inv_stepLength hs n
  case encoding => exact inv_stepEncoding hs hb
  case chunked => exact inv_stepChunked hs hb
  case connection => exact inv_stepConnection hs
  case data => exact inv_stepData hs hb
  case untilClose => exact h
  case chunkSize => exact inv_stepChunkSize hs hb
  case chunkSizeEnd => exact inv_stepChunkSizeEnd hs hb.1 hb.2.2.1 hb.2.2.2
  case chunkData => exact inv_stepChunkData hs hb
  case chunkEnd => exact inv_stepChunkEnd hs hb
  case halt => exact inv_halted h hctl

/-- Every step keeps the invariant. -/
theorem inv_step (h : q.Inv) : (q.step x).1.Inv := by
  unfold step
  split
  · next hz =>
    refine ⟨fun _ => h.state fun unread hctl => ?_, trivial⟩
    rw [hctl] at hz
    cases hz.2
  · exact inv_stepByte h

/-- The invariant holds in every state of a run: `inv_step` along it. -/
theorem inv_stateAfter (h : q.Inv) (l : List Cell) : (resMachine.stateAfter q l).Inv :=
  resMachine.run_invariant (I := fun _ q => q.Inv) (fun _ _ _ h => inv_step h) [] q h l

end ResMachine

/-! ## Starting again -/

namespace ResMachine

/-- Where a call starts that resumes in a state of the machine. -/
def startCtl (q : ResMachine) : ResCtl :=
  match q.ctl with
  | .version _ | .versionDigit => .version 0
  | .space n => .space n
  | .status _ => .status none
  | .headers | .con _ | .tent _ | .content | .name _ _ | .cr | .crlf | .crlfcr => .headers
  | .length _ => .length none
  | .encoding _ => .encoding 0
  | .chunked _ => .chunked 0
  | .connection => .connection
  | .data | .untilClose | .chunkSize _ | .chunkSizeEnd _ | .chunkData | .chunkEnd _ _ => bodyCtl q.d
  | .halt why unread => .halt why unread

/-- The digits pushed back, if any, are those of the number read so far. -/
def Recalled (q : ResMachine) : Prop :=
  match q.ctl with
  | .status n | .length n | .chunkSize n => 0 ≤ n.getD 0
  | .chunkSizeEnd _ | .chunkEnd _ _ => 0 ≤ q.d.bodyLength
  | _ => True

instance (q : ResMachine) : Decidable q.Recalled :=
  match q with
  | ⟨.status n, _⟩ | ⟨.length n, _⟩ | ⟨.chunkSize n, _⟩ => inferInstanceAs (Decidable (0 ≤ n.getD 0))
  | ⟨.chunkSizeEnd _, d⟩ | ⟨.chunkEnd _ _, d⟩ => inferInstanceAs (Decidable (0 ≤ d.bodyLength))
  | ⟨.version _, _⟩ | ⟨.versionDigit, _⟩ | ⟨.space _, _⟩ | ⟨.headers, _⟩ | ⟨.con _, _⟩ | ⟨.tent _, _⟩
  | ⟨.content, _⟩ | ⟨.name _ _, _⟩ | ⟨.cr, _⟩ | ⟨.crlf, _⟩ | ⟨.crlfcr, _⟩ | ⟨.encoding _, _⟩
  | ⟨.chunked _, _⟩ | ⟨.connection, _⟩ | ⟨.data, _⟩ | ⟨.untilClose, _⟩ | ⟨.chunkData, _⟩
  | ⟨.halt _ _, _⟩ => .isTrue trivial

end ResMachine

/-- The control state that reading back what was pushed back leads to. -/
def ResCtl.resumed : ResCtl → ResCtl
  | .chunkSize n => .chunkSize (some (n.getD 0))
  | ctl => ctl

/-- A parser resting in a state starts its next call where the machine starts again. -/
theorem ResRests.startCtl {q : ResMachine} {rd : ResponseData} (h : ResRests q rd) :
    rd.startCtl = q.startCtl := by
  have hp := h.parserState
  have hbody : (rd.parserState = if rd.withTransf then .BODY_TRANSFORMATION else .BODY_NORMAL) →
      rd.startCtl = ResMachine.bodyCtl q.d := fun hps => by rw [startCtl_body hps, h.fields]
  have hw : rd.withTransf = q.d.withTransf := congrArg ResponseFields.withTransf h.fields
  unfold ResMachine.startCtl
  unfold ResMachine.parserState at hp
  cases hctl : q.ctl <;> rw [hctl] at hp
  case space n => exact startCtl_spaces hp (h.next n hctl)
  case data => exact hbody (hw ▸ hp)
  case untilClose => exact hbody (hw ▸ hp)
  case chunkSize => exact hbody (hw ▸ hp)
  case chunkSizeEnd => exact hbody (hw ▸ hp)
  case chunkData => exact hbody (hw ▸ hp)
  case chunkEnd => exact hbody (hw ▸ hp)
  case halt why unread => exact absurd hctl (h.rests why unread)
  all_goals
    unfold ResponseData.startCtl
    rw [hp]

/-- The state the machine is in when a call resumes. -/
theorem ResRests.machine {q : ResMachine} {rd : ResponseData} (h : ResRests q rd) :
    rd.machine = q.goto q.startCtl := by
  rw [ResponseData.machine_eq h.startCtl, h.fields]
  rfl

namespace ResMachine

variable {q : ResMachine}

/-- One byte that is read back without passing anything on. -/
theorem silent_byte {q' : ResMachine} {c : UInt8} (hc : c ≠ 0) (h : q.stepByte (c, true) = (q', [])) :
    resMachine.Silent q (pushedBack [c]) q' :=
  Transducer.Silent.cons ((res_step_of_ne hc).trans h) (Transducer.Silent.nil q')

/-- What is read back one after the other is read back at once. -/
theorem silent_append {q' q'' : ResMachine} {p p' : List UInt8}
    (h : resMachine.Silent q (pushedBack p) q') (h' : resMachine.Silent q' (pushedBack p') q'') :
    resMachine.Silent q (pushedBack (p ++ p')) q'' := by
  rw [pushedBack_append]
  exact h.append h'

section Match

variable {format : List UInt8} {emit : Cell → List Passed}

/-- Some bytes of a format, read back. -/
theorem silent_take (g : Nat → ResCtl) (done : ResMachine) (miss : Cell → Out) (hnz : 0 ∉ format) (hemit : ∀ c, emit (c, true) = [])
    (hstep : ∀ j < format.length, ∀ x, (q.goto (g j)).stepByte x =
      HttpProxy.stepMatch format j (fun i => q.goto (g i)) done miss emit x)
    {i : Nat} (hi : i < format.length) :
    resMachine.Silent (q.goto (g 0)) (pushedBack (format.take i)) (q.goto (g i)) := by
  induction i with
  | zero => exact Transducer.Silent.nil _
  | succ i ih =>
    have hlt : i < format.length := Nat.lt_of_succ_lt hi
    have hget : format.getD i 0 = format[i] := by
      rw [List.getD_eq_getElem?_getD, List.getElem?_eq_getElem hlt, Option.getD_some]
    have hs := hstep i hlt (format[i], true)
    rw [HttpProxy.stepMatch, hget, if_pos rfl, if_neg (by omega), hemit] at hs
    rw [List.take_succ_eq_append_getElem hlt]
    refine silent_append (ih hlt) (silent_byte (fun h0 => hnz ?_) hs)
    rw [← h0]
    exact List.getElem_mem hlt

/-- All the bytes of a format. -/
theorem silent_format (g : Nat → ResCtl) (done : ResMachine) (miss : Cell → Out)
    (hne : format ≠ []) (hnz : 0 ∉ format) (hemit : ∀ c, emit (c, true) = [])
    (hstep : ∀ j < format.length, ∀ x, (q.goto (g j)).stepByte x =
      HttpProxy.stepMatch format j (fun i => q.goto (g i)) done miss emit x) :
    resMachine.Silent (q.goto (g 0)) (pushedBack format) done := by
  have hpos := List.length_pos_of_ne_nil hne
  have hlt : format.length - 1 < format.length := by omega
  have hget : format.getD (format.length - 1) 0 = format[format.length - 1] := by
    rw [List.getD_eq_getElem?_getD, List.getElem?_eq_getElem hlt, Option.getD_some]
  have hs := hstep _ hlt (format[format.length - 1], true)
  rw [HttpProxy.stepMatch, hget, if_pos rfl, if_pos (by omega), hemit] at hs
  have hne0 : format[format.length - 1] ≠ 0 := fun h0 => hnz (h0 ▸ List.getElem_mem hlt)
  have happ := silent_append (silent_take g done miss hnz hemit hstep hlt) (silent_byte hne0 hs)
  rwa [← List.take_succ_eq_append_getElem hlt, Nat.sub_add_cancel hpos, List.take_length] at happ

end Match

theorem passes_pushedBack (c : UInt8) : passes (c, true) = [] := rfl

theorem passesFraming_pushedBack (d : ResponseFields) (c : UInt8) : passesFraming d (c, true) = [] := by
  unfold passesFraming
  rw [echoed_pushedBack]
  rfl

/-- The digits of a number, read back. -/
theorem silent_digits {r : Radix} (hr : r.Lawful) (hzero : r.isDigit 0 = false) (g : Option Int → ResCtl)
    (hstep : ∀ n c, r.isDigit c = true → (q.goto (g n)).stepByte (c, true) =
      (q.goto (g (some (toInt32 (r.base * n.getD 0 + r.value c)))), []))
    {v : Int} (h₀ : 0 ≤ v) (h₁ : v < 2 ^ 31) :
    resMachine.Silent (q.goto (g none)) (pushedBack (digitsOf r v)) (q.goto (g (some v))) := by
  suffices digits : ∀ (ds : List UInt8) (n : Option Int), (∀ c ∈ ds, r.isDigit c = true) →
      resMachine.Silent (q.goto (g n)) (pushedBack ds) (q.goto (g (numberValue r n ds))) by
    have h := digits (digitsOf r v) none fun c hc => isDigit_of_mem_digitsOf hr hc
    rwa [numberValue_digitsOf hr h₀ h₁] at h
  intro ds
  induction ds with
  | nil => exact fun n _ => Transducer.Silent.nil _
  | cons c ds ih =>
    intro n hds
    have hc := hds c List.mem_cons_self
    have hne : c ≠ 0 := by
      intro h0
      rw [h0, hzero] at hc
      cases hc
    exact silent_append (silent_byte hne (hstep n c hc)) (ih _ fun d hd => hds d (List.mem_cons_of_mem _ hd))

/-! ### The head -/

/-- `HTTP/1.` is read back to the place in it, or in front of the digit. -/
theorem silent_version (q : ResMachine) :
    (∀ i < (lit "HTTP/1.").length, resMachine.Silent (q.goto (.version 0))
      (pushedBack ((lit "HTTP/1.").take i)) (q.goto (.version i))) ∧
    resMachine.Silent (q.goto (.version 0)) (pushedBack (lit "HTTP/1.")) (q.goto .versionDigit) :=
  ⟨fun _ hi => silent_take .version (q.goto .versionDigit) (stepHalt (q.reject .RES_VERSION_ERROR))
      (by decide) passes_pushedBack (fun _ _ _ => rfl) hi,
    silent_format .version (q.goto .versionDigit) (stepHalt (q.reject .RES_VERSION_ERROR)) (by decide)
      (by decide) passes_pushedBack fun _ _ _ => rfl⟩

/-- `CON` is read back up to the place in it. -/
theorem silent_con (q : ResMachine) {i : Nat} (hi : i < (lit "ON").length) :
    resMachine.Silent (q.goto .headers) (pushedBack (lit "C" ++ (lit "ON").take i)) (q.goto (.con i)) := by
  have hc : resMachine.Silent (q.goto .headers) (pushedBack [0x43]) (q.goto (.con 0)) :=
    silent_byte (by decide) rfl
  rw [show lit "C" = [0x43] by decide]
  exact silent_append hc (silent_take .con (q.goto (.tent 0)) q.stepHeaders (by decide)
    passes_pushedBack (fun _ _ _ => rfl) hi)

/-- `CON` is read back in front of what distinguishes the fields. -/
theorem silent_CON (q : ResMachine) :
    resMachine.Silent (q.goto .headers) (pushedBack (lit "CON")) (q.goto (.tent 0)) := by
  have hc : resMachine.Silent (q.goto .headers) (pushedBack [0x43]) (q.goto (.con 0)) :=
    silent_byte (by decide) rfl
  rw [show lit "CON" = [0x43] ++ lit "ON" by decide]
  exact silent_append hc
    (silent_format .con (q.goto (.tent 0)) q.stepHeaders (by decide) (by decide) passes_pushedBack
      fun _ _ _ => rfl)

/-- `CONTENT-` is read back up to the place in it. -/
theorem silent_tent (q : ResMachine) {i : Nat} (hi : i < (lit "TENT-").length) :
    resMachine.Silent (q.goto .headers) (pushedBack (lit "CON" ++ (lit "TENT-").take i))
      (q.goto (.tent i)) :=
  silent_append (silent_CON q)
    (silent_take .tent (q.goto .content) (q.stepName .connection 0) (by decide) passes_pushedBack
      (fun _ _ _ => rfl) hi)

/-- `CONTENT-` is read back in front of the three names. -/
theorem silent_content (q : ResMachine) :
    resMachine.Silent (q.goto .headers) (pushedBack (lit "CONTENT-")) (q.goto .content) := by
  rw [show lit "CONTENT-" = lit "CON" ++ lit "TENT-" by decide]
  exact silent_append (silent_CON q)
    (silent_format .tent (q.goto .content) (q.stepName .connection 0) (by decide) (by decide)
      passes_pushedBack fun _ _ _ => rfl)

/-- What was read of a name other than `Connection` leads to the rest of it. -/
theorem silent_known (q : ResMachine) {f : HeaderField} (hf : f ≠ .connection) :
    resMachine.Silent (q.goto .headers) (pushedBack f.known) (q.goto (.name f 0)) := by
  cases f with
  | connection => exact absurd rfl hf
  | contentLength =>
    rw [show HeaderField.contentLength.known = lit "CONTENT-" ++ [0x4c] by decide]
    exact silent_append (silent_content q) (silent_byte (by decide) rfl)
  | contentEncoding =>
    rw [show HeaderField.contentEncoding.known = lit "CONTENT-" ++ [0x45] by decide]
    exact silent_append (silent_content q) (silent_byte (by decide) rfl)
  | contentType =>
    rw [show HeaderField.contentType.known = lit "CONTENT-" ++ [0x54] by decide]
    exact silent_append (silent_content q) (silent_byte (by decide) rfl)
  | transferEncoding =>
    rw [show HeaderField.transferEncoding.known = [0x54] by decide]
    exact silent_byte (by decide) rfl

/-- No zero byte is pushed back inside a name. -/
theorem zero_not_mem_format (f : HeaderField) : 0 ∉ f.format := by
  cases f <;> decide

/-- The name of a field is read back up to the place in it. -/
theorem silent_name (q : ResMachine) {f : HeaderField} {i : Nat} (h : (ResCtl.name f i).Bounded q.d) :
    resMachine.Silent (q.goto .headers) (pushedBack (f.known ++ f.format.take i))
      (q.goto (.name f i)) := by
  obtain ⟨hi, hpos⟩ := h
  by_cases hf : f = .connection
  · subst hf
    obtain ⟨i, rfl⟩ := Nat.exists_eq_succ_of_ne_zero (Nat.pos_iff_ne_zero.mp (hpos rfl))
    -- The `N` that `TENT-` misses is the first byte of the rest of the name.
    have hn : resMachine.Silent (q.goto (.tent 0)) (pushedBack [0x4e]) (q.goto (.name .connection 1)) :=
      silent_byte (by decide) rfl
    have hname : ∀ j < (lit "NECTION:").length, 0 < j → resMachine.Silent (q.goto (.tent 0))
        (pushedBack ((lit "NECTION:").take j)) (q.goto (.name .connection j)) := by
      intro j
      induction j with
      | zero => exact fun _ h => absurd h (Nat.lt_irrefl 0)
      | succ j ih =>
        intro hj _
        by_cases hj0 : j = 0
        · subst hj0
          rw [show (lit "NECTION:").take (0 + 1) = [0x4e] by decide]
          exact hn
        · have hlt : j < (lit "NECTION:").length := Nat.lt_of_succ_lt hj
          rw [List.take_succ_eq_append_getElem hlt]
          refine silent_append (ih hlt (Nat.pos_of_ne_zero hj0)) (silent_byte ?_ ?_)
          · intro h0
            exact zero_not_mem_format .connection (h0 ▸ List.getElem_mem hlt)
          · have hget : (lit "NECTION:").getD j 0 = (lit "NECTION:")[j] := by
              rw [List.getD_eq_getElem?_getD, List.getElem?_eq_getElem hlt, Option.getD_some]
            change (q.goto (.name .connection j)).stepName .connection j _ = _
            unfold stepName stepMatch HttpProxy.stepMatch
            rw [HeaderField.format, hget, if_pos rfl, if_neg (by omega)]
            rfl
    exact silent_append (silent_CON q) (hname (i + 1) hi (Nat.succ_pos i))
  · exact silent_append (silent_known q hf)
      (silent_take (.name f) (q.goto (.space (.value f))) q.stepHeaders (zero_not_mem_format f)
        passes_pushedBack (fun _ _ _ => rfl) hi)

/-- The line ends in front of the empty line are read back. -/
theorem silent_cr (q : ResMachine) :
    resMachine.Silent (q.goto .headers) (pushedBack [CR]) (q.goto .cr) ∧
      resMachine.Silent (q.goto .headers) (pushedBack [CR, LF]) (q.goto .crlf) ∧
      resMachine.Silent (q.goto .headers) (pushedBack [CR, LF, CR]) (q.goto .crlfcr) := by
  have hcr : resMachine.Silent (q.goto .headers) (pushedBack [CR]) (q.goto .cr) :=
    silent_byte (by decide) rfl
  have hlf : resMachine.Silent (q.goto .cr) (pushedBack [LF]) (q.goto .crlf) :=
    silent_byte (by decide) rfl
  have hcr' : resMachine.Silent (q.goto .crlf) (pushedBack [CR]) (q.goto .crlfcr) :=
    silent_byte (by decide) rfl
  exact ⟨hcr, silent_append hcr hlf, silent_append hcr (silent_append hlf hcr')⟩

/-! ### Chunks -/

/-- The digits of a chunk's size are read back to the same number. -/
theorem silent_chunkSize (q : ResMachine) {v : Int} (h₀ : 0 ≤ v) (h₁ : v < 2 ^ 31) :
    resMachine.Silent (q.goto (.chunkSize none)) (pushedBack (digitsOf .hex v))
      (q.goto (.chunkSize (some v))) := by
  refine silent_digits Radix.hex_lawful rfl .chunkSize (fun n c hc => ?_) h₀ h₁
  change (q.goto (.chunkSize n)).stepChunkSize n (c, true) = _
  unfold stepChunkSize stepNumber
  rw [if_pos hc, passesFraming_pushedBack]
  rfl

/-- The line of a chunk's size. -/
theorem silent_sizeLine (q : ResMachine) {v : Int} (h₀ : 0 ≤ v) (h₁ : v < 2 ^ 31) :
    resMachine.Silent (q.goto (.chunkSize none)) (pushedBack (digitsOf .hex v ++ [CR]))
      ((q.setBodyLength v).goto (.chunkSizeEnd 1)) ∧
    resMachine.Silent (q.goto (.chunkSize none)) (pushedBack (digitsOf .hex v ++ [CR, LF]))
      ((q.setBodyLength v).goto (chunkCtl { q.d with bodyLength := v })) := by
  have hcr : resMachine.Silent (q.goto (.chunkSize (some v))) (pushedBack [CR])
      ((q.setBodyLength v).goto (.chunkSizeEnd 1)) := by
    refine silent_byte (by decide) ?_
    change (q.goto (.chunkSize (some v))).stepChunkSize (some v) (CR, true) = _
    unfold stepChunkSize stepNumber
    rw [if_neg (by decide)]
    exact Prod.ext rfl (passesFraming_pushedBack _ CR)
  have hlf : resMachine.Silent ((q.setBodyLength v).goto (.chunkSizeEnd 1)) (pushedBack [LF])
      ((q.setBodyLength v).goto (chunkCtl { q.d with bodyLength := v })) :=
    silent_byte (by decide) (Prod.ext rfl (passesFraming_pushedBack _ LF))
  have hline := silent_append (silent_chunkSize q h₀ h₁) hcr
  refine ⟨hline, ?_⟩
  rw [show digitsOf .hex v ++ [CR, LF] = (digitsOf .hex v ++ [CR]) ++ [LF] by
    rw [List.append_assoc]; rfl]
  exact silent_append hline hlf

/-- The line end behind a chunk is read back up to the place in it. -/
theorem silent_chunkEnd (q : ResMachine) (last : Bool) {i : Nat} (hi : i < [CR, LF].length) :
    resMachine.Silent (q.goto (.chunkEnd last 0)) (pushedBack ([CR, LF].take i))
      (q.goto (.chunkEnd last i)) :=
  silent_take (.chunkEnd last) (q.goto (if last then .halt .finished [] else .chunkSize none))
    (stepHalt (q.reject .CHUNKS_ERROR)) (by decide) (passesFraming_pushedBack q.d) (fun _ _ _ => rfl) hi

/-- Behind the data of a chunk. -/
theorem silent_chunk (q : ResMachine) (last : Bool) :
    resMachine.Silent (q.goto (.chunkSize none))
      (pushedBack (if last then lit "0\r\n" else lit "1\r\n1"))
      ((q.setBodyLength 0).goto (.chunkEnd last 0)) := by
  cases last with
  | true =>
    rw [if_pos rfl, show lit "0\r\n" = digitsOf .hex 0 ++ [CR, LF] by decide]
    exact (silent_sizeLine q (Int.le_refl 0) (by decide)).2
  | false =>
    have hdata : resMachine.Silent ((q.setBodyLength 1).goto .chunkData) (pushedBack [0x31])
        ((q.setBodyLength 0).goto (.chunkEnd false 0)) := by
      refine silent_byte (by decide) (Prod.ext rfl ?_)
      exact List.map_eq_nil_iff.mpr (echoed_pushedBack true 0x31)
    rw [if_neg Bool.false_ne_true, show lit "1\r\n1" = (digitsOf .hex 1 ++ [CR, LF]) ++ [0x31] by decide]
    exact silent_append (silent_sizeLine q (by decide) (by decide)).2 hdata

/-! ### Every state -/

/-- What was pushed back leads to the state the machine was in. -/
theorem silent_pushBack (h : q.Inv) (hr : q.Recalled) :
    resMachine.Silent (q.goto q.startCtl) (pushedBack q.pushBack) (q.goto q.ctl.resumed) := by
  have hb := h.bounded
  have hchunks : q.d.isChunked = true → bodyCtl q.d = .chunkSize none := fun hc => if_pos hc
  have hlength : q.setBodyLength q.d.bodyLength = q := rfl
  unfold Recalled at hr
  unfold startCtl pushBack
  cases hctl : q.ctl <;> rw [hctl] at hb hr
  case version i => exact (silent_version q).1 i hb.1
  case versionDigit => exact (silent_version q).2
  case con => exact silent_con q hb
  case tent => exact silent_tent q hb
  case content => exact silent_content q
  case name => exact silent_name q hb
  case cr => exact (silent_cr q).1
  case crlf => exact (silent_cr q).2.1
  case crlfcr => exact (silent_cr q).2.2
  case status n =>
    obtain ⟨v, rfl, hv⟩ := hb
    refine silent_digits Radix.dec_lawful rfl .status (fun n c hc => ?_) hr hv
    change (q.goto (.status n)).stepStatus n (c, true) = _
    unfold stepStatus stepNumber
    rw [if_pos hc]
    rfl
  case length n =>
    obtain ⟨v, rfl, hv⟩ := hb
    refine silent_digits Radix.dec_lawful rfl .length (fun n c hc => ?_) hr hv
    change (q.goto (.length n)).stepLength n (c, true) = _
    unfold stepLength stepNumber
    rw [if_pos hc]
    rfl
  case encoding i =>
    exact silent_take .encoding (q.setEncoding.goto .headers) q.stepHeaders (by decide)
      passes_pushedBack (fun _ _ _ => rfl) hb
  case chunked i =>
    exact silent_take .chunked (q.setChunked.goto .headers) q.stepHeaders (by decide)
      passes_pushedBack (fun _ _ _ => rfl) hb
  -- Of a body nothing is pushed back but the line of a chunk's size.
  case data =>
    rw [show bodyCtl q.d = .data from hb]
    exact Transducer.Silent.nil _
  case untilClose =>
    rw [show bodyCtl q.d = .untilClose from hb]
    exact Transducer.Silent.nil _
  case chunkSize n =>
    rw [hchunks hb.1]
    refine silent_chunkSize q hr ?_
    cases n with
    | none => decide
    | some v => exact hb.2 v rfl
  case chunkSizeEnd i =>
    obtain ⟨hc, hpos, hi, hlt⟩ := hb
    rw [hchunks hc]
    obtain rfl : i = 1 := Nat.le_antisymm (Nat.le_of_lt_succ hi) hpos
    have hline := (silent_sizeLine q hr hlt).1
    rwa [hlength] at hline
  case chunkData =>
    obtain ⟨hc, hpos, hlt⟩ := hb
    rw [hchunks hc]
    have hline := (silent_sizeLine q (Int.le_of_lt hpos) hlt).2
    rwa [hlength, chunkCtl, if_pos hpos] at hline
  case chunkEnd last i =>
    obtain ⟨hc, hi, hlast⟩ := hb
    rw [hchunks hc]
    -- With nothing of the chunk missing, a chunk of no length is put in its place.
    have hzero : q.d.bodyLength = 0 := by
      cases last with
      | true => exact Int.le_antisymm hlast hr
      | false => exact hlast
    have hset : q.setBodyLength 0 = q := by rw [← hzero]; rfl
    have hchunk := silent_chunk q last
    rw [hset] at hchunk
    exact silent_append hchunk (silent_chunkEnd q last hi)
  all_goals exact Transducer.Silent.nil _

/-- A chunk size without digits and one of zero read a digit alike. -/
theorem stepChunkSize_zero (q : ResMachine) {x : Cell} (hx : Radix.hex.isDigit x.1 = true) :
    q.stepChunkSize (some 0) x = q.stepChunkSize none x := by
  unfold stepChunkSize stepNumber
  rw [if_pos hx, if_pos hx]
  rfl

/-- A later call does with more input what the machine does with it. -/
theorem run_resumed {l : List Cell} (hl : l ≠ [])
    (hdigit : q.ctl = .chunkSize none → ∀ x ∈ l.head?, Radix.hex.isDigit x.1 = true) :
    resMachine.run (q.goto q.ctl.resumed) l = resMachine.run q l := by
  by_cases hctl : q.ctl = .chunkSize none
  · obtain ⟨x, l, rfl⟩ := List.exists_cons_of_ne_nil hl
    have hx := hdigit hctl x rfl
    have hne : x.1 ≠ 0 := by
      intro h0
      rw [h0] at hx
      cases hx
    have hstep : resMachine.step (q.goto q.ctl.resumed) x = resMachine.step q x := by
      rw [res_step_of_ne hne, res_step_of_ne hne, hctl]
      unfold stepByte
      rw [hctl]
      exact stepChunkSize_zero q hx
    rw [Transducer.run_cons, Transducer.run_cons, hstep]
  · have hres : q.ctl.resumed = q.ctl := by
      cases h : q.ctl with
      | chunkSize n =>
        cases n with
        | none => exact absurd h hctl
        | some v => rfl
      | _ => rfl
    rw [hres]
    rfl

/-! ## What is pushed back -/

/-- A size in an `int` has eight digits at most, so that there is room to push it back. -/
theorem length_digitsOf_hex {n : Int} (h : n < 2 ^ 31) : (digitsOf .hex n).length ≤ 8 := by
  unfold digitsOf
  split
  · decide
  · exact length_digitsLoop_le (by change n.toNat < 16 ^ 8; omega)

/-- What is pushed back fits in the reserved zone. -/
theorem Inv.length_pushBack (h : q.Inv) : q.pushBack.length ≤ PUSH_BACK_ROOM := by
  have hb := h.bounded
  have htake : ∀ (l : List UInt8) (i : Nat), (l.take i).length ≤ l.length :=
    fun l i => List.length_take_le' i l
  unfold pushBack
  cases hctl : q.ctl <;> rw [hctl] at hb
  case version i => exact Nat.le_trans (htake _ i) (by decide)
  case versionDigit => exact (by decide : (lit "HTTP/1.").length ≤ PUSH_BACK_ROOM)
  case status n =>
    obtain ⟨v, rfl, hv⟩ := hb
    exact Nat.le_trans (length_digitsOf_dec hv) (by decide)
  case con i =>
    have := htake (lit "ON") i
    rw [List.length_append]
    exact Nat.le_trans (Nat.add_le_add_left this _) (by decide)
  case tent i =>
    have := htake (lit "TENT-") i
    rw [List.length_append]
    exact Nat.le_trans (Nat.add_le_add_left this _) (by decide)
  case content => exact (by decide : (lit "CONTENT-").length ≤ PUSH_BACK_ROOM)
  case name f i =>
    have := htake f.format i
    rw [List.length_append]
    exact Nat.le_trans (Nat.add_le_add_left this _) (by cases f <;> decide)
  case length n =>
    obtain ⟨v, rfl, hv⟩ := hb
    exact Nat.le_trans (length_digitsOf_dec hv) (by decide)
  case encoding i => exact Nat.le_trans (htake _ i) (by decide)
  case chunked i => exact Nat.le_trans (htake _ i) (by decide)
  case chunkSize n =>
    refine Nat.le_trans (length_digitsOf_hex ?_) (by decide)
    cases n with
    | none => decide
    | some v => exact hb.2 v rfl
  case chunkSizeEnd i =>
    have := htake [CR, LF] i
    rw [List.length_append]
    exact Nat.le_trans (Nat.add_le_add (length_digitsOf_hex hb.2.2.2) this) (by decide)
  case chunkData =>
    rw [List.length_append]
    exact Nat.le_trans (Nat.add_le_add_right (length_digitsOf_hex hb.2.2) _) (by decide)
  case chunkEnd last i =>
    have := htake [CR, LF] i
    rw [List.length_append]
    exact Nat.le_trans (Nat.add_le_add_left this _) (by cases last <;> decide)
  case cr => exact (by decide : 1 ≤ PUSH_BACK_ROOM)
  case crlf => exact (by decide : 2 ≤ PUSH_BACK_ROOM)
  case crlfcr => exact (by decide : 3 ≤ PUSH_BACK_ROOM)
  all_goals exact Nat.zero_le _

end ResMachine

end HttpProxy
