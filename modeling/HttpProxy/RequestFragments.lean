import HttpProxy.RequestLike
import HttpProxy.RequestRefinement

/-!
# Requests that arrive in fragments

`feed` is what the proxy does with the fragments of a request: it appends each to the input buffer
and calls `checkRequest`, until a call accepts or rejects the request. By `feed_run` the fragments
have the outcome of the machine's run over all the bytes, as long as every cut is one the parser can
come back from (`SafeCut`); so does the request received whole.

At the other cuts the parser comes back to another state than the one it was in. After a `:` and no
digits yet it pushes back a zero, a port that overflowed into a negative number is not pushed back,
a host and a port of more than 255 bytes do not fit in the reserved zone, and in a target whose
authority is refused the call that read `http://` gives up, while a later one goes on.
-/

namespace HttpProxy

/-- Size of the reserved zone of the input buffer. -/
abbrev RESERVED : Nat := 255

/-! ## Feeding fragments -/

/-- What the caller of the parser holds between two reads. -/
structure Feed where
  rData : RequestData
  bIn : Buffer
  bOut : Buffer
  calls : List (List UInt8 × Int)
deriving DecidableEq, Repr

/-- A new connection. -/
def Feed.start (bIn bOut : Buffer) : Feed := ⟨defaultRequestStruct, bIn, bOut, []⟩

/-- What a call of `checkRequest` makes of it. -/
def Feed.after (f : Feed) (r : RequestResult) : Feed :=
  ⟨r.rData, r.bIn, r.bOut, f.calls ++ r.calls⟩

/-- `checkRequest` after each fragment; `none` when a call does not return. -/
def feed (f : Feed) : List (List UInt8) → Option Feed
  | [] => some f
  | w :: ws =>
    match checkRequest f.rData (bufferWriteAll f.bIn w) f.bOut with
    | none => none
    | some r =>
      if r.rData.state ≠ .OK ∨ r.rData.parserState = .FINISHED then some (f.after r)
      else feed (f.after r) ws

/-- What came of a request. -/
inductive ReqOutcome
  | accepted (calls : List (List UInt8 × Int)) (method : HttpMethod) (version : HttpVersion)
      (isLocalHost : Bool) (bOut : Buffer)
  | rejected (e : RequestErr)
  | waiting
deriving DecidableEq, Repr

def Feed.outcome (f : Feed) : ReqOutcome :=
  if f.rData.state ≠ .OK then .rejected f.rData.state
  else if f.rData.parserState = .FINISHED then
    .accepted f.calls f.rData.method f.rData.version f.rData.isLocalHost f.bOut
  else .waiting

/-- What came of the request the machine has read; `none` when it spins. -/
def ReqMachine.outcome (q : ReqMachine) (bOut : Buffer) : Option ReqOutcome :=
  match q.ctl with
  | .halt .accepted _ =>
    some (.accepted q.calls q.d.method q.d.version q.d.isLocalHost bOut)
  | .halt .rejected _ => some (.rejected q.d.state)
  | .halt .spin _ => none
  | _ => some .waiting

/-- The machine at the start of a request. -/
def ReqMachine.initial : ReqMachine := ⟨.method, { version := .v1_1 }, []⟩

/-! ## Cuts -/

/-- A cut, with the machine in `q` and `rest` to come, that the parser comes back from. -/
structure SafeCut (q : ReqMachine) (rest : List Cell) : Prop where
  stalled : ∀ unread, q.ctl ≠ .halt .stalled unread
  refused : q.ctl ≠ .refused
  fits : q.pushBack.length ≤ RESERVED
  port : ∀ place i v, q.ctl = .port place i (some v) → 0 ≤ v
  digit : ∀ place i, q.ctl = .port place i none → ∀ x ∈ rest.head?, isdigit x.1 = true
  authority : q.refuses rest = false

/-- The next call presets the version the machine has, or there is no next call. -/
def ReqMachine.KeepsVersion (q : ReqMachine) : Prop :=
  q.d.version = .v1_1 ∨ ∃ why unread, q.ctl = .halt why unread

/-- Something holds at every cut between fragments that are read from `q`. -/
def AtCuts (P : ReqMachine → List Cell → Prop) : ReqMachine → List (List UInt8) → Prop
  | _, [] => True
  | q, w :: ws =>
    (ws ≠ [] → P (reqMachine.stateAfter q (fresh w)) (fresh ws.flatten)) ∧
      AtCuts P (reqMachine.stateAfter q (fresh w)) ws

/-! ## One call -/

namespace ReqMachine

variable {q : ReqMachine}

/-- What is not refused on the way is not refused at the beginning of it. -/
theorem refuses_append {l m : List Cell} (h : q.refuses (l ++ m) = false) :
    q.refuses l = false := by
  induction l generalizing q with
  | nil => rfl
  | cons x l ih =>
    simp only [List.cons_append, refuses, Bool.or_eq_false_iff, Bool.and_eq_false_imp] at h ⊢
    exact ⟨h.1, fun hm => ih (h.2 hm)⟩

/-- A port without digits and a port of zero read a digit alike. -/
theorem step_port_zero (q : ReqMachine) (place : HostPlace) (i : Nat) {x : Cell}
    (hx : isdigit x.1 = true) :
    (q.goto (.port place i (some 0))).step x = (q.goto (.port place i none)).step x := by
  have hs : ∀ n, (q.goto (.port place i n)).step x = (q.goto (.port place i n)).stepPort place i n x :=
    fun _ => rfl
  rw [hs, hs]
  unfold stepPort stepNumber
  rw [if_pos (show Radix.dec.isDigit x.1 = true from hx),
    if_pos (show Radix.dec.isDigit x.1 = true from hx)]
  rfl

/-- What was pushed back leads to the state the machine was in, as a later call has it. -/
theorem run_resumed {l : List Cell} (hrefused : q.ctl ≠ .refused) (hl : l ≠ [])
    (hdigit : ∀ place i, q.ctl = .port place i none → ∀ x ∈ l.head?, isdigit x.1 = true)
    (hhalt : ∀ why unread, q.ctl ≠ .halt why unread) :
    reqMachine.run (q.goto q.ctl.resumed) l = reqMachine.run q.moved l := by
  unfold moved
  cases hctl : q.ctl with
  | halt why unread => exact absurd hctl (hhalt why unread)
  | refused => exact absurd hctl hrefused
  | host place i => cases place <;> rfl
  | port place i n =>
    have hplace : ReqCtl.moved (.port place i n) = .port place.resumed i n := by cases place <;> rfl
    rw [hplace]
    cases n with
    | some v => rfl
    | none =>
      obtain ⟨x, l, rfl⟩ := List.exists_cons_of_ne_nil hl
      have hx := hdigit place i hctl x rfl
      have hstep : reqMachine.step (q.goto (.port place.resumed i (some 0))) x =
          reqMachine.step (q.goto (.port place.resumed i none)) x := step_port_zero q _ i hx
      exact congrArg (fun r : Out => ((reqMachine.run r.1 l).1, r.2 ++ (reqMachine.run r.1 l).2)) hstep
  | _ => rfl

end ReqMachine

/-- Between two calls: the parser came to rest in the state `q` of the machine. -/
structure Feed.Resting (f : Feed) (q : ReqMachine) : Prop where
  inv : q.Inv
  rests : q.ctl.Rests
  fields : ∃ v, f.rData.toRequestFields = { q.d with version := v }
  parserState : f.rData.parserState = q.ctl.parserState
  next : ∀ n, q.ctl = .space n → f.rData.next = n.parserState
  rData : f.rData.Wf
  bIn : f.bIn.Wf
  reserved : f.bIn.infLimit = RESERVED
  cells : f.bIn.cells = pushedBack q.pushBack
  calls : f.calls = []

/-- A parser at rest has not halted. -/
theorem ReqCtl.Rests.not_halt {ctl : ReqCtl} (h : ctl.Rests) (why : Halt) (unread : List Cell) :
    ctl ≠ .halt why unread := by
  rintro rfl
  exact h

/-- A parser at rest is not behind a port. -/
theorem ReqCtl.Rests.not_portEnd {ctl : ReqCtl} (h : ctl.Rests) : ctl ≠ .portEnd := by
  rintro rfl
  exact h

/-- The call starts in the state that the control state is of. -/
theorem startCtl_eq {rd : RequestData} {ctl : ReqCtl} (h : ctl.Rests)
    (hp : rd.parserState = ctl.parserState) (hn : ∀ n, ctl = .space n → rd.next = n.parserState) :
    rd.startCtl = ctl.start := by
  unfold RequestData.startCtl
  rw [hp]
  cases ctl with
  | space n =>
    simp only [ReqCtl.parserState, ReqCtl.start, hn n rfl]
    cases n <;> rfl
  | host place i => cases place <;> rfl
  | port place i n => cases place <;> rfl
  | portEnd => exact absurd rfl h.not_portEnd
  | halt why unread => exact absurd rfl (h.not_halt why unread)
  | _ => rfl

namespace Feed.Resting

variable {f : Feed} {q : ReqMachine}

/-- A parser at rest has neither accepted nor rejected. -/
theorem live (h : f.Resting q) : q.Live := (h.inv.live rfl h.rests.not_halt).1

/-- The state a call starts in. -/
theorem machine_callStart (h : f.Resting q) (b : Buffer) :
    (callStart f.rData b).machine = (q.withVersion .v1_1).goto q.ctl.start := by
  obtain ⟨v, hv⟩ := h.fields
  have hstart : (callStart f.rData b).rData.startCtl = q.ctl.start :=
    startCtl_eq h.rests h.parserState h.next
  have hfields : (callStart f.rData b).rData.toRequestFields = { q.d with version := .v1_1 } := by
    change { f.rData.toRequestFields with version := .v1_1 } = _
    rw [hv]
  unfold ReqState.machine
  rw [hstart, hfields]
  change ReqMachine.mk _ _ [] = ReqMachine.mk _ _ q.calls
  rw [h.live.calls]
  rfl

/-- A call on a fragment does what the machine does on it. -/
theorem run_call {late : Prop} (h : f.Resting q) {w rest : List UInt8} (hw : w ≠ [])
    (cut : SafeCut q (fresh (w ++ rest))) (hversion : late ∨ .v1_1 = q.d.version) (b : Buffer) :
    ReqMachine.Like late (reqMachine.stateAfter q (fresh w))
        (reqMachine.stateAfter (callStart f.rData b).machine (pushedBack q.pushBack ++ fresh w)) ∧
      reqMachine.emitted (callStart f.rData b).machine (pushedBack q.pushBack ++ fresh w) =
        reqMachine.emitted q (fresh w) := by
  have hne : fresh w ≠ [] := by simpa only [fresh, ne_eq, List.map_eq_nil_iff] using hw
  have hhead : ∀ x ∈ (fresh w).head?, x ∈ (fresh (w ++ rest)).head? := by
    obtain ⟨c, w, rfl⟩ := List.exists_cons_of_ne_nil hw
    exact fun x hx => hx
  have hreplay : reqMachine.run ((q.withVersion .v1_1).goto q.ctl.start) (pushedBack q.pushBack) =
      ((q.withVersion .v1_1).goto q.ctl.resumed, []) :=
    ReqMachine.replays_pushBack (h.inv.withVersion (by decide)) h.rests.not_halt
      h.rests.not_portEnd cut.port
  have hresumed : reqMachine.run ((q.withVersion .v1_1).goto q.ctl.resumed) (fresh w) =
      reqMachine.run (q.withVersion .v1_1).moved (fresh w) :=
    ReqMachine.run_resumed cut.refused hne
      (fun place i hctl x hx => cut.digit place i hctl x (hhead x hx)) h.rests.not_halt
  have hrun : reqMachine.run (callStart f.rData b).machine (pushedBack q.pushBack ++ fresh w) =
      reqMachine.run (q.moved.withVersion .v1_1) (fresh w) := by
    rw [h.machine_callStart b, Transducer.run_append, hreplay, hresumed]
    rfl
  have hrefuses : q.refuses (fresh w) = false :=
    ReqMachine.refuses_append (m := fresh rest) (by rw [← fresh_append]; exact cut.authority)
  unfold Transducer.stateAfter Transducer.emitted
  rw [hrun]
  exact ReqMachine.run_moved (fresh w) h.inv (by decide) hversion hrefuses

end Feed.Resting

namespace ReqMachine.Like

variable {late : Prop} {q q' : ReqMachine}

/-- Machines that are alike have announced the same. -/
theorem calls (h : Like late q q') : q'.calls = q.calls := by cases h <;> rfl

/-- Machines that are alike differ in the version alone, of what they know. -/
theorem fields (h : Like late q q') :
    ∃ v, (late ∨ v = q.d.version) ∧ q'.d = { q.d with version := v } := by
  cases h with
  | same v _ hlate => exact ⟨v, hlate, rfl⟩
  | moved v _ hlate => exact ⟨v, hlate, rfl⟩

/-- Machines that are alike are in the same state, or in the other place for a host. -/
theorem ctl (h : Like late q q') : q'.ctl = q.ctl ∨ q'.ctl = q.ctl.moved := by
  cases h with
  | same => exact .inl rfl
  | moved => exact .inr rfl

/-- Machines that are alike push back the same. -/
theorem pushBack (h : Like late q q') : q'.pushBack = q.pushBack := by
  cases h with
  | same => rfl
  | moved => exact pushBack_moved q

/-- The control states differ at most in a host's place. -/
theorem ctl_eq (h : Like late q q') {p : ReqCtl → Prop} (hp : ∀ ctl, p ctl.moved ↔ p ctl) :
    p q'.ctl ↔ p q.ctl := by
  rcases h.ctl with hctl | hctl
  · rw [hctl]
  · rw [hctl]; exact hp _

end ReqMachine.Like

/-! ## Any number of calls -/

/-- The parser rests in both places for a host. -/
theorem ReqCtl.rests_moved (ctl : ReqCtl) : ctl.moved.Rests ↔ ctl.Rests := by
  cases ctl with
  | host place i => cases place <;> exact Iff.rfl
  | port place i n => cases place <;> exact Iff.rfl
  | _ => exact Iff.rfl

/-- Both places for a host are in the same parser state. -/
theorem ReqCtl.parserState_moved (ctl : ReqCtl) : ctl.moved.parserState = ctl.parserState := by
  cases ctl with
  | host place i => cases place <;> rfl
  | port place i n => cases place <;> rfl
  | _ => rfl

/-- Only a machine that has halted is in a state of those. -/
theorem ReqCtl.moved_eq_halt {why : Halt} {unread : List Cell} (ctl : ReqCtl) :
    ctl.moved = .halt why unread ↔ ctl = .halt why unread := by
  cases ctl with
  | host place i => cases place <;> exact ⟨nofun, nofun⟩
  | port place i n => cases place <;> exact ⟨nofun, nofun⟩
  | _ => exact Iff.rfl

/-- A parser at rest has not finished. -/
theorem ReqCtl.Rests.parserState_ne {ctl : ReqCtl} (h : ctl.Rests) :
    ctl.parserState ≠ .FINISHED := by
  cases ctl with
  | halt why unread => exact absurd rfl (h.not_halt why unread)
  | host place i => cases place <;> exact nofun
  | port place i n => cases place <;> exact nofun
  | _ => exact nofun

/-- A machine that has not halted waits. -/
theorem ReqMachine.outcome_of_not_halt {q : ReqMachine} (h : ∀ why unread, q.ctl ≠ .halt why unread)
    (bOut : Buffer) : q.outcome bOut = some .waiting := by
  unfold outcome
  split
  · next hctl => exact absurd hctl (h _ _)
  · next hctl => exact absurd hctl (h _ _)
  · next hctl => exact absurd hctl (h _ _)
  · rfl

/-- A machine that has halted leaves the rest unread. -/
theorem run_of_halt {q : ReqMachine} {why : Halt} {unread : List Cell}
    (h : q.ctl = .halt why unread) (l : List Cell) :
    reqMachine.run q l = (q.goto (.halt why (unread ++ l)), []) := by
  obtain ⟨ctl, d, calls⟩ := q
  obtain rfl : ctl = .halt why unread := h
  exact run_halt why unread d calls l

/-- A parser that found no error and has not finished waits. -/
theorem Feed.outcome_of_waiting {f : Feed} (hs : f.rData.state = .OK)
    (hp : f.rData.parserState ≠ .FINISHED) : f.outcome = .waiting := by
  unfold Feed.outcome
  rw [if_neg (not_not.mpr hs), if_neg hp]

/-- A parser that waits found no error and has not finished. -/
theorem Feed.waiting_of_outcome {f : Feed} (h : f.outcome = .waiting) :
    f.rData.state = .OK ∧ f.rData.parserState ≠ .FINISHED := by
  unfold Feed.outcome at h
  split at h
  · cases h
  · next hs =>
    split at h
    · cases h
    · next hp => exact ⟨not_not.mp hs, hp⟩

/-- A parser that accepted found no error and has finished. -/
theorem Feed.accepted_of_outcome {f : Feed} {calls : List (List UInt8 × Int)} {m : HttpMethod}
    {v : HttpVersion} {isLocalHost : Bool} {bOut : Buffer}
    (h : f.outcome = .accepted calls m v isLocalHost bOut) :
    f.rData.state = .OK ∧ f.rData.parserState = .FINISHED ∧ f.calls = calls ∧ f.bOut = bOut := by
  unfold Feed.outcome at h
  split at h
  · cases h
  · next hs =>
    split at h
    · next hp =>
      obtain ⟨hcalls, -, -, -, hout⟩ := ReqOutcome.accepted.inj h
      exact ⟨not_not.mp hs, hp, hcalls, hout⟩
    · cases h

/-- What a call on a fragment that takes the machine to `q` and emits `e` ends with. -/
inductive Feed.Moves (late : Prop) (f : Feed) (q : ReqMachine) (w e : List UInt8) :
    Option RequestResult → Prop
  | rests {r : RequestResult} (rests : q.ctl.Rests)
      (resting : q.pushBack.length ≤ RESERVED → (f.after r).Resting q)
      (state : r.rData.state = .OK) (parserState : r.rData.parserState ≠ .FINISHED)
      (keeps : (bufferWriteAll f.bIn w).Keeps r.bIn) (out : r.bOut = bufferWriteAll f.bOut e) :
      Moves late f q w e (some r)
  | halts {r : RequestResult} (why : Halt) (unread : List Cell) (v : HttpVersion)
      (hlate : late ∨ v = q.d.version) (ctl : q.ctl = .halt why unread) (spin : why ≠ .spin)
      (fields : r.rData.toRequestFields = { q.d with version := v }) (calls : r.calls = q.calls)
      (parserState : r.rData.parserState = .FINISHED ↔ why = .accepted)
      (state : why = .rejected → r.rData.state ≠ .OK) (out : r.bOut = bufferWriteAll f.bOut e) :
      Moves late f q w e (some r)
  | spins {unread : List Cell} (ctl : q.ctl = .halt .spin unread) : Moves late f q w e none

/-- A call on a fragment moves the parser as the machine moves over it, when the cut behind is a safe
one. -/
theorem Feed.Resting.moves {late : Prop} {f : Feed} {q : ReqMachine} (h : f.Resting q)
    {w rest : List UInt8} (hw : w ≠ []) (cut : SafeCut q (fresh (w ++ rest)))
    (hversion : late ∨ q.KeepsVersion) (hz : 0 ∉ w)
    (hroom : f.bIn.write + w.length ≤ f.bIn.limit) :
    f.Moves late (reqMachine.stateAfter q (fresh w)) w (reqMachine.emitted q (fresh w))
      (checkRequest f.rData (bufferWriteAll f.bIn w) f.bOut) := by
  have hinv := ReqMachine.inv_stateAfter h.inv (fresh w)
  have hkeeps : late ∨ .v1_1 = q.d.version := by
    refine hversion.imp id ?_
    rintro (hver | ⟨why, unread, hctl⟩)
    · exact hver.symm
    · exact absurd hctl (h.rests.not_halt why unread)
  -- The call reads what was pushed back, and behind it the fragment.
  have hcells : (bufferWriteAll f.bIn w).cells = pushedBack q.pushBack ++ fresh w := by
    rw [Buffer.cells_writeAll h.bIn hroom, h.cells]
  have hnonzero : ∀ x ∈ pushedBack q.pushBack ++ fresh w, x.1 ≠ 0 := by
    intro x hx h0
    rcases List.mem_append.mp hx with hx | hx
    · obtain ⟨c, hc, rfl⟩ := List.mem_map.mp hx
      obtain rfl : c = 0 := h0
      exact h.inv.zero_not_mem_pushBack hc
    · obtain ⟨c, hc, rfl⟩ := List.mem_map.mp hx
      obtain rfl : c = 0 := h0
      exact hz hc
  obtain ⟨hlike, hemit⟩ := h.run_call hw cut hkeeps (bufferWriteAll f.bIn w)
  have hcall := checkRequest_move f.bOut h.rData (Buffer.wf_writeAll h.bIn hroom) hcells hnonzero
  have hwf := fun r (hr : checkRequest f.rData (bufferWriteAll f.bIn w) f.bOut = some r) =>
    checkRequest_wf h.rData hr
  generalize checkRequest f.rData (bufferWriteAll f.bIn w) f.bOut = res at hcall hwf ⊢
  generalize reqMachine.stateAfter q (fresh w) = q₂ at hlike hinv ⊢
  rw [← hemit]
  obtain ⟨v, hlate, hfields⟩ := hlike.fields
  cases hcall with
  | @waits r rests calls wf keeps cells out =>
    have hrests : q₂.ctl.Rests := (hlike.ctl_eq ReqCtl.rests_moved).mp rests.rests
    obtain ⟨hlive, -⟩ := hinv.live rfl hrests.not_halt
    have hp : r.rData.parserState = q₂.ctl.parserState :=
      (hlike.ctl_eq (p := fun ctl => r.rData.parserState = ctl.parserState) fun ctl => by
        rw [ReqCtl.parserState_moved]).mp rests.parserState
    have hstate : r.rData.state = .OK := by
      rw [rests.fields, hfields]
      exact hlive.state
    refine .rests hrests (fun hfits => ?_) hstate (hp ▸ hrests.parserState_ne) keeps out
    -- The push-back fits the reserved zone, so that the whole of it is kept.
    have hreserved : (bufferWriteAll f.bIn w).infLimit = RESERVED := by
      rw [Buffer.infLimit_writeAll, h.reserved]
    refine ⟨hinv, hrests, ⟨v, rests.fields.trans hfields⟩, hp, fun n hn => ?_, hwf r rfl, wf,
      keeps.infLimit.trans hreserved, ?_, ?_⟩
    · refine rests.next n ?_
      rcases hlike.ctl with hctl | hctl
      · rw [hctl, hn]
      · rw [hctl, hn]
        rfl
    · rw [hreserved, hlike.pushBack, Buffer.clip_of_le hfits] at cells
      exact cells
    · change f.calls ++ r.calls = []
      rw [h.calls, ← calls, hlike.calls, hlive.calls]
      rfl
  | @halts r why unread spin parserState state after out =>
    have hctl : q₂.ctl = .halt why unread :=
      (hlike.ctl_eq (p := (· = .halt why unread)) ReqCtl.moved_eq_halt).mp (by rw [after])
    refine .halts why unread v hlate hctl spin ?_ ?_ parserState state out
    · rw [← hfields, after]
    · rw [← hlike.calls, after]
  | @spins unread after =>
    exact .spins ((hlike.ctl_eq (p := (· = .halt .spin unread)) ReqCtl.moved_eq_halt).mp after)

/-- The fragments have the outcome of the machine's run over all their bytes, when every cut is one
the parser comes back from. `late` allows it to have forgotten the version. -/
theorem feed_run {late : Prop} (ws : List (List UInt8)) : ∀ {f : Feed} {q : ReqMachine},
    f.Resting q → SafeCut q (fresh ws.flatten) → (late ∨ q.KeepsVersion) → (∀ w ∈ ws, w ≠ []) →
    0 ∉ ws.flatten → f.bIn.write + ws.flatten.length ≤ f.bIn.limit →
    AtCuts (fun q rest => SafeCut q rest ∧ (late ∨ q.KeepsVersion)) q ws →
    ∃ v, (late ∨ v = (reqMachine.stateAfter q (fresh ws.flatten)).d.version) ∧
      (feed f ws).map Feed.outcome =
        ((reqMachine.stateAfter q (fresh ws.flatten)).withVersion v).outcome
          (bufferWriteAll f.bOut (reqMachine.emitted q (fresh ws.flatten))) := by
  induction ws with
  | nil =>
    intro f q h _ _ _ _ _ _
    obtain ⟨v, hfields⟩ := h.fields
    have hstate : f.rData.state = .OK := by
      rw [hfields]
      exact h.live.state
    refine ⟨q.d.version, .inr rfl, ?_⟩
    have hwaits := ReqMachine.outcome_of_not_halt (q := q.withVersion q.d.version) h.rests.not_halt f.bOut
    exact (congrArg some (Feed.outcome_of_waiting hstate
      (h.parserState ▸ h.rests.parserState_ne))).trans hwaits.symm
  | cons w ws ih =>
    intro f q h cut hversion hne hz hroom hcuts
    rw [List.flatten_cons] at cut hz hroom ⊢
    rw [List.length_append] at hroom
    have hz' := mt (List.mem_append (s := w)).mpr hz
    push Not at hz'
    have hmoves := h.moves (hne w List.mem_cons_self) cut hversion hz'.1 (by omega)
    rw [fresh_append, Transducer.stateAfter_append, Transducer.emitted_append, Buffer.writeAll_append]
    unfold feed
    generalize checkRequest f.rData (bufferWriteAll f.bIn w) f.bOut = res at hmoves ⊢
    cases hmoves with
    | @rests r rests resting state parserState keeps out =>
      have hgo : ¬(r.rData.state ≠ .OK ∨ r.rData.parserState = .FINISHED) := by
        rintro (hc | hc)
        · exact hc state
        · exact parserState hc
      simp only
      rw [if_neg hgo]
      by_cases hws : ws = []
      · subst hws
        refine ⟨_, .inr rfl, ?_⟩
        have hwaits := ReqMachine.outcome_of_not_halt
          (q := (reqMachine.stateAfter q (fresh w)).withVersion
            (reqMachine.stateAfter q (fresh w)).d.version) rests.not_halt
        exact (congrArg some (Feed.outcome_of_waiting state parserState)).trans (hwaits _).symm
      · obtain ⟨cut', hversion'⟩ := hcuts.1 hws
        have hwrite := Buffer.write_writeAll (b := f.bIn) (l := w) (by omega)
        have hkw := keeps.write
        have hkl := keeps.limit
        rw [Buffer.limit_writeAll] at hkl
        obtain ⟨v, hlate, hrun⟩ := ih (resting cut'.fits) cut' hversion'
          (fun w hw => hne w (List.mem_cons_of_mem _ hw)) hz'.2
          (show r.bIn.write + _ ≤ r.bIn.limit by omega) hcuts.2
        refine ⟨v, hlate, hrun.trans ?_⟩
        rw [show (f.after r).bOut = _ from out]
    | @halts r why unread v hlate ctl spin fields calls parserState state out =>
      -- What is still to come stays unread.
      have hrest := run_of_halt ctl (fresh ws.flatten)
      have hafter : reqMachine.stateAfter (reqMachine.stateAfter q (fresh w)) (fresh ws.flatten) =
          (reqMachine.stateAfter q (fresh w)).goto (.halt why (unread ++ fresh ws.flatten)) :=
        congrArg Prod.fst hrest
      have hemit : reqMachine.emitted (reqMachine.stateAfter q (fresh w)) (fresh ws.flatten) = [] :=
        congrArg Prod.snd hrest
      rw [hafter, hemit, ← out]
      refine ⟨v, hlate, ?_⟩
      simp only
      cases why with
      | spin => exact absurd rfl spin
      | accepted =>
        have hp := parserState.mpr rfl
        rw [if_pos (.inr hp)]
        have hstate : r.rData.state = .OK := by
          rw [fields]
          have hinv := ReqMachine.inv_stateAfter h.inv (fresh w)
          unfold ReqMachine.Inv at hinv
          rw [ctl] at hinv
          exact hinv
        refine congrArg some ((if_neg (not_not.mpr hstate)).trans ((if_pos hp).trans ?_))
        have hcalls : (f.after r).calls = (reqMachine.stateAfter q (fresh w)).calls := by
          change f.calls ++ r.calls = _
          rw [h.calls, calls, List.nil_append]
        have hfields : (f.after r).rData.toRequestFields = _ := fields
        rw [hcalls, hfields]
        rfl
      | rejected =>
        rw [if_pos (.inl (state rfl))]
        refine congrArg some ((if_pos (state rfl)).trans ?_)
        have hfields : (f.after r).rData.toRequestFields = _ := fields
        rw [hfields]
        rfl
      | stalled =>
        have hws : ws = [] := by
          by_contra hws
          exact (hcuts.1 hws).1.stalled _ ctl
        subst hws
        have hp := mt parserState.mp (by decide)
        have hstate : r.rData.state = .OK := by
          rw [fields]
          have hinv := ReqMachine.inv_stateAfter h.inv (fresh w)
          unfold ReqMachine.Inv at hinv
          rw [ctl] at hinv
          exact hinv.state
        have hgo : ¬(r.rData.state ≠ .OK ∨ r.rData.parserState = .FINISHED) := by
          rintro (hc | hc)
          · exact hc hstate
          · exact hp hc
        rw [if_neg hgo]
        exact congrArg some (Feed.outcome_of_waiting hstate hp)
    | spins ctl =>
      have hrest := run_of_halt ctl (fresh ws.flatten)
      have hafter : reqMachine.stateAfter (reqMachine.stateAfter q (fresh w)) (fresh ws.flatten) = _ :=
        congrArg Prod.fst hrest
      rw [hafter]
      exact ⟨_, .inr rfl, rfl⟩

/-! ## Requests -/

/-- A new parser rests in the machine's first state. -/
theorem Feed.resting_start {n : Nat} (h : RESERVED ≤ n) (bOut : Buffer) :
    (Feed.start (bufferInitR RESERVED n) bOut).Resting .initial where
  inv := ⟨⟨nofun, rfl, rfl⟩, trivial⟩
  rests := trivial
  fields := ⟨.undefined, rfl⟩
  parserState := rfl
  next := nofun
  rData := .default
  bIn := Buffer.wf_initR h
  reserved := rfl
  cells := Buffer.cells_eq_nil.mpr rfl
  calls := rfl

/-- The parser comes back from the cut in front of the first byte. -/
theorem safeCut_initial (rest : List Cell) : SafeCut .initial rest where
  stalled := nofun
  refused := nofun
  fits := Nat.zero_le _
  port := nofun
  digit := nofun
  authority := by cases rest <;> rfl

/-- The fragments of a request, from a new parser on, have the outcome of the machine's run over all
of them. -/
theorem feed_start {late : Prop} {ws : List (List UInt8)} {n : Nat} (bOut : Buffer)
    (hne : ∀ w ∈ ws, w ≠ []) (hz : 0 ∉ ws.flatten) (hroom : RESERVED + ws.flatten.length ≤ n)
    (hcuts : AtCuts (fun q rest => SafeCut q rest ∧ (late ∨ q.KeepsVersion)) .initial ws) :
    ∃ v, (late ∨ v = (reqMachine.stateAfter .initial (fresh ws.flatten)).d.version) ∧
      (feed (.start (bufferInitR RESERVED n) bOut) ws).map Feed.outcome =
        ((reqMachine.stateAfter .initial (fresh ws.flatten)).withVersion v).outcome
          (bufferWriteAll bOut (reqMachine.emitted .initial (fresh ws.flatten))) :=
  feed_run ws (Feed.resting_start (by omega) bOut) (safeCut_initial _) (.inr (.inl rfl)) hne hz
    hroom hcuts

/-- The outcome of a request is that of the machine's run over its bytes, when every cut is one
that the parser comes back from with the version it had. -/
theorem feed_eq_outcome (ws : List (List UInt8)) {n : Nat} (bOut : Buffer)
    (hne : ∀ w ∈ ws, w ≠ []) (hz : 0 ∉ ws.flatten) (hroom : RESERVED + ws.flatten.length ≤ n)
    (hcuts : AtCuts (fun q rest => SafeCut q rest ∧ q.KeepsVersion) .initial ws) :
    (feed (.start (bufferInitR RESERVED n) bOut) ws).map Feed.outcome =
      (reqMachine.stateAfter .initial (fresh ws.flatten)).outcome
        (bufferWriteAll bOut (reqMachine.emitted .initial (fresh ws.flatten))) := by
  have hcuts' : AtCuts (fun q rest => SafeCut q rest ∧ (False ∨ q.KeepsVersion)) .initial ws := by
    simpa only [false_or] using hcuts
  obtain ⟨v, hv, hrun⟩ := feed_start bOut hne hz hroom hcuts'
  obtain rfl := hv.resolve_left id
  exact hrun

/-- A request received whole that the machine accepts is accepted, with the machine's calls. -/
theorem checkRequest_of_accepted {s : List UInt8} (hz : 0 ∉ s) {n₀ n : Nat}
    (hroom : n₀ + s.length ≤ n) (bOut : Buffer) {unread : List Cell}
    (h : (reqMachine.stateAfter .initial (fresh s)).ctl = .halt .accepted unread) :
    ∃ r, checkRequest defaultRequestStruct (bufferWriteAll (bufferInitR n₀ n) s) bOut = some r ∧
      r.rData.parserState = .FINISHED ∧ r.calls = (reqMachine.stateAfter .initial (fresh s)).calls := by
  have hwf : (bufferInitR n₀ n).Wf := Buffer.wf_initR (by omega)
  have hfits : (bufferInitR n₀ n).write + s.length ≤ (bufferInitR n₀ n).limit := hroom
  have hcells : (bufferWriteAll (bufferInitR n₀ n) s).cells = fresh s := by
    rw [Buffer.cells_writeAll hwf hfits, Buffer.cells_eq_nil.mpr rfl, List.nil_append]
  have hnonzero : ∀ x ∈ fresh s, x.1 ≠ 0 := by
    intro x hx h0
    obtain ⟨c, hc, rfl⟩ := List.mem_map.mp hx
    obtain rfl : c = 0 := h0
    exact hz hc
  have hcall := checkRequest_move bOut RequestData.Wf.default
    (Buffer.wf_writeAll hwf hfits) hcells hnonzero
  have hstart : (callStart defaultRequestStruct (bufferWriteAll (bufferInitR n₀ n) s)).machine =
      .initial := rfl
  rw [hstart] at hcall
  generalize checkRequest defaultRequestStruct (bufferWriteAll (bufferInitR n₀ n) s) bOut = res at hcall ⊢
  cases hcall with
  | @waits r rests => exact absurd h (rests.rests.not_halt _ _)
  | @halts r why unread' spin parserState state after out =>
    rw [after] at h ⊢
    obtain rfl := (ReqCtl.halt.inj h).1
    exact ⟨r, rfl, parserState.mpr rfl, rfl⟩
  | spins after =>
    rw [after] at h
    cases h

/-- A request received in fragments has the outcome of the request received whole, when every cut
is one that the parser comes back from with the version it had. -/
theorem feed_fragments {s : List UInt8} {ws : List (List UInt8)} (hs : ws.flatten = s)
    (hne : ∀ w ∈ ws, w ≠ []) (hz : 0 ∉ s) {n : Nat} (hroom : RESERVED + s.length ≤ n)
    (bOut : Buffer)
    (hcuts : AtCuts (fun q rest => SafeCut q rest ∧ q.KeepsVersion) .initial ws) :
    (feed (.start (bufferInitR RESERVED n) bOut) ws).map Feed.outcome =
      (feed (.start (bufferInitR RESERVED n) bOut) [s]).map Feed.outcome := by
  subst hs
  cases ws with
  | nil => rfl
  | cons w ws =>
    have hw : w ≠ [] := hne w List.mem_cons_self
    have hflat : [(w :: ws).flatten].flatten = (w :: ws).flatten := List.append_nil _
    have hwhole := feed_eq_outcome [(w :: ws).flatten] (n := n) bOut
      (by
        intro u hu
        obtain rfl := List.mem_singleton.mp hu
        rw [List.flatten_cons]
        exact List.append_ne_nil_of_left_ne_nil hw _)
      (by rwa [hflat]) (by rwa [hflat]) ⟨fun h => absurd rfl h, trivial⟩
    rw [hflat] at hwhole
    rw [feed_eq_outcome _ bOut hne hz hroom hcuts, hwhole]

/-- A request cut inside its port. -/
theorem feed_fragments_port :
    (feed (.start (bufferInitR RESERVED 1024) (bufferInit 1024))
        [lit "GET / HTTP/1.1\r\nHost: a:8", lit "0\r"]).map Feed.outcome =
      (feed (.start (bufferInitR RESERVED 1024) (bufferInit 1024))
        [lit "GET / HTTP/1.1\r\nHost: a:80\r"]).map Feed.outcome := by
  have hctl : (reqMachine.stateAfter .initial (fresh (lit "GET / HTTP/1.1\r\nHost: a:8"))).ctl =
      .port .header 1 (some 8) := by decide +kernel
  refine feed_fragments (by decide) (by decide) (by decide) (by decide) _
    ⟨fun _ => ⟨⟨?_, ?_, ?_, ?_, ?_, ?_⟩, ?_⟩, ⟨fun h => absurd rfl h, trivial⟩⟩
  · rw [hctl]
    exact fun _ => nofun
  · rw [hctl]
    exact nofun
  · decide +kernel
  · rw [hctl]
    rintro place i v ⟨⟩
    decide
  · rw [hctl]
    exact nofun
  · decide +kernel
  · exact .inl (by decide +kernel)

/-- Cut behind the `:` of a port that never comes, the request is accepted, with port 0. -/
theorem feed_colon_cut :
    (feed (.start (bufferInitR RESERVED 1024) (bufferInit 1024))
        [lit "GET / HTTP/1.1\r\nHost: a:", lit "\r"]).map Feed.outcome ≠
      (feed (.start (bufferInitR RESERVED 1024) (bufferInit 1024))
        [lit "GET / HTTP/1.1\r\nHost: a:\r"]).map Feed.outcome := by
  decide +kernel

end HttpProxy
