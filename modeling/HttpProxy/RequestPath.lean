import HttpProxy.Forwarding
import HttpProxy.Isolation
import HttpProxy.LoopDetection
import HttpProxy.Paths

/-!
# The request of a client, from its connection to its origin

What the origin of a client was sent, with what is queued for it, is what the parser's machine makes of all
the bytes read from the client, and behind it what the machine left unread (`request_relayed`). The cuts
between the reads have to be those that the parser comes back from with nothing pushed back: what it pushes
back is read again by the loop behind it, and not written.
-/

namespace HttpProxy

/-! ## The parser of a client -/

/-- What was pushed back is not passed on a second time. -/
theorem passedOn_pushedBack (p : List UInt8) : passedOn (pushedBack p) = [] := by
  induction p with
  | nil => rfl
  | cons c p ih =>
    rw [pushedBack_cons, passedOn_cons, ih]
    rfl

/-- A parser at rest has left nothing unread. -/
theorem ReqMachine.unread_of_rests {q : ReqMachine} (h : q.ctl.Rests) : q.unread = [] := by
  unfold unread
  split
  · next hctl => exact absurd hctl (h.not_halt _ _)
  · rfl

/-- What a call leaves in its input is what it pushed back or what the machine left unread. -/
theorem checkRequest_leaves {rd : RequestData} {bIn bOut : Buffer} {r : RequestResult} (hw : rd.Wf)
    (hwf : bIn.Wf) (hz : ∀ x ∈ bIn.cells, x.1 ≠ 0) (hr : checkRequest rd bIn bOut = some r)
    (hpush : 0 ∉ (reqMachine.stateAfter (callStart rd bIn).machine bIn.cells).pushBack) :
    r.bIn.Wf ∧ bIn.Keeps r.bIn ∧ (∀ x ∈ r.bIn.cells, x.1 ≠ 0) ∧
      passedOn r.bIn.cells =
        passedOn (reqMachine.stateAfter (callStart rd bIn).machine bIn.cells).unread := by
  have hreads : (callStart rd bIn).Reads bIn.cells := ⟨⟨hwf, rfl⟩, hz, rfl⟩
  obtain ⟨r', hloop, rfl⟩ := checkRequest_eq_some_iff.mp hr
  have hmove := requestLoop_move hloop hreads (running_callStart hw bIn).1
  cases hmove with
  | @waits q' rests calls w =>
    obtain ⟨e, he, hy⟩ := w.emits
    have hafter : reqMachine.stateAfter (callStart rd bIn).machine bIn.cells = q' := hy.stateAfter_eq
    have hcells : (reportError r').2.io.b.cells = pushedBack (Buffer.clip bIn.infLimit q'.pushBack) :=
      w.shows_.cells
    rw [hafter] at hpush ⊢
    refine ⟨w.shows_.wf, w.keeps, fun x hx h0 => ?_, ?_⟩
    · obtain ⟨c, hc, rfl⟩ := List.mem_map.mp (hcells ▸ hx)
      obtain rfl : c = 0 := h0
      exact hpush (List.mem_of_mem_drop hc)
    · rw [ReqMachine.unread_of_rests rests.rests]
      exact (congrArg passedOn hcells).trans (passedOn_pushedBack _)
  | @halts l' why spin parserState state adv =>
    obtain ⟨e, he, hy⟩ := adv.emits
    have hhalt := run_halt why [] (reportError r').2.rData.toRequestFields (reportError r').2.calls l'
    have hafter := hy.stateAfter_eq
    rw [Transducer.stateAfter, Transducer.stateAfter, hhalt, List.nil_append] at hafter
    have hcells : (reportError r').2.io.b.cells = l' := adv.shows_.cells
    refine ⟨adv.shows_.wf, adv.keeps, fun x hx => hz x (adv.suffix.subset (hcells ▸ hx)), ?_⟩
    rw [Transducer.stateAfter, hafter]
    exact congrArg passedOn hcells

namespace ReqMachine

variable {q : ReqMachine}

/-- The machine is at its end, or waits for more where the parser comes back to with nothing pushed
back. -/
def pauses (q : ReqMachine) : Bool :=
  match q.ctl with
  | .halt .accepted _ => true
  | .halt _ _ | .portEnd | .refused => false
  | _ => q.pushBack.isEmpty

/-- The parser returns without an error. -/
def goesOn (q : ReqMachine) : Bool :=
  match q.ctl with
  | .halt .rejected _ | .halt .spin _ => false
  | _ => true

/-- What is passed on when the machine reads `w`: what it writes, and what it leaves unread. -/
def passes (q : ReqMachine) (w : List UInt8) : List UInt8 :=
  reqMachine.emitted q (fresh w) ++
    passedOn ((reqMachine.stateAfter q (fresh w)).unread.drop q.unread.length)

/-- The parser comes back to what stands in front of `w`, and reads `w` without an error. -/
structure Admits (q : ReqMachine) (w : List UInt8) : Prop where
  pauses : q.pauses = true
  refuses : q.refuses (fresh w) = false
  nonzero : 0 ∉ w
  goesOn : (reqMachine.stateAfter q (fresh w)).goesOn = true

instance (q : ReqMachine) (w : List UInt8) : Decidable (q.Admits w) :=
  decidable_of_iff
    (q.pauses = true ∧ q.refuses (fresh w) = false ∧ 0 ∉ w ∧
      (reqMachine.stateAfter q (fresh w)).goesOn = true)
    ⟨fun ⟨hpauses, hrefuses, hz, hgoes⟩ => ⟨hpauses, hrefuses, hz, hgoes⟩,
      fun h => ⟨h.pauses, h.refuses, h.nonzero, h.goesOn⟩⟩

/-- Where the parser pauses it pushes nothing back. -/
theorem pushBack_of_pauses (h : q.pauses = true) : q.pushBack = [] := by
  unfold pauses at h
  split at h
  · next hctl =>
    unfold pushBack
    rw [hctl]
  · cases h
  · cases h
  · cases h
  · exact List.isEmpty_iff.mp h

/-- Where the parser pauses the authority is not refused. -/
theorem not_refused_of_pauses (h : q.pauses = true) : q.ctl ≠ .refused := by
  intro hctl
  unfold pauses at h
  rw [hctl] at h
  cases h

end ReqMachine

/-! ## A call on nothing -/

/-- At the start of a state nothing is pushed back. -/
theorem ReqMachine.pushBack_start (q : ReqMachine) (ctl : ReqCtl) : (q.goto ctl.start).pushBack = [] := by
  cases ctl with
  | host place i => cases place <;> rfl
  | port place i n => cases place <;> rfl
  | _ => rfl

/-- Where a state begins the parser rests. -/
theorem ReqCtl.Rests.start {ctl : ReqCtl} (h : ctl.Rests) : ctl.start.Rests := by
  cases ctl with
  | host place i => cases place <;> trivial
  | port place i n => cases place <;> trivial
  | portEnd => exact absurd rfl h.not_portEnd
  | halt why unread => exact absurd rfl (h.not_halt why unread)
  | _ => trivial

/-- Where a state begins is part of the state. -/
theorem ReqCtl.parserState_start (ctl : ReqCtl) : ctl.start.parserState = ctl.parserState := by
  cases ctl with
  | host place i => cases place <;> rfl
  | port place i n => cases place <;> rfl
  | _ => rfl

/-- In both places for a host nothing is left unread. -/
theorem ReqMachine.unread_moved (q : ReqMachine) : q.moved.unread = q.unread := by
  obtain ⟨ctl, d, calls⟩ := q
  cases ctl with
  | host place i => cases place <;> rfl
  | port place i n => cases place <;> rfl
  | _ => rfl

/-- Machines that are alike have left the same unread. -/
theorem ReqMachine.Like.unread {late : Prop} {q q' : ReqMachine} (h : Like late q q') :
    q'.unread = q.unread := by
  cases h with
  | same => rfl
  | moved => exact unread_moved q

namespace Feed.Resting

variable {f : Feed} {q : ReqMachine} {w : List UInt8}

/-- Behind a parser at rest that pushed nothing back there are the bytes received alone. -/
theorem cells_writeAll (h : f.Resting q) (hpush : q.pushBack = [])
    (hroom : f.bIn.write + w.length ≤ f.bIn.limit) : (bufferWriteAll f.bIn w).cells = fresh w := by
  rw [Buffer.cells_writeAll h.bIn hroom, h.cells, hpush]
  rfl

/-- With nothing pushed back and nothing read a call ends where it was. -/
theorem moves_nil (h : f.Resting q) (hpush : q.pushBack = [])
    (hroom : f.bIn.write + ([] : List UInt8).length ≤ f.bIn.limit) :
    f.Moves True q [] [] (checkRequest f.rData (bufferWriteAll f.bIn []) f.bOut) := by
  have hmachine := h.machine_callStart (bufferWriteAll f.bIn [])
  have hstart := h.rests.start
  have hcall := checkRequest_move f.bOut h.rData (Buffer.wf_writeAll h.bIn hroom)
    (h.cells_writeAll hpush hroom) (List.forall_mem_nil _)
  have hwf := fun r (hr : checkRequest f.rData (bufferWriteAll f.bIn []) f.bOut = some r) =>
    checkRequest_wf h.rData hr
  rw [hmachine] at hcall
  generalize checkRequest f.rData (bufferWriteAll f.bIn []) f.bOut = res at hcall hwf ⊢
  cases hcall with
  | @waits r rests calls wf keeps cells out =>
    have hfields : r.rData.toRequestFields = { q.d with version := .v1_1 } := rests.fields
    have hp : r.rData.parserState = q.ctl.parserState :=
      rests.parserState.trans q.ctl.parserState_start
    refine .rests h.rests (fun _ => ?_) ?_ (hp ▸ h.rests.parserState_ne) keeps out
    · refine ⟨h.inv, h.rests, ⟨_, hfields⟩, hp, fun n hn => ?_, hwf r rfl, wf, ?_, ?_, ?_⟩
      · refine rests.next n ?_
        change q.ctl.start = .space n
        rw [hn]
        rfl
      · exact (keeps.infLimit.trans (Buffer.infLimit_writeAll _ _)).trans h.reserved
      · refine cells.trans ?_
        change pushedBack (Buffer.clip _ ((q.withVersion .v1_1).goto q.ctl.start).pushBack) = _
        rw [ReqMachine.pushBack_start, hpush, Buffer.clip_of_le (Nat.zero_le _)]
      · change f.calls ++ r.calls = []
        rw [h.calls, ← calls]
        exact h.live.calls
    · rw [hfields]
      exact h.live.state
  | halts why unread spin parserState state after out =>
    have hctl : q.ctl.start = .halt why unread := congrArg ReqMachine.ctl after
    exact absurd hctl (hstart.not_halt _ _)
  | @spins unread after => exact absurd after (hstart.not_halt _ _)

/-- The parser comes back from where the machine pauses. -/
theorem safeCut (h : f.Resting q) (hw : q.Admits w) : SafeCut q (fresh (w ++ [])) := by
  have hpush := ReqMachine.pushBack_of_pauses hw.pauses
  have hport : ∀ place i v, q.ctl ≠ .port place i v := by
    intro place i v hctl
    unfold ReqMachine.pushBack at hpush
    rw [hctl] at hpush
    have hcolon := List.append_eq_nil_iff.mp (List.append_eq_nil_iff.mp hpush).1
    exact List.cons_ne_nil _ _ hcolon.2
  constructor
  case stalled => exact h.rests.not_halt _
  case refused => exact ReqMachine.not_refused_of_pauses hw.pauses
  case fits =>
    rw [hpush]
    exact Nat.zero_le _
  case port => exact fun place i v hctl => absurd hctl (hport place i _)
  case digit => exact fun place i hctl => absurd hctl (hport place i _)
  case authority =>
    rw [List.append_nil]
    exact hw.refuses

/-- An admissible read moves the parser as the machine moves, over all its bytes. -/
theorem moves_of_admits (h : f.Resting q) (hw : q.Admits w)
    (hroom : f.bIn.write + w.length ≤ f.bIn.limit) :
    f.Moves True (reqMachine.stateAfter q (fresh w)) w (reqMachine.emitted q (fresh w))
      (checkRequest f.rData (bufferWriteAll f.bIn w) f.bOut) := by
  by_cases hnil : w = []
  · subst hnil
    exact h.moves_nil (ReqMachine.pushBack_of_pauses hw.pauses) hroom
  · exact h.moves hnil (h.safeCut hw) (.inl trivial) hw.nonzero hroom

/-- What such a call leaves in its input. -/
theorem leaves (h : f.Resting q) (hw : q.Admits w) (hroom : f.bIn.write + w.length ≤ f.bIn.limit)
    {r : RequestResult} (hr : checkRequest f.rData (bufferWriteAll f.bIn w) f.bOut = some r) :
    r.bIn.Wf ∧ (bufferWriteAll f.bIn w).Keeps r.bIn ∧ (∀ x ∈ r.bIn.cells, x.1 ≠ 0) ∧
      passedOn r.bIn.cells = passedOn (reqMachine.stateAfter q (fresh w)).unread := by
  have hpush := ReqMachine.pushBack_of_pauses hw.pauses
  have hcells := h.cells_writeAll hpush hroom
  have hnonzero : ∀ x ∈ (bufferWriteAll f.bIn w).cells, x.1 ≠ 0 := by
    rw [hcells]
    intro x hx h0
    obtain ⟨c, hc, rfl⟩ := List.mem_map.mp hx
    obtain rfl : c = 0 := h0
    exact hw.nonzero hc
  suffices hlike : 0 ∉ (reqMachine.stateAfter (callStart f.rData (bufferWriteAll f.bIn w)).machine
        (bufferWriteAll f.bIn w).cells).pushBack ∧
      (reqMachine.stateAfter (callStart f.rData (bufferWriteAll f.bIn w)).machine
        (bufferWriteAll f.bIn w).cells).unread = (reqMachine.stateAfter q (fresh w)).unread by
    rw [← hlike.2]
    exact checkRequest_leaves h.rData (Buffer.wf_writeAll h.bIn hroom) hnonzero hr hlike.1
  rw [hcells]
  by_cases hnil : w = []
  · subst hnil
    rw [h.machine_callStart]
    change 0 ∉ ((q.withVersion .v1_1).goto q.ctl.start).pushBack ∧
      ((q.withVersion .v1_1).goto q.ctl.start).unread = q.unread
    rw [ReqMachine.pushBack_start, ReqMachine.unread_of_rests h.rests,
      ReqMachine.unread_of_rests (q := (q.withVersion .v1_1).goto q.ctl.start) h.rests.start]
    exact ⟨List.not_mem_nil, rfl⟩
  · obtain ⟨hlike, -⟩ := h.run_call hnil (h.safeCut hw) (.inl trivial)
      (bufferWriteAll f.bIn w)
    rw [hpush, pushedBack_nil, List.nil_append] at hlike
    refine ⟨?_, ?_⟩
    · rw [hlike.pushBack]
      exact (ReqMachine.inv_stateAfter h.inv (fresh w)).zero_not_mem_pushBack
    · exact hlike.unread

end Feed.Resting

/-! ## A call and the loop behind it -/

/-- The parser of a client waits for more of a request, with the machine in `q`, or is at its
end. -/
inductive ReqMachine.Attends (q : ReqMachine) (rd : RequestData) (b : Buffer) : Prop
  | rests (resting : Feed.Resting ⟨rd, b, bufferInit 0, []⟩ q)
  | finished (parserState : rd.parserState = .FINISHED) (state : rd.state = .OK) {unread : List Cell}
      (halted : q.ctl = .halt .accepted unread) (wf : b.Wf) (empty : b.cells = [])

namespace ReqMachine

variable {q : ReqMachine} {rd : RequestData} {b bOut : Buffer} {w : List UInt8}

/-- Behind its end the machine passes on everything. -/
theorem passes_of_halt {why : Halt} {unread : List Cell} (h : q.ctl = .halt why unread) (w : List UInt8) :
    (reqMachine.stateAfter q (fresh w)).ctl = .halt why (unread ++ fresh w) ∧
      reqMachine.emitted q (fresh w) = [] ∧ q.passes w = w := by
  have hrun := run_of_halt h (fresh w)
  have hunread : q.unread = unread := by
    unfold ReqMachine.unread
    rw [h]
  have hemit : reqMachine.emitted q (fresh w) = [] := congrArg Prod.snd hrun
  have hafter : reqMachine.stateAfter q (fresh w) = q.goto (.halt why (unread ++ fresh w)) :=
    congrArg Prod.fst hrun
  refine ⟨congrArg ReqMachine.ctl hafter, hemit, ?_⟩
  unfold passes
  rw [hemit, hafter, hunread]
  change passedOn ((unread ++ fresh w).drop unread.length) = w
  rw [List.drop_left, passedOn_fresh]

/-- What is passed on of more is behind what was passed on. -/
theorem passes_append (l w : List UInt8) :
    ReqMachine.initial.passes (l ++ w) =
      ReqMachine.initial.passes l ++ (reqMachine.stateAfter .initial (fresh l)).passes w := by
  have hstart : ∀ u, ReqMachine.initial.passes u = reqMachine.emitted .initial (fresh u) ++
      passedOn (reqMachine.stateAfter .initial (fresh u)).unread := fun _ => rfl
  rw [hstart, hstart, fresh_append, Transducer.emitted_append, Transducer.stateAfter_append]
  generalize reqMachine.stateAfter .initial (fresh l) = q
  cases hctl : q.ctl with
  | halt why unread =>
    obtain ⟨hafter, hemit, hpasses⟩ := passes_of_halt hctl w
    have hleft : (reqMachine.stateAfter q (fresh w)).unread = q.unread ++ fresh w := by
      unfold ReqMachine.unread
      rw [hafter, hctl]
    rw [hemit, hpasses, hleft, passedOn_append, passedOn_fresh, List.append_nil, List.append_assoc]
  | _ =>
    have hnone : q.unread = [] := by
      unfold ReqMachine.unread
      rw [hctl]
    unfold passes
    rw [hnone]
    change _ = _ ++ [] ++ _
    rw [List.append_nil, List.append_assoc]
    rfl

/-- The loop behind a parser at its end passes on what was read. -/
theorem Attends.drained (h : q.Attends rd b) (hp : rd.parserState = .FINISHED) (hz : 0 ∉ w)
    (hroom : b.write + w.length ≤ b.limit) (bOut : Buffer) :
    rd.state = .OK ∧ (drain (bufferWriteAll b w) bOut).2 = bufferWriteAll bOut (q.passes w) ∧
      (reqMachine.stateAfter q (fresh w)).Attends rd (drain (bufferWriteAll b w) bOut).1 := by
  cases h with
  | rests resting =>
    refine absurd hp ?_
    rw [show rd.parserState = q.ctl.parserState from resting.parserState]
    exact resting.rests.parserState_ne
  | finished parserState state halted wf empty =>
    have hcells : (bufferWriteAll b w).cells = fresh w := by
      rw [Buffer.cells_writeAll wf hroom, empty, List.nil_append]
    have hnonzero : ∀ x ∈ (bufferWriteAll b w).cells, x.1 ≠ 0 := by
      rw [hcells]
      intro x hx h0
      obtain ⟨c, hc, rfl⟩ := List.mem_map.mp hx
      obtain rfl : c = 0 := h0
      exact hz hc
    obtain ⟨hwf, hempty, -, hpost⟩ := drain_nonzero bOut (Buffer.wf_writeAll wf hroom) hnonzero
    obtain ⟨hctl, -, hpasses⟩ := passes_of_halt halted w
    refine ⟨state, ?_, .finished parserState state hctl hwf hempty⟩
    rw [hpost, hcells, passedOn_fresh, hpasses]

/-- A call on what was read, and the loop behind it, pass on what the machine does. -/
theorem Attends.call (h : q.Attends rd b) (hw : q.Admits w) (hroom : b.write + w.length ≤ b.limit)
    (bOut : Buffer) :
    ∃ r, checkRequest rd (bufferWriteAll b w) bOut = some r ∧ r.rData.state = .OK ∧
      (drain r.bIn r.bOut).2 = bufferWriteAll bOut (q.passes w) ∧
      ((reqMachine.stateAfter q (fresh w)).pauses = true →
        (reqMachine.stateAfter q (fresh w)).Attends r.rData (drain r.bIn r.bOut).1) := by
  cases h with
  | finished parserState state halted wf empty =>
    have hcall : checkRequest rd (bufferWriteAll b w) bOut ≠ none := checkRequest_ne_none parserState
    obtain ⟨r, hr⟩ := Option.ne_none_iff_exists'.mp hcall
    have hsame := checkRequest_finished parserState hr
    obtain ⟨-, hpost, hattends⟩ :=
      (Attends.finished parserState state halted wf empty).drained parserState hw.nonzero hroom bOut
    refine ⟨r, hr, ?_, ?_, fun _ => ?_⟩ <;> rw [hsame]
    · exact state
    · exact hpost
    · cases hattends with
      | rests resting => exact absurd (passes_of_halt halted w).1 (resting.rests.not_halt _ _)
      | finished _ _ hctl hwf hempty => exact .finished parserState state hctl hwf hempty
  | rests resting =>
    have hresting : Feed.Resting ⟨rd, b, bOut, []⟩ q :=
      ⟨resting.inv, resting.rests, resting.fields, resting.parserState, resting.next, resting.rData,
        resting.bIn, resting.reserved, resting.cells, rfl⟩
    have hmoves := hresting.moves_of_admits hw hroom
    have hleaves := fun r => hresting.leaves hw hroom (r := r)
    have hinv := inv_stateAfter resting.inv (fresh w)
    have hgoes := hw.goesOn
    -- What a call writes, and what the loop behind it moves without parsing.
    have hpasses : q.passes w = reqMachine.emitted q (fresh w) ++
        passedOn (reqMachine.stateAfter q (fresh w)).unread := by
      unfold passes
      rw [unread_of_rests resting.rests]
      rfl
    have hdrained : ∀ r, checkRequest rd (bufferWriteAll b w) bOut = some r →
        r.bOut = bufferWriteAll bOut (reqMachine.emitted q (fresh w)) →
        (drain r.bIn r.bOut).1.Wf ∧ (drain r.bIn r.bOut).1.cells = [] ∧
          (drain r.bIn r.bOut).1.infLimit = RESERVED ∧
          (drain r.bIn r.bOut).2 = bufferWriteAll bOut (q.passes w) := by
      intro r hr hout
      obtain ⟨hwf, hkeeps, hnonzero, hcells⟩ := hleaves r hr
      obtain ⟨hwf', hempty, hkeeps', hpost⟩ := drain_nonzero r.bOut hwf hnonzero
      have hreserved : b.infLimit = RESERVED := resting.reserved
      refine ⟨hwf', hempty, ?_, ?_⟩
      · rw [hkeeps'.infLimit, hkeeps.infLimit, Buffer.infLimit_writeAll]
        exact hreserved
      · rw [hpost, hcells, hout, hpasses, Buffer.writeAll_append]
    change Feed.Moves True ⟨rd, b, bOut, []⟩ _ w _ (checkRequest rd (bufferWriteAll b w) bOut) at hmoves
    generalize checkRequest rd (bufferWriteAll b w) bOut = res at hmoves hdrained ⊢
    cases hmoves with
    | @rests r rests after state parserState keeps out =>
      obtain ⟨hwf, hempty, hreserved, hpost⟩ := hdrained r rfl out
      refine ⟨r, rfl, state, hpost, fun hpauses' => .rests ?_⟩
      have hpush := pushBack_of_pauses hpauses'
      have hafter := after (by rw [hpush]; exact Nat.zero_le _)
      refine ⟨hafter.inv, hafter.rests, hafter.fields, hafter.parserState, hafter.next, hafter.rData, hwf,
        hreserved, ?_, rfl⟩
      rw [hpush]
      exact hempty
    | @halts r why unread v hlate ctl spin fields calls parserState state out =>
      obtain ⟨hwf, hempty, -, hpost⟩ := hdrained r rfl out
      have hok : r.rData.state = (reqMachine.stateAfter q (fresh w)).d.state := congrArg (·.state) fields
      -- A request that is refused, or on which the parser never returns, is not admitted.
      unfold goesOn at hgoes
      unfold Inv at hinv
      rw [ctl] at hgoes hinv
      cases why with
      | spin => cases hgoes
      | rejected => cases hgoes
      | stalled =>
        refine ⟨r, rfl, hok.trans hinv.state, hpost, fun hpauses' => ?_⟩
        unfold pauses at hpauses'
        rw [ctl] at hpauses'
        cases hpauses'
      | accepted =>
        have hstate := hok.trans hinv
        exact ⟨r, rfl, hstate, hpost, fun _ => .finished (parserState.mpr rfl) hstate ctl hwf hempty⟩
    | spins ctl =>
      unfold goesOn at hgoes
      rw [ctl] at hgoes
      cases hgoes

end ReqMachine

namespace Proxy

/-! ## The way of a request -/

/-- From client `i` to its origin. -/
def requestPath (i : ClientId) : Path (RequestData × Buffer) where
  client := i
  input := Action.receivedFrom i
  output := Action.sentFor i
  parser c := (c.reqData, c.preReqParseBuf)
  queue := Client.postReqParseBuf
  quiet a h := ⟨(Action.of_not_moves h i).1, (Action.of_not_moves h i).2.1⟩
  idle c c' h := ⟨by rw [h.reqData, h.preReqParseBuf], h.postReqParseBuf⟩

/-- What was read from the client. -/
def received (s : Proxy) (i : ClientId) : List UInt8 := (requestPath i).read s

/-- What was written to the origin of the client. -/
def sent (s : Proxy) (i : ClientId) : List UInt8 := (requestPath i).written s

/-- The parser's machine behind a request. -/
def parsedRequest (l : List UInt8) : ReqMachine := reqMachine.stateAfter .initial (fresh l)

/-- What is made of a request: what the parser's machine writes, and what it leaves unread. -/
def relayedRequest (l : List UInt8) : List UInt8 := ReqMachine.initial.passes l

/-- Where the parser's machine is with the request of the client. -/
def asking (s : Proxy) (i : ClientId) : ReqMachine := parsedRequest (s.received i)

/-- What `client_read` reads when it comes to the parser. -/
def reading (s : Proxy) (i : ClientId) (r : Option (List UInt8)) : Option (List UInt8) :=
  let c := s.clients i
  if (c.state = .NO_ORIGIN ∨ c.state = .SEND_REQ) ∧ bufferCanWrite c.preReqParseBuf = true then
    some ((s.sysRead c.clientFd r (bufferWriteSpace c.preReqParseBuf)).getD [])
  else none

/-- The parser admits what is read of the request of client `i`, and `room` holds of the buffer for the
origin and what goes there. -/
def Arises (room : Buffer → List UInt8 → Prop) (i : ClientId) (s : Proxy) : Call → Prop
  | .clientRead j r => j = i → ∀ bytes ∈ s.reading i r,
    (s.asking i).Admits bytes ∧ room (s.clients i).postReqParseBuf ((s.asking i).passes bytes)
  | _ => True

instance (room : Buffer → List UInt8 → Prop) [∀ b l, Decidable (room b l)] (i : ClientId) (s : Proxy) :
    ∀ c, Decidable (Arises room i s c)
  | .clientRead _ _ => inferInstanceAs (Decidable (_ → ∀ bytes ∈ _, _ ∧ _))
  | .accept _ | .clientWrite _ _ | .clientBlock _ _ _ | .remoteRead _ _ | .remoteWrite _ _ =>
    .isTrue trivial

/-- The parser of a client that has read `l` of its request. -/
def RequestReady (l : List UInt8) (x : RequestData × Buffer) : Prop :=
  (parsedRequest l).pauses = true → bufferCanWrite x.2 = true → (parsedRequest l).Attends x.1 x.2

/-- What holds of the request of a client, of which `B` relates what its origin got to what was made of
it. -/
def RelaysRequest (B : List UInt8 → List UInt8 → Prop) (i : ClientId) : Proxy → Prop :=
  (requestPath i).Relays (fun got l => B got (relayedRequest l)) RequestReady

variable {B : List UInt8 → List UInt8 → Prop} {room : Buffer → List UInt8 → Prop} {s t t' : Proxy}
  {i : ClientId} {w : List UInt8} {rd : RequestData} {pre post : Buffer}

section Beside

variable {C : List UInt8 → List UInt8 → Prop} {Ready : List UInt8 → RequestData × Buffer → Prop}

/-- Responses leave a request alone. -/
theorem responseFrame_request (C : List UInt8 → List UInt8 → Prop)
    (Ready : List UInt8 → RequestData × Buffer → Prop) (i j : ClientId) :
    ResponseFrame j fun s s' => (requestPath i).Relays C Ready s → (requestPath i).Relays C Ready s' where
  modify s f h hs := by
    refine hs.same (Path.Still.modify (fun _ => ?_) fun _ => h.postReqParseBuf).same
    exact Prod.ext h.reqData h.preReqParseBuf
  fetch s _ hs := hs.same (Path.Still.act s rfl rfl).same
  deliver s _ _ hs := hs.same (Path.same_write s _ ⟨rfl, rfl⟩ rfl (.inl rfl) (fun _ => rfl) fun _ => rfl)

/-- The requests of other clients leave it alone. -/
theorem requestFrame_request (C : List UInt8 → List UInt8 → Prop)
    (Ready : List UInt8 → RequestData × Buffer → Prop) {i j : ClientId} (hj : i ≠ j) :
    RequestFrame j fun s s' => (requestPath i).Relays C Ready s → (requestPath i).Relays C Ready s' where
  modify _ _ _ hs := hs.same (Path.Still.modify (fun h => absurd h hj) fun h => absurd h hj).same
  receive s _ hs := hs.same (Path.Still.act s (if_neg (Ne.symm hj)) rfl).same
  send s _ _ hs := hs.same (Path.same_write s _ ⟨rfl, rfl⟩ rfl (.inl (if_neg (Ne.symm hj)))
    (fun h => absurd h hj) fun h => absurd h hj)

/-- What is sent to the origin comes off the front of its queue. -/
theorem relays_send (h : (requestPath i).Relays C Ready s) (hi : i < s.made) {bytes : List UInt8}
    (hbytes : bytes <+: (s.clients i).postReqParseBuf.bytes) :
    (requestPath i).Relays C Ready (((s.count bytes.length).onBuffers i fun c =>
      { c with postReqParseBuf := bufferReadAdv c.postReqParseBuf bytes.length }).act (.sent i bytes)) := by
  refine h.same (Path.same_write s _ ⟨rfl, rfl⟩ rfl (.inr ⟨rfl, hi⟩) (fun _ => rfl) fun _ => ?_)
  rw [show (requestPath i).output (.sent i bytes) = bytes from if_pos rfl]
  exact append_readAdv hbytes

/-- Every handler but `client_read` of the client itself sends of the request or leaves it. -/
theorem relays_beside (h : (requestPath i).Relays C Ready s) (hnil : C [] [])
    (hnew : ∀ c : Client, c.Unread → Ready [] ((requestPath i).parser c)) (hslots : Slots s) {c : Call}
    (hreg : s.Registered c) (hread : ∀ r, c ≠ .clientRead i r) :
    (requestPath i).Relays C Ready (s.call c) := by
  have hframe := (requestPath i).frame_relays C Ready
  cases c with
  | accept o => exact hframe.accept (fun _ _ _ hc ht => ht.new hnil (hnew _ hc) hc.postReqParseBuf) o h
  | clientRead j r =>
    have heq : i ≠ j := by
      rintro rfl
      exact hread r rfl
    exact hframe.clientRead (requestFrame_request C Ready heq) s r h
  | clientWrite j r =>
    exact hframe.clientWrite s r (fun bytes => (responseFrame_request C Ready i j).deliver _ bytes) h
  | clientBlock fd j o => exact hframe.clientBlock s fd j o h
  | remoteRead j r =>
    exact hframe.remoteRead s r (fun bytes _ _ _ _ =>
      hframe.parseResponse (responseFrame_request C Ready i j) (hframe.refl _) bytes) h
  | remoteWrite j r =>
    obtain ⟨fd, hfd⟩ := hreg
    have hj : j < s.made := hslots.remote fd j hfd
    refine hframe.remoteWrite s r (fun bytes hbytes ht => ?_) h
    by_cases heq : i = j
    · subst heq
      exact relays_send ht hj hbytes
    · exact (requestFrame_request C Ready heq).send (s.use j) bytes hbytes ht

end Beside

/-- A new client has read nothing. -/
theorem requestReady_nil {c : Client} (hc : c.Unread) :
    RequestReady [] ((requestPath i).parser c) := by
  obtain ⟨n, hpre⟩ := hc.preReqParseBuf
  change _ → bufferCanWrite c.preReqParseBuf = true → (parsedRequest []).Attends c.reqData c.preReqParseBuf
  rw [hpre, hc.reqData]
  intro _ hcan
  have hroom : RESERVED_SPACE < n := of_decide_eq_true hcan
  exact .rests (Feed.resting_start hroom.le (bufferInit 0))

/-! ## A read -/

/-- Client `i` has read `w`, and then has `rd`, `pre` and `post` for its request. -/
structure Reached (i : ClientId) (s t : Proxy) (w : List UInt8) (rd : RequestData) (pre post : Buffer) :
    Prop where
  made : t.made = s.made
  status : t.status = s.status
  received : t.received i = s.received i ++ w
  sent : t.sent i = s.sent i
  reqData : (t.clients i).reqData = rd
  pre : (t.clients i).preReqParseBuf = pre
  post : (t.clients i).postReqParseBuf = post

namespace Reached

/-- What goes on beside the request leaves a handler where it was. -/
theorem still (h : Reached i s t w rd pre post) (ht : (requestPath i).Still t t')
    (hstatus : t'.status = t.status) : Reached i s t' w rd pre post where
  made := ht.made.trans h.made
  status := hstatus.trans h.status
  received := ht.read.trans h.received
  sent := ht.written.trans h.sent
  reqData := (congrArg Prod.fst ht.parser).trans h.reqData
  pre := (congrArg Prod.snd ht.parser).trans h.pre
  post := ht.queue.trans h.post

/-- Naming the client leaves a handler where it was. -/
theorem use (h : Reached i s t w rd pre post) : Reached i s (t.use i) w rd pre post :=
  h.still (.act t rfl rfl) rfl

/-- Something done with the buffers of the client. -/
theorem onBuffers (h : Reached i s t w rd pre post) {f : Client → Client} {rd' : RequestData}
    {pre' post' : Buffer} (hdata : (f (t.clients i)).reqData = rd')
    (hpre : (f (t.clients i)).preReqParseBuf = pre') (hpost : (f (t.clients i)).postReqParseBuf = post') :
    Reached i s (t.onBuffers i f) w rd' pre' post' := by
  have hclient : (t.onBuffers i f).clients i = f (t.clients i) := Function.update_self ..
  refine ⟨h.use.made, h.use.status, h.use.received, h.use.sent, ?_, ?_, ?_⟩ <;> rw [hclient]
  · exact hdata
  · exact hpre
  · exact hpost

/-- Behind a read the handler has the bytes in front of the parser. -/
theorem receive (ht : (requestPath i).Still s t) (hstatus : t.status = s.status)
    (r : Option (List UInt8))
    (hroom : (s.clients i).preReqParseBuf.write + (r.getD []).length ≤ (s.clients i).preReqParseBuf.limit) :
    Reached i s (t.receive i r) (r.getD []) (s.clients i).reqData
      (bufferWriteAll (s.clients i).preReqParseBuf (r.getD [])) (s.clients i).postReqParseBuf := by
  have hdata : (t.clients i).reqData = (s.clients i).reqData := congrArg Prod.fst ht.parser
  have hpre : (t.clients i).preReqParseBuf = (s.clients i).preReqParseBuf := congrArg Prod.snd ht.parser
  have hstart : Reached i s t [] (s.clients i).reqData (s.clients i).preReqParseBuf
      (s.clients i).postReqParseBuf :=
    ⟨ht.made, hstatus, ht.read.trans (List.append_nil _).symm, ht.written, hdata, hpre, ht.queue⟩
  cases r with
  | none => exact hstart.use
  | some bytes =>
    have hwritten : Reached i s (t.onBuffers i fun c =>
        { c with preReqParseBuf := bufferWriteAdv c.preReqParseBuf bytes }) [] (s.clients i).reqData
        (bufferWriteAll (s.clients i).preReqParseBuf bytes) (s.clients i).postReqParseBuf := by
      refine hstart.onBuffers hdata ?_ ht.queue
      rw [hpre]
      exact (Buffer.writeAll_of_le hroom).symm
    refine ⟨hwritten.made, hwritten.status, ?_, ?_, hwritten.reqData, hwritten.pre, hwritten.post⟩
    · refine (Path.read_act _ _).trans ?_
      rw [show (requestPath i).input (.received i bytes) = bytes from if_pos rfl]
      exact congrArg (· ++ bytes) (hwritten.received.trans (List.append_nil _))
    · exact (Path.written_act _ _).trans ((List.append_nil _).trans hwritten.sent)

/-- Behind a call of the parser the handler has what that left. -/
theorem parseRequest (h : Reached i s t w rd pre post) {r : RequestResult}
    (hr : checkRequest rd pre post = some r) :
    Reached i s (t.parseRequest i) w r.rData r.bIn r.bOut := by
  have hcheck : checkRequest (t.clients i).reqData (t.clients i).preReqParseBuf
      (t.clients i).postReqParseBuf = some r := by
    rw [h.reqData, h.pre, h.post]
    exact hr
  have hstatus : (t.parseRequest i).status = t.status :=
    status_parseRequest (by rw [hcheck]; exact Option.some_ne_none r)
  have hwritten : Reached i s (t.onBuffers i fun c =>
      { c with reqData := r.rData, preReqParseBuf := r.bIn, postReqParseBuf := r.bOut }) w
      r.rData r.bIn r.bOut := h.onBuffers rfl rfl rfl
  have hframe := (requestPath i).frame_still
  refine hwritten.still ?_ hstatus
  unfold Proxy.parseRequest
  dsimp only
  rw [hcheck]
  refine hframe.modified ?_ ⟨rfl, rfl, rfl, rfl, rfl, rfl⟩
  exact List.foldlRecOn (motive := (requestPath i).Still _) _ _ (.refl _) fun t ht call _ =>
    hframe.clientSetHost ht call.1 call.2

/-- Behind the emptying of the buffer the handler has what was left of it. -/
theorem drainRequest (h : Reached i s t w rd pre post) :
    Reached i s (t.drainRequest i) w rd (drain pre post).1 (drain pre post).2 := by
  refine h.onBuffers h.reqData ?_ ?_ <;> rw [← h.pre, ← h.post]

/-- What the machine made of what was read is in the queue. -/
theorem relays (h : Reached i s t w rd pre post) (hB : Tolerates room B) (hs : RelaysRequest B i s)
    (hi : i < s.made)
    (hpost : post = bufferWriteAll (s.clients i).postReqParseBuf ((s.asking i).passes w))
    (hroom : room (s.clients i).postReqParseBuf ((s.asking i).passes w))
    (hattends : (reqMachine.stateAfter (s.asking i) (fresh w)).pauses = true →
      (reqMachine.stateAfter (s.asking i) (fresh w)).Attends rd pre) : RelaysRequest B i t := by
  have hafter : parsedRequest (s.received i ++ w) = reqMachine.stateAfter (s.asking i) (fresh w) := by
    unfold asking parsedRequest
    rw [fresh_append, Transducer.stateAfter_append]
  have hmakes : relayedRequest (s.received i ++ w) =
      relayedRequest (s.received i) ++ (s.asking i).passes w := ReqMachine.passes_append _ _
  refine Path.Relays.moves hs hi h.made h.received h.sent (h.post.trans hpost) (fun hstream => ?_)
    fun _ hp _ => ?_
  · change B _ (relayedRequest (s.received i ++ w))
    rw [hmakes]
    exact hB.write _ _ _ _ hroom hstream
  change (parsedRequest (s.received i ++ w)).pauses = true at hp
  change (parsedRequest (s.received i ++ w)).Attends (t.clients i).reqData (t.clients i).preReqParseBuf
  rw [hafter] at hp ⊢
  rw [h.reqData, h.pre]
  exact hattends hp

end Reached

/-- What `client_read` reads of a request has its room in front of the parser. -/
theorem of_reading {r : Option (List UInt8)} (hw : s.reading i r = some w) :
    ((s.clients i).state = .NO_ORIGIN ∨ (s.clients i).state = .SEND_REQ) ∧
      bufferCanWrite (s.clients i).preReqParseBuf = true ∧
      (s.clients i).preReqParseBuf.write + w.length ≤ (s.clients i).preReqParseBuf.limit := by
  unfold reading at hw
  dsimp only at hw
  split at hw
  · next hstate =>
    obtain rfl := Option.some.inj hw
    refine ⟨hstate.1, hstate.2, ?_⟩
    cases hbytes : s.sysRead (s.clients i).clientFd r (bufferWriteSpace (s.clients i).preReqParseBuf) with
    | none => exact (of_decide_eq_true hstate.2 : _ < _).le
    | some bytes => exact room_of_sysRead hstate.2 hbytes
  · cases hw

/-- `client_read` unregisters the client behind the parser, and may have done so in front of it. -/
def ShutByRead (i : ClientId) (s t : Proxy) : Prop :=
  ∃ s₁ s₂ u, Quiet i s s₁ ∧ Closing s₁ s₂ ∧ Quiet i s₂ u ∧ t = u.unregister (u.clients i).clientFd

/-- How `client_read` ends that reads `w` of the request of client `i`. -/
inductive ReadEnd (i : ClientId) (s : Proxy) (w : List UInt8) (t : Proxy) : Prop
  /-- The parser was at its end, and what was read is moved without it. -/
  | moved (origin : (s.clients i).state = .NO_ORIGIN)
      (parserState : (s.clients i).reqData.parserState = .FINISHED)
      (reached : Reached i s t w (s.clients i).reqData
        (drain (bufferWriteAll (s.clients i).preReqParseBuf w) (s.clients i).postReqParseBuf).1
        (drain (bufferWriteAll (s.clients i).preReqParseBuf w) (s.clients i).postReqParseBuf).2)
  | parsed {r : RequestResult}
      (result : checkRequest (s.clients i).reqData (bufferWriteAll (s.clients i).preReqParseBuf w)
        (s.clients i).postReqParseBuf = some r)
      (state : (s.clients i).state = .NO_ORIGIN → r.rData.state = .OK)
      (sending : (s.clients i).state = .SEND_REQ → (t.clients i).state = .ofValue r.rData.state.value)
      (reached : Reached i s t w r.rData (drain r.bIn r.bOut).1 (drain r.bIn r.bOut).2)
  | refused {r : RequestResult} (origin : (s.clients i).state = .NO_ORIGIN)
      (result : checkRequest (s.clients i).reqData (bufferWriteAll (s.clients i).preReqParseBuf w)
        (s.clients i).postReqParseBuf = some r)
      (state : r.rData.state ≠ .OK) (shut : r.calls = [] → ShutByRead i s t)
  /-- The parser was at its end and had left an error. -/
  | failed (origin : (s.clients i).state = .NO_ORIGIN)
      (parserState : (s.clients i).reqData.parserState = .FINISHED)
      (state : (s.clients i).reqData.state ≠ .OK)
  | spins (result : checkRequest (s.clients i).reqData (bufferWriteAll (s.clients i).preReqParseBuf w)
        (s.clients i).postReqParseBuf = none) (status : t.status ≠ .running)

namespace Reached

/-- Where the parser does not return, the process does not go on. -/
theorem stops (h : Reached i s t w rd pre post) (hr : checkRequest rd pre post = none) :
    (t.parseRequest i).status ≠ .running := by
  unfold Proxy.parseRequest
  dsimp only
  rw [h.reqData, h.pre, h.post, hr]
  exact Status.noConfusion

/-- A call of the parser that announces no host does nothing but work on the client's buffers. -/
theorem quiet_parseRequest (h : Reached i s t w rd pre post) {r : RequestResult}
    (hr : checkRequest rd pre post = some r) (hcalls : r.calls = []) : Quiet i t (t.parseRequest i) := by
  have hbufs : Quiet i t (t.onBuffers i fun c =>
      { c with reqData := r.rData, preReqParseBuf := r.bIn, postReqParseBuf := r.bOut }) :=
    (Quiet.refl i t).onBuffers fun _ => ⟨rfl, rfl, rfl, rfl, rfl, rfl, rfl, rfl⟩
  unfold Proxy.parseRequest
  dsimp only
  rw [h.reqData, h.pre, h.post, hr]
  dsimp only
  rw [hcalls]
  exact hbufs.modify fun _ => ⟨rfl, rfl, rfl, rfl, rfl, rfl, rfl, rfl⟩

end Reached

/-- Where nothing is read of the request, `client_read` leaves it alone. -/
theorem still_clientRead {r : Option (List UInt8)} (h : s.reading i r = none) :
    (requestPath i).Still s (s.clientRead i r) := by
  have hframe := (requestPath i).frame_still
  have hidle : (requestPath i).Still s ((s.use i).setInterest (s.clients i).clientFd OP_NOOP) :=
    hframe.setInterest (hframe.use (hframe.refl s)) _ _
  have hcan (hstate : (s.clients i).state = .NO_ORIGIN ∨ (s.clients i).state = .SEND_REQ) :
      ¬bufferCanWrite (s.clients i).preReqParseBuf = true := by
    intro hcan
    unfold reading at h
    dsimp only at h
    rw [if_pos ⟨hstate, hcan⟩] at h
    cases h
  unfold Proxy.clientRead
  dsimp only
  split
  · next hno =>
    rw [if_neg (hcan (.inl hno))]
    exact hidle
  · next hsend =>
    rw [if_neg (hcan (.inr hsend))]
    exact hidle
  · exact .refl s

/-- What `client_read` does with what it reads. -/
theorem readEnd_clientRead (hrun : s.status = .running) {r : Option (List UInt8)}
    (hw : s.reading i r = some w) : ReadEnd i s w (s.clientRead i r) := by
  have hfits := (of_reading hw).2.2
  have huse : (requestPath i).Still s (s.use i) := .act s rfl rfl
  have hquiet : Quiet i s (s.use i) := (Quiet.refl i s).use
  unfold reading at hw
  dsimp only at hw
  split at hw
  case isFalse => cases hw
  case isTrue hcan =>
  obtain rfl := Option.some.inj hw
  have hread : (s.use i).sysRead (s.clients i).clientFd r (bufferWriteSpace (s.clients i).preReqParseBuf) =
    s.sysRead (s.clients i).clientFd r (bufferWriteSpace (s.clients i).preReqParseBuf) := rfl
  unfold Proxy.clientRead
  dsimp only
  rw [hread]
  generalize s.sysRead (s.clients i).clientFd r (bufferWriteSpace (s.clients i).preReqParseBuf) = bytes
    at hfits ⊢
  split
  · next hno =>
    rw [if_pos hcan.2]
    -- A closed connection is unregistered and the parser called all the same.
    have hclosed : (requestPath i).Still s (if bytes = none then
          (s.use i).unregister (s.clients i).clientFd else s.use i) ∧
        (if bytes = none then (s.use i).unregister (s.clients i).clientFd else s.use i).status =
          s.status ∧
        Closing (s.use i)
          (if bytes = none then (s.use i).unregister (s.clients i).clientFd else s.use i) := by
      split
      · exact ⟨(requestPath i).frame_still.unregister huse _, status_unregister _ _, closing_unregister _ _⟩
      · exact ⟨huse, rfl, .refl _⟩
    generalize (if bytes = none then (s.use i).unregister (s.clients i).clientFd else s.use i) = s₂
      at hclosed ⊢
    obtain ⟨hstill, hstatus, hclosing⟩ := hclosed
    have hreached := Reached.receive hstill hstatus bytes hfits
    have hreceive : Quiet i s₂ (s₂.receive i bytes) := (Quiet.refl i s₂).receive bytes
    -- Behind the headers the bytes are moved without a call of the parser.
    by_cases hp : (s.clients i).reqData.parserState = .FINISHED
    · rw [if_neg (not_not.mpr hp), if_neg (not_not.mpr (hreached.status.trans hrun)), hreached.reqData]
      by_cases hok : (s.clients i).reqData.state = .OK
      · rw [if_neg (not_not.mpr hok)]
        exact .moved hno hp hreached.drainRequest
      · exact .failed hno hp hok
    · rw [if_pos hp]
      cases hr : checkRequest (s.clients i).reqData
          (bufferWriteAll (s.clients i).preReqParseBuf (bytes.getD [])) (s.clients i).postReqParseBuf with
      | none =>
        rw [if_pos (hreached.stops hr)]
        exact .spins hr (hreached.stops hr)
      | some result =>
        have hparsed := hreached.parseRequest hr
        rw [if_neg (not_not.mpr (hparsed.status.trans hrun)), hparsed.reqData]
        by_cases hok : result.rData.state = .OK
        · rw [if_neg (not_not.mpr hok)]
          refine .parsed hr (fun _ => hok) (fun hsend => ?_) hparsed.drainRequest
          exact absurd (hno.symm.trans hsend) ClientState.noConfusion
        · rw [if_pos hok]
          refine .refused hno hr hok fun hcalls => ?_
          have hend := hreceive.trans (hreached.quiet_parseRequest hr hcalls)
          refine ⟨s.use i, s₂, _, hquiet, hclosing, hend, ?_⟩
          rw [hend.client.clientFd, hclosing.clients i, hquiet.client.clientFd]
  · next hsend =>
    rw [if_pos hcan.2]
    have hreached := Reached.receive huse rfl bytes hfits
    cases hr : checkRequest (s.clients i).reqData
        (bufferWriteAll (s.clients i).preReqParseBuf (bytes.getD [])) (s.clients i).postReqParseBuf with
    | none =>
      rw [if_pos (hreached.stops hr)]
      exact .spins hr (hreached.stops hr)
    | some result =>
      have hparsed := hreached.parseRequest hr
      rw [if_neg (not_not.mpr (hparsed.status.trans hrun))]
      have hdrained := hparsed.drainRequest
      have hframe := (requestPath i).frame_still
      generalize (((s.use i).receive i bytes).parseRequest i).drainRequest i = u at hdrained ⊢
      refine .parsed hr (fun hno => absurd (hsend.symm.trans hno) ClientState.noConfusion) (fun _ => ?_) ?_
      · have hset (v : Proxy) (fd : Int) (x : FdInterest) : (v.setInterest fd x).clients = v.clients := rfl
        rw [hset, clients_modify_self, hdrained.reqData]
      · refine hdrained.still (hframe.setInterest (hframe.modified (hframe.refl _) ?_) _ _) rfl
        exact ⟨rfl, rfl, rfl, rfl, rfl, rfl⟩
  · next hno hsend => exact absurd hcan.1 (not_or.mpr ⟨hno, hsend⟩)

/-- `client_read` passes on what the machine makes of what it read. -/
theorem RelaysRequest.clientRead (hB : Tolerates room B) (h : RelaysRequest B i s) (hi : i < s.made)
    (hrun : s.status = .running) {r : Option (List UInt8)} (harises : Arises room i s (.clientRead i r)) :
    RelaysRequest B i (s.clientRead i r) := by
  cases hw : s.reading i r with
  | none => exact h.same (still_clientRead hw).same
  | some w =>
    obtain ⟨hadmits, hroom⟩ := harises rfl w hw
    obtain ⟨-, hcan, hfits⟩ := of_reading hw
    have hattends : (s.asking i).Attends (s.clients i).reqData (s.clients i).preReqParseBuf :=
      h.ready hi hrun hadmits.pauses hcan
    obtain ⟨result', hr', hok, hpost, hafter⟩ := hattends.call hadmits hfits (s.clients i).postReqParseBuf
    cases readEnd_clientRead hrun hw with
    | moved _ hp hreached =>
      obtain ⟨-, hpost, hafter⟩ := hattends.drained hp hadmits.nonzero hfits (s.clients i).postReqParseBuf
      exact hreached.relays hB h hi hpost hroom fun _ => hafter
    | parsed hr _ _ hreached =>
      obtain rfl := Option.some.inj (hr'.symm.trans hr)
      exact hreached.relays hB h hi hpost hroom hafter
    | refused _ hr hrefused _ =>
      obtain rfl := Option.some.inj (hr'.symm.trans hr)
      exact absurd hok hrefused
    | failed _ hp hfailed =>
      exact absurd (hattends.drained hp hadmits.nonzero hfits (s.clients i).postReqParseBuf).1 hfailed
    | spins hr _ => cases hr'.symm.trans hr

/-! ## Runs -/

/-- Every handler keeps the relation: those of the client pass on or send, and those of others leave
it. -/
theorem RelaysRequest.call (hB : Tolerates room B) {c : Call} (h : RelaysRequest B i s)
    (hrun : s.status = .running) (hslots : Slots s) (hreg : s.Registered c)
    (harises : Arises room i s c) : RelaysRequest B i (s.call c) := by
  by_cases hread : ∃ r, c = .clientRead i r
  · obtain ⟨r, rfl⟩ := hread
    obtain ⟨fd, hfd⟩ := hreg
    exact h.clientRead hB (hslots.client fd i hfd).2 hrun harises
  · exact relays_beside h hB.nil (fun _ => requestReady_nil) hslots hreg fun r hr => hread ⟨r, hr⟩

theorem RelaysRequest.run (hB : Tolerates room B) (hs : Started s) {es : List Event}
    (hes : Always (Arises room i) s es) : RelaysRequest B i (s.run es) :=
  Path.Relays.run (fun _ _ h hrun hslots hreg hP => RelaysRequest.call hB h hrun hslots hreg hP) hs hes

/-- What is made of all the bytes read from the client. -/
def forwarded (s : Proxy) (i : ClientId) : List UInt8 := relayedRequest (s.received i)

/-- In every state of a run, what the origin of a client was sent with what is queued for it is what the
parser's machine makes of all the bytes read from the client, and what it left unread. -/
theorem request_relayed (hs : Started s) {es : List Event} (hes : Always (Arises Fits i) s es)
    (hi : i < (s.run es).made) : (s.run es).requestStream i = (s.run es).forwarded i :=
  (RelaysRequest.run tolerates_eq hs hes).stream hi

/-- The head of a request in two reads, and its body while the origin has taken twenty bytes. -/
def cutRequest : List Event :=
  [.accept ⟨some 7, noPipes⟩, .read 7 (some (lit "POST / HTTP/1.1\r\nAccept: b")),
    .read 7 (some (lit "\r\nHost: a\r\n\r\nab")), .resolved 0 true, .notified 0,
    .notifications [⟨some 8, .inProgress⟩], .write 8 (some 20), .read 7 (some (lit "cd"))]

theorem request_relayed_cut :
    (mainLoop.run cutRequest).requestStream 0 = (mainLoop.run cutRequest).forwarded 0 ∧
      (mainLoop.run cutRequest).forwarded 0 =
        lit "POST / HTTP/1.1\r\nX-LOCALHOST: TRUE\r\nAccept: b\r\nHost: a\r\n\r\nabcd" ∧
      (mainLoop.run cutRequest).sent 0 = lit "POST / HTTP/1.1\r\nX-L" :=
  ⟨request_relayed started_mainLoop (by decide +kernel) (by decide +kernel), by decide +kernel,
    by decide +kernel⟩

/-- Where the queue has no room for all of it, bytes are left out and the others stay in order. -/
theorem request_subsequence (hs : Started s) {es : List Event}
    (hes : Always (Arises (fun _ _ => True) i) s es) (hi : i < (s.run es).made) :
    ((s.run es).requestStream i).Sublist ((s.run es).forwarded i) :=
  (RelaysRequest.run tolerates_sublist hs hes).stream hi

/-- A body for which there is no room in front of an origin that is not connected yet. -/
def overfullRequest : List Event :=
  [.accept ⟨some 7, noPipes⟩, .read 7 (some (lit "POST / HTTP/1.1\r\nHost: a\r\n\r\n"))] ++
    List.replicate 8 (.read 7 (some (lit "abcdefghijklmnopqrstuvwxyzabcdefghijklmnopqr")))

theorem request_subsequence_overfull :
    ((smallBuffers.run overfullRequest).requestStream 0).Sublist
        ((smallBuffers.run overfullRequest).forwarded 0) ∧
      (smallBuffers.run overfullRequest).requestStream 0 ≠
        (smallBuffers.run overfullRequest).forwarded 0 :=
  ⟨request_subsequence ⟨_, _, _, by decide, rfl⟩ (by decide +kernel) (by decide +kernel),
    by decide +kernel⟩

end Proxy

end HttpProxy
