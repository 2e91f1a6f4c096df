import HttpProxy.ResponseFragments

/-!
# Calls on fragments, past the end of a response

`resFeed` stops where the response ends. The proxy goes on calling `checkResponse` while the origin sends;
`resCalls` does so until a call leaves an error, and what arrives behind the end of the response stays
unread. By `ResFeed.Continues.calls` the calls do what the machine does on all the bytes, as long as every
cut is one the parser comes back from.
-/

namespace HttpProxy

/-- `checkResponse` after each fragment, until a call leaves an error; `none` would be a call that does
not return. -/
def resCalls (f : ResFeed) : List (List UInt8) → Option ResFeed
  | [] => some f
  | w :: ws =>
    match checkResponse f.rData (bufferWriteAll f.bIn w) f.bOut f.bTransf with
    | none => none
    | some r => if r.rData.state ≠ .RES_OK then some r.feed else resCalls r.feed ws

/-- The next call goes on where the machine is in `q`, before or behind the end of the response. -/
structure ResFeed.Continues (f : ResFeed) (q : ResMachine) : Prop where
  inv : q.Inv
  halts : ∀ why unread, q.ctl = .halt why unread → why = .finished ∧ f.bIn.cells = unread
  fields : f.rData.toResponseFields = q.d
  parserState : f.rData.parserState = q.parserState
  consistent : f.rData.Consistent
  wf : f.bIn.Wf
  room : PUSH_BACK_ROOM ≤ f.bIn.infLimit
  run_eq : ∀ w, w ≠ [] → q.Resumes (fresh w) →
    resMachine.run f.rData.machine (f.bIn.cells ++ fresh w) = resMachine.run q (fresh w)

/-- Where the next call reads back what leads to `q`, or `q` has halted. -/
def ResFeed.Rereads (f : ResFeed) (q : ResMachine) : Prop :=
  (∀ why unread, q.ctl ≠ .halt why unread) → f.bIn.cells = pushedBack q.pushBack

namespace ResFeed

variable {f : ResFeed} {q : ResMachine}

theorem Continues.state (h : f.Continues q) : f.rData.state = .RES_OK := by
  have hstate := h.inv.state fun unread hctl => ResHalt.noConfusion (h.halts _ _ hctl).1
  rw [← hstate, ← h.fields]

/-- A parser that waits for more goes on. -/
theorem Resting.continues (h : f.Resting q) : f.Continues q where
  inv := h.inv
  halts := fun why unread hctl => absurd hctl (h.rests.rests why unread)
  fields := h.rests.fields
  parserState := h.rests.parserState
  consistent := h.rests.consistent h.inv
  wf := h.wf
  room := h.room
  run_eq := fun _ => h.run_call

/-- A parser behind the end of the response goes on there. -/
theorem continues_finished (hp : f.rData.parserState = .RES_FINISHED) (hstate : f.rData.state = .RES_OK)
    (hwf : f.bIn.Wf) (hroom : PUSH_BACK_ROOM ≤ f.bIn.infLimit) :
    f.Continues ⟨.halt .finished f.bIn.cells, f.rData.toResponseFields⟩ where
  inv := ⟨fun _ => hstate, trivial⟩
  halts := by
    rintro why unread hctl
    cases hctl
    exact ⟨rfl, rfl⟩
  fields := rfl
  parserState := hp
  consistent := by
    refine .of_ne ?_ ?_ ?_ ?_ <;> rw [hp] <;> exact ResponseParserState.noConfusion
  wf := hwf
  room := hroom
  run_eq := by
    intro w _ _
    have hmachine : f.rData.machine = ⟨.halt .finished [], f.rData.toResponseFields⟩ := by
      unfold ResponseData.machine ResponseData.startCtl
      rw [hp]
    rw [hmachine, resMachine_run_halt, resMachine_run_halt, List.nil_append]

/-- One call does what the machine does on the fragment. -/
theorem Continues.call (h : f.Continues q) {w : List UInt8} (hw : w ≠ []) (hcut : q.Resumes (fresh w))
    (hnul : NoNul q (fresh w)) (hfits : f.bIn.write + w.length ≤ f.bIn.limit) :
    ∃ r, checkResponse f.rData (bufferWriteAll f.bIn w) f.bOut f.bTransf = some r ∧
      r.bOut = bufferWriteAll f.bOut (outs (resMachine.emitted q (fresh w))) ∧
      r.bTransf = bufferWriteAll f.bTransf (transfs (resMachine.emitted q (fresh w))) ∧
      (r.rData.state = .RES_OK → r.feed.Continues (resMachine.stateAfter q (fresh w)) ∧
        r.feed.Rereads (resMachine.stateAfter q (fresh w)) ∧ (bufferWriteAll f.bIn w).Keeps r.bIn) ∧
      (r.rData.state ≠ .RES_OK → ∃ unread, resMachine.stateAfter q (fresh w) =
        ⟨.halt .rejected unread, r.rData.toResponseFields⟩) := by
  have hwf : (bufferWriteAll f.bIn w).Wf := Buffer.wf_writeAll h.wf hfits
  have hroom : PUSH_BACK_ROOM ≤ (bufferWriteAll f.bIn w).infLimit := by
    rw [Buffer.infLimit_writeAll]
    exact h.room
  have hrun := h.run_eq w hw hcut
  rw [← Buffer.cells_writeAll h.wf hfits] at hrun
  have hafter : resMachine.stateAfter f.rData.machine (bufferWriteAll f.bIn w).cells =
      resMachine.stateAfter q (fresh w) := congrArg Prod.fst hrun
  have hemit : resMachine.emitted f.rData.machine (bufferWriteAll f.bIn w).cells =
      resMachine.emitted q (fresh w) := congrArg Prod.snd hrun
  have hinv := ResMachine.inv_stateAfter h.inv (fresh w)
  obtain ⟨r, hr, hend, hout, htransf⟩ :=
    checkResponse_move f.bOut f.bTransf h.consistent hwf hroom (hnul.congr hafter)
  rw [hemit] at hout htransf
  refine ⟨r, hr, hout, htransf, ?_⟩
  cases hend.congr hafter with
  | waits success rests wf keeps cells =>
    have hkept : PUSH_BACK_ROOM ≤ r.bIn.infLimit := by
      rw [keeps.infLimit]
      exact hroom
    rw [Buffer.clip_of_le (Nat.le_trans hinv.length_pushBack hroom)] at cells
    have hresting : r.feed.Resting (resMachine.stateAfter q (fresh w)) := ⟨hinv, rests, wf, hkept, cells⟩
    exact ⟨fun _ => ⟨hresting.continues, fun _ => cells, keeps⟩,
      fun hstate => absurd (rests.state hinv).1 hstate⟩
  | rejects unread success state after =>
    exact ⟨fun hstate => absurd hstate state, fun _ => ⟨unread, after⟩⟩
  | finished parserState wf keeps after =>
    have hkept : PUSH_BACK_ROOM ≤ r.bIn.infLimit := by
      rw [keeps.infLimit]
      exact hroom
    have hstate : r.rData.state = .RES_OK := by
      rw [after] at hinv
      exact hinv.state fun unread hctl => ResHalt.noConfusion (ResCtl.halt.inj hctl).1
    rw [after]
    exact ⟨fun _ => ⟨continues_finished parserState hstate wf hkept, fun hlive => absurd rfl (hlive _ _), keeps⟩,
      fun herror => absurd hstate herror⟩

/-- The calls on the fragments do what the machine does on all their bytes. The induction is on the
fragments. -/
theorem Continues.calls (ws : List (List UInt8)) : ∀ {f : ResFeed} {q : ResMachine}, f.Continues q →
    (∀ w ∈ ws, w ≠ []) → f.bIn.write + ws.flatten.length ≤ f.bIn.limit → NoNul q (fresh ws.flatten) →
    (ws ≠ [] → q.Resumes (fresh ws.flatten)) →
    resMachine.AtEveryCut ResMachine.Resumes q (ws.map fresh) →
    ∃ g, resCalls f ws = some g ∧
      g.bOut = bufferWriteAll f.bOut (outs (resMachine.emitted q (fresh ws.flatten))) ∧
      g.bTransf = bufferWriteAll f.bTransf (transfs (resMachine.emitted q (fresh ws.flatten))) ∧
      (g.rData.state = .RES_OK → g.Continues (resMachine.stateAfter q (fresh ws.flatten)) ∧
        (f.Rereads q → g.Rereads (resMachine.stateAfter q (fresh ws.flatten)))) ∧
      (g.rData.state ≠ .RES_OK → ∃ unread, resMachine.stateAfter q (fresh ws.flatten) =
        ⟨.halt .rejected unread, g.rData.toResponseFields⟩) := by
  induction ws with
  | nil => exact fun h _ _ _ _ _ => ⟨_, rfl, rfl, rfl, fun _ => ⟨h, id⟩, fun hstate => absurd h.state hstate⟩
  | cons w ws ih =>
    intro f q h hne hfits hnul hcut hcuts
    have hw := hne w List.mem_cons_self
    have hcut' := hcut (List.cons_ne_nil _ _)
    rw [List.flatten_cons, fresh_append] at hnul hcut' ⊢
    rw [List.flatten_cons, List.length_append] at hfits
    obtain ⟨r, hr, hout, htransf, hgoes, hstops⟩ := h.call hw (hcut'.of_append hw) hnul.left (by omega)
    unfold resCalls
    rw [hr]
    dsimp only
    rw [Transducer.stateAfter_append, Transducer.emitted_append, outs_append, transfs_append,
      Buffer.writeAll_append, Buffer.writeAll_append, ← hout, ← htransf]
    obtain ⟨hcuthead, hcutrest⟩ := hcuts
    by_cases hstate : r.rData.state = .RES_OK
    · rw [if_neg (not_not.mpr hstate)]
      obtain ⟨hcontinues, hrereads, hkeeps⟩ := hgoes hstate
      have hwrite : r.bIn.write ≤ f.bIn.write + w.length := by
        rw [← Buffer.write_writeAll (b := f.bIn) (l := w) (by omega)]
        exact hkeeps.write
      have hlimit : r.bIn.limit = f.bIn.limit := hkeeps.limit.trans (Buffer.limit_writeAll _ _)
      obtain ⟨g, hg, hout', htransf', hgoes', hstops'⟩ := ih hcontinues
        (fun v hv => hne v (List.mem_cons_of_mem w hv)) (by change r.bIn.write + _ ≤ r.bIn.limit; omega)
        hnul.right (fun hmore => by
          rw [fresh_flatten]
          exact hcuthead fun hnil => hmore (List.map_eq_nil_iff.mp hnil)) hcutrest
      exact ⟨g, hg, hout', htransf', fun hok => ⟨(hgoes' hok).1, fun _ => (hgoes' hok).2 hrereads⟩, hstops'⟩
    · rw [if_pos hstate]
      obtain ⟨unread, hafter⟩ := hstops hstate
      have hrest := resMachine_run_halt .rejected unread r.rData.toResponseFields (fresh ws.flatten)
      rw [hafter, Transducer.stateAfter, Transducer.emitted, hrest]
      exact ⟨r.feed, rfl, rfl, rfl, fun hok => absurd hok hstate, fun _ => ⟨_, rfl⟩⟩

end ResFeed

/-! ## Cuts -/

/-- Fragments that are not empty bring something. -/
theorem flatten_ne_nil {ws : List (List UInt8)} (hne : ∀ w ∈ ws, w ≠ []) (h : ws ≠ []) : ws.flatten ≠ [] := by
  obtain ⟨w, ws, rfl⟩ := List.exists_cons_of_ne_nil h
  exact List.append_ne_nil_of_left_ne_nil (hne w List.mem_cons_self) _

/-- What holds wherever the bytes can be cut holds at every cut between the fragments. -/
theorem atEveryCut_fresh {P : ResMachine → List Cell → Prop} (ws : List (List UInt8)) : ∀ {q : ResMachine},
    (∀ w ∈ ws, w ≠ []) →
    (∀ as bs, ws.flatten = as ++ bs → bs ≠ [] → P (resMachine.stateAfter q (fresh as)) (fresh bs)) →
    resMachine.AtEveryCut P q (ws.map fresh) := by
  induction ws with
  | nil => exact fun _ _ => trivial
  | cons w ws ih =>
    intro q hne h
    have hne' : ∀ v ∈ ws, v ≠ [] := fun v hv => hne v (List.mem_cons_of_mem w hv)
    refine ⟨fun hmore => ?_, ih hne' fun as bs hcut hbs => ?_⟩
    · rw [← fresh_flatten]
      exact h w ws.flatten rfl (flatten_ne_nil hne' fun hnil => hmore (congrArg (List.map fresh) hnil))
    · have hrest := h (w ++ as) bs (by rw [List.flatten_cons, hcut, List.append_assoc]) hbs
      rwa [fresh_append, Transducer.stateAfter_append] at hrest

end HttpProxy
