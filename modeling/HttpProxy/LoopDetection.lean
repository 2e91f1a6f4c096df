import HttpProxy.Authorities
import HttpProxy.SecondPass
import HttpProxy.ZeroBytes

/-!
# Requests that come back

A request that was passed on is to be known when it comes back to the proxy. It is just when the
parser wrote the mark on the way to accepting it, and that depends on two things in the bytes: no
authority was taken in the target, and the first header does not begin with an `X`
(`recognised_iff`).
-/

namespace HttpProxy

/-! ## When the mark is written -/

/-- The authority of the target is taken. -/
def TakesAuthority (w : List UInt8) : Prop := ∃ rest, authority w = .passes rest

/-- Behind the start line comes a byte that is not an `X`. -/
def PassesUnmarked (w : List UInt8) : Prop :=
  ∃ d : LineForm, ∃ c rest, w = d.bytes ++ c :: rest ∧ toupper c ≠ 0x58

section Marked

variable {w : List UInt8}

/-- Behind an authority that is taken the machine leaves the rest unread. -/
theorem unread_of_takesAuthority (hz : 0 ∉ w) {rest : List UInt8} (h : authority w = .passes rest) :
    (reqMachine.stateAfter .initial (fresh w)).unread.map Prod.fst = rest := by
  have hrun := authorityRun_whole hz
  rw [h] at hrun
  obtain ⟨s', l', hleads, hp, hbytes⟩ := hrun.leads_taken (reads_wholeStart hz) (wf_wholeStart w)
  have hafter := hleads.after
  rw [machine_wholeStart, ReqState.machine, RequestData.startCtl, hp] at hafter
  have hhalt := run_halt .accepted [] s'.rData.toRequestFields s'.calls l'
  rw [hafter, Transducer.stateAfter, hhalt]
  exact hbytes

theorem inv_initial : ReqMachine.initial.Inv := ⟨⟨nofun, rfl, rfl⟩, trivial⟩

/-- With an authority the parser does not come to the headers. -/
theorem not_marked_of_takesAuthority (hz : 0 ∉ w) (h : TakesAuthority w) : ¬ReqMachine.initial.Marked w := by
  rintro ⟨u, c, v, rfl, hmark⟩
  obtain ⟨rest, hrest⟩ := h
  obtain ⟨p, hp, hlf⟩ := authority_passes hrest
  have hunread := unread_of_takesAuthority hz hrest
  have hlf' := ReqMachine.lf_mem_of_localHost inv_initial nofun hmark.1
  -- What is left unread was read behind the check for the mark.
  have hbound : rest.length ≤ (c :: v).length := by
    have hinv := ReqMachine.inv_stateAfter inv_initial (fresh u)
    have hleft := (ReqMachine.run_bounds (c :: v) hinv).1.length_le
    have hnil : (reqMachine.stateAfter .initial (fresh u)).unread = [] := by
      unfold ReqMachine.unread
      rw [hmark.1]
    have hfresh : (fresh (c :: v)).length = (c :: v).length := List.length_map _
    rw [hnil, ← Transducer.stateAfter_append, ← fresh_append, List.nil_append, hfresh] at hleft
    rw [← hunread, List.length_map]
    exact hleft
  have hpre : u <+: p := by
    refine List.prefix_of_prefix_length_le (List.prefix_append u (c :: v)) (hp ▸ List.prefix_append p rest) ?_
    have hlen := congrArg List.length hp
    rw [List.length_append, List.length_append] at hlen
    omega
  exact hlf (hpre.subset hlf')

/-- Whether an authority is taken is known as soon as the scan does not wait. -/
theorem takesAuthority_append (h : authority w ≠ .waits) (z : List UInt8) :
    TakesAuthority (w ++ z) ↔ TakesAuthority w := by
  unfold TakesAuthority
  rw [stable_authority w z h]
  cases hauth : authority w with
  | waits => exact absurd hauth h
  | fails e => exact Iff.rfl
  | passes rest => exact iff_of_true ⟨_, rfl⟩ ⟨_, rfl⟩

/-- A request that is accepted was marked just if no authority was taken and the first header does not
begin with an `X`, whatever is behind it. -/
theorem marked_iff (hz : 0 ∉ w) {unread : List Cell}
    (hacc : (reqMachine.stateAfter .initial (fresh w)).ctl = .halt .accepted unread) (z : List UInt8) :
    ReqMachine.initial.Marked w ↔ ¬TakesAuthority (w ++ z) ∧ PassesUnmarked (w ++ z) := by
  have hrun := authorityRun_whole hz
  rcases hrun.of_accepted (reads_wholeStart hz) (wf_wholeStart w) hacc with hnone | htaken
  · -- Without an authority the line is passed, and the machine is at the check for the mark behind it.
    have hnot : ¬TakesAuthority (w ++ z) := by
      rw [takesAuthority_append (by rw [hnone]; exact nofun)]
      rintro ⟨rest, hrest⟩
      cases hnone.symm.trans hrest
    rw [hnone] at hrun
    obtain ⟨s₁, l₁, hleads, hline⟩ := hrun.leads_none (reads_wholeStart hz) (wf_wholeStart w)
    obtain ⟨rest, hrest⟩ := hline.of_accepted hleads.reads hleads.wf (hleads.after ▸ hacc)
    obtain ⟨d, rfl⟩ := lineScan_passes_iff.mp hrest
    have hself : lineScan d.bytes = .passes [] := lineScan_passes_iff.mpr ⟨d, (List.append_nil _).symm⟩
    have hctl : (reqMachine.stateAfter .initial (fresh d.bytes)).ctl = .localHost :=
      stateAfter_line (fun h0 => hz (List.mem_append_left rest h0)) (authority_of_append hnone hself) hself
    constructor
    · rintro ⟨u, c, v, hu, hmark⟩
      obtain rfl : rest = c :: v := ReqMachine.eq_behind_localHost hu hctl hmark.1
      exact ⟨hnot, d, c, v ++ z, List.append_assoc _ _ _, hmark.2⟩
    · rintro ⟨-, d', c, rest', hd', hc⟩
      have hbehind : rest ++ z = c :: rest' := by
        have hpasses : lineScan (d.bytes ++ (rest ++ z)) = .passes (c :: rest') :=
          lineScan_passes_iff.mpr ⟨d', (List.append_assoc _ _ _).symm.trans hd'⟩
        exact LineScan.passes.inj ((lineScan_passes_iff.mpr ⟨d, rfl⟩).symm.trans hpasses)
      cases rest with
      | nil =>
        rw [List.append_nil, hctl] at hacc
        cases hacc
      | cons c' v =>
        obtain rfl := (List.cons.inj hbehind).1
        exact ⟨d.bytes, c', v, rfl, hctl, hc⟩
  · refine iff_of_false (not_marked_of_takesAuthority hz htaken) fun h => h.1 ?_
    obtain ⟨rest, hrest⟩ := htaken
    exact (takesAuthority_append (by rw [hrest]; exact nofun) z).mpr ⟨rest, hrest⟩

end Marked

/-! ## The end of the loop -/

section LoopEnd

variable {s : ReqState} {fuel : Nat} {r : Bool × ReqState}

/-- A case that fails has a function that failed. -/
theorem checkCase_fails {r : Bool × ReqState} {next : ReqState → ReqState}
    (h : (checkCase r next).1.success = false) : r.1 = false ∧ (checkCase r next).2 = r.2 := by
  unfold checkCase at h ⊢
  split at h
  · next hr =>
    rw [if_pos hr]
    exact ⟨hr, rfl⟩
  · cases h

/-- The case of a host that fails leaves what its function left. -/
theorem hostCase_fails {r : Bool × ReqState} {otherwise : ReqState → ReqState}
    (h : (hostCase r otherwise).1.success = false) : (hostCase r otherwise).2 = r.2 := by
  unfold hostCase at h ⊢
  split at h
  · next hr => rw [if_pos hr]
  · split at h <;> cases h

/-- The case of the first header that fails leaves what its function left. -/
theorem localHostCase_fails {r : Bool × ReqState} (h : (localHostCase r).1.success = false) :
    r.1 = false ∧ (localHostCase r).2 = r.2 := by
  unfold localHostCase at h ⊢
  split at h
  · cases h
  · next hr =>
    rw [if_neg hr]
    split at h
    · next he =>
      rw [if_pos he]
      exact ⟨Bool.eq_false_iff.mpr hr, rfl⟩
    · cases h

/-- An iteration that fails does not end in `FINISHED`. -/
theorem iteration_fails (h : (iteration s).1.success = false) :
    (iteration s).2.rData.parserState ≠ .FINISHED := by
  have hstays : ∀ {p : RequestParserState} {rd : RequestData}, rd.parserState = s.rData.parserState →
      s.rData.parserState = p → p ≠ .FINISHED → rd.parserState ≠ .FINISHED := by
    intro p rd hrd hp hne
    rw [hrd, hp]
    exact hne
  unfold iteration at h ⊢
  cases hp : s.rData.parserState <;> simp only [hp] at h ⊢
  case SPACE_TRANSITION =>
    rw [(checkCase_fails h).2]
    exact hstays (by rw [checkSpaces_rData]) hp nofun
  case METHOD =>
    rw [(checkCase_fails h).2]
    exact hstays (extractHttpMethod_stays s).1.parserState hp nofun
  case URI =>
    rw [hostCase_fails h]
    rcases checkUri_rData s with hdata | ⟨hstate | hstate, -⟩
    · exact hstays (by rw [hdata]) hp nofun
    · rw [hstate]
      exact nofun
    · rw [hstate]
      exact nofun
  case URI_HOST =>
    rw [hostCase_fails h]
    exact hstays (checkUriForHost_stays s).parserState hp nofun
  case RELATIVE_URI =>
    rw [(checkCase_fails h).2]
    exact hstays (by rw [cleanRelativeUri_rData]) hp nofun
  case VERSION =>
    rw [(checkCase_fails h).2]
    exact hstays (extractHttpVersion_stays s).parserState hp nofun
  case START_LINE_END =>
    rw [(checkCase_fails h).2]
    exact hstays rfl hp nofun
  case LOCALHOST_HEADER_CHECK =>
    obtain ⟨hfails, hsame⟩ := localHostCase_fails h
    rw [hsame]
    exact hstays (by rw [checkLocalHost_rData hfails]) hp nofun
  case HEADERS =>
    rw [(checkCase_fails h).2]
    exact hstays (by rw [checkHostHeader_rData]) hp nofun
  case HOST =>
    rw [hostCase_fails h]
    exact hstays (extractHost_stays s).parserState hp nofun
  case FINISHED => cases h

/-- An iteration that succeeds and ends the loop is one in `FINISHED`. -/
theorem iteration_inactive (h : (iteration s).1.active = false) :
    (iteration s).2.rData.parserState = .FINISHED := by
  have hcheck : ∀ r next, (checkCase r next).1.active = true := by
    intro r next
    unfold checkCase
    split <;> rfl
  have hhost : ∀ r otherwise, (hostCase r otherwise).1.active = true := by
    intro r otherwise
    unfold hostCase
    split
    · rfl
    · split <;> rfl
  have hlocal : ∀ r, (localHostCase r).1.active = true := by
    intro r
    unfold localHostCase
    split
    · rfl
    · split <;> rfl
  unfold iteration at h ⊢
  cases hp : s.rData.parserState <;> simp only [hp, hcheck, hhost, hlocal, Bool.true_eq_false] at h ⊢

/-- A loop succeeds just when it ends in `FINISHED`. -/
theorem requestLoop_success_iff (h : requestLoop fuel s = some r) :
    r.1 = true ↔ r.2.rData.parserState = .FINISHED := by
  refine Loop.run_induction (P := fun _ r => r.1 = true ↔ r.2.rData.parserState = .FINISHED) ?_ ?_ h
  · intro s r hend
    obtain rfl := loopBody_eq_inr hend
    cases hs : (iteration s).1.success with
    | false => exact iff_of_false Bool.false_ne_true (iteration_fails hs)
    | true =>
      refine iff_of_true rfl (iteration_inactive ?_)
      unfold loopBody at hend
      simp only [hs, Bool.true_and] at hend
      split at hend
      · cases hend
      · next hactive => exact Bool.eq_false_iff.mpr hactive
  · intro s s' r hgo ih
    exact ih

end LoopEnd

/-! ## Calls -/

/-- What a call of `checkRequest` writes to `bOut`. -/
def requestOut (rd : RequestData) (bIn : Buffer) : List UInt8 :=
  ((checkRequestInner (requestFuel bIn) (callStart rd bIn)).map fun r => r.2.io.out).getD []

/-- A call appends what the loop writes to the output buffer. -/
theorem bOut_checkRequest {rd : RequestData} {bIn bOut : Buffer} {r : RequestResult}
    (h : checkRequest rd bIn bOut = some r) : r.bOut = bufferWriteAll bOut (requestOut rd bIn) := by
  obtain ⟨x, hx, rfl⟩ := Option.map_eq_some_iff.mp h
  unfold requestOut
  rw [hx]
  rfl

/-- The buffer holds the bytes `w`, and behind them a zero byte or nothing. -/
structure Holds (b : Buffer) (w z : List UInt8) : Prop where
  wf : b.Wf
  cells : b.cells = fresh (w ++ z)
  nonzero : 0 ∉ w
  behind : ∀ c ∈ z.head?, c = 0

section Holds

variable {b bOut : Buffer} {w z : List UInt8}

/-- A buffer of fresh bytes is what stands in front of the first zero, and the rest. -/
theorem exists_holds (hb : b.Wf) (hfresh : b.cells = fresh b.bytes) :
    ∃ w z, b.bytes = w ++ z ∧ Holds b w z := by
  refine ⟨b.bytes.takeWhile (· != 0), b.bytes.dropWhile (· != 0), List.takeWhile_append_dropWhile.symm,
    hb, ?_, ?_, ?_⟩
  · rw [List.takeWhile_append_dropWhile]
    exact hfresh
  · intro h0
    exact absurd (List.all_eq_true.mp List.all_takeWhile 0 h0) (by decide)
  · intro c hc
    have hhead := List.head?_dropWhile_not (· != 0) b.bytes
    rw [show (b.bytes.dropWhile (· != 0)).head? = some c from hc] at hhead
    exact bne_eq_false_iff_eq.mp hhead

namespace Holds

/-- What is behind the first zero begins with it. -/
theorem head (h : Holds b w z) : ∀ x ∈ (fresh z).head?, x.1 = 0 := by
  intro x hx
  unfold fresh at hx
  rw [List.head?_map] at hx
  obtain ⟨c, hc, rfl⟩ := Option.map_eq_some_iff.mp hx
  exact h.behind c hc

/-- The call on the buffer and the call on what is in front of the zero start alike. -/
theorem cut (h : Holds b w z) : (callStart defaultRequestStruct b).Cut (fresh z) (wholeStart w) := by
  have hreads := reads_wholeStart h.nonzero
  refine ⟨rfl, rfl, ⟨fresh w, ⟨h.wf, ?_⟩, hreads.shows_, hreads.nonzero⟩, rfl, rfl⟩
  rw [← fresh_append]
  exact h.cells

/-- The two calls end alike. -/
theorem sameEnd (h : Holds b w z) (fuel : Nat) :
    Option.Rel (SameEnd (fresh z)) (requestLoop fuel (callStart defaultRequestStruct b))
      (requestLoop fuel (wholeStart w)) :=
  sameEnd_requestLoop h.head fuel h.cut (running_callStart RequestData.Wf.default b).1

end Holds

/-- The loop on a request received whole. -/
theorem requestLoop_wholeStart (hz : 0 ∉ w) {fuel : Nat} {r : Bool × ReqState}
    (h : requestLoop fuel (wholeStart w) = some r) :
    (∀ unread, (reqMachine.stateAfter .initial (fresh w)).ctl = .halt .accepted unread → r.1 = true) ∧
      (r.1 = true → ∃ unread,
        reqMachine.stateAfter .initial (fresh w) =
            ⟨.halt .accepted unread, r.2.rData.toRequestFields, r.2.calls⟩ ∧
          r.2.io.out = reqMachine.emitted .initial (fresh w) ∧ r.2.io.Shows unread) := by
  have hend := requestLoop_success_iff h
  have hmove := requestLoop_move h (reads_wholeStart hz) (wf_wholeStart w)
  have hstate := reportError_parserState r
  rw [machine_wholeStart] at hmove
  cases hmove with
  | waits rests calls waits =>
    obtain ⟨e, -, hy⟩ := waits.emits
    have hafter := hy.stateAfter_eq
    rw [Transducer.stateAfter_nil] at hafter
    constructor
    · intro unread hacc
      rw [hafter] at hacc
      exact absurd hacc (rests.rests.not_halt _ _)
    · intro hr
      exact absurd ((rests.parserState.symm.trans hstate).trans (hend.mp hr)) rests.rests.parserState_ne
  | @halts l' why spin parserState state adv =>
    obtain ⟨e, he, hy⟩ := adv.emits
    have hhalt := run_halt why [] (reportError r).2.rData.toRequestFields (reportError r).2.calls l'
    have hafter := hy.stateAfter_eq
    rw [Transducer.stateAfter, Transducer.stateAfter, hhalt, List.nil_append] at hafter
    constructor
    · intro unread hacc
      have hctl := (congrArg ReqMachine.ctl hafter).symm.trans hacc
      obtain rfl := (ReqCtl.halt.inj hctl).1
      exact hend.mpr (hstate.symm.trans (parserState.mpr rfl))
    · intro hr
      obtain rfl := parserState.mp (hstate.trans (hend.mp hr))
      have hemit := hy.emitted_eq
      rw [List.map_id, Transducer.emitted, Transducer.emitted, hhalt, List.append_nil] at hemit
      rw [reportError_of_success hr] at hafter he adv
      exact ⟨l', hafter, he.trans hemit.symm, adv.shows_⟩

/-- Where one call returns the other does. -/
theorem exists_of_rel_some {α β : Type*} {R : α → β → Prop} {a : α} {o : Option β} (h : Option.Rel R (some a) o) :
    ∃ b, o = some b ∧ R a b := by
  cases h with
  | some hab => exact ⟨_, rfl, hab⟩

/-- What a call that succeeds is in terms of the machine. -/
theorem Holds.of_success (h : Holds b w z) {r : RequestResult}
    (hr : checkRequest defaultRequestStruct b bOut = some r) (hok : r.success = true) :
    ∃ unread, reqMachine.stateAfter .initial (fresh w) =
        ⟨.halt .accepted unread, r.rData.toRequestFields, r.calls⟩ ∧
      requestOut defaultRequestStruct b = reqMachine.emitted .initial (fresh w) ∧
      r.bIn.cells = unread ++ fresh z := by
  obtain ⟨x, hx, rfl⟩ := checkRequest_eq_some_iff.mp hr
  have hxok : x.1 = true := (reportError_fst x).symm.trans hok
  have hrel := h.sameEnd (requestFuel b)
  rw [hx] at hrel
  obtain ⟨y, hy, hend, hcut⟩ := exists_of_rel_some hrel
  have hcut := hcut hxok
  obtain ⟨unread, hafter, hout, hshows⟩ := (requestLoop_wholeStart h.nonzero hy).2 (hend.trans hxok)
  obtain ⟨l, hshows', hshows'', -⟩ := hcut.io.cut
  obtain rfl : l = unread := hshows''.cells.symm.trans hshows.cells
  have hinner : checkRequestInner (requestFuel b) (callStart defaultRequestStruct b) = some (reportError x) :=
    Option.map_eq_some_iff.mpr ⟨x, hx, rfl⟩
  unfold requestOut
  rw [hinner, reportError_of_success hxok]
  refine ⟨l, ?_, ?_, hshows'.cells⟩
  · rw [hafter, hcut.rData, hcut.calls]
  · exact hcut.io.out.symm.trans hout

/-- A call succeeds when the machine accepts the request. -/
theorem Holds.of_accepted (h : Holds b w z) (bOut : Buffer) {unread : List Cell}
    (hacc : (reqMachine.stateAfter .initial (fresh w)).ctl = .halt .accepted unread) :
    ∃ r, checkRequest defaultRequestStruct b bOut = some r ∧ r.success = true := by
  have hwf := RequestData.Wf.default
  have hreads := reads_wholeStart h.nonzero
  have hwhole : ∃ r, checkRequest defaultRequestStruct (wholeStart w).io.b bOut = some r := by
    have hmove := checkRequest_move bOut hwf hreads.shows_.wf hreads.shows_.cells hreads.nonzero
    generalize checkRequest defaultRequestStruct (wholeStart w).io.b bOut = o at hmove
    cases hmove with
    | waits => exact ⟨_, rfl⟩
    | halts => exact ⟨_, rfl⟩
    | spins after => cases hacc.symm.trans after
  obtain ⟨fuel, y, hy⟩ := (checkRequest_isSome_iff hwf _ bOut).mp hwhole
  have hhalts : Loop.Halts loopBody (callStart defaultRequestStruct b) := by
    have hrel := h.sameEnd fuel
    rw [show requestLoop fuel (wholeStart w) = some y from hy] at hrel
    cases hx : requestLoop fuel (callStart defaultRequestStruct b) with
    | none =>
      rw [hx] at hrel
      cases hrel
    | some x => exact ⟨fuel, x, hx⟩
  obtain ⟨r, hr⟩ := (checkRequest_isSome_iff hwf b bOut).mpr hhalts
  obtain ⟨x, hx, rfl⟩ := checkRequest_eq_some_iff.mp hr
  have hrel := h.sameEnd (requestFuel b)
  rw [hx] at hrel
  obtain ⟨y', hy', hend, -⟩ := exists_of_rel_some hrel
  refine ⟨_, hr, (reportError_fst x).trans (hend.symm.trans ?_)⟩
  exact (requestLoop_wholeStart h.nonzero hy').1 unread hacc

end Holds

/-! ## The request comes back -/

section ComesBack

variable {b bOut : Buffer} {w z : List UInt8} {r : RequestResult}

/-- A call finds the request to be one of the proxy's own just when the machine does. -/
theorem Holds.isLocalHost_iff (h : Holds b w z) (bOut : Buffer) {unread : List Cell}
    (hacc : (reqMachine.stateAfter .initial (fresh w)).ctl = .halt .accepted unread) :
    (∃ r, checkRequest defaultRequestStruct b bOut = some r ∧ r.rData.isLocalHost = true) ↔
      (reqMachine.stateAfter .initial (fresh w)).d.isLocalHost = true := by
  obtain ⟨r, hr, hok⟩ := h.of_accepted bOut hacc
  obtain ⟨unread', hafter, -, -⟩ := h.of_success hr hok
  rw [hafter]
  constructor
  · rintro ⟨r', hr', hlocal⟩
    obtain rfl := Option.some.inj (hr.symm.trans hr')
    exact hlocal
  · exact fun hlocal => ⟨r, hr, hlocal⟩

/-- A request that is accepted comes back to a new call as what was written, with what was left unread
behind it. It is then known for one of the proxy's own just when no authority was taken in its target and
its first header does not begin with an `X`. -/
theorem recognised_iff (hb : b.Wf) (hfresh : b.cells = fresh b.bytes)
    (hr : checkRequest defaultRequestStruct b bOut = some r) (hok : r.success = true)
    (hlocal : r.rData.isLocalHost = false) {b₂ : Buffer} (hb₂ : b₂.Wf)
    (hcells : b₂.cells = fresh (requestOut defaultRequestStruct b ++ r.bIn.bytes)) (bOut₂ : Buffer) :
    r.bOut = bufferWriteAll bOut (requestOut defaultRequestStruct b) ∧
      ((∃ r₂, checkRequest defaultRequestStruct b₂ bOut₂ = some r₂ ∧ r₂.rData.isLocalHost = true) ↔
        ¬TakesAuthority b.bytes ∧ PassesUnmarked b.bytes) := by
  refine ⟨bOut_checkRequest hr, ?_⟩
  obtain ⟨w, z, hbytes, hholds⟩ := exists_holds hb hfresh
  obtain ⟨unread, hafter, hwritten, hrest⟩ := hholds.of_success hr hok
  have hacc : (reqMachine.stateAfter .initial (fresh w)).ctl = .halt .accepted unread := by rw [hafter]
  -- What was left unread are bytes of the request.
  obtain ⟨hsuffix, hemitted⟩ := ReqMachine.run_bounds w inv_initial
  have hunread : (reqMachine.stateAfter .initial (fresh w)).unread = unread := by
    unfold ReqMachine.unread
    rw [hacc]
  rw [hunread] at hsuffix
  obtain ⟨p, hp⟩ := hsuffix
  obtain ⟨u, v, rfl, -, rfl⟩ := List.map_eq_append_iff.mp hp.symm
  have hback : r.bIn.bytes = v ++ z := by
    rw [← Buffer.map_fst_cells, hrest, List.map_append, map_fst_fresh]
    exact congrArg (· ++ z) (map_fst_fresh v)
  have hholds₂ : Holds b₂ (requestOut defaultRequestStruct b ++ v) z := by
    refine ⟨hb₂, ?_, ?_, hholds.behind⟩
    · rw [hcells, hback, List.append_assoc]
    · rw [hwritten, List.mem_append, not_or]
      exact ⟨hemitted hholds.nonzero, fun h0 => hholds.nonzero (List.mem_append_right u h0)⟩
  obtain ⟨⟨unread', hacc₂⟩, hmarked⟩ :=
    ReqMachine.second_pass inv_initial nofun hacc (by rw [hafter]; exact hlocal)
  change (reqMachine.stateAfter .initial (fresh _ ++ fresh v)).ctl = _ at hacc₂
  change (reqMachine.stateAfter .initial (fresh _ ++ fresh v)).d.isLocalHost = true ↔ _ at hmarked
  rw [← hwritten, ← fresh_append] at hacc₂ hmarked
  rw [hholds₂.isLocalHost_iff bOut₂ hacc₂, hmarked, marked_iff hholds.nonzero hacc z, hbytes]

theorem recognised_iff_get :
    ∃ r ∈ checkRequest defaultRequestStruct
        (bufferWriteAll (bufferInitR RESERVED 1024) (lit "GET / HTTP/1.1\r\nHost: a\r\n\r\n")) (bufferInit 1024),
      ∃ r₂ ∈ checkRequest defaultRequestStruct
        (bufferWriteAll (bufferInitR RESERVED 1024) (r.bOut.bytes ++ r.bIn.bytes)) (bufferInit 1024),
        r₂.rData.isLocalHost = true := by
  have hbytes : (bufferWriteAll (bufferInitR RESERVED 1024) (lit "GET / HTTP/1.1\r\nHost: a\r\n\r\n")).bytes =
      lit "GET / HTTP/1.1\r\nHost: a\r\n\r\n" := by decide +kernel
  have hfirst : ∃ r ∈ checkRequest defaultRequestStruct
        (bufferWriteAll (bufferInitR RESERVED 1024) (lit "GET / HTTP/1.1\r\nHost: a\r\n\r\n")) (bufferInit 1024),
      r.success = true ∧ r.rData.isLocalHost = false ∧
        r.bOut.bytes = requestOut defaultRequestStruct
          (bufferWriteAll (bufferInitR RESERVED 1024) (lit "GET / HTTP/1.1\r\nHost: a\r\n\r\n")) ∧
        (r.bOut.bytes ++ r.bIn.bytes).length ≤ 64 := by decide +kernel
  obtain ⟨r, hr, hok, hlocal, hout, hlen⟩ := hfirst
  have hwf : (bufferInitR RESERVED 1024).Wf := Buffer.wf_initR (by decide)
  have hempty : (bufferInitR RESERVED 1024).cells = [] := Buffer.cells_eq_nil.mpr rfl
  have hfits : (bufferInitR RESERVED 1024).write + (r.bOut.bytes ++ r.bIn.bytes).length ≤
      (bufferInitR RESERVED 1024).limit :=
    (Nat.add_le_add_left hlen _).trans (by decide +kernel)
  have hcells := Buffer.cells_writeAll hwf hfits
  rw [hempty, List.nil_append, hout] at hcells
  refine ⟨r, hr, ?_⟩
  rw [hout] at hfits ⊢
  refine ((recognised_iff ?_ ?_ hr hok hlocal (Buffer.wf_writeAll hwf hfits) hcells (bufferInit 1024)).2).mpr ?_
  · exact Buffer.wf_writeAll hwf (by decide +kernel)
  · rw [hbytes]
    decide +kernel
  · rw [hbytes]
    constructor
    · rintro ⟨rest, hrest⟩
      have hnone : authority (lit "GET / HTTP/1.1\r\nHost: a\r\n\r\n") = .fails .OK := by decide +kernel
      cases hnone.symm.trans hrest
    · obtain ⟨d, hd⟩ := lineScan_passes_iff.mp
        (show lineScan (lit "GET / HTTP/1.1\r\nHost: a\r\n\r\n") = .passes (lit "Host: a\r\n\r\n") by
          decide +kernel)
      exact ⟨d, 0x48, lit "ost: a\r\n\r\n", hd, by decide⟩

/-- A first header that begins with an `X`. -/
theorem not_recognised :
    ∃ r ∈ checkRequest defaultRequestStruct
        (bufferWriteAll (bufferInitR RESERVED 1024) (lit "GET / HTTP/1.1\r\nX-A: b\r\nHost: a\r\n\r\n"))
        (bufferInit 1024),
      r.success = true ∧ r.rData.isLocalHost = false ∧
        ∃ r₂ ∈ checkRequest defaultRequestStruct
          (bufferWriteAll (bufferInitR RESERVED 1024) (r.bOut.bytes ++ r.bIn.bytes)) (bufferInit 1024),
          r₂.success = true ∧ r₂.rData.isLocalHost = false := by
  decide +kernel

end ComesBack

end HttpProxy
