import HttpProxy.HostScan
import HttpProxy.PushBacks

/-!
# The errors a request is rejected with

The loop of `checkRequestInner` leaves an error by the parser state it failed in, and in some states
it leaves none. Only one failure with input left ends in such a state: in a target `http://` whose
authority is refused after a host was copied, `checkUri` has gone on to `RELATIVE_URI` when it fails.
The call then returns false with the state `OK` (`checkRequest_unreported_iff`).
-/

namespace HttpProxy

/-! ## The target that is given up -/

/-- A target of an absolute request whose authority is refused although a host was copied, and that
ends in the input. -/
def TargetStalls (w : List UInt8) : Prop :=
  HttpTarget w ∧ (scanHost true false 0 (w.drop 7)).Refused ∧
    (scanHost true false 0 (w.drop 7)).begun = true ∧
    (scanHost true false 0 (w.drop 7)).after.any isBlank = true

instance HostScan.decidableRefused (h : HostScan) : Decidable h.Refused :=
  inferInstanceAs (Decidable (_ ∨ _))

instance decidableTargetStalls (w : List UInt8) : Decidable (TargetStalls w) :=
  inferInstanceAs (Decidable (_ ∧ _))

/-- The loop is in front of such a target. -/
def ReqState.AtStall (s : ReqState) : Prop := s.rData.parserState = .URI ∧ TargetStalls s.io.b.bytes

/-- The rest of a target goes to the next blank, if there is one. -/
theorem cleanRelativeUriLoop_dropWhile {l : List Cell} {io : Io} (h : io.Shows l) (hz : ∀ x ∈ l, x.1 ≠ 0) :
    ∃ l', l'.map Prod.fst = (l.map Prod.fst).dropWhile (!isBlank ·) ∧ l' <:+ l ∧
      (cleanRelativeUriLoop l.length io).2.Shows l' ∧
      (cleanRelativeUriLoop l.length io).2.isBufferEmpty = io.isBufferEmpty ∧
      (cleanRelativeUriLoop l.length io).1 = (l'.map Prod.fst).headD 0 := by
  induction l generalizing io with
  | nil => exact ⟨[], rfl, List.suffix_rfl, h, rfl, h.peek_nil⟩
  | cons x l ih =>
    have hx : x.1 ≠ 0 := hz x List.mem_cons_self
    rw [List.length_cons, cleanRelativeUriLoop, List.map_cons, List.dropWhile_cons]
    simp only [h.peek]
    cases hb : isBlank x.1 with
    | true =>
      rw [if_neg (show ¬(!true) = true by decide), if_neg fun hc => Bool.noConfusion hc.2]
      exact ⟨x :: l, rfl, List.suffix_rfl, h, rfl, rfl⟩
    | false =>
      obtain ⟨l', hbytes, hsuffix, hshows, hflag, hc⟩ :=
        ih (h.read _ _) fun y hy => hz y (List.mem_cons_of_mem _ hy)
      rw [if_pos (show (!false) = true by decide), if_pos ⟨hx, rfl⟩]
      exact ⟨l', hbytes, hsuffix.trans (List.suffix_cons x l), hshows, hflag, hc⟩

/-- A call of `cleanRelativeUri` by whether there is a blank. -/
inductive TargetRest (s : ReqState) (l : List Cell) : Bool × ReqState → Prop
  | short {io : Io} (none : (l.map Prod.fst).dropWhile (!isBlank ·) = [])
      (flag : io.isBufferEmpty = true) : TargetRest s l (false, { s with io := io })
  | found {io : Io} {l' : List Cell} (bytes : l'.map Prod.fst = (l.map Prod.fst).dropWhile (!isBlank ·))
      (some : l' ≠ []) (reads : ({ s with io := io } : ReqState).Reads l') :
      TargetRest s l (true, { s with io := io })

/-- The rest of a target is found up to its blank, or runs out. -/
theorem cleanRelativeUri_rest {s : ReqState} {l : List Cell} (h : s.Reads l) :
    TargetRest s l (cleanRelativeUri s) := by
  obtain ⟨l', hbytes, hsuffix, hshows, hflag, hc⟩ := cleanRelativeUriLoop_dropWhile h.shows_ h.nonzero
  have hz : ∀ x ∈ l', x.1 ≠ 0 := fun x hx => h.nonzero x (hsuffix.subset hx)
  unfold cleanRelativeUri
  rw [h.shows_.length]
  generalize cleanRelativeUriLoop l.length s.io = r at hshows hflag hc ⊢
  cases l' with
  | nil =>
    simp only [show r.1 = 0 from hc, if_true]
    exact .short hbytes.symm rfl
  | cons x l' =>
    have hx : r.1 ≠ 0 := by
      rw [hc]
      exact hz x List.mem_cons_self
    simp only [hx, if_false]
    exact .found hbytes (List.cons_ne_nil x l') ⟨hshows, hz, hflag.trans h.notEmpty⟩

/-- The rest of a target runs out exactly when there is no blank. -/
theorem cleanRelativeUri_flag {s : ReqState} {l : List Cell} (h : s.Reads l) :
    (cleanRelativeUri s).2.io.isBufferEmpty = false ↔ (l.map Prod.fst).any isBlank = true := by
  have hany : (l.map Prod.fst).dropWhile (!isBlank ·) = [] ↔ ¬(l.map Prod.fst).any isBlank = true := by
    rw [List.dropWhile_eq_nil_iff, List.any_eq_true, not_exists]
    refine forall_congr' fun c => ?_
    rw [not_and, Bool.not_eq_true', Bool.not_eq_true]
  have hrest := cleanRelativeUri_rest h
  generalize cleanRelativeUri s = r at hrest ⊢
  cases hrest with
  | short none flag => exact iff_of_false (fun he => Bool.noConfusion (flag.symm.trans he)) (hany.mp none)
  | @found io l' bytes some reads =>
    refine iff_of_true reads.notEmpty (by_contra fun hnot => some ?_)
    rw [← List.map_eq_nil_iff (f := Prod.fst), bytes]
    exact hany.mpr hnot

/-- The rest of a target without a host ends the loop with input left if a host was copied and a
blank follows. -/
theorem checkUriRelative_stalls_iff {s : ReqState} {l : List Cell} (h : s.Reads l)
    (otherwise : ReqState → ReqState) :
    (hostCase (checkUriRelative s) otherwise).1 ≠ {} ∧
        (hostCase (checkUriRelative s) otherwise).2.io.isBufferEmpty = false ↔
      s.rData.host[0] ≠ 0 ∧ (l.map Prod.fst).any isBlank = true := by
  have hreads : (s.goto .RELATIVE_URI).Reads l := ⟨h.shows_, h.nonzero, h.notEmpty⟩
  have hdata := cleanRelativeUri_rData (s.goto .RELATIVE_URI)
  rw [← cleanRelativeUri_flag hreads]
  unfold checkUriRelative
  generalize cleanRelativeUri (s.goto .RELATIVE_URI) = r at hdata ⊢
  have hhost : r.2.rData.host = s.rData.host := by rw [hdata]; rfl
  unfold hostCase
  simp only [hhost, true_and, Bool.false_eq_true, if_false]
  split
  · next hc =>
    refine and_congr_left fun he => iff_of_true (by rintro ⟨⟩) (hc.resolve_right ?_)
    rw [he]
    exact Bool.noConfusion
  · next hc =>
    refine iff_of_false (fun h => h.1 rfl) fun h => hc (.inl h.1)

/-! ## The `URI` case -/

/-- `checkUri` fails with input left and no error to report exactly on a target that stalls. -/
theorem checkUri_stalls_iff {s : ReqState} {l : List Cell} (h : s.Reads l)
    (h0 : s.rData.host[0] = 0) :
    (hostCase (checkUri s) (·.gotoSpaces .VERSION)).1 ≠ {} ∧
        (hostCase (checkUri s) (·.gotoSpaces .VERSION)).2.io.isBufferEmpty = false ↔
      TargetStalls (l.map Prod.fst) := by
  -- A call that ran out of input.
  have hempty : ∀ s' : ReqState, s'.io.isBufferEmpty = true →
      ¬((hostCase (false, s') (·.gotoSpaces .VERSION)).1 ≠ {} ∧
        (hostCase (false, s') (·.gotoSpaces .VERSION)).2.io.isBufferEmpty = false) := by
    intro s' he hc
    rw [hostCase_of_empty he] at hc
    exact Bool.noConfusion (he.symm.trans hc.2)
  have huri := checkUri_scan h
  generalize checkUri s = r at huri ⊢
  cases huri with
  | short other none flag => exact iff_of_false (hempty _ flag) fun hstalls => other hstalls.1
  | relative other reads =>
    rw [checkUriRelative_stalls_iff reads]
    exact iff_of_false (fun hc => hc.1 h0) fun hstalls => other hstalls.1
  | @absolute io target reads =>
    have hreads : (({ s with io := io } : ReqState).goto .URI_HOST).Reads (l.drop 7) :=
      ⟨reads.shows_, reads.nonzero, reads.notEmpty⟩
    have hhost := readHost_scan true hreads
    have hbegun : ((({ s with io := io } : ReqState).goto .URI_HOST).rData.host[0] != 0) = false := by
      change (s.rData.host[0] != 0) = false
      rw [h0]
      rfl
    have hstalls : TargetStalls (l.map Prod.fst) ↔
        (scanHost true false 0 ((l.drop 7).map Prod.fst)).Refused ∧
        (scanHost true false 0 ((l.drop 7).map Prod.fst)).begun = true ∧
        (scanHost true false 0 ((l.drop 7).map Prod.fst)).after.any isBlank = true := by
      unfold TargetStalls
      rw [List.map_drop]
      exact and_iff_right target
    rw [hbegun] at hhost
    rw [hstalls]
    unfold checkUriAbsolute checkUriForHost
    generalize scanHost true false 0 ((l.drop 7).map Prod.fst) = scan at hhost ⊢
    generalize readHost true (({ s with io := io } : ReqState).goto .URI_HOST) = r at hhost ⊢
    cases hhost with
    | @short s' short flag =>
      simp only [Bool.false_eq_true, if_false, flag, if_true]
      refine iff_of_false (hempty _ flag) ?_
      rintro ⟨hi | ⟨-, -, hmore⟩, -, -⟩
      · exact absurd hi (Nat.ne_of_lt short.1)
      · exact hmore short.2
    | @refused s' l' v refused invalid reads bytes begun =>
      have hfalse : (decide (scan.i < HOST_MAX_SIZE) && v) = false := by
        rw [Bool.eq_false_iff, ne_eq, Bool.and_eq_true, decide_eq_true_iff]
        exact invalid
      simp only [hfalse, Bool.false_eq_true, if_false, reads.notEmpty]
      rw [checkUriRelative_stalls_iff reads, bytes, and_iff_right refused, ← begun]
      exact and_congr_left' bne_iff_ne.symm
    | @valid s' l' lt short refused reads bytes begun last port =>
      simp only [lt, decide_true, Bool.and_true, if_true]
      refine iff_of_false (fun hc => hc.1 rfl) fun hc => refused hc.1

/-! ## The error left by the loop -/

/-- No error was reported between `s` and `s'`, and the host array is what it was or what a loop over
a host made of it. -/
structure ReqState.HostStep (s s' : ReqState) : Prop where
  state : s'.rData.state = s.rData.state
  host : s'.rData.host = s.rData.host ∨ ∃ userinfo fuel io,
    s'.rData.host = (hostLoop userinfo fuel ⟨0, 0, s.rData.host, io⟩).host

section HostStep

variable (s : ReqState)

/-- A function that writes neither the error nor the host. -/
theorem hostStep_of_eq {s s' : ReqState} (hstate : s'.rData.state = s.rData.state)
    (hhost : s'.rData.host = s.rData.host) : s.HostStep s' := ⟨hstate, .inl hhost⟩

/-- What is written besides the error and the host does not matter. -/
theorem ReqState.HostStep.congr {s s' s'' : ReqState} (h : s.HostStep s')
    (hstate : s''.rData.state = s'.rData.state) (hhost : s''.rData.host = s'.rData.host) :
    s.HostStep s'' :=
  ⟨hstate.trans h.state, by rw [hhost]; exact h.host⟩

/-- `extractHttpMethod` writes neither the error nor the host. -/
theorem hostStep_extractHttpMethod : s.HostStep (extractHttpMethod s).2 := by
  unfold extractHttpMethod
  simp only
  split <;> exact hostStep_of_eq rfl rfl

/-- Reading a port writes no error. -/
theorem readPort_state (c : UInt8) : (readPort c s).2.rData.state = s.rData.state := by
  unfold readPort
  split
  · split <;> rfl
  · rfl

/-- `readHost` writes the host in its loop, and no error. -/
theorem hostStep_readHost (userinfo : Bool) : s.HostStep (readHost userinfo s).2 := by
  rw [readHost_eq]
  refine ⟨?_, .inr ⟨userinfo, s.io.b.bytes.length + 1, s.io, ?_⟩⟩
  · rw [readHostEnd_host]
    exact readPort_state _ _
  · rw [readHostEnd_host, readPort_host]
    rfl

/-- `checkUriForHost` writes the host in its loop, and no error. -/
theorem hostStep_checkUriForHost : s.HostStep (checkUriForHost s).2 := by
  have hread := hostStep_readHost s true
  unfold checkUriForHost
  generalize readHost true s = r at hread ⊢
  obtain ⟨_ | v, s'⟩ := r <;> exact hread

/-- `extractHost` writes the host in its loop, and no error. -/
theorem hostStep_extractHost : s.HostStep (extractHost s).2 := by
  rw [(extractHost_eq s).1]
  exact hostStep_readHost s false

/-- The way of a relative target writes the parser's state alone. -/
theorem checkUriRelative_rData : (checkUriRelative s).2.rData = (s.goto .RELATIVE_URI).rData :=
  cleanRelativeUri_rData _

/-- The way of a relative target writes neither the error nor the host. -/
theorem hostStep_checkUriRelative {s s' : ReqState} (h : s.HostStep s') :
    s.HostStep (checkUriRelative s').2 := by
  refine h.congr ?_ ?_
  · rw [checkUriRelative_rData]
    rfl
  · rw [checkUriRelative_rData]
    rfl

/-- `checkUri` writes the host in its loop, and no error. -/
theorem hostStep_checkUri : s.HostStep (checkUri s).2 := by
  have hsame : ∀ io, s.HostStep { s with io := io } := fun _ => hostStep_of_eq rfl rfl
  unfold checkUri
  obtain ⟨http, io⟩ := matchFormat (lit "HTTP") [] s.io
  cases http with
  | false =>
    simp only [Bool.false_eq_true, if_false]
    split
    · exact hsame io
    · exact hostStep_checkUriRelative (hsame io)
  | true =>
    simp only [if_true]
    obtain ⟨sep, io'⟩ := matchFormat (lit "://") (lit "HTTP") io
    cases sep with
    | false =>
      simp only [Bool.false_eq_true, if_false]
      split
      · exact hsame io'
      · exact hostStep_checkUriRelative (hsame io')
    | true =>
      have hhost : s.HostStep (checkUriForHost (({ s with io := io' } : ReqState).goto .URI_HOST)).2 := by
        obtain ⟨hstate, hhost⟩ :=
          hostStep_checkUriForHost (({ s with io := io' } : ReqState).goto .URI_HOST)
        exact ⟨hstate, hhost⟩
      simp only [if_true]
      generalize checkUriForHost _ = r at hhost ⊢
      split
      · exact hhost
      · split
        · exact hhost
        · exact hostStep_checkUriRelative hhost

/-- `extractHttpVersion` writes neither the error nor the host. -/
theorem hostStep_extractHttpVersion : s.HostStep (extractHttpVersion s).2 := by
  unfold extractHttpVersion
  simp only
  split
  · split <;> exact hostStep_of_eq rfl rfl
  · split <;> exact hostStep_of_eq rfl rfl

/-- `checkLocalHost` writes neither the error nor the host. -/
theorem hostStep_checkLocalHost : s.HostStep (checkLocalHost s).2 := by
  unfold checkLocalHost
  simp only
  split
  · exact hostStep_of_eq rfl rfl
  · split
    · exact hostStep_of_eq rfl rfl
    · split
      · exact hostStep_of_eq rfl rfl
      · split <;> exact hostStep_of_eq rfl rfl

variable {s}

theorem hostStep_of_rData {s' : ReqState} (h : s'.rData = s.rData) : s.HostStep s' :=
  hostStep_of_eq (by rw [h]) (by rw [h])

/-- A case writes what its function writes. -/
theorem hostStep_checkCase {r : Bool × ReqState} {next : ReqState → ReqState} (h : s.HostStep r.2)
    (hstate : ∀ s, (next s).rData.state = s.rData.state)
    (hhost : ∀ s, (next s).rData.host = s.rData.host) : s.HostStep (checkCase r next).2 := by
  unfold checkCase
  split
  · exact h
  · exact h.congr (hstate r.2) (hhost r.2)

/-- The case of a host writes what its function writes. -/
theorem hostStep_hostCase {r : Bool × ReqState} {otherwise : ReqState → ReqState} (h : s.HostStep r.2)
    (hstate : ∀ s, (otherwise s).rData.state = s.rData.state)
    (hhost : ∀ s, (otherwise s).rData.host = s.rData.host) : s.HostStep (hostCase r otherwise).2 := by
  unfold hostCase
  split
  · exact h
  · split
    · exact h.congr rfl rfl
    · exact h.congr (hstate r.2) (hhost r.2)

/-- The case of the first header writes what its function writes. -/
theorem hostStep_localHostCase {r : Bool × ReqState} (h : s.HostStep r.2) :
    s.HostStep (localHostCase r).2 := by
  unfold localHostCase
  split
  · exact h.congr rfl rfl
  · split
    · exact h
    · exact h.congr rfl rfl

/-- An iteration writes the host in a loop over it alone, and no error: that is left to the end of the
call. -/
theorem hostStep_iteration (s : ReqState) : s.HostStep (iteration s).2 := by
  have hstart : s.HostStep (checkStartLineEnd s).2 := hostStep_of_rData rfl
  unfold iteration
  split
  · exact hostStep_checkCase (hostStep_of_rData (checkSpaces_rData s)) (fun _ => rfl) fun _ => rfl
  · exact hostStep_checkCase (hostStep_extractHttpMethod s) (fun _ => rfl) fun _ => rfl
  · exact hostStep_hostCase (hostStep_checkUri s) (fun _ => rfl) fun _ => rfl
  · exact hostStep_hostCase (hostStep_checkUriForHost s) (fun _ => rfl) fun _ => rfl
  · exact hostStep_checkCase (hostStep_of_rData (cleanRelativeUri_rData s)) (fun _ => rfl) fun _ => rfl
  · exact hostStep_checkCase (hostStep_extractHttpVersion s) (fun _ => rfl) fun _ => rfl
  · exact hostStep_checkCase hstart (fun _ => rfl) fun _ => rfl
  · exact hostStep_localHostCase (hostStep_checkLocalHost s)
  · exact hostStep_checkCase (hostStep_of_rData (checkHostHeader_rData s)) (fun _ => rfl) fun _ => rfl
  · exact hostStep_hostCase (hostStep_extractHost s) (fun _ => rfl) fun _ => rfl
  · exact hostStep_of_eq rfl rfl

end HostStep

/-- A target that was not run out of leaves `checkUri` in `RELATIVE_URI`, unless it has a host. -/
theorem checkUri_relative {s : ReqState} (h : (checkUri s).1 = false)
    (he : (checkUri s).2.io.isBufferEmpty = false) :
    (checkUri s).2.rData.parserState = .RELATIVE_URI := by
  have hrelative : ∀ s' : ReqState, (checkUriRelative s').2.rData.parserState = .RELATIVE_URI :=
    fun s' => congrArg RequestData.parserState (cleanRelativeUri_rData (s'.goto .RELATIVE_URI))
  unfold checkUri at h he ⊢
  generalize matchFormat (lit "HTTP") [] s.io = r at h he ⊢
  obtain ⟨http, io⟩ := r
  cases http with
  | false =>
    simp only [Bool.false_eq_true, if_false] at h he ⊢
    split
    · next hio =>
      rw [if_pos hio] at he
      exact Bool.noConfusion (hio.symm.trans he)
    · exact hrelative _
  | true =>
    simp only [if_true] at h he ⊢
    generalize matchFormat (lit "://") (lit "HTTP") io = r at h he ⊢
    obtain ⟨sep, io'⟩ := r
    cases sep with
    | false =>
      simp only [Bool.false_eq_true, if_false] at h he ⊢
      split
      · next hio =>
        rw [if_pos hio] at he
        exact Bool.noConfusion (hio.symm.trans he)
      · exact hrelative _
    | true =>
      simp only [if_true] at h he ⊢
      generalize checkUriForHost _ = r at h he ⊢
      split
      · next hok =>
        rw [if_pos hok] at h
        cases h
      · next hok =>
        rw [if_neg hok] at he
        split
        · next hio =>
          rw [if_pos hio] at he
          exact Bool.noConfusion (hio.symm.trans he)
        · exact hrelative _

/-- A failure of the loop with input left that leaves no error. -/
def Unreported (r : Bool × ReqState) : Prop :=
  r.1 = false ∧ r.2.io.isBufferEmpty = false ∧ errorOf r.2 = .OK

/-- In most states an error is left. -/
theorem errorOf_ne_ok {s : ReqState} {p : RequestParserState} (hp : s.rData.parserState = p)
    (h : p ≠ .SPACE_TRANSITION ∧ p ≠ .RELATIVE_URI ∧ p ≠ .LOCALHOST_HEADER_CHECK ∧ p ≠ .FINISHED) :
    errorOf s ≠ .OK := by
  unfold errorOf
  rw [hp]
  cases p <;> simp only [ne_eq, not_true, false_and, and_false] at h ⊢
  case METHOD => split <;> decide
  all_goals decide

/-- A case that stops has a function that failed. -/
theorem checkCase_false {r : Bool × ReqState} {next : ReqState → ReqState}
    (h : (checkCase r next).1 ≠ {}) : r.1 = false := by
  unfold checkCase at h
  split at h
  · assumption
  · exact absurd rfl h

/-- The case of the first header stops only where the input ends. -/
theorem localHostCase_flag {r : Bool × ReqState} (h : (localHostCase r).1 ≠ {}) :
    r.2.io.isBufferEmpty = true := by
  unfold localHostCase at h
  split at h
  · exact absurd rfl h
  · split at h
    · assumption
    · exact absurd rfl h

section Loop

variable {s : ReqState} {l : List Cell}

/-- In front of such a target the loop ends with input left and no error of its own. -/
theorem iteration_of_atStall (h : s.Reads l) (hw : s.rData.Wf) (hs : s.AtStall) :
    (iteration s).1 = { success := false } ∧ (iteration s).2.io.isBufferEmpty = false ∧
      errorOf (iteration s).2 = s.rData.state := by
  obtain ⟨hp, hstalls⟩ := hs
  have hbytes : l.map Prod.fst = s.io.b.bytes := by rw [← h.shows_.cells, Buffer.map_fst_cells]
  have hiter : iteration s = hostCase (checkUri s) (·.gotoSpaces .VERSION) := by
    unfold iteration
    rw [hp]
  obtain ⟨hend, he⟩ := (checkUri_stalls_iff h (hw.host (.inr (.inl hp)))).mpr (hbytes ▸ hstalls)
  obtain ⟨hfalse, hsame⟩ := hostCase_stops hend
  rw [hiter]
  refine ⟨?_, he, ?_⟩
  · unfold hostCase at hend ⊢
    split
    · rfl
    · next hc =>
      rw [if_neg hc, if_neg (Bool.eq_false_iff.mp hfalse)] at hend
      exact absurd rfl hend
  · rw [hsame] at he ⊢
    unfold errorOf
    rw [checkUri_relative hfalse he]
    exact (hostStep_checkUri s).state

/-- An iteration that ends the loop with input left and no error is in front of such a target. -/
theorem atStall_of_unreported (h : s.Reads l) (hw : s.rData.Wf) (hend : (iteration s).1 ≠ {})
    (hr : Unreported ((iteration s).1.success, (iteration s).2)) : s.AtStall := by
  obtain ⟨hfalse, he, herr⟩ := hr
  have hbytes : l.map Prod.fst = s.io.b.bytes := by rw [← h.shows_.cells, Buffer.map_fst_cells]
  unfold iteration at hend hfalse he herr
  cases hp : s.rData.parserState <;> simp only [hp] at hend hfalse he herr
  case SPACE_TRANSITION =>
    rw [checkCase_stops hend] at he
    exact Bool.noConfusion (he.symm.trans (checkSpaces_false (checkCase_false hend)))
  case METHOD =>
    rw [checkCase_stops hend] at herr
    exact absurd herr (errorOf_ne_ok ((extractHttpMethod_stays s).1.parserState.trans hp) (by decide))
  case URI =>
    refine ⟨hp, ?_⟩
    rw [← hbytes]
    exact (checkUri_stalls_iff h (hw.host (.inr (.inl hp)))).mp ⟨hend, he⟩
  case URI_HOST =>
    rw [(hostCase_stops hend).2] at herr
    exact absurd herr (errorOf_ne_ok ((checkUriForHost_stays s).parserState.trans hp) (by decide))
  case RELATIVE_URI =>
    rw [checkCase_stops hend] at he
    exact Bool.noConfusion (he.symm.trans (cleanRelativeUri_false (checkCase_false hend)))
  case VERSION =>
    rw [checkCase_stops hend] at herr
    exact absurd herr (errorOf_ne_ok ((extractHttpVersion_stays s).parserState.trans hp) (by decide))
  case START_LINE_END =>
    rw [checkCase_stops hend] at herr
    exact absurd herr (errorOf_ne_ok (s := (checkStartLineEnd s).2) hp (by decide))
  case LOCALHOST_HEADER_CHECK =>
    rw [(localHostCase_stops hend).2, localHostCase_flag hend] at he
    cases he
  case HEADERS =>
    rw [checkCase_stops hend] at herr
    refine absurd herr (errorOf_ne_ok (p := .HEADERS) ?_ (by decide))
    rw [checkHostHeader_rData, hp]
  case HOST =>
    rw [(hostCase_stops hend).2] at herr
    exact absurd herr (errorOf_ne_ok ((extractHost_stays s).parserState.trans hp) (by decide))
  case FINISHED => cases hfalse

/-- The loop goes on with fields that are sound and bytes that are not zero. -/
theorem loopBody_reads {s s' : ReqState} (h : s.rData.Wf ∧ ∃ l, s.Reads l) (hgo : loopBody s = .inl s') :
    s'.rData.Wf ∧ ∃ l, s'.Reads l := by
  obtain ⟨hw, l, hreads⟩ := h
  have hmove := iteration_move hreads hw
  have hwf := iteration_wf hw
  obtain ⟨hflags, rfl⟩ := loopBody_eq_inl.mp hgo
  generalize iteration s = i at hmove hwf hflags ⊢
  cases hmove with
  | goes s' reads adv => exact ⟨hwf, _, reads⟩
  | waits => cases hflags
  | stops => cases hflags
  | finished => cases hflags

/-- The loop fails with input left and no error just if it reaches such a target, and there was none
before. -/
theorem requestLoop_unreported_iff {fuel : Nat} {r : Bool × ReqState}
    (hloop : requestLoop fuel s = some r) (h : s.Reads l) (hw : s.rData.Wf) :
    Unreported r ↔ s.rData.state = .OK ∧ ∃ s', Loop.Reaches loopBody s s' ∧ s'.AtStall := by
  induction fuel generalizing s l with
  | zero => cases hloop
  | succ fuel ih =>
    have hsame := (hostStep_iteration s).state
    unfold requestLoop at hloop
    cases hbody : loopBody s with
    | inl s' =>
      obtain ⟨hflags, hs'⟩ := loopBody_eq_inl.mp hbody
      -- An iteration that goes on does not start at a stall.
      have hnot : ¬s.AtStall := fun hstall => by
        rw [(iteration_of_atStall h hw hstall).1] at hflags
        cases hflags
      rw [hs'] at hsame
      obtain ⟨hwf, l', hreads⟩ := loopBody_reads ⟨hw, l, h⟩ hbody
      rw [Loop.run_succ_of_goes hbody] at hloop
      rw [ih hloop hreads hwf, show s'.rData.state = s.rData.state from hsame]
      refine and_congr_right fun _ => ⟨?_, ?_⟩
      · rintro ⟨s'', hreach, hstall⟩
        exact ⟨s'', hreach.head hbody, hstall⟩
      · rintro ⟨s'', hreach, hstall⟩
        rcases Relation.ReflTransGen.cases_head hreach with rfl | ⟨s₁, hgo, hreach⟩
        · exact absurd hstall hnot
        · obtain rfl : s' = s₁ := Sum.inl.inj (hbody.symm.trans hgo)
          exact ⟨s'', hreach, hstall⟩
    | inr r' =>
      rw [Loop.run_succ_of_ends hbody] at hloop
      obtain rfl := Option.some.inj hloop
      have hend : (iteration s).1 ≠ {} := fun hflags => by
        rw [loopBody_eq_inl.mpr ⟨hflags, rfl⟩] at hbody
        cases hbody
      have hr : r' = ((iteration s).1.success, (iteration s).2) := by
        unfold loopBody at hbody
        simp only at hbody
        split at hbody
        · cases hbody
        · exact (Sum.inr.inj hbody).symm
      -- The last iteration reaches no state but its own.
      have honly : ∀ s', Loop.Reaches loopBody s s' → s' = s := by
        intro s' hreach
        rcases Relation.ReflTransGen.cases_head hreach with heq | ⟨s₁, hgo, -⟩
        · exact heq.symm
        · cases hbody.symm.trans hgo
      rw [hr]
      constructor
      · intro hunreported
        have hstall := atStall_of_unreported h hw hend hunreported
        refine ⟨?_, s, .refl, hstall⟩
        rw [← (iteration_of_atStall h hw hstall).2.2]
        exact hunreported.2.2
      · rintro ⟨hs, s', hreach, hstall⟩
        obtain rfl := honly s' hreach
        obtain ⟨hflags, he, herr⟩ := iteration_of_atStall h hw hstall
        exact ⟨by rw [hflags], he, herr.trans hs⟩

end Loop

/-! ## Calls -/

variable {rd : RequestData} {bIn bOut : Buffer} {r : RequestResult}

/-- A call of the parser fails with input left and the state `OK` just if its loop comes, without an
error, to a target that is given up. -/
theorem checkRequest_unreported_iff (hw : rd.Wf) (hb : bIn.Wf) (hz : 0 ∉ bIn.bytes)
    (h : checkRequest rd bIn bOut = some r) :
    r.success = false ∧ r.isBufferEmpty = false ∧ r.rData.state = .OK ↔
      rd.state = .OK ∧ ∃ s, Loop.Reaches loopBody (callStart rd bIn) s ∧ s.AtStall := by
  have hreads : (callStart rd bIn).Reads bIn.cells := by
    refine ⟨⟨hb, rfl⟩, fun x hx h0 => hz ?_, rfl⟩
    rw [← Buffer.map_fst_cells, ← h0]
    exact List.mem_map_of_mem hx
  obtain ⟨r', hloop, rfl⟩ := checkRequest_eq_some_iff.mp h
  refine Iff.trans ?_ (requestLoop_unreported_iff hloop hreads (running_callStart hw bIn).1)
  change (reportError r').1 = false ∧ (reportError r').2.io.isBufferEmpty = false ∧
    (reportError r').2.rData.state = .OK ↔ _
  unfold reportError
  split
  · exact Iff.rfl
  · next hc => exact iff_of_false (fun h => hc ⟨h.1, h.2.1⟩) fun h => hc ⟨h.1, h.2.1⟩

/-- The loop of a call that comes to such a target ends. -/
theorem checkRequest_of_atStall (bOut : Buffer) (hw : rd.Wf) (hb : bIn.Wf) (hz : 0 ∉ bIn.bytes)
    {s : ReqState} (hreach : Loop.Reaches loopBody (callStart rd bIn) s) (hs : s.AtStall) :
    ∃ r, checkRequest rd bIn bOut = some r := by
  have hreads : (callStart rd bIn).Reads bIn.cells := by
    refine ⟨⟨hb, rfl⟩, fun x hx h0 => hz ?_, rfl⟩
    rw [← Buffer.map_fst_cells, ← h0]
    exact List.mem_map_of_mem hx
  obtain ⟨hwf, l, hl⟩ := hreach.invariant (fun _ _ => loopBody_reads)
    ⟨(running_callStart hw bIn).1, _, hreads⟩
  refine (checkRequest_isSome_iff hw bIn bOut).mpr ?_
  cases hbody : loopBody s with
  | inl s' =>
    have hflags := (loopBody_eq_inl.mp hbody).1
    rw [(iteration_of_atStall hl hwf hs).1] at hflags
    cases hflags
  | inr r => exact .head hreach (Loop.halts_of_ends hbody)

/-! ## Runs -/

namespace Feed

/-- If the call after `w` was received returns false with input left, it leaves an error. -/
def Reports (f : Feed) (w : List UInt8) : Prop :=
  f.rData.state = .OK → ∀ r, checkRequest f.rData (bufferWriteAll f.bIn w) f.bOut = some r →
    r.success = false → r.isBufferEmpty = false → r.rData.state ≠ .OK

/-- The loop of that call comes to no target that is given up. -/
def NoStall (f : Feed) (w : List UInt8) : Prop :=
  f.rData.state = .OK →
    ∀ s, Loop.Reaches loopBody (callStart f.rData (bufferWriteAll f.bIn w)) s → ¬s.AtStall

instance decidableReports (f : Feed) (w : List UInt8) : Decidable (f.Reports w) :=
  inferInstanceAs (Decidable (_ → ∀ r ∈ checkRequest f.rData (bufferWriteAll f.bIn w) f.bOut, _ → _ → _))

variable {n : Nat} {f : Feed} {w : List UInt8}

/-- The call reports an error exactly when it comes to no target that stalls. -/
theorem reports_iff (h : f.Open n) (hw : 0 ∉ w) : f.Reports w ↔ f.NoStall w := by
  refine imp_congr_right fun hs => ?_
  cases h with
  | readable wf bIn =>
    have hb := bIn.writeAll hw
    constructor
    · intro hreports s hreach hstall
      obtain ⟨r, hr⟩ := checkRequest_of_atStall f.bOut wf hb.wf hb.nonzero hreach hstall
      obtain ⟨hfail, hleft, hok⟩ :=
        (checkRequest_unreported_iff wf hb.wf hb.nonzero hr).mpr ⟨hs, s, hreach, hstall⟩
      exact hreports r hr hfail hleft hok
    · intro hnone r hr hfail hleft hok
      obtain ⟨-, s, hreach, hstall⟩ :=
        (checkRequest_unreported_iff wf hb.wf hb.nonzero hr).mp ⟨hfail, hleft, hok⟩
      exact hnone s hreach hstall
  | small lt bIn rData =>
    obtain ⟨v, hv⟩ := rData
    rw [bIn, hv, writeAll_of_small lt]
    constructor
    · -- The loop ends in `METHOD`, where it starts.
      intro _ s hreach hstall
      rcases Relation.ReflTransGen.cases_head hreach with rfl | ⟨s', hgo, -⟩
      · cases hstall.1
      · cases hgo
    · intro _ r hr _ hleft
      rw [checkRequest_of_small] at hr
      obtain rfl := Option.some.inj hr
      cases hleft

/-- Whatever the fragments, every call that fails with input left leaves an error just if no call
comes to a target whose authority is refused behind a host. -/
theorem reports_along_iff (n : Nat) (bOut : Buffer) (ws : List (List UInt8)) (hz : ∀ w ∈ ws, 0 ∉ w) :
    PartialRun.Along Feed.receive Reports (.start (bufferInitR RESERVED n) bOut) ws ↔
      PartialRun.Along Feed.receive NoStall (.start (bufferInitR RESERVED n) bOut) ws := by
  have hA : PartialRun.Along Feed.receive (fun _ w => 0 ∉ w) (.start (bufferInitR RESERVED n) bOut) ws :=
    PartialRun.along_of_prefixes fun pre w hpre _ _ =>
      hz w (hpre.subset (List.mem_append_right _ List.mem_cons_self))
  exact PartialRun.along_iff (I := Open n) (fun _ _ _ h hw hs => open_receive h hw hs)
    (fun _ _ h hw => reports_iff h hw) (open_start n bOut) hA

/-- A port that is no number, behind the host of a header that came in two parts. -/
theorem reports_along_header :
    PartialRun.Along Feed.receive NoStall (.start (bufferInitR RESERVED 1024) (bufferInit 1024))
      [lit "GET / HTTP/1.1\r\nHost: a", lit ":x\r\n\r\n"] :=
  (reports_along_iff 1024 (bufferInit 1024) [lit "GET / HTTP/1.1\r\nHost: a", lit ":x\r\n\r\n"]
    (by decide)).mp (by decide +kernel)

/-- A port that is no number, behind the host of the target. -/
theorem port_unreported :
    ¬PartialRun.Along Feed.receive Reports (.start (bufferInitR RESERVED 1024) (bufferInit 1024))
      [lit "GET http://a:x/ HTTP/1.1\r\n"] := by
  decide +kernel

end Feed

end HttpProxy
