import HttpProxy.Consumption
import HttpProxy.RequestParser

/-!
# When the request parser returns

The loop of `checkRequestInner` leaves its state as it was in one case: in `HOST`, with no host
copied, in front of a byte that neither belongs to a host nor ends the value (`ReqState.Stuck`).
Every other iteration that goes on moves the parser forward or reads a byte, whatever the input
buffer holds, zero bytes included; so a call returns exactly when its loop reaches no stuck state.

`RequestData.Wf` is what holds of the request data between calls.
-/

namespace HttpProxy

/-! ## What the parser's functions leave -/

/-- A call that did not give up for want of input. -/
def Finishes (r : Bool × ReqState) : Prop := r.1 = true ∨ r.2.io.isBufferEmpty = false

/-- `checkSpaces` only consumes. -/
theorem checkSpaces_consumes {s : ReqState} (h : (checkSpaces s).1 = true) :
    s.io.Consumes (checkSpaces s).2.io := by
  unfold checkSpaces at h ⊢
  simp only at h ⊢
  split
  · next hc => rw [if_pos hc] at h; cases h
  · exact ⟨rfl, moveThroughSpacesLoop_length_le _ _⟩

/-- The loop over the methods only fails to find one with the flag set or with the method it
began with. -/
theorem extractHttpMethodLoop_consumes (c : UInt8) (opts : List (List UInt8 × HttpMethod))
    (m : HttpMethod) (io : Io) :
    io.Consumes (extractHttpMethodLoop c opts m io).2 ∨
      (extractHttpMethodLoop c opts m io).1 = m := by
  induction opts generalizing io with
  | nil => exact .inr rfl
  | cons o opts ih =>
    rw [extractHttpMethodLoop]
    split
    · simp only
      split
      · next hok => exact .inl (matchFormat_consumes _ _ _ (.inl hok))
      · split
        · exact .inr rfl
        · next he =>
          have hcons := matchFormat_consumes _ _ _ (.inr (Bool.eq_false_iff.mpr he))
          rcases ih (matchFormat o.1.tail [c] io).2 with h | h
          · exact .inl (hcons.trans h)
          · exact .inr h
    · exact ih io

/-- A method that is found was read. With none supported before, an end of input is not taken for
one. -/
theorem extractHttpMethod_consumes {s : ReqState} (hm : isSupported s.rData.method = false)
    (h : (extractHttpMethod s).1 = true) : s.io.Consumes (extractHttpMethod s).2.io := by
  unfold extractHttpMethod at h ⊢
  simp only at h ⊢
  split
  · next hc => rw [if_pos hc] at h; cases h
  · next hc =>
    rw [if_neg hc] at h
    refine (readAndWrite_consumes s.io).trans ?_
    rcases extractHttpMethodLoop_consumes (toupper (readAndWrite s.io).1) methodOption
      s.rData.method (readAndWrite s.io).2 with h' | h'
    · exact h'
    · rw [h', hm] at h; cases h

/-- A relative target is gone through byte by byte. -/
theorem cleanRelativeUriLoop_consumes (fuel : Nat) (io : Io) :
    io.Consumes (cleanRelativeUriLoop fuel io).2 := by
  induction fuel generalizing io with
  | zero => exact .refl io
  | succ fuel ih =>
    rw [cleanRelativeUriLoop]
    split
    · exact (readAndWrite_consumes io).trans (ih _)
    · exact .refl io

/-- `cleanRelativeUri` only consumes, unless it runs out. -/
theorem cleanRelativeUri_consumes {s : ReqState} (h : Finishes (cleanRelativeUri s)) :
    s.io.Consumes (cleanRelativeUri s).2.io := by
  unfold cleanRelativeUri Finishes at *
  simp only at h ⊢
  split
  · next hc =>
    rw [if_pos hc] at h
    rcases h with h | h <;> cases h
  · exact cleanRelativeUriLoop_consumes _ _

/-- The bytes of a host are read one by one. The induction is on the fuel. -/
theorem hostLoop_consumes (userinfo : Bool) (fuel : Nat) (t : HostLoop) :
    t.io.Consumes (hostLoop userinfo fuel t).io := by
  induction fuel generalizing t with
  | zero => exact .refl t.io
  | succ fuel ih =>
    rw [hostLoop]
    simp only
    split
    · split
      · exact .refl t.io
      · split
        · exact (readAndWrite_consumes t.io).trans (ih ⟨_, _, _, (readAndWrite t.io).2⟩)
        · split
          · exact (readAndWrite_consumes t.io).trans (ih ⟨_, _, _, (readAndWrite t.io).2⟩)
          · exact .refl t.io
    · exact .refl t.io

/-- A host without user information that was begun stays begun. -/
theorem hostLoop_host_zero (fuel : Nat) (t : HostLoop) (hi : 0 < t.i) (h0 : t.host[0] ≠ 0) :
    (hostLoop false fuel t).host[0] ≠ 0 := by
  induction fuel generalizing t with
  | zero => exact h0
  | succ fuel ih =>
    rw [hostLoop]
    simp only [Bool.false_eq_true, false_and, if_false]
    split
    · split
      · exact h0
      · split
        · refine ih _ (Nat.zero_lt_succ _) ?_
          simp only [Vector.getElem_set, Nat.ne_of_gt hi, if_false]
          exact h0
        · exact h0
    · exact h0

/-- In front of a byte that belongs to no host the loop does nothing; otherwise it begins one. -/
theorem hostLoop_begin (fuel : Nat) (host : Vector UInt8 HOST_MAX_SIZE) (io : Io) :
    hostLoop false (fuel + 1) ⟨0, 0, host, io⟩ = ⟨0, peekDownChar io.b, host, io⟩ ∧
        (peekDownChar io.b = 0 ∨ isHostChar (peekDownChar io.b) = false) ∨
      (hostLoop false (fuel + 1) ⟨0, 0, host, io⟩).host[0] ≠ 0 := by
  rw [hostLoop, dif_pos (Nat.zero_lt_succ _)]
  simp only [Bool.false_eq_true, false_and, if_false]
  split
  · next hc => exact .inl ⟨rfl, .inl hc⟩
  · next hc =>
    split
    · refine .inr (hostLoop_host_zero _ _ Nat.zero_lt_one ?_)
      simp only [Vector.getElem_set_self]
      exact hc
    · next hhost => exact .inl ⟨rfl, .inr (Bool.eq_false_iff.mpr hhost)⟩

/-- Behind `:` the port is consumed, unless the input ends. -/
theorem readPort_colon {s : ReqState} (h : Finishes (readPort 0x3a s)) :
    (readAndWrite s.io).2.Consumes (readPort 0x3a s).2.io := by
  unfold readPort Finishes at *
  rw [if_pos rfl] at h ⊢
  have hnum : ((getNumber (lit ":") (readAndWrite s.io).2).1 ≠ none ∨
      (getNumber (lit ":") (readAndWrite s.io).2).2.isBufferEmpty = false) →
      (readAndWrite s.io).2.Consumes (getNumber (lit ":") (readAndWrite s.io).2).2 :=
    getNumber_consumes
  rcases hr : getNumber (lit ":") (readAndWrite s.io).2 with ⟨_ | port, io⟩
  · rw [hr] at hnum
    simp only [hr, Bool.false_eq_true, false_or] at h
    exact hnum (.inr h)
  · rw [hr] at hnum
    exact hnum (.inl (Option.some_ne_none port))

/-- Without a `:` there is no port to read. -/
theorem readPort_of_ne {c : UInt8} (hc : c ≠ 0x3a) (s : ReqState) : readPort c s = (true, s) :=
  if_neg hc

/-- A port is consumed, unless the input ends. -/
theorem readPort_consumes {c : UInt8} {s : ReqState} (h : Finishes (readPort c s)) :
    s.io.Consumes (readPort c s).2.io := by
  by_cases hc : c = 0x3a
  · subst hc
    exact (readAndWrite_consumes s.io).trans (readPort_colon h)
  · rw [readPort_of_ne hc]
    exact .refl s.io

/-- `readHost` behind its loop. -/
def readHostEnd (t : HostLoop) (r : Bool × ReqState) : Option (Nat × Bool) × ReqState :=
  if t.c = 0 ∨ (r.1 = false ∧ r.2.io.isBufferEmpty = true) then
    (none, { r.2 with io := { r.2.io with
      b := writeToBufReverse r.2.rData.host.toList r.2.io.b t.i, isBufferEmpty := true } })
  else (some (t.i, r.1), r.2)

/-- `readHost` as its loop and what comes behind it. -/
theorem readHost_eq (userinfo : Bool) (s : ReqState) :
    readHost userinfo s =
      let t := hostLoop userinfo (s.io.b.bytes.length + 1) ⟨0, 0, s.rData.host, s.io⟩
      readHostEnd t (readPort t.c (s.withHost t)) := rfl

/-- `readHost` gives no host only where the input ends. -/
theorem readHostEnd_none {t : HostLoop} {r : Bool × ReqState} (h : (readHostEnd t r).1 = none) :
    (readHostEnd t r).2.io.isBufferEmpty = true := by
  unfold readHostEnd at h ⊢
  split at h
  · next hc => rw [if_pos hc]
  · cases h

/-- `readHost` gives a host where its loop found an end and the port finished. -/
theorem readHostEnd_some {t : HostLoop} {r : Bool × ReqState} {v : Nat × Bool}
    (h : (readHostEnd t r).1 = some v) :
    readHostEnd t r = (some (t.i, r.1), r.2) ∧ t.c ≠ 0 ∧ Finishes r := by
  unfold readHostEnd at h ⊢
  split at h
  · cases h
  · next hc =>
    rw [not_or, not_and, Bool.not_eq_true] at hc
    refine ⟨if_neg (by rw [not_or, not_and, Bool.not_eq_true]; exact hc), hc.1, ?_⟩
    cases hr : r.1 with
    | true => exact .inl hr
    | false => exact .inr (hc.2 hr)

/-- `readHost` without a host ran out of input. -/
theorem readHost_none {userinfo : Bool} {s : ReqState} (h : (readHost userinfo s).1 = none) :
    (readHost userinfo s).2.io.isBufferEmpty = true :=
  readHostEnd_none (t := hostLoop userinfo (s.io.b.bytes.length + 1) ⟨0, 0, s.rData.host, s.io⟩) h

/-- `readHost` with a host only consumes. -/
theorem readHost_some {userinfo : Bool} {s : ReqState} {v : Nat × Bool}
    (h : (readHost userinfo s).1 = some v) : s.io.Consumes (readHost userinfo s).2.io := by
  rw [readHost_eq] at h ⊢
  have hloop := hostLoop_consumes userinfo (s.io.b.bytes.length + 1) ⟨0, 0, s.rData.host, s.io⟩
  generalize hostLoop _ _ _ = t at h hloop ⊢
  obtain ⟨heq, -, hfin⟩ := readHostEnd_some h
  rw [heq]
  exact hloop.trans (readPort_consumes (s := s.withHost t) hfin)

/-- `checkUriForHost` only consumes, unless it runs out. -/
theorem checkUriForHost_consumes {s : ReqState} (h : Finishes (checkUriForHost s)) :
    s.io.Consumes (checkUriForHost s).2.io := by
  unfold checkUriForHost Finishes at *
  have hnone := @readHost_none true s
  have hsome := @readHost_some true s
  generalize readHost true s = r at *
  rcases r with ⟨_ | v, s'⟩
  · exact absurd (h.resolve_left Bool.false_ne_true) (by rw [hnone rfl]; decide)
  · exact hsome rfl

/-- The way of a relative target only consumes, unless it runs out. -/
theorem checkUriRelative_consumes {s : ReqState} (h : Finishes (checkUriRelative s)) :
    s.io.Consumes (checkUriRelative s).2.io :=
  cleanRelativeUri_consumes (s := s.goto .RELATIVE_URI)
    (.inr (h.resolve_left Bool.false_ne_true))

/-- `checkUri` only consumes, unless it runs out. -/
theorem checkUri_consumes {s : ReqState} (h : Finishes (checkUri s)) :
    s.io.Consumes (checkUri s).2.io := by
  unfold checkUri at *
  have hhttp := matchFormat_consumes (lit "HTTP") [] s.io
  generalize matchFormat (lit "HTTP") [] s.io = r at *
  rcases r with ⟨_ | _, io⟩
  · by_cases he : io.isBufferEmpty = true
    · simp only [he, Finishes, Bool.false_eq_true, if_false, if_true, Bool.true_eq_false, or_self] at h
    · simp only [he, Bool.false_eq_true, if_false] at h ⊢
      exact (hhttp (.inr (Bool.eq_false_iff.mpr he))).trans
        (checkUriRelative_consumes (s := { s with io := io }) h)
  · have hcons := hhttp (.inl rfl)
    simp only [if_true] at h ⊢
    have hsep := matchFormat_consumes (lit "://") (lit "HTTP") io
    generalize matchFormat (lit "://") (lit "HTTP") io = r at *
    rcases r with ⟨_ | _, io'⟩
    · by_cases he : io'.isBufferEmpty = true
      · simp only [he, Finishes, Bool.false_eq_true, if_false, if_true, Bool.true_eq_false,
          or_self] at h
      · simp only [he, Bool.false_eq_true, if_false] at h ⊢
        exact (hcons.trans (hsep (.inr (Bool.eq_false_iff.mpr he)))).trans
          (checkUriRelative_consumes (s := { s with io := io' }) h)
    · have hcons' := hcons.trans (hsep (.inl rfl))
      simp only [if_true] at h ⊢
      have hhost := @checkUriForHost_consumes (({ s with io := io' } : ReqState).goto .URI_HOST)
      generalize checkUriForHost _ = r at *
      rcases r with ⟨_ | _, s'⟩
      · by_cases he : s'.io.isBufferEmpty = true
        · simp only [he, Finishes, Bool.false_eq_true, if_false, if_true, Bool.true_eq_false,
            or_self] at h
        · simp only [he, Bool.false_eq_true, if_false] at h ⊢
          exact (hcons'.trans (hhost (.inr (Bool.eq_false_iff.mpr he)))).trans
            (checkUriRelative_consumes h)
      · exact hcons'.trans (hhost (.inl rfl))

/-- A version that is found only consumes. -/
theorem extractHttpVersion_consumes {s : ReqState} (h : (extractHttpVersion s).1 = true) :
    s.io.Consumes (extractHttpVersion s).2.io := by
  unfold extractHttpVersion at *
  have hmatch := matchFormat_consumes (lit "HTTP/1.") [] s.io
  generalize matchFormat (lit "HTTP/1.") [] s.io = r at *
  rcases r with ⟨_ | _, io⟩
  · by_cases he : io.isBufferEmpty = true
    · simp only [he, Bool.false_eq_true, if_false, if_true] at h
    · simp only [he, Bool.false_eq_true, if_false] at h ⊢
      exact hmatch (.inr (Bool.eq_false_iff.mpr he))
  · simp only [if_true] at h ⊢
    split
    · exact (hmatch (.inl rfl)).trans (readAndWrite_consumes io)
    · next hc => rw [if_neg hc] at h; cases h

/-- The end of the start line only consumes. -/
theorem checkStartLineEnd_consumes {s : ReqState} (h : (checkStartLineEnd s).1 = true) :
    s.io.Consumes (checkStartLineEnd s).2.io :=
  matchFormat_consumes [CR, LF] [] _ (.inl h)

/-- `checkLocalHost` only consumes, unless it runs out. -/
theorem checkLocalHost_consumes {s : ReqState} (h : Finishes (checkLocalHost s)) :
    s.io.Consumes (checkLocalHost s).2.io := by
  unfold checkLocalHost at *
  have hmatch := matchFormat_consumes (lit "X-LOCALHOST:") [] s.io
  simp only at h ⊢
  by_cases hc : peekUpChar s.io.b = 0
  · rw [if_pos hc] at h
    rcases h with h | h <;> cases h
  · rw [if_neg hc] at h ⊢
    by_cases hX : peekUpChar s.io.b ≠ 0x58
    · rw [if_pos hX]
      exact ⟨rfl, Nat.le_refl _⟩
    · rw [if_neg hX] at h ⊢
      generalize matchFormat (lit "X-LOCALHOST:") [] s.io = r at *
      rcases r with ⟨_ | _, io⟩
      · by_cases he : io.isBufferEmpty = true
        · simp only [he, Finishes, Bool.false_eq_true, if_false, if_true, Bool.true_eq_false,
            or_self] at h
        · simp only [he, Bool.false_eq_true, if_false]
          exact hmatch (.inr (Bool.eq_false_iff.mpr he))
      · exact hmatch (.inl rfl)

/-- The end of the headers only consumes, unless the input ends. -/
theorem checkHeadersEnd_consumes {io : Io}
    (h : (checkHeadersEnd io).1 = true ∨ (checkHeadersEnd io).2.isBufferEmpty = false) :
    io.Consumes (checkHeadersEnd io).2 := by
  unfold checkHeadersEnd checkLF at *
  have hlf := matchFormat_consumes [LF] [CR] io
  generalize matchFormat [LF] [CR] io = r at *
  rcases r with ⟨_ | _, io'⟩
  · exact hlf (.inr (h.resolve_left Bool.false_ne_true))
  · exact (hlf (.inl rfl)).trans (matchFormat_consumes [CR, LF] [CR, LF] _ h)

/-- A Host header that is found only consumes. The induction is on the fuel. -/
theorem checkHostHeaderLoop_consumes {fuel : Nat} {io : Io}
    (h : (checkHostHeaderLoop fuel io).1 = .hostHeader) :
    io.Consumes (checkHostHeaderLoop fuel io).2 := by
  induction fuel generalizing io with
  | zero => cases h
  | succ fuel ih =>
    have hread := readAndWrite_consumes io
    rw [checkHostHeaderLoop] at h ⊢
    generalize readAndWrite io = r₀ at *
    obtain ⟨c, io₀⟩ := r₀
    simp only at h ⊢ hread
    split at h
    · cases h
    · next hc =>
      rw [if_neg hc]
      split at h
      · next hH =>
        rw [if_pos hH]
        have hmatch := matchFormat_consumes (lit "OST:") (lit "H") io₀
        generalize matchFormat (lit "OST:") (lit "H") io₀ = r at *
        rcases r with ⟨_ | _, io⟩
        · by_cases he : io.isBufferEmpty = true
          · simp only [he, Bool.false_eq_true, if_false, if_true, reduceCtorEq] at h
          · simp only [he, Bool.false_eq_true, if_false] at h ⊢
            exact hread.trans ((hmatch (.inr (Bool.eq_false_iff.mpr he))).trans (ih h))
        · exact hread.trans (hmatch (.inl rfl))
      · next hH =>
        rw [if_neg hH]
        split at h
        · next hCR =>
          rw [if_pos hCR]
          have hend := @checkHeadersEnd_consumes io₀
          generalize checkHeadersEnd io₀ = r at *
          rcases r with ⟨_ | _, io⟩
          · by_cases he : io.isBufferEmpty = true
            · simp only [he, Bool.false_eq_true, if_false, if_true, reduceCtorEq] at h
            · simp only [he, Bool.false_eq_true, if_false] at h ⊢
              exact hread.trans ((hend (.inr (Bool.eq_false_iff.mpr he))).trans (ih h))
          · simp only [if_true, reduceCtorEq] at h
        · next hCR =>
          rw [if_neg hCR]
          exact hread.trans (ih h)

/-- `checkHostHeader` that finds the header only consumes. -/
theorem checkHostHeader_consumes {s : ReqState} (h : (checkHostHeader s).1 = true) :
    s.io.Consumes (checkHostHeader s).2.io := by
  unfold checkHostHeader at *
  have hloop := @checkHostHeaderLoop_consumes (s.io.b.bytes.length + 1) s.io
  generalize checkHostHeaderLoop _ _ = r at *
  obtain ⟨fin, io⟩ := r
  cases fin with
  | hostHeader => exact hloop rfl
  | headersEnd => cases h
  | bufferEmpty => cases h

/-! ## The stuck state -/

/-- The state an iteration leaves as it was: in `HOST` with no host copied, in front of a byte
that belongs to no host, begins no port and does not end the value. -/
def ReqState.Stuck (s : ReqState) : Prop :=
  s.rData.parserState = .HOST ∧ getElem s.rData.host 0 host_max_size_pos = 0 ∧
    peekDownChar s.io.b ≠ 0 ∧ isHostChar (peekDownChar s.io.b) = false ∧
    peekDownChar s.io.b ≠ 0x3a ∧
    (isBlank (bufferPeek s.io.b) || bufferPeek s.io.b == CR) = false

instance (s : ReqState) : Decidable s.Stuck := by unfold ReqState.Stuck; infer_instance

/-- `extractHost` in front of a byte that belongs to no host. -/
theorem readHost_of_not_hostChar {s : ReqState}
    (h : hostLoop false (s.io.b.bytes.length + 1) ⟨0, 0, s.rData.host, s.io⟩ =
      ⟨0, peekDownChar s.io.b, s.rData.host, s.io⟩) :
    readHost false s =
      readHostEnd ⟨0, peekDownChar s.io.b, s.rData.host, s.io⟩ (readPort (peekDownChar s.io.b) s) := by
  rw [readHost_eq, h]
  rfl

/-- A stuck iteration leaves everything as it was, and goes on. -/
theorem iteration_stuck {s : ReqState} (he : s.io.isBufferEmpty = false) (h : s.Stuck) :
    iteration s = ({}, s) := by
  obtain ⟨hp, h0, hc, hhost, hcolon, hend⟩ := h
  have hloop : hostLoop false (s.io.b.bytes.length + 1) ⟨0, 0, s.rData.host, s.io⟩ =
      ⟨0, peekDownChar s.io.b, s.rData.host, s.io⟩ := by
    rw [hostLoop, dif_pos (Nat.zero_lt_succ _)]
    simp only [hc, hhost, Bool.false_eq_true, false_and, if_false]
  have hread := readHost_of_not_hostChar hloop
  rw [readPort_of_ne hcolon, readHostEnd, if_neg (by simp only [hc, Bool.true_eq_false, false_and,
    or_self, not_false_eq_true])] at hread
  have hex : extractHost s = (false, s) := by
    unfold extractHost
    rw [hread]
    simp only [hend, Bool.and_false]
  simp only [iteration, hp, hex, hostCase, h0, he, ne_eq, not_true, Bool.false_eq_true, or_self,
    and_false, if_false, id_eq]

/-- `extractHost` only consumes, unless it runs out. -/
theorem extractHost_consumes {s : ReqState} (h : Finishes (extractHost s)) : s.io.Consumes (extractHost s).2.io := by
  unfold extractHost Finishes at *
  have hnone := @readHost_none false s
  have hsome := @readHost_some false s
  generalize readHost false s = r at *
  rcases r with ⟨_ | v, s'⟩
  · exact absurd (h.resolve_left Bool.false_ne_true) (by rw [hnone rfl]; decide)
  · exact hsome rfl

/-- Reading a port leaves the host as it was copied. -/
theorem readPort_host (c : UInt8) (s : ReqState) :
    (readPort c s).2.rData.host = s.rData.host := by
  unfold readPort
  split
  · rcases getNumber (lit ":") (readAndWrite s.io).2 with ⟨_ | port, io⟩ <;> rfl
  · rfl

/-- Behind its loop `readHost` only pushes back. -/
theorem readHostEnd_host (t : HostLoop) (r : Bool × ReqState) :
    (readHostEnd t r).2.rData = r.2.rData := by
  unfold readHostEnd
  split <;> rfl

/-- `extractHost` accepts the host that `readHost` gives when it is short enough, its port is fine and
a blank or CR is behind it. -/
theorem extractHost_eq (s : ReqState) :
    (extractHost s).2 = (readHost false s).2 ∧
      ∀ v, (readHost false s).1 = some v → (extractHost s).1 =
        (decide (v.1 < HOST_MAX_SIZE) && v.2 && (isBlank (bufferPeek (readHost false s).2.io.b) ||
          bufferPeek (readHost false s).2.io.b == CR)) := by
  unfold extractHost
  rcases readHost false s with ⟨_ | v, s'⟩
  · exact ⟨rfl, fun v hv => by cases hv⟩
  · exact ⟨rfl, fun w hw => by cases hw; rfl⟩

/-- An `extractHost` that fails with input left and no host copied has read a byte, unless the
state is stuck: there was a `:` and no port. -/
theorem extractHost_length_lt {s : ReqState} (hp : s.rData.parserState = .HOST)
    (hstuck : ¬s.Stuck) (hf : (extractHost s).1 = false)
    (h0 : (extractHost s).2.rData.host[0] = 0) (he : (extractHost s).2.io.isBufferEmpty = false) :
    (extractHost s).2.io.b.bytes.length < s.io.b.bytes.length := by
  obtain ⟨heq, hok⟩ := extractHost_eq s
  rw [heq] at h0 he ⊢
  rcases hostLoop_begin s.io.b.bytes.length s.rData.host s.io with ⟨hloop, hc⟩ | hne
  · rw [readHost_of_not_hostChar hloop] at h0 he hok ⊢
    rw [readHostEnd_host, readPort_host] at h0
    cases hv : (readHostEnd ⟨0, peekDownChar s.io.b, s.rData.host, s.io⟩
        (readPort (peekDownChar s.io.b) s)).1 with
    | none =>
      rw [readHostEnd_none hv] at he
      cases he
    | some v =>
      obtain ⟨hsome, hc0, hfin⟩ := readHostEnd_some hv
      have hlen : 0 < s.io.b.bytes.length := by
        cases hb : s.io.b.bytes with
        | nil => exact absurd (by simp only [peekDownChar, bufferPeek, hb]; rfl) hc0
        | cons c l => exact Nat.zero_lt_succ _
      have hcolon : peekDownChar s.io.b = 0x3a := by
        by_contra hcolon
        refine hstuck ⟨hp, h0, hc0, hc.resolve_left hc0, hcolon, ?_⟩
        have hok' := hok v hv
        rw [hsome] at hv hok'
        rw [readPort_of_ne hcolon] at hv hok'
        obtain rfl : (0, true) = v := Option.some.inj hv
        rw [hf] at hok'
        exact hok'.symm
      rw [hsome]
      rw [hcolon] at hfin ⊢
      have hport := (readPort_colon hfin).length_le
      rw [length_readAndWrite] at hport
      exact Nat.lt_of_le_of_lt hport (Nat.sub_lt hlen Nat.zero_lt_one)
  · rw [readHost_eq, readHostEnd_host, readPort_host] at h0
    exact absurd h0 hne

/-- The data a call may leave in the parser state it started in. -/
structure RequestData.Stays (rd rd' : RequestData) : Prop where
  parserState : rd'.parserState = rd.parserState
  next : rd'.next = rd.next
  isLocalHost : rd'.isLocalHost = rd.isLocalHost

/-- `extractHttpMethod` writes nothing but the method. -/
theorem extractHttpMethod_stays (s : ReqState) :
    s.rData.Stays (extractHttpMethod s).2.rData ∧
      (extractHttpMethod s).2.rData.host = s.rData.host := by
  unfold extractHttpMethod
  simp only
  split <;> exact ⟨⟨rfl, rfl, rfl⟩, rfl⟩

/-- A method that fails to be extracted is none that is supported. -/
theorem extractHttpMethod_unsupported {s : ReqState} (hm : isSupported s.rData.method = false)
    (h : (extractHttpMethod s).1 = false) :
    isSupported (extractHttpMethod s).2.rData.method = false := by
  unfold extractHttpMethod at *
  simp only at h ⊢
  split
  · exact hm
  · next hc => rw [if_neg hc] at h; exact h

/-- Reading a port writes nothing but the port. -/
theorem readPort_stays (c : UInt8) (s : ReqState) : s.rData.Stays (readPort c s).2.rData := by
  unfold readPort
  split
  · rcases getNumber (lit ":") (readAndWrite s.io).2 with ⟨_ | port, io⟩ <;> exact ⟨rfl, rfl, rfl⟩
  · exact ⟨rfl, rfl, rfl⟩

/-- `readHost` writes nothing but the host and the port. -/
theorem readHost_stays (userinfo : Bool) (s : ReqState) :
    s.rData.Stays (readHost userinfo s).2.rData := by
  rw [readHost_eq, readHostEnd_host]
  have h := readPort_stays (hostLoop userinfo (s.io.b.bytes.length + 1)
    ⟨0, 0, s.rData.host, s.io⟩).c (s.withHost (hostLoop userinfo (s.io.b.bytes.length + 1)
    ⟨0, 0, s.rData.host, s.io⟩))
  exact ⟨h.parserState, h.next, h.isLocalHost⟩

/-- `checkUriForHost` writes nothing but the host and the port. -/
theorem checkUriForHost_stays (s : ReqState) : s.rData.Stays (checkUriForHost s).2.rData := by
  have h := readHost_stays true s
  unfold checkUriForHost
  generalize readHost true s = r at *
  rcases r with ⟨_ | v, s'⟩ <;> exact h

/-- `extractHost` writes nothing but the host and the port. -/
theorem extractHost_stays (s : ReqState) : s.rData.Stays (extractHost s).2.rData := by
  rw [(extractHost_eq s).1]
  exact readHost_stays false s

/-- `extractHttpVersion` writes nothing but the version. -/
theorem extractHttpVersion_stays (s : ReqState) : s.rData.Stays (extractHttpVersion s).2.rData := by
  unfold extractHttpVersion
  obtain ⟨ok, io⟩ := matchFormat (lit "HTTP/1.") [] s.io
  simp only
  split
  · split <;> exact ⟨rfl, rfl, rfl⟩
  · split <;> exact ⟨rfl, rfl, rfl⟩

theorem cleanRelativeUri_rData (s : ReqState) : (cleanRelativeUri s).2.rData = s.rData := by
  unfold cleanRelativeUri
  simp only
  split <;> rfl

theorem checkHostHeader_rData (s : ReqState) : (checkHostHeader s).2.rData = s.rData := by
  unfold checkHostHeader
  obtain ⟨fin, io⟩ := checkHostHeaderLoop (s.io.b.bytes.length + 1) s.io
  cases fin <;> rfl

/-- `checkLocalHost` that fails writes nothing. -/
theorem checkLocalHost_rData {s : ReqState} (h : (checkLocalHost s).1 = false) :
    (checkLocalHost s).2.rData = s.rData := by
  unfold checkLocalHost at *
  simp only at h ⊢
  by_cases hc : peekUpChar s.io.b = 0
  · rw [if_pos hc]; rfl
  · rw [if_neg hc] at h ⊢
    by_cases hX : peekUpChar s.io.b ≠ 0x58
    · rw [if_pos hX]
    · rw [if_neg hX] at h ⊢
      generalize matchFormat (lit "X-LOCALHOST:") [] s.io = r at *
      obtain ⟨ok, io⟩ := r
      cases ok with
      | true => cases h
      | false =>
        simp only [Bool.false_eq_true, if_false]
        split <;> rfl

/-- A target that was read, even in part, leaves `URI`. -/
theorem checkUri_rData (s : ReqState) :
    (checkUri s).2.rData = s.rData ∨
      (((checkUri s).2.rData.parserState = .URI_HOST ∨
        (checkUri s).2.rData.parserState = .RELATIVE_URI) ∧
      (checkUri s).2.rData.isLocalHost = s.rData.isLocalHost) := by
  have hrel : ∀ s' : ReqState, s'.rData.isLocalHost = s.rData.isLocalHost →
      (checkUriRelative s').2.rData.parserState = .RELATIVE_URI ∧
        (checkUriRelative s').2.rData.isLocalHost = s.rData.isLocalHost := by
    intro s' hl
    have hdata : (checkUriRelative s').2.rData = (s'.goto .RELATIVE_URI).rData :=
      cleanRelativeUri_rData _
    rw [hdata]
    exact ⟨rfl, hl⟩
  unfold checkUri
  obtain ⟨http, io⟩ := matchFormat (lit "HTTP") [] s.io
  simp only
  cases http with
  | false =>
    simp only [Bool.false_eq_true, if_false]
    split
    · exact .inl rfl
    · obtain ⟨hp, hl⟩ := hrel { s with io := io } rfl
      exact .inr ⟨.inr hp, hl⟩
  | true =>
    simp only [if_true]
    obtain ⟨sep, io'⟩ := matchFormat (lit "://") (lit "HTTP") io
    simp only
    cases sep with
    | false =>
      simp only [Bool.false_eq_true, if_false]
      split
      · exact .inl rfl
      · obtain ⟨hp, hl⟩ := hrel { s with io := io' } rfl
        exact .inr ⟨.inr hp, hl⟩
    | true =>
      simp only [if_true]
      have hstays := checkUriForHost_stays (({ s with io := io' } : ReqState).goto .URI_HOST)
      generalize checkUriForHost _ = r at hstays ⊢
      split
      · exact .inr ⟨.inl hstays.parserState, hstays.isLocalHost⟩
      · split
        · exact .inr ⟨.inl hstays.parserState, hstays.isLocalHost⟩
        · obtain ⟨hp, hl⟩ := hrel r.2 hstays.isLocalHost
          exact .inr ⟨.inr hp, hl⟩

/-! ## Progress -/

/-- The order of the parser's states. -/
def RequestParserState.rank : RequestParserState → Nat
  | .METHOD | .SPACE_TRANSITION => 0
  | .URI => 2
  | .URI_HOST => 3
  | .RELATIVE_URI => 4
  | .VERSION => 6
  | .START_LINE_END => 7
  | .LOCALHOST_HEADER_CHECK => 8
  | .HEADERS => 9
  | .HOST => 11
  | .FINISHED => 12

/-- How far the parser is; a transition over spaces is in front of the state it leads to. -/
def RequestData.rank (rd : RequestData) : Nat :=
  if rd.parserState = .SPACE_TRANSITION then rd.next.rank - 1 else rd.parserState.rank

/-- No state is behind `FINISHED`. -/
theorem RequestParserState.rank_le (p : RequestParserState) : p.rank ≤ 12 := by
  cases p <;> decide

/-- How far the parser is has a bound, so that it can be counted down. -/
theorem RequestData.rank_le (rd : RequestData) : rd.rank ≤ 12 := by
  unfold rank
  split
  · exact Nat.le_trans (Nat.sub_le _ _) (RequestParserState.rank_le _)
  · exact RequestParserState.rank_le _

/-- Outside the blanks the parser is as far as its state. -/
theorem RequestData.rank_of {rd : RequestData} {p : RequestParserState} (h : rd.parserState = p)
    (hne : p ≠ .SPACE_TRANSITION) : rd.rank = p.rank := by
  rw [rank, h, if_neg hne]

/-- Going to a state is being as far as it. -/
theorem ReqState.rank_goto (s : ReqState) {p : RequestParserState} (hne : p ≠ .SPACE_TRANSITION) :
    (s.goto p).rData.rank = p.rank :=
  RequestData.rank_of rfl hne

/-- Going to blanks is being one in front of the state behind them. -/
theorem ReqState.rank_gotoSpaces (s : ReqState) (n : RequestParserState) :
    (s.gotoSpaces n).rData.rank = n.rank - 1 :=
  if_pos rfl

/-- What holds of the request data between the iterations, and so between calls. -/
structure RequestData.Wf (rd : RequestData) : Prop where
  method : rd.parserState = .METHOD → isSupported rd.method = false
  host : rd.parserState = .METHOD ∨ rd.parserState = .URI ∨
    (rd.parserState = .SPACE_TRANSITION ∧ rd.next = .URI) → rd.host[0] = 0
  next : rd.parserState = .SPACE_TRANSITION → rd.next = .URI ∨ rd.next = .VERSION ∨ rd.next = .HOST
  isLocalHost : rd.parserState ≠ .FINISHED → rd.isLocalHost = false

/-- An iteration that goes on with `s'` reads a byte, or moves the parser forward and pushes
nothing back. -/
structure ReqState.Progress (s s' : ReqState) : Prop where
  consumes : s.io.Consumes s'.io
  forward : s.rData.rank < s'.rData.rank ∨
    s.rData.rank = s'.rData.rank ∧ s'.io.b.bytes.length < s.io.b.bytes.length

/-- The body of the loop goes on exactly when the flags are as at the start of an iteration. -/
theorem loopBody_eq_inl {s s' : ReqState} :
    loopBody s = .inl s' ↔ (iteration s).1 = {} ∧ (iteration s).2 = s' := by
  unfold loopBody
  obtain ⟨⟨success, active⟩, s''⟩ := iteration s
  cases success <;> cases active <;> simp

/-- A case goes on when its function succeeded. -/
theorem checkCase_goes {r : Bool × ReqState} {next : ReqState → ReqState} :
    (checkCase r next).1 = {} → r.1 = true ∧ (checkCase r next).2 = next r.2 := by
  unfold checkCase
  cases h : r.1 with
  | true => exact fun _ => ⟨rfl, rfl⟩
  | false => exact fun hgo => by cases hgo

/-- The case of a host goes on when a host was found, or, without any input missing, when none was
copied. -/
theorem hostCase_goes {r : Bool × ReqState} {otherwise : ReqState → ReqState}
    (hgo : (hostCase r otherwise).1 = {}) :
    Finishes r ∧ (r.1 = true ∧ (hostCase r otherwise).2 = (hostCallback r.2).goto .FINISHED ∨
      r.1 = false ∧ r.2.rData.host[0] = 0 ∧ r.2.io.isBufferEmpty = false ∧
        (hostCase r otherwise).2 = otherwise r.2) := by
  obtain ⟨ok, s⟩ := r
  cases ok with
  | true => exact ⟨.inl rfl, .inl ⟨rfl, rfl⟩⟩
  | false =>
    unfold hostCase at *
    by_cases hstop : s.rData.host[0] ≠ 0 ∨ s.io.isBufferEmpty = true
    · rw [if_pos ⟨rfl, hstop⟩] at hgo
      cases hgo
    · rw [if_neg fun hc => hstop hc.2]
      rw [not_or, not_not, Bool.not_eq_true] at hstop
      exact ⟨.inr hstop.2, .inr ⟨rfl, hstop.1, hstop.2, rfl⟩⟩

/-- The case of the first header goes on whether the mark is there or not. -/
theorem localHostCase_goes {r : Bool × ReqState} (hgo : (localHostCase r).1 = {}) :
    Finishes r ∧ ((localHostCase r).2 = (hostCallback r.2).goto .FINISHED ∨
      (localHostCase r).2 = r.2.goto .HEADERS) := by
  obtain ⟨ok, s⟩ := r
  cases ok with
  | true => exact ⟨.inl rfl, .inl rfl⟩
  | false =>
    unfold localHostCase at *
    by_cases he : s.io.isBufferEmpty = true
    · rw [if_neg Bool.false_ne_true, if_pos he] at hgo
      cases hgo
    · rw [if_neg Bool.false_ne_true, if_neg he]
      exact ⟨.inr (Bool.eq_false_iff.mpr he), .inr rfl⟩

theorem checkSpaces_rData (s : ReqState) : (checkSpaces s).2.rData = s.rData := by
  unfold checkSpaces
  simp only
  split <;> rfl

/-- The `URI`, `URI_HOST` and `HOST` cases that go on reach the end or what is done otherwise. -/
theorem hostCase_progress {s : ReqState} {r : Bool × ReqState} {otherwise : ReqState → ReqState}
    (hgo : (hostCase r otherwise).1 = {}) (hcons : Finishes r → s.io.Consumes r.2.io)
    (hrank : s.rData.rank < 12)
    (hother : r.1 = false → r.2.rData.host[0] = 0 → r.2.io.isBufferEmpty = false →
      s.io.Consumes r.2.io → s.Progress (otherwise r.2)) :
    s.Progress (hostCase r otherwise).2 := by
  obtain ⟨hfin, h⟩ := hostCase_goes hgo
  rcases h with ⟨-, heq⟩ | ⟨hf, h0, he, heq⟩
  · rw [heq]
    refine ⟨hcons hfin, .inl ?_⟩
    rw [ReqState.rank_goto _ (by decide)]
    exact hrank
  · rw [heq]
    exact hother hf h0 he (hcons hfin)

/-- A case that goes on moves the parser forward. -/
theorem checkCase_progress {s : ReqState} {r : Bool × ReqState} {next : ReqState → ReqState}
    (hgo : (checkCase r next).1 = {}) (hcons : r.1 = true → s.io.Consumes (next r.2).io)
    (hrank : s.rData.rank < (next r.2).rData.rank) : s.Progress (checkCase r next).2 := by
  obtain ⟨hok, heq⟩ := checkCase_goes hgo
  rw [heq]
  exact ⟨hcons hok, .inl hrank⟩

/-- An iteration that goes on makes progress, unless it starts in the stuck state. -/
theorem iteration_progress {s : ReqState} (hw : s.rData.Wf) (hstuck : ¬s.Stuck)
    (hgo : (iteration s).1 = {}) : s.Progress (iteration s).2 := by
  unfold iteration at *
  cases hp : s.rData.parserState with
  | SPACE_TRANSITION =>
    simp only [hp] at hgo ⊢
    refine checkCase_progress hgo checkSpaces_consumes ?_
    rw [RequestData.rank, if_pos hp, checkSpaces_rData]
    rcases hw.next hp with hn | hn | hn
    all_goals rw [hn, ReqState.rank_goto _ (by decide)]; decide
  | METHOD =>
    simp only [hp] at hgo ⊢
    refine checkCase_progress hgo (extractHttpMethod_consumes (hw.method hp)) ?_
    rw [RequestData.rank_of hp (by decide), ReqState.rank_gotoSpaces]
    decide
  | URI =>
    simp only [hp] at hgo ⊢
    have hrank : s.rData.rank = 2 := RequestData.rank_of hp (by decide)
    refine hostCase_progress hgo checkUri_consumes (by omega) (fun _ _ _ hcons => ⟨hcons, .inl ?_⟩)
    rw [hrank, ReqState.rank_gotoSpaces]
    decide
  | URI_HOST =>
    simp only [hp] at hgo ⊢
    have hrank : s.rData.rank = 3 := RequestData.rank_of hp (by decide)
    refine hostCase_progress hgo checkUriForHost_consumes (by omega)
      (fun _ _ _ hcons => ⟨hcons, .inl ?_⟩)
    rw [hrank, ReqState.rank_gotoSpaces]
    decide
  | RELATIVE_URI =>
    simp only [hp] at hgo ⊢
    refine checkCase_progress hgo (fun hok => cleanRelativeUri_consumes (.inl hok)) ?_
    rw [RequestData.rank_of hp (by decide), ReqState.rank_gotoSpaces]
    decide
  | VERSION =>
    simp only [hp] at hgo ⊢
    refine checkCase_progress hgo extractHttpVersion_consumes ?_
    rw [RequestData.rank_of hp (by decide), ReqState.rank_goto _ (by decide)]
    decide
  | START_LINE_END =>
    simp only [hp] at hgo ⊢
    refine checkCase_progress hgo checkStartLineEnd_consumes ?_
    rw [RequestData.rank_of hp (by decide), ReqState.rank_goto _ (by decide)]
    decide
  | LOCALHOST_HEADER_CHECK =>
    simp only [hp] at hgo ⊢
    have hrank : s.rData.rank = 8 := RequestData.rank_of hp (by decide)
    obtain ⟨hfin, heq | heq⟩ := localHostCase_goes hgo
    all_goals
      rw [heq]
      refine ⟨checkLocalHost_consumes hfin, .inl ?_⟩
      rw [hrank, ReqState.rank_goto _ (by decide)]
      decide
  | HEADERS =>
    simp only [hp] at hgo ⊢
    refine checkCase_progress hgo checkHostHeader_consumes ?_
    rw [RequestData.rank_of hp (by decide), ReqState.rank_gotoSpaces]
    decide
  | HOST =>
    simp only [hp] at hgo ⊢
    have hrank : s.rData.rank = 11 := RequestData.rank_of hp (by decide)
    refine hostCase_progress hgo extractHost_consumes (by omega) (fun hf h0 he hcons => ?_)
    -- The state may stay when no host was read; then the input has become shorter.
    refine ⟨hcons, .inr ⟨?_, extractHost_length_lt hp hstuck hf h0 he⟩⟩
    have hp' := (extractHost_stays s).parserState.trans hp
    exact hrank.trans (RequestData.rank_of hp' (by decide)).symm
  | FINISHED =>
    simp only [hp] at hgo
    cases hgo

/-! ## What holds between iterations -/

namespace RequestData.Wf

/-- The data of a new connection. -/
theorem default : defaultRequestStruct.Wf where
  method := by decide
  host := by decide
  next := by decide
  isLocalHost := by decide

/-- Past the target there is only one thing to hold. -/
theorem of_late {rd : RequestData} (hm : rd.parserState ≠ .METHOD) (hu : rd.parserState ≠ .URI)
    (hs : rd.parserState = .SPACE_TRANSITION → rd.next = .VERSION ∨ rd.next = .HOST)
    (hl : rd.parserState ≠ .FINISHED → rd.isLocalHost = false) : rd.Wf where
  method h := absurd h hm
  host h := by
    rcases h with h | h | ⟨h, hn⟩
    · exact absurd h hm
    · exact absurd h hu
    · rcases hs h with h' | h' <;> rw [h'] at hn <;> cases hn
  next h := .inr (hs h)
  isLocalHost := hl

/-- The data in most states hold nothing but that the proxy was not found. -/
theorem goto {s : ReqState} {p : RequestParserState} (hm : p ≠ .METHOD) (hu : p ≠ .URI)
    (hs : p ≠ .SPACE_TRANSITION) (hl : s.rData.isLocalHost = false) : (s.goto p).rData.Wf :=
  of_late hm hu (fun h => absurd h hs) fun _ => hl

/-- In front of blanks the data hold where they lead. -/
theorem gotoSpaces {s : ReqState} {n : RequestParserState} (hn : n = .VERSION ∨ n = .HOST)
    (hl : s.rData.isLocalHost = false) : (s.gotoSpaces n).rData.Wf :=
  of_late (by rintro ⟨⟩) (by rintro ⟨⟩) (fun _ => hn) fun _ => hl

theorem finished (s : ReqState) : (s.goto .FINISHED).rData.Wf :=
  of_late (by rintro ⟨⟩) (by rintro ⟨⟩) (by rintro ⟨⟩) (fun h => absurd rfl h)

/-- The version and the error are free. -/
theorem congr {rd rd' : RequestData} (h : rd.Wf) (hp : rd'.parserState = rd.parserState)
    (hn : rd'.next = rd.next) (hm : rd'.method = rd.method) (hh : rd'.host = rd.host)
    (hl : rd'.isLocalHost = rd.isLocalHost) : rd'.Wf where
  method h' := by rw [hm]; exact h.method (hp.symm.trans h')
  host h' := by rw [hp, hn] at h'; simp only [hh]; exact h.host h'
  next h' := by rw [hn]; exact h.next (hp.symm.trans h')
  isLocalHost h' := by rw [hl]; exact h.isLocalHost (hp ▸ h')

end RequestData.Wf

/-- A case keeps the data well formed when its function and its next state do. -/
theorem checkCase_wf {r : Bool × ReqState} {next : ReqState → ReqState}
    (hstop : r.1 = false → r.2.rData.Wf) (hnext : r.1 = true → (next r.2).rData.Wf) :
    (checkCase r next).2.rData.Wf := by
  unfold checkCase
  cases hr : r.1 with
  | true => exact hnext hr
  | false => exact hstop hr

/-- The case of a host keeps the data well formed when its function and its other state do. -/
theorem hostCase_wf {r : Bool × ReqState} {otherwise : ReqState → ReqState}
    (hstop : r.2.rData.Wf) (hother : (otherwise r.2).rData.Wf) :
    (hostCase r otherwise).2.rData.Wf := by
  unfold hostCase
  split
  · exact hstop
  · split
    · exact .finished _
    · exact hother

/-- Every iteration keeps the request data well formed. -/
theorem iteration_wf {s : ReqState} (hw : s.rData.Wf) : (iteration s).2.rData.Wf := by
  unfold iteration
  cases hp : s.rData.parserState with
  | SPACE_TRANSITION =>
    have hl : s.rData.isLocalHost = false := hw.isLocalHost (by rw [hp]; decide)
    have hdata := checkSpaces_rData s
    refine checkCase_wf (fun _ => by rw [hdata]; exact hw) (fun _ => ?_)
    rw [ReqState.goto, hdata]
    -- The blanks lie in front of the target, the version or the host.
    rcases hw.next hp with hn | hn | hn <;> rw [hn]
    · exact ⟨by rintro ⟨⟩, fun _ => hw.host (.inr (.inr ⟨hp, hn⟩)), by rintro ⟨⟩, fun _ => hl⟩
    · exact .of_late (by rintro ⟨⟩) (by rintro ⟨⟩) (by rintro ⟨⟩) fun _ => hl
    · exact .of_late (by rintro ⟨⟩) (by rintro ⟨⟩) (by rintro ⟨⟩) fun _ => hl
  | METHOD =>
    have hl : s.rData.isLocalHost = false := hw.isLocalHost (by rw [hp]; decide)
    have h0 := hw.host (.inl hp)
    obtain ⟨hstays, hhost⟩ := extractHttpMethod_stays s
    refine checkCase_wf (fun hf => ?_) (fun _ => ?_)
    · exact ⟨fun _ => extractHttpMethod_unsupported (hw.method hp) hf,
        fun _ => by simp only [hhost]; exact h0,
        fun h => absurd ((hstays.parserState.trans hp).symm.trans h) (by decide),
        fun _ => hstays.isLocalHost.trans hl⟩
    · exact ⟨by rintro ⟨⟩, fun _ => by simp only [ReqState.gotoSpaces, hhost]; exact h0,
        fun _ => .inl rfl, fun _ => hstays.isLocalHost.trans hl⟩
  | URI =>
    have hl : s.rData.isLocalHost = false := hw.isLocalHost (by rw [hp]; decide)
    -- `checkUri` may have gone on to another state before it failed.
    rcases checkUri_rData s with h | ⟨h, hl'⟩
    · exact hostCase_wf (by rw [h]; exact hw) (.gotoSpaces (.inl rfl) (by rw [h]; exact hl))
    · refine hostCase_wf ?_ (.gotoSpaces (.inl rfl) (hl'.trans hl))
      rcases h with h | h
      all_goals
        exact .of_late (by rw [h]; decide) (by rw [h]; decide) (by rw [h]; rintro ⟨⟩)
          fun _ => hl'.trans hl
  | URI_HOST =>
    have hl : s.rData.isLocalHost = false := hw.isLocalHost (by rw [hp]; decide)
    have hstays := checkUriForHost_stays s
    refine hostCase_wf ?_ (.gotoSpaces (.inl rfl) (hstays.isLocalHost.trans hl))
    exact .of_late (by rw [hstays.parserState, hp]; decide) (by rw [hstays.parserState, hp]; decide)
      (by rw [hstays.parserState, hp]; rintro ⟨⟩) fun _ => hstays.isLocalHost.trans hl
  | RELATIVE_URI =>
    have hl : s.rData.isLocalHost = false := hw.isLocalHost (by rw [hp]; decide)
    have hdata := cleanRelativeUri_rData s
    exact checkCase_wf (fun _ => by rw [hdata]; exact hw)
      (fun _ => .gotoSpaces (.inl rfl) (by rw [hdata]; exact hl))
  | VERSION =>
    have hl : s.rData.isLocalHost = false := hw.isLocalHost (by rw [hp]; decide)
    have hstays := extractHttpVersion_stays s
    refine checkCase_wf (fun _ => ?_)
      (fun _ => .goto (by decide) (by decide) (by decide) (hstays.isLocalHost.trans hl))
    exact .of_late (by rw [hstays.parserState, hp]; decide) (by rw [hstays.parserState, hp]; decide)
      (by rw [hstays.parserState, hp]; rintro ⟨⟩) fun _ => hstays.isLocalHost.trans hl
  | START_LINE_END =>
    have hl : s.rData.isLocalHost = false := hw.isLocalHost (by rw [hp]; decide)
    exact checkCase_wf (fun _ => hw) (fun _ => .goto (by decide) (by decide) (by decide) hl)
  | LOCALHOST_HEADER_CHECK =>
    have hl : s.rData.isLocalHost = false := hw.isLocalHost (by rw [hp]; decide)
    have hdata := @checkLocalHost_rData s
    simp only [localHostCase]
    generalize checkLocalHost s = r at hdata ⊢
    obtain ⟨ok, s'⟩ := r
    cases ok with
    | true => exact .finished _
    | false =>
      have hdata' : s'.rData = s.rData := hdata rfl
      simp only [Bool.false_eq_true, if_false]
      split
      · simp only [hdata']; exact hw
      · exact .goto (by decide) (by decide) (by decide) (by rw [hdata']; exact hl)
  | HEADERS =>
    have hl : s.rData.isLocalHost = false := hw.isLocalHost (by rw [hp]; decide)
    have hdata := checkHostHeader_rData s
    exact checkCase_wf (fun _ => by rw [hdata]; exact hw)
      (fun _ => .gotoSpaces (.inr rfl) (by rw [hdata]; exact hl))
  | HOST =>
    have hl : s.rData.isLocalHost = false := hw.isLocalHost (by rw [hp]; decide)
    have hstays := extractHost_stays s
    have hwf : (extractHost s).2.rData.Wf :=
      .of_late (by rw [hstays.parserState, hp]; decide) (by rw [hstays.parserState, hp]; decide)
        (by rw [hstays.parserState, hp]; rintro ⟨⟩) fun _ => hstays.isLocalHost.trans hl
    exact hostCase_wf hwf hwf
  | FINISHED => exact hw

/-! ## Whole calls -/

/-- What holds at the start of every iteration. -/
def ReqState.Running (s : ReqState) : Prop := s.rData.Wf ∧ s.io.isBufferEmpty = false

/-- Bytes to read, and states to go. -/
def ReqState.measure (s : ReqState) : Nat := s.io.b.bytes.length + (12 - s.rData.rank)

/-- At the start of a call the flag is clear and the data are those of the connection. -/
theorem running_callStart {rd : RequestData} (h : rd.Wf) (bIn : Buffer) :
    (callStart rd bIn).Running :=
  ⟨h.congr rfl rfl rfl rfl rfl, rfl⟩

/-- From a stuck state the loop goes to that state. -/
theorem loopBody_stuck (s : ReqState) (hs : s.Running) (h : s.Stuck) :
    Loop.Goes loopBody s s :=
  loopBody_eq_inl.mpr (by rw [iteration_stuck hs.2 h]; exact ⟨rfl, rfl⟩)

/-- From any other state the loop goes to one with less to read or less far to go. -/
theorem loopBody_progress (s s' : ReqState) (hs : s.Running) (h : ¬s.Stuck)
    (hgo : Loop.Goes loopBody s s') : s'.Running ∧ s'.measure < s.measure := by
  obtain ⟨hflags, rfl⟩ := loopBody_eq_inl.mp hgo
  have hprog := iteration_progress hs.1 h hflags
  refine ⟨⟨iteration_wf hs.1, hprog.consumes.empty.trans hs.2⟩, ?_⟩
  have hlen := hprog.consumes.length_le
  have hrank := RequestData.rank_le (iteration s).2.rData
  unfold ReqState.measure
  rcases hprog.forward with hlt | ⟨heq, hlt⟩ <;> omega

/-- The fuel of a call suffices whenever any does. -/
theorem checkRequest_isSome_iff {rd : RequestData} (h : rd.Wf) (bIn bOut : Buffer) :
    (∃ r, checkRequest rd bIn bOut = some r) ↔ Loop.Halts loopBody (callStart rd bIn) := by
  have hfuel : (callStart rd bIn).measure < requestFuel bIn := by
    unfold ReqState.measure requestFuel
    have : (callStart rd bIn).io.b = bIn := rfl
    rw [this]
    omega
  rw [Loop.halts_iff_run loopBody_stuck loopBody_progress (running_callStart h bIn) hfuel]
  constructor
  · rintro ⟨r, hr⟩
    obtain ⟨x, hrun, -⟩ := checkRequest_eq_some_iff.mp hr
    exact ⟨x, hrun⟩
  · rintro ⟨x, hrun⟩
    exact ⟨_, checkRequest_eq_some_iff.mpr ⟨x, hrun, rfl⟩⟩

/-- Reporting an error writes the error alone. -/
theorem reportError_wf {r : Bool × ReqState} (h : r.2.rData.Wf) : (reportError r).2.rData.Wf := by
  unfold reportError
  split
  · exact h.congr rfl rfl rfl rfl rfl
  · exact h

/-- A call keeps the request data well formed. -/
theorem checkRequest_wf {rd : RequestData} (h : rd.Wf) {bIn bOut : Buffer} {r : RequestResult}
    (hr : checkRequest rd bIn bOut = some r) : r.rData.Wf := by
  obtain ⟨r', hrun, rfl⟩ := checkRequest_eq_some_iff.mp hr
  refine reportError_wf (r := r') ?_
  refine Loop.run_induction (P := fun s r => s.rData.Wf → r.2.rData.Wf) ?_ ?_ hrun
    (running_callStart h bIn).1
  · intro s r hend hs
    unfold loopBody at hend
    simp only at hend
    split at hend
    · cases hend
    · obtain rfl := Sum.inr.inj hend
      exact iteration_wf hs
  · intro s s' r hgo ih hs
    obtain ⟨-, rfl⟩ := loopBody_eq_inl.mp hgo
    exact ih (iteration_wf hs)

/-- The request data a connection can have: that of `defaultRequestStruct` after calls of
`checkRequest` on any buffers. -/
inductive RequestData.Reachable : RequestData → Prop
  | default : Reachable defaultRequestStruct
  | call {rd : RequestData} {bIn bOut : Buffer} {r : RequestResult} (h : Reachable rd)
      (hr : checkRequest rd bIn bOut = some r) : Reachable r.rData

/-- The data a connection can have are well formed: every call keeps them so. -/
theorem RequestData.Reachable.wf {rd : RequestData} (h : rd.Reachable) : rd.Wf := by
  induction h with
  | default => exact .default
  | call _ hr ih => exact checkRequest_wf ih hr

/-- The loop of a call ends, each of its iterations making progress, exactly when none of its
iterations starts in the stuck state. -/
theorem checkRequest_returns_iff {rd : RequestData} (h : rd.Reachable) (bIn : Buffer) :
    (Loop.Halts loopBody (callStart rd bIn) ∧
      ∀ s s', Loop.Reaches loopBody (callStart rd bIn) s → Loop.Goes loopBody s s' → s.Progress s') ↔
    ∀ s, Loop.Reaches loopBody (callStart rd bIn) s → ¬s.Stuck := by
  have hstart := running_callStart h.wf bIn
  have hiff := Loop.halts_iff loopBody_stuck loopBody_progress hstart
  constructor
  · rintro ⟨hhalts, -⟩
    exact hiff.mp hhalts
  · intro hfree
    refine ⟨hiff.mpr hfree, fun s s' hreach hgo => ?_⟩
    have hwf : s.rData.Wf := by
      refine hreach.invariant (I := fun s => s.rData.Wf) (fun a b ha hgo => ?_) hstart.1
      obtain ⟨-, rfl⟩ := loopBody_eq_inl.mp hgo
      exact iteration_wf ha
    obtain ⟨hflags, rfl⟩ := loopBody_eq_inl.mp hgo
    exact iteration_progress hwf (hfree s hreach) hflags

/-- A first call on a request without a `Host` header yet. -/
theorem checkRequest_returns_default :
    (Loop.Halts loopBody (callStart defaultRequestStruct
        (bufferWriteAll (bufferInitR 255 1024) (lit "GET / HTTP/1.1\r\n"))) ∧
      ∀ s s', Loop.Reaches loopBody (callStart defaultRequestStruct
        (bufferWriteAll (bufferInitR 255 1024) (lit "GET / HTTP/1.1\r\n"))) s →
        Loop.Goes loopBody s s' → s.Progress s') ↔
    ∀ s, Loop.Reaches loopBody (callStart defaultRequestStruct
      (bufferWriteAll (bufferInitR 255 1024) (lit "GET / HTTP/1.1\r\n"))) s → ¬s.Stuck :=
  checkRequest_returns_iff .default _

/-- With `/` for a host the loop never ends. -/
theorem checkRequest_slash_spins :
    ¬Loop.Halts loopBody (callStart defaultRequestStruct
      (bufferWriteAll (bufferInitR 255 1024) (lit "GET / HTTP/1.1\r\nHost: /\r\n\r\n"))) := by
  rw [← checkRequest_isSome_iff .default _ (bufferInit 1024)]
  rintro ⟨r, hr⟩
  have hnone : checkRequest defaultRequestStruct (bufferWriteAll (bufferInitR 255 1024)
      (lit "GET / HTTP/1.1\r\nHost: /\r\n\r\n")) (bufferInit 1024) = none := by decide +kernel
  rw [hnone] at hr
  cases hr

end HttpProxy
