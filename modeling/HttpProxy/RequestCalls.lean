import HttpProxy.RequestParser

/-!
# The host callback

The parser announces a host where it goes to `FINISHED`, and in `FINISHED` it does nothing. So a
call of `checkRequest` announces one host at most, and none once it is `FINISHED`.
-/

namespace HttpProxy

namespace ReqState

/-- Nothing was announced between `s` and `s'`. -/
def Silent (s s' : ReqState) : Prop := s'.calls = s.calls

end ReqState

open ReqState

theorem silent_checkSpaces (s : ReqState) : s.Silent (checkSpaces s).2 := by
  unfold checkSpaces
  simp only
  split <;> rfl

theorem silent_extractHttpMethod (s : ReqState) : s.Silent (extractHttpMethod s).2 := by
  unfold extractHttpMethod
  simp only
  split <;> rfl

theorem silent_cleanRelativeUri (s : ReqState) : s.Silent (cleanRelativeUri s).2 := by
  unfold cleanRelativeUri
  simp only
  split <;> rfl

theorem silent_readPort (c : UInt8) (s : ReqState) : s.Silent (readPort c s).2 := by
  unfold readPort
  split
  · split <;> rfl
  · rfl

/-- Reading a host announces nothing; the loop does so when it is accepted. -/
theorem silent_readHost (userinfo : Bool) (s : ReqState) : s.Silent (readHost userinfo s).2 := by
  have hport := silent_readPort
    (hostLoop userinfo (s.io.b.bytes.length + 1) ⟨0, 0, s.rData.host, s.io⟩).c
    (s.withHost (hostLoop userinfo (s.io.b.bytes.length + 1) ⟨0, 0, s.rData.host, s.io⟩))
  unfold readHost
  simp only
  split <;> exact hport

/-- `checkUriForHost` announces nothing. -/
theorem silent_checkUriForHost (s : ReqState) : s.Silent (checkUriForHost s).2 := by
  have hread := silent_readHost true s
  unfold checkUriForHost
  split
  · next h =>
    rw [h] at hread
    exact hread
  · next h =>
    rw [h] at hread
    exact hread

/-- `extractHost` announces nothing. -/
theorem silent_extractHost (s : ReqState) : s.Silent (extractHost s).2 := by
  have hread := silent_readHost false s
  unfold extractHost
  split
  · next h =>
    rw [h] at hread
    exact hread
  · next h =>
    rw [h] at hread
    exact hread

theorem silent_checkUriRelative (s : ReqState) : s.Silent (checkUriRelative s).2 :=
  silent_cleanRelativeUri (s.goto .RELATIVE_URI)

/-- `checkUri` announces nothing. -/
theorem silent_checkUri (s : ReqState) : s.Silent (checkUri s).2 := by
  unfold checkUri
  obtain ⟨http, io⟩ := matchFormat (lit "HTTP") [] s.io
  simp only
  cases http with
  | false =>
    simp only [Bool.false_eq_true, if_false]
    split
    · rfl
    · exact silent_checkUriRelative { s with io := io }
  | true =>
    simp only [if_true]
    obtain ⟨sep, io'⟩ := matchFormat (lit "://") (lit "HTTP") io
    simp only
    cases sep with
    | false =>
      simp only [Bool.false_eq_true, if_false]
      split
      · rfl
      · exact silent_checkUriRelative { s with io := io' }
    | true =>
      simp only [if_true]
      have hhost : s.Silent (checkUriForHost (({ s with io := io' } : ReqState).goto .URI_HOST)).2 :=
        silent_checkUriForHost _
      generalize checkUriForHost _ = r at hhost ⊢
      split
      · exact hhost
      · split
        · exact hhost
        · exact (silent_checkUriRelative r.2).trans hhost

/-- `extractHttpVersion` announces nothing. -/
theorem silent_extractHttpVersion (s : ReqState) : s.Silent (extractHttpVersion s).2 := by
  unfold extractHttpVersion
  simp only
  split
  · split <;> rfl
  · split <;> rfl

/-- `checkLocalHost` announces nothing. -/
theorem silent_checkLocalHost (s : ReqState) : s.Silent (checkLocalHost s).2 := by
  unfold checkLocalHost
  simp only
  split
  · rfl
  · split
    · rfl
    · split
      · rfl
      · split <;> rfl

/-- `checkHostHeader` announces nothing. -/
theorem silent_checkHostHeader (s : ReqState) : s.Silent (checkHostHeader s).2 := by
  unfold checkHostHeader
  simp only
  split <;> rfl

/-- An iteration announces nothing, or it announces one host and goes to `FINISHED`. -/
def Announces (s : ReqState) (r : LoopFlags × ReqState) : Prop :=
  s.Silent r.2 ∨ r.1 = {} ∧ r.2.rData.parserState = .FINISHED ∧ ∃ call, r.2.calls = s.calls ++ [call]

/-- A case announces nothing. -/
theorem announces_checkCase {s : ReqState} {r : Bool × ReqState} (h : s.Silent r.2)
    {next : ReqState → ReqState} (hnext : ∀ s, ReqState.Silent s (next s)) :
    Announces s (checkCase r next) := by
  unfold checkCase
  split
  · exact .inl h
  · exact .inl ((hnext r.2).trans h)

/-- The callback announces one host, and the parser is finished. -/
theorem announces_finished {s s' : ReqState} (h : s.Silent s') :
    Announces s ({}, (hostCallback s').goto .FINISHED) :=
  .inr ⟨rfl, rfl, _, congrArg (· ++ [(cString s'.rData.host, s'.rData.port)]) h⟩

/-- The case of a host announces it when it is accepted, and nothing else. -/
theorem announces_hostCase {s : ReqState} {r : Bool × ReqState} (h : s.Silent r.2)
    {otherwise : ReqState → ReqState} (hother : ∀ s, ReqState.Silent s (otherwise s)) :
    Announces s (hostCase r otherwise) := by
  unfold hostCase
  split
  · exact .inl h
  · split
    · exact announces_finished h
    · exact .inl ((hother r.2).trans h)

/-- The case of the first header announces the proxy itself when the mark is there. -/
theorem announces_localHostCase {s : ReqState} {r : Bool × ReqState} (h : s.Silent r.2) :
    Announces s (localHostCase r) := by
  unfold localHostCase
  split
  · exact announces_finished h
  · split <;> exact .inl h

/-- An iteration announces one host at most, and then the parser is finished. The cases are the
states. -/
theorem announces_iteration (s : ReqState) : Announces s (iteration s) := by
  unfold iteration
  split
  · exact announces_checkCase (silent_checkSpaces s) fun _ => rfl
  · exact announces_checkCase (silent_extractHttpMethod s) fun _ => rfl
  · exact announces_hostCase (silent_checkUri s) fun _ => rfl
  · exact announces_hostCase (silent_checkUriForHost s) fun _ => rfl
  · exact announces_checkCase (silent_cleanRelativeUri s) fun _ => rfl
  · exact announces_checkCase (silent_extractHttpVersion s) fun _ => rfl
  · exact announces_checkCase (r := checkStartLineEnd s) rfl fun _ => rfl
  · exact announces_localHostCase (silent_checkLocalHost s)
  · exact announces_checkCase (silent_checkHostHeader s) fun _ => rfl
  · exact announces_hostCase (silent_extractHost s) fun _ => rfl
  · exact .inl rfl

/-- In `FINISHED` the loop ends without doing anything. -/
theorem iteration_finished {s : ReqState} (h : s.rData.parserState = .FINISHED) :
    iteration s = ({ active := false }, s) := by
  unfold iteration
  rw [h]

/-- The rest of a loop: in `FINISHED` it ends at once, and else it announces one host at most. -/
def AnnouncesOnce (s : ReqState) (r : Bool × ReqState) : Prop :=
  (s.rData.parserState = .FINISHED → r = (true, s)) ∧
    (s.Silent r.2 ∨ r.1 = true ∧ r.2.rData.parserState = .FINISHED ∧
      ∃ call, r.2.calls = s.calls ++ [call])

/-- The loop announces one host at most. The induction is on the fuel. -/
theorem announcesOnce_requestLoop {fuel : Nat} {s : ReqState} {r : Bool × ReqState}
    (h : requestLoop fuel s = some r) : AnnouncesOnce s r := by
  refine Loop.run_induction (P := AnnouncesOnce) ?_ ?_ h
  · intro s r hend
    have hiter := announces_iteration s
    unfold loopBody at hend
    simp only at hend
    split at hend
    · cases hend
    · next hflags =>
      obtain rfl := Sum.inr.inj hend
      constructor
      · intro hp
        rw [iteration_finished hp]
      · rcases hiter with hsilent | ⟨hgo, -, -⟩
        · exact .inl hsilent
        · rw [hgo] at hflags
          exact absurd rfl hflags
  · intro s s' r hgo hr
    have hiter := announces_iteration s
    unfold Loop.Goes loopBody at hgo
    simp only at hgo
    split at hgo
    · next hflags =>
      obtain rfl := Sum.inl.inj hgo
      constructor
      · intro hp
        rw [iteration_finished hp] at hflags
        cases hflags
      · rcases hiter with hsilent | ⟨-, hp, call, hcall⟩
        · rcases hr.2 with hrest | ⟨hok, hfinished, call, hcall⟩
          · exact .inl (hrest.trans hsilent)
          · exact .inr ⟨hok, hfinished, call, hcall.trans (congrArg (· ++ [call]) hsilent)⟩
        · rw [hr.1 hp]
          exact .inr ⟨rfl, hp, call, hcall⟩
    · cases hgo

variable {rd : RequestData} {bIn bOut : Buffer} {r : RequestResult}

/-- A call of `checkRequest` announces at most one host, and then it ends in `FINISHED`. -/
theorem checkRequest_calls (h : checkRequest rd bIn bOut = some r) :
    r.calls = [] ∨ r.success = true ∧ r.rData.parserState = .FINISHED ∧ ∃ call, r.calls = [call] := by
  obtain ⟨⟨ok, s⟩, hloop, rfl⟩ := checkRequest_eq_some_iff.mp h
  rcases (announcesOnce_requestLoop hloop).2 with hsilent | ⟨hok, hp, call, hcall⟩
  · exact .inl ((reportError_calls (ok, s)).trans hsilent)
  · obtain rfl : ok = true := hok
    exact .inr ⟨rfl, hp, call, hcall⟩

/-- In `FINISHED` a call returns. -/
theorem checkRequest_ne_none (hp : rd.parserState = .FINISHED) : checkRequest rd bIn bOut ≠ none := by
  have hends : loopBody { callStart rd bIn with
      io := { (callStart rd bIn).io with isBufferEmpty := false } } =
      .inr (true, { callStart rd bIn with
        io := { (callStart rd bIn).io with isBufferEmpty := false } }) := by
    unfold loopBody
    rw [iteration_finished hp]
    rfl
  unfold checkRequest checkRequestInner requestLoop requestFuel
  rw [Loop.run_succ_of_ends hends]
  exact Option.some_ne_none _

/-- In `FINISHED` a call changes nothing but the version, which every call sets to 1.1. -/
theorem checkRequest_finished (hp : rd.parserState = .FINISHED)
    (h : checkRequest rd bIn bOut = some r) :
    r = ⟨true, { rd with version := .v1_1 }, bIn, bOut, false, []⟩ := by
  obtain ⟨⟨ok, s⟩, hloop, rfl⟩ := checkRequest_eq_some_iff.mp h
  obtain ⟨rfl, rfl⟩ := Prod.mk.inj ((announcesOnce_requestLoop hloop).1 hp)
  rfl

end HttpProxy
