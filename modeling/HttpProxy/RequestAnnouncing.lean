import HttpProxy.Library.PartialRun
import HttpProxy.RequestCalls
import HttpProxy.RequestFragments

/-!
# The announcement of the origin

A caller appends bytes to the input buffer and calls the parser, in any order and also after the
parser is `FINISHED`. Over every such run the origin is announced at most once, in the call that
makes the parser `FINISHED`, and from then on calls change nothing.

The parser announces a host where it goes to `FINISHED` (`RequestCalls`); here is the other
direction, that no iteration goes there in silence.
-/

namespace HttpProxy

open ReqState

/-! ## No way to `FINISHED` in silence -/

section Iteration

variable {s : ReqState}

theorem checkCase_announced {r : Bool × ReqState} {next : ReqState → ReqState}
    (hstop : r.2.rData.parserState ≠ .FINISHED) (hnext : (next r.2).rData.parserState ≠ .FINISHED) :
    (checkCase r next).2.rData.parserState ≠ .FINISHED := by
  unfold checkCase
  split
  · exact hstop
  · exact hnext

theorem hostCase_announced {r : Bool × ReqState} {otherwise : ReqState → ReqState}
    (hsilent : s.Silent r.2) (hstop : r.2.rData.parserState ≠ .FINISHED)
    (hother : (otherwise r.2).rData.parserState ≠ .FINISHED)
    (h : (hostCase r otherwise).2.rData.parserState = .FINISHED) :
    ∃ call, (hostCase r otherwise).2.calls = s.calls ++ [call] := by
  unfold hostCase at h ⊢
  split
  · next hc =>
    rw [if_pos hc] at h
    exact absurd h hstop
  · next hc =>
    rw [if_neg hc] at h
    split
    · exact ⟨_, congrArg (· ++ [(cString r.2.rData.host, r.2.rData.port)]) hsilent⟩
    · next hok =>
      rw [if_neg hok] at h
      exact absurd h hother

/-- An iteration that reaches `FINISHED` announces a host. -/
theorem iteration_announced (hw : s.rData.Wf) (hne : s.rData.parserState ≠ .FINISHED)
    (h : (iteration s).2.rData.parserState = .FINISHED) :
    ∃ call, (iteration s).2.calls = s.calls ++ [call] := by
  unfold iteration at h ⊢
  cases hp : s.rData.parserState with
  | SPACE_TRANSITION =>
    simp only [hp] at h
    have hdata := checkSpaces_rData s
    refine absurd h (checkCase_announced (by rw [hdata, hp]; decide) ?_)
    rw [ReqState.goto, hdata]
    rcases hw.next hp with hn | hn | hn <;> rw [hn] <;> rintro ⟨⟩
  | METHOD =>
    simp only [hp] at h
    have hstays := (extractHttpMethod_stays s).1.parserState
    exact absurd h (checkCase_announced (by rw [hstays, hp]; decide) (by rintro ⟨⟩))
  | URI =>
    simp only [hp] at h ⊢
    have hstop : (checkUri s).2.rData.parserState ≠ .FINISHED := by
      -- `checkUri` leaves the state, or goes to one of the two it may fail in.
      rcases checkUri_rData s with hdata | ⟨hstate | hstate, -⟩
      · rw [hdata, hp]
        decide
      · rw [hstate]
        decide
      · rw [hstate]
        decide
    exact hostCase_announced (silent_checkUri s) hstop (by rintro ⟨⟩) h
  | URI_HOST =>
    simp only [hp] at h ⊢
    have hstays := (checkUriForHost_stays s).parserState
    exact hostCase_announced (silent_checkUriForHost s) (by rw [hstays, hp]; decide) (by rintro ⟨⟩) h
  | RELATIVE_URI =>
    simp only [hp] at h
    have hdata := cleanRelativeUri_rData s
    exact absurd h (checkCase_announced (by rw [hdata, hp]; decide) (by rintro ⟨⟩))
  | VERSION =>
    simp only [hp] at h
    have hstays := (extractHttpVersion_stays s).parserState
    exact absurd h (checkCase_announced (by rw [hstays, hp]; decide) (by rintro ⟨⟩))
  | START_LINE_END =>
    simp only [hp] at h
    have hstop : (checkStartLineEnd s).2.rData.parserState ≠ .FINISHED := hne
    exact absurd h (checkCase_announced hstop (by rintro ⟨⟩))
  | LOCALHOST_HEADER_CHECK =>
    simp only [hp] at h ⊢
    have hsilent := silent_checkLocalHost s
    have hdata := @checkLocalHost_rData s
    unfold localHostCase at h ⊢
    generalize checkLocalHost s = r at h hsilent hdata ⊢
    split
    · exact ⟨_, congrArg (· ++ [(cString r.2.rData.host, r.2.rData.port)]) hsilent⟩
    · next hok =>
      rw [if_neg hok] at h
      split at h
      · rw [hdata (Bool.eq_false_iff.mpr hok), hp] at h
        cases h
      · cases h
  | HEADERS =>
    simp only [hp] at h
    have hdata := checkHostHeader_rData s
    exact absurd h (checkCase_announced (by rw [hdata, hp]; decide) (by rintro ⟨⟩))
  | HOST =>
    simp only [hp] at h ⊢
    have hstays := (extractHost_stays s).parserState
    have hstop : (extractHost s).2.rData.parserState ≠ .FINISHED := by
      rw [hstays, hp]
      decide
    exact hostCase_announced (silent_extractHost s) hstop hstop h
  | FINISHED => exact absurd hp hne

end Iteration

/-- A loop that ends in `FINISHED` has announced one host, unless it started there. -/
theorem requestLoop_announced {fuel : Nat} {s : ReqState} {r : Bool × ReqState}
    (h : requestLoop fuel s = some r) (hw : s.rData.Wf) (hne : s.rData.parserState ≠ .FINISHED)
    (hr : r.2.rData.parserState = .FINISHED) : ∃ call, r.2.calls = s.calls ++ [call] := by
  refine (Loop.run_induction (P := fun s r =>
    (s.rData.parserState = .FINISHED → r = (true, s)) ∧ (s.rData.Wf →
      s.rData.parserState ≠ .FINISHED → r.2.rData.parserState = .FINISHED →
        ∃ call, r.2.calls = s.calls ++ [call])) ?_ ?_ h).2 hw hne hr
  · intro s r hend
    unfold loopBody at hend
    simp only at hend
    split at hend
    · cases hend
    · obtain rfl := Sum.inr.inj hend
      refine ⟨fun hp => ?_, fun hw hne hr => iteration_announced hw hne hr⟩
      rw [iteration_finished hp]
  · intro s s' r hgo ih
    obtain ⟨hflags, rfl⟩ := loopBody_eq_inl.mp hgo
    refine ⟨fun hp => ?_, fun hw hne hr => ?_⟩
    · rw [iteration_finished hp] at hflags
      cases hflags
    · by_cases hp : (iteration s).2.rData.parserState = .FINISHED
      · rw [ih.1 hp]
        exact iteration_announced hw hne hp
      · obtain ⟨call, hcall⟩ := ih.2 (iteration_wf hw) hp hr
        -- An iteration that announces goes to `FINISHED`.
        have hsilent := (announces_iteration s).resolve_right fun ha => hp ha.2.1
        exact ⟨call, hcall.trans (congrArg (· ++ [call]) hsilent)⟩

/-! ## Runs -/

/-- What a caller of the parser does. -/
inductive FeedEvent
  | append (w : List UInt8)
  | call
deriving DecidableEq, Repr

namespace Feed

/-- `none` is a call that does not return. -/
def step (f : Feed) : FeedEvent → Option Feed
  | .append w => some { f with bIn := bufferWriteAll f.bIn w }
  | .call => (checkRequest f.rData f.bIn f.bOut).map f.after

/-- The origin was announced at most once, and the parser is `FINISHED` if it was. -/
structure Announced (f : Feed) : Prop where
  wf : f.rData.Wf
  calls : f.calls = [] ∨ f.rData.parserState = .FINISHED ∧ ∃ call, f.calls = [call]

/-- The call announces the origin if it makes the parser `FINISHED`, and then only; a call of a
`FINISHED` parser returns true and leaves everything as it is, but for the preset version. -/
structure AnnouncesInTurn (f : Feed) (r : RequestResult) : Prop where
  calls : r.calls ≠ [] ↔ f.rData.parserState ≠ .FINISHED ∧ r.rData.parserState = .FINISHED
  finished : f.rData.parserState = .FINISHED →
    r = ⟨true, { f.rData with version := .v1_1 }, f.bIn, f.bOut, false, []⟩

variable {f f' : Feed} {r : RequestResult}

theorem announcesInTurn (hw : f.rData.Wf) (h : checkRequest f.rData f.bIn f.bOut = some r) :
    f.AnnouncesInTurn r := by
  refine ⟨⟨fun hcalls => ?_, fun ⟨hne, hp⟩ => ?_⟩, fun hp => checkRequest_finished hp h⟩
  · refine ⟨fun hp => hcalls ?_, ((checkRequest_calls h).resolve_left hcalls).2.1⟩
    rw [checkRequest_finished hp h]
  · obtain ⟨r', hloop, rfl⟩ := checkRequest_eq_some_iff.mp h
    have hp' : r'.2.rData.parserState = .FINISHED := (reportError_parserState r').symm.trans hp
    obtain ⟨call, hcall⟩ := requestLoop_announced hloop (running_callStart hw _).1 hne hp'
    rw [reportError_calls, hcall]
    exact List.cons_ne_nil call []

theorem announced_start (bIn bOut : Buffer) : (Feed.start bIn bOut).Announced := ⟨.default, .inl rfl⟩

theorem announced_step {e : FeedEvent} (h : f.Announced) (hstep : f.step e = some f') :
    f'.Announced := by
  cases e with
  | append w =>
    obtain rfl := Option.some.inj hstep
    exact ⟨h.wf, h.calls⟩
  | call =>
    obtain ⟨r, hr, rfl⟩ := Option.map_eq_some_iff.mp hstep
    refine ⟨checkRequest_wf h.wf hr, ?_⟩
    rcases h.calls with hcalls | ⟨hp, call, hcalls⟩
    · rcases checkRequest_calls hr with hnone | ⟨-, hp, call, hcall⟩
      · exact .inl (List.append_eq_nil_iff.mpr ⟨hcalls, hnone⟩)
      · refine .inr ⟨hp, call, ?_⟩
        change f.calls ++ r.calls = _
        rw [hcalls, hcall]
        rfl
    · refine .inr ⟨?_, call, ?_⟩
      · change r.rData.parserState = _
        rw [checkRequest_finished hp hr]
        exact hp
      · change f.calls ++ r.calls = _
        rw [checkRequest_finished hp hr, hcalls]
        rfl

/-- In a run in which every call returns the origin is announced at most once, in the call that makes
the parser `FINISHED`, and no later call changes anything. -/
theorem announced_once {bIn bOut : Buffer} {es : List FeedEvent}
    (h : PartialRun.run Feed.step (.start bIn bOut) es = some f) :
    f.calls.length ≤ 1 ∧ ∀ pre post, es = pre ++ .call :: post →
      ∃ g r, PartialRun.run Feed.step (.start bIn bOut) pre = some g ∧
        checkRequest g.rData g.bIn g.bOut = some r ∧ g.AnnouncesInTurn r := by
  have hinv : ∀ {es : List FeedEvent} {g : Feed},
      PartialRun.run Feed.step (.start bIn bOut) es = some g → g.Announced := fun hrun =>
    PartialRun.run_invariant (I := Announced) (fun _ _ _ hI hs => announced_step hI hs)
      (announced_start bIn bOut) hrun
  constructor
  · rcases (hinv h).calls with hcalls | ⟨-, call, hcalls⟩
    · rw [hcalls]
      exact Nat.zero_le 1
    · rw [hcalls]
      exact Nat.le_refl 1
  · rintro pre post rfl
    rw [PartialRun.run_append] at h
    obtain ⟨g, hg, hrest⟩ := Option.bind_eq_some_iff.mp h
    rw [PartialRun.run_cons] at hrest
    obtain ⟨g', hg', -⟩ := Option.bind_eq_some_iff.mp hrest
    obtain ⟨r, hr, -⟩ := Option.map_eq_some_iff.mp hg'
    exact ⟨g, r, hg, hr, announcesInTurn (hinv hg).wf hr⟩

/-- A request in two fragments, and a call on a third after its end. -/
def thrice : List FeedEvent :=
  [.append (lit "GET / HTTP/1.1\r\nHo"), .call, .append (lit "st: a\r"), .call, .append (lit "\n"), .call]

theorem announced_once_thrice :
    ∃ f, PartialRun.run Feed.step (.start (bufferInitR RESERVED 1024) (bufferInit 1024)) thrice = some f ∧
      f.calls.length ≤ 1 ∧ ∀ pre post, thrice = pre ++ .call :: post →
        ∃ g r, PartialRun.run Feed.step (.start (bufferInitR RESERVED 1024) (bufferInit 1024)) pre = some g ∧
          checkRequest g.rData g.bIn g.bOut = some r ∧ g.AnnouncesInTurn r := by
  have hsome : (PartialRun.run Feed.step (.start (bufferInitR RESERVED 1024) (bufferInit 1024))
      thrice).isSome = true := by decide +kernel
  obtain ⟨f, hf⟩ := Option.isSome_iff_exists.mp hsome
  exact ⟨f, hf, announced_once hf⟩

end Feed

end HttpProxy
