import HttpProxy.ResponseCalls

/-!
# Where the response parser fails

An error of the response names the state the parser is in (`resErrorOf`), and the parser stays there
(`ResponseData.Sound.call`): what was reported says where it was.
-/

namespace HttpProxy

/-- The state a body is in. -/
def ResponseFields.bodyState (d : ResponseFields) : ResponseParserState :=
  if d.withTransf then .BODY_TRANSFORMATION else .BODY_NORMAL

/-- The state that an error is reported in. -/
def ResponseFields.errorState (d : ResponseFields) : ResponseParserState :=
  match d.state with
  | .RES_VERSION_ERROR => .RES_VERSION
  | .STATUS_ERROR => .STATUS
  | _ => d.bodyState

/-- Response data without an error, in a state the parser can be in. -/
structure ResponseData.Sound (rd : ResponseData) : Prop where
  state : rd.state = .RES_OK
  wf : rd.Wf
  body : rd.parserState.rank = 1 → rd.parserState = rd.bodyState

/-- What the functions of the parser do not touch. -/
structure ResState.Keeps (s s' : ResState) : Prop where
  state : s'.rData.state = s.rData.state
  withTransf : s'.rData.withTransf = s.rData.withTransf

section Functions

variable {s : ResState}

/-- The functions of the start line and of the head set no error. -/
theorem extractResVersion_keeps : s.Keeps (extractResVersion s).2 := by
  unfold extractResVersion
  rcases matchFormat (lit "HTTP/1.") [] s.io with ⟨ok, io⟩
  dsimp only
  split
  · split <;> exact ⟨rfl, rfl⟩
  · split <;> exact ⟨rfl, rfl⟩

theorem extractStatus_keeps : s.Keeps (extractStatus s).2 := by
  unfold extractStatus
  rcases getNumber [] s.io with ⟨_ | n, io⟩ <;> exact ⟨rfl, rfl⟩

theorem checkHeaders_keeps : s.Keeps (checkHeaders s).2 := by
  unfold checkHeaders
  dsimp only
  split <;> exact ⟨rfl, rfl⟩

theorem checkLength_keeps : s.Keeps (checkLength s).2 := by
  unfold checkLength
  rcases getNumber [] s.io with ⟨_ | n, io⟩ <;> exact ⟨rfl, rfl⟩

theorem checkEncoding_keeps : s.Keeps (checkEncoding s).2 := by
  unfold checkEncoding
  dsimp only
  split <;> exact ⟨rfl, rfl⟩

theorem checkChunked_keeps : s.Keeps (checkChunked s).2 := by
  unfold checkChunked
  dsimp only
  split <;> exact ⟨rfl, rfl⟩

theorem checkConnection_keeps : s.Keeps (checkConnection s).2 := by
  unfold checkConnection
  dsimp only
  split <;> exact ⟨rfl, rfl⟩

theorem extractBody_keeps : s.Keeps (extractBody s).2 := by
  unfold extractBody
  split <;> exact ⟨rfl, rfl⟩

end Functions

/-! ## The loop -/

section Loop

variable {s s' : ResState}

/-- A function that leaves the parser in its state, or at its end. -/
theorem ResponseData.Sound.leaves {r : Bool × ResState} (h : s.rData.Sound) (hk : s.Keeps r.2)
    (hl : LeavesState s r) (hne : s.rData.parserState ≠ .RES_SPACE_TRANSITION) : r.2.rData.Sound where
  state := hk.state.trans h.state
  wf := hl.wf hne
  body := by
    unfold ResponseFields.bodyState
    rw [hk.withTransf]
    rcases hl with hp | hp
    · rw [hp]
      exact h.body
    · rw [hp]
      exact fun hrank => absurd hrank (by decide)

/-- Going on to a state that is neither blanks nor a body. -/
theorem ResponseData.Sound.goto (h : s.rData.Sound) {p : ResponseParserState}
    (hspace : p ≠ .RES_SPACE_TRANSITION) (hrank : p.rank ≠ 1) : (s.goto p).rData.Sound where
  state := h.state
  wf := ResponseData.wf_of_ne hspace
  body hbody := absurd hbody hrank

/-- A case of the loop is as sound as what its function leaves and what it goes on with. -/
theorem sound_checkResCase {r : Bool × ResState} {next : ResState → ResState} (hr : r.2.rData.Sound)
    (hgoes : r.1 = true → (next r.2).rData.Sound) : (checkResCase r next).2.rData.Sound := by
  unfold checkResCase
  split
  · exact hr
  · next htrue => exact hgoes (Bool.not_eq_false _ ▸ htrue)

/-- The case of a value is as sound as what its function leaves. -/
theorem sound_valueCase {r : Bool × ResState} (hr : r.2.rData.Sound) : (valueCase r).2.rData.Sound := by
  unfold valueCase
  split
  · exact hr
  · exact hr.goto (by decide) (by decide)

/-- Blanks are not in a body. -/
theorem spaces_rank : ResponseParserState.RES_SPACE_TRANSITION.rank ≠ 1 := by decide

/-- Behind what `checkHeaders` found stands a value or the body. -/
theorem sound_afterHeaders (h : (checkHeaders s).2.rData.Sound) (hok : (checkHeaders s).1 = true) :
    (afterHeaders (checkHeaders s).2).rData.Sound := by
  have hnext := checkHeadersLoop_next s.rData.toResponseFields (s.io.b.bytes.length + 1) s.io
  have hfound : (checkHeaders s).2.rData.next = .RES_FINISHED ∨ (checkHeaders s).2.rData.next.rank = 3 := by
    unfold checkHeaders at hok ⊢
    dsimp only at hnext hok ⊢
    split at hok
    · cases hok
    · next hne =>
      rw [if_neg hne]
      exact hnext.resolve_left hne
  unfold afterHeaders
  split
  · refine ⟨h.state, ?_, fun _ => rfl⟩
    refine ResponseData.wf_of_ne ?_
    change (if _ then ResponseParserState.BODY_TRANSFORMATION else .BODY_NORMAL) ≠ _
    split <;> decide
  · next hne => exact ⟨h.state, fun _ => hfound.resolve_left hne, fun hrank => absurd hrank spaces_rank⟩

/-- Every iteration keeps the response data sound. -/
theorem ResponseData.Sound.iteration (h : s.rData.Sound) : (resIteration s).2.rData.Sound := by
  unfold resIteration
  have hother : ∀ {p}, s.rData.parserState = p → p ≠ .RES_SPACE_TRANSITION →
      s.rData.parserState ≠ .RES_SPACE_TRANSITION := fun hp hne => hp ▸ hne
  cases hp : s.rData.parserState with
  | RES_SPACE_TRANSITION =>
    have hrank := h.wf hp
    have hspaces : (checkResSpaces s).2.rData.Sound := by
      rw [checkResSpaces_rData]
      exact h
    refine sound_checkResCase hspaces fun _ => ?_
    rw [checkResSpaces_rData]
    refine hspaces.goto ?_ ?_
    · intro heq
      rw [heq] at hrank
      cases hrank
    · rw [hrank]
      decide
  | RES_VERSION =>
    refine sound_checkResCase (h.leaves extractResVersion_keeps extractResVersion_leaves (hother hp (by decide)))
      fun _ => ?_
    -- The version goes on with the blanks in front of the status.
    exact ⟨extractResVersion_keeps.state.trans h.state, fun _ => rfl, fun hrank => absurd hrank spaces_rank⟩
  | STATUS =>
    have hsound := h.leaves extractStatus_keeps extractStatus_leaves (hother hp (by decide))
    exact sound_checkResCase hsound fun _ => hsound.goto (by decide) (by decide)
  | RES_HEADERS =>
    have hsound := h.leaves checkHeaders_keeps checkHeaders_leaves (hother hp (by decide))
    exact sound_checkResCase hsound (sound_afterHeaders hsound)
  | LENGTH_CHECK => exact sound_valueCase (h.leaves checkLength_keeps checkLength_leaves (hother hp (by decide)))
  | ENCODING_CHECK =>
    exact sound_valueCase (h.leaves checkEncoding_keeps checkEncoding_leaves (hother hp (by decide)))
  | CHUNKED_CHECK =>
    exact sound_valueCase (h.leaves checkChunked_keeps checkChunked_leaves (hother hp (by decide)))
  | CONNECTION_CHECK =>
    exact sound_valueCase (h.leaves checkConnection_keeps checkConnection_leaves (hother hp (by decide)))
  | TYPE_CHECK => exact sound_valueCase h
  | BODY_NORMAL =>
    have hsound := h.leaves extractBody_keeps extractBody_leaves (hother hp (by decide))
    exact sound_checkResCase hsound fun _ => hsound.goto (by decide) (by decide)
  | BODY_TRANSFORMATION =>
    have hsound := h.leaves (r := extractBodyTransf s) ⟨rfl, rfl⟩ extractBodyTransf_leaves (hother hp (by decide))
    exact sound_checkResCase hsound fun _ => hsound.goto (by decide) (by decide)
  | RES_FINISHED => exact h

/-- The loop keeps the response data sound, however often it goes round. The induction is on the fuel. -/
theorem ResponseData.Sound.loop {fuel : Nat} {r : Bool × ResState} (hr : responseLoop fuel s = some r)
    (h : s.rData.Sound) : r.2.rData.Sound := by
  refine Loop.run_induction (P := fun s r => s.rData.Sound → r.2.rData.Sound) ?_ ?_ hr h
  · intro s r hend hs
    have hr : (resIteration s).2 = r.2 := by
      unfold resLoopBody at hend
      dsimp only at hend
      split at hend
      · cases hend
      · cases hend
        rfl
    rw [← hr]
    exact hs.iteration
  · intro s s' r hgo ih hs
    obtain ⟨-, rfl⟩ := resLoopBody_eq_inl.mp hgo
    exact ih hs.iteration

/-- The error of sound data says where the parser is. -/
theorem ResponseData.Sound.errorState (h : s.rData.Sound) (herror : resErrorOf s ≠ .RES_OK) :
    s.rData.parserState = { s.rData.toResponseFields with state := resErrorOf s }.errorState := by
  have hbody := h.body
  unfold resErrorOf at herror ⊢
  cases hp : s.rData.parserState
  case RES_VERSION => rfl
  case STATUS => rfl
  case BODY_NORMAL | BODY_TRANSFORMATION =>
    rw [hp] at hbody herror
    dsimp only at herror ⊢
    rw [hbody rfl]
    split at herror
    · next hchunked =>
      rw [if_pos hchunked]
      rfl
    · exact absurd h.state herror
  all_goals
    rw [hp] at herror
    exact absurd h.state herror

end Loop

/-- A call keeps the response data sound, or reports an error and leaves the parser where it was found. -/
theorem ResponseData.Sound.call {rd : ResponseData} {bIn bOut bTransf : Buffer} {r : ResponseResult}
    (h : rd.Sound) (hr : checkResponse rd bIn bOut bTransf = some r) :
    (r.rData.state = .RES_OK → r.rData.Sound) ∧
      (r.rData.state ≠ .RES_OK → r.rData.parserState = r.rData.errorState) := by
  obtain ⟨u, hinner, rfl⟩ := Option.map_eq_some_iff.mp hr
  obtain ⟨t, hloop, rfl⟩ := Option.map_eq_some_iff.mp hinner
  have ht : t.2.rData.Sound := ResponseData.Sound.loop hloop h
  dsimp only
  unfold reportResError
  split
  · exact ⟨fun hok => ⟨hok, ht.wf, ht.body⟩, fun herror => ht.errorState herror⟩
  · exact ⟨fun _ => ht, fun herror => absurd ht.state herror⟩

end HttpProxy
