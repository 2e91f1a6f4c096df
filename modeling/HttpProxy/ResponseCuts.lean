import HttpProxy.ChunkedFragments
import HttpProxy.ResponseErrors
import Mathlib.Data.List.Induction
import Mathlib.Data.List.Infix

/-!
# Responses that can be cut anywhere

Which cuts the parser comes back from is a matter of the state it is cut in. Here it is one of the
response: in the head every cut will do, as long as its numbers fit in an `int`; in a body too, if one
taken for chunks is made of chunks. What remains is where the parser sees the head end. It looks for the
empty line at every byte but one: behind `Content-` a byte is read and, if no name goes on with it,
dropped, even a CR (`turns_step`). Such a response goes on where its body begins (`EndsHead`); all others
come to the same however they are cut (`resCalls_agrees`).
-/

namespace HttpProxy

/-- A byte is a CR in capitals just if it is one. -/
theorem toupper_eq_CR {c : UInt8} : toupper c = CR ↔ c = CR := by
  unfold toupper
  grind

/-- A byte is a line feed in capitals just if it is one. -/
theorem toupper_eq_LF {c : UInt8} : toupper c = LF ↔ c = LF := by
  unfold toupper
  grind

/-! ## The end of a head -/

/-- The head of a response: what is received up to the first empty line, or all of it. -/
def headSection : List UInt8 → List UInt8
  | [] => []
  | c :: l => if [CR, LF, CR, LF] <+: c :: l then [CR, LF, CR, LF] else c :: headSection l

/-- Either there is no empty line, or the head ends with the first. -/
theorem headSection_cases (s : List UInt8) :
    (headSection s = s ∧ ¬[CR, LF, CR, LF] <:+: s) ∨ ∃ h t, s = h ++ ([CR, LF, CR, LF] ++ t) ∧
      headSection s = h ++ [CR, LF, CR, LF] ∧ ¬[CR, LF, CR, LF] <:+: h ++ [CR, LF, CR] := by
  induction s with
  | nil => exact .inl ⟨rfl, by decide⟩
  | cons c l ih =>
    by_cases hpre : [CR, LF, CR, LF] <+: c :: l
    · obtain ⟨t, ht⟩ := hpre
      refine .inr ⟨[], t, ht.symm, ?_, by decide⟩
      unfold headSection
      rw [if_pos ⟨t, ht⟩]
      rfl
    · unfold headSection
      rw [if_neg hpre]
      rcases ih with ⟨heq, hno⟩ | ⟨h, t, hl, heq, hno⟩
      · exact .inl ⟨by rw [heq], fun hin => (List.infix_cons_iff.mp hin).elim hpre hno⟩
      · refine .inr ⟨c :: h, t, by rw [hl]; rfl, by rw [heq]; rfl, fun hin => ?_⟩
        refine (List.infix_cons_iff.mp hin).elim (fun hfirst => hpre ?_) hno
        have hfront : c :: (h ++ [CR, LF, CR]) <+: c :: l := by
          rw [hl]
          exact ⟨LF :: t, by simp only [List.cons_append, List.append_assoc, List.nil_append]⟩
        exact hfirst.trans hfront

/-- The bytes hold the empty line that ends a head. -/
def HasHead (l : List UInt8) : Prop := [CR, LF, CR, LF] <:+: l

instance (l : List UInt8) : Decidable (HasHead l) := inferInstanceAs (Decidable (_ <:+: _))

theorem HasHead.append {l : List UInt8} (h : HasHead l) (w : List UInt8) : HasHead (l ++ w) :=
  h.trans (List.prefix_append l w).isInfix

/-- A head is not changed by what follows it. The induction is on the bytes in front of its end. -/
theorem headSection_append {l : List UInt8} (h : HasHead l) (w : List UInt8) :
    headSection (l ++ w) = headSection l := by
  induction l with
  | nil => exact absurd h (by decide)
  | cons c l ih =>
    have hsame : [CR, LF, CR, LF] <+: c :: (l ++ w) ↔ [CR, LF, CR, LF] <+: c :: l := by
      constructor
      · intro hpre
        exact List.prefix_of_prefix_length_le hpre (List.prefix_append (c :: l) w) h.length_le
      · exact fun hpre => hpre.trans (List.prefix_append (c :: l) w)
    rw [List.cons_append, headSection, headSection]
    by_cases hpre : [CR, LF, CR, LF] <+: c :: l
    · rw [if_pos hpre, if_pos (hsame.mpr hpre)]
    · rw [if_neg hpre, if_neg fun hw => hpre (hsame.mp hw),
        ih ((List.infix_cons_iff.mp h).resolve_left hpre)]

namespace ResCtl

/-- What stands right in front of a state that looks for the end of the head, and in front of a body. -/
def Follows (p : List UInt8) : ResCtl → Prop
  | .cr => [CR] <:+ p
  | .crlf => [CR, LF] <:+ p
  | .crlfcr => [CR, LF, CR] <:+ p
  | .data | .untilClose | .chunkSize _ | .chunkSizeEnd _ | .chunkData | .chunkEnd _ _ | .halt .finished _ =>
    [CR, LF, CR, LF] <:+: p
  | .halt .nul _ => False
  | _ => True

end ResCtl

namespace ResMachine

variable {q : ResMachine} {p : List UInt8} {c : UInt8}

/-- Only a CR leads from the lines of the head to their end. -/
theorem follows_stepHeaders : (q.stepHeaders (c, false)).1.ctl.Follows (p ++ [c]) := by
  unfold stepHeaders
  dsimp only [goto]
  split
  · trivial
  split
  · trivial
  split
  · next hcr => exact ⟨p, by rw [toupper_eq_CR.mp hcr]⟩
  · trivial

/-- A step in a format, with what its states follow. -/
theorem follows_stepMatch {format : List UInt8} {i : Nat} {g : Nat → ResCtl} {done : ResMachine}
    {miss : Cell → Out} (hinside : ∀ j, (g j).Follows (p ++ [c])) (hdone : done.ctl.Follows (p ++ [c]))
    (hmiss : (miss (c, false)).1.ctl.Follows (p ++ [c])) :
    (q.stepMatch format i g done miss (c, false)).1.ctl.Follows (p ++ [c]) := by
  unfold stepMatch HttpProxy.stepMatch
  split
  · split
    · exact hdone
    · exact hinside _
  · exact hmiss

/-- Nothing stands in front of a refused response. -/
theorem follows_rejected {e : ResponseErr} (x : Cell) : (stepHalt (q.reject e) x).1.ctl.Follows p := trivial

/-- A byte of a name, or of what was taken for one. -/
theorem follows_stepName {f : HeaderField} {i : Nat} : (q.stepName f i (c, false)).1.ctl.Follows (p ++ [c]) :=
  follows_stepMatch (fun _ => trivial) trivial follows_stepHeaders

/-- A byte of a value. -/
theorem follows_stepValue (f : HeaderField) : (q.stepValue f (c, false)).1.ctl.Follows (p ++ [c]) := by
  cases f with
  | connection =>
    change (q.stepConnection (c, false)).1.ctl.Follows (p ++ [c])
    unfold stepConnection
    split
    · exact follows_stepHeaders
    · trivial
  | contentLength =>
    change (q.stepLength none (c, false)).1.ctl.Follows (p ++ [c])
    unfold stepLength stepNumber
    split
    · trivial
    · exact follows_stepHeaders
  | contentEncoding => exact follows_stepMatch (fun _ => trivial) trivial follows_stepHeaders
  | contentType => exact follows_stepHeaders
  | transferEncoding => exact follows_stepMatch (fun _ => trivial) trivial follows_stepHeaders

/-- A byte of the status, or of what was taken for one. -/
theorem follows_stepStatus (n : Option Int) : (q.stepStatus n (c, false)).1.ctl.Follows (p ++ [c]) := by
  unfold stepStatus stepNumber
  split
  · trivial
  · cases n with
    | none => exact follows_rejected _
    | some v => exact follows_stepHeaders

/-- A body behind the head. -/
theorem follows_bodyCtl (d : ResponseFields) (h : [CR, LF, CR, LF] <:+: p) : (bodyCtl d).Follows p := by
  unfold bodyCtl
  split
  · exact h
  split
  · exact h
  split <;> exact h

/-- A byte of the framing of the chunks. -/
theorem follows_stepFraming {i : Nat} {g : Nat → ResCtl} {done : ResMachine}
    (hinside : ∀ j, (g j).Follows (p ++ [c])) (hdone : done.ctl.Follows (p ++ [c])) :
    (q.stepFraming i g done (c, false)).1.ctl.Follows (p ++ [c]) := by
  unfold stepFraming HttpProxy.stepMatch
  split
  · split
    · exact hdone
    · exact hinside _
  · exact follows_rejected _

/-- Every byte that is not the end of the input keeps what stands in front. The cases are the control
states. -/
theorem follows_stepByte (h : q.ctl.Follows p) : (q.stepByte (c, false)).1.ctl.Follows (p ++ [c]) := by
  have hbody (hin : [CR, LF, CR, LF] <:+: p) : [CR, LF, CR, LF] <:+: p ++ [c] :=
    hin.trans (List.prefix_append p [c]).isInfix
  unfold stepByte
  cases hctl : q.ctl <;> rw [hctl] at h
  case version => exact follows_stepMatch (fun _ => trivial) trivial (follows_rejected _)
  case versionDigit =>
    change ((q.setVersion c).afterVersion).ctl.Follows _
    unfold afterVersion
    split <;> trivial
  case space n =>
    change (q.stepSpace n (c, false)).1.ctl.Follows _
    unfold stepSpace
    split
    · trivial
    · cases n with
      | status => exact follows_stepStatus none
      | value f => exact follows_stepValue f
  case status n => exact follows_stepStatus n
  case headers => exact follows_stepHeaders
  case con =>
    exact follows_stepMatch (fun _ => trivial) trivial follows_stepHeaders
  case tent => exact follows_stepMatch (fun _ => trivial) trivial follows_stepName
  case content =>
    change (q.stepContent (c, false)).1.ctl.Follows _
    unfold stepContent
    dsimp only [goto]
    split
    · trivial
    split
    · trivial
    split <;> trivial
  case name => exact follows_stepName
  case cr =>
    change (q.stepCr (c, false)).1.ctl.Follows _
    unfold stepCr stepMatch HttpProxy.stepMatch
    split
    · next hlf =>
      obtain rfl : c = LF := toupper_eq_LF.mp hlf
      obtain ⟨t, rfl⟩ := h
      exact ⟨t, (List.append_assoc t [CR] [LF]).symm⟩
    · exact follows_stepHeaders
  case crlf =>
    change (q.stepCrlf (c, false)).1.ctl.Follows _
    unfold stepCrlf
    split
    · next hcr =>
      obtain rfl : c = CR := hcr
      obtain ⟨t, rfl⟩ := h
      exact ⟨t, (List.append_assoc t [CR, LF] [CR]).symm⟩
    · exact follows_stepHeaders
  case crlfcr =>
    change (q.stepCrlfcr (c, false)).1.ctl.Follows _
    unfold stepCrlfcr
    split
    · next hlf =>
      obtain rfl : c = LF := hlf
      obtain ⟨t, rfl⟩ := h
      exact follows_bodyCtl _ ⟨t, [], by rw [List.append_nil, List.append_assoc]; rfl⟩
    · exact follows_stepHeaders
  case length n =>
    change (q.stepLength n (c, false)).1.ctl.Follows _
    unfold stepLength stepNumber
    split
    · trivial
    · cases n with
      | none => exact follows_stepHeaders
      | some v => exact follows_stepHeaders
  case encoding => exact follows_stepMatch (fun _ => trivial) trivial follows_stepHeaders
  case chunked => exact follows_stepMatch (fun _ => trivial) trivial follows_stepHeaders
  case connection => exact follows_stepValue .connection
  case data =>
    change (if q.d.bodyLength - 1 > 0 then ResCtl.data else .halt .finished []).Follows _
    split <;> exact hbody h
  case untilClose =>
    change q.ctl.Follows _
    rw [hctl]
    exact hbody h
  case chunkSize n =>
    change (q.stepChunkSize n (c, false)).1.ctl.Follows _
    unfold stepChunkSize stepNumber
    split
    · exact hbody h
    · cases n with
      | none => exact follows_rejected _
      | some v =>
        refine follows_stepFraming (fun _ => hbody h) ?_
        change (chunkCtl _).Follows _
        unfold chunkCtl
        split <;> exact hbody h
  case chunkSizeEnd =>
    refine follows_stepFraming (fun _ => hbody h) ?_
    change (chunkCtl _).Follows _
    unfold chunkCtl
    split <;> exact hbody h
  case chunkData =>
    change (if q.d.bodyLength - 1 > 0 then ResCtl.chunkData else .chunkEnd false 0).Follows _
    split <;> exact hbody h
  case chunkEnd last i =>
    refine follows_stepFraming (fun _ => hbody h) ?_
    change (if last then ResCtl.halt .finished [] else .chunkSize none).Follows _
    split <;> exact hbody h
  case halt why unread =>
    change (q.stepHalt (c, false)).1.ctl.Follows _
    unfold stepHalt
    rw [hctl]
    cases why with
    | finished => exact hbody h
    | rejected => trivial
    | nul => exact h.elim

/-- What stands in front of a state of a run over a head. The induction is on the bytes. -/
theorem follows_stateAfter (withTransf : Bool) {p : List UInt8} (hp : 0 ∉ p) :
    (resMachine.stateAfter (.initial withTransf) (fresh p)).ctl.Follows p := by
  induction p using List.reverseRecOn with
  | nil => trivial
  | append_singleton p c ih =>
    have hc : c ≠ 0 := fun h => hp (h ▸ List.mem_append_right p List.mem_cons_self)
    rw [fresh_append, Transducer.stateAfter_append]
    change (resMachine.step _ (c, false)).1.ctl.Follows _
    rw [res_step_of_ne hc]
    exact follows_stepByte (ih fun h => hp (List.mem_append_left [c] h))

/-! ## The empty line -/

/-- A CR is looked at as the beginning of a line end, or the response is refused. -/
def Turns (r : Out) : Prop := r.1.ctl = .cr ∨ ∃ unread, r.1.ctl = .halt .rejected unread

/-- In the lines of the head a CR is looked at. -/
theorem turns_stepHeaders (q : ResMachine) : Turns (q.stepHeaders (CR, false)) := .inl rfl

/-- No format has a CR in it. -/
theorem turns_stepMatch {format : List UInt8} (hcr : CR ∉ format) {i : Nat} {g : Nat → ResCtl}
    {done : ResMachine} {miss : Cell → Out} (hmiss : Turns (miss (CR, false))) :
    Turns (q.stepMatch format i g done miss (CR, false)) := by
  unfold stepMatch HttpProxy.stepMatch
  split
  · next heq =>
    have hget : format.getD i 0 = CR := toupper_eq_CR.mp heq.symm
    rw [List.getD_eq_getElem?_getD] at hget
    cases hat : format[i]? with
    | none =>
      rw [hat] at hget
      cases hget
    | some d =>
      rw [hat, Option.getD_some] at hget
      exact absurd (hget ▸ List.mem_of_getElem? hat) hcr
  · exact hmiss

/-- In no name is a CR one of its bytes. -/
theorem turns_stepName (f : HeaderField) (i : Nat) : Turns (q.stepName f i (CR, false)) := by
  refine turns_stepMatch ?_ (turns_stepHeaders q)
  cases f <;> decide

/-- At the beginning of a value a CR is looked at, whatever the field. -/
theorem turns_stepValue (f : HeaderField) : Turns (q.stepValue f (CR, false)) := by
  cases f with
  | connection => exact .inl rfl
  | contentLength => exact .inl rfl
  | contentEncoding => exact turns_stepMatch (by decide) (turns_stepHeaders q)
  | contentType => exact .inl rfl
  | transferEncoding => exact turns_stepMatch (by decide) (turns_stepHeaders q)

/-- In the head, only behind `Content-` and behind a line end is a CR something else. -/
theorem turns_step (h : q.Inv) (hp : q.ctl.Follows p) (hbody : ¬[CR, LF, CR, LF] <:+: p)
    (hcontent : q.ctl ≠ .content) (hcrlf : q.ctl ≠ .crlf) : Turns (resMachine.step q (CR, false)) := by
  have hb := h.bounded
  rw [res_step_of_ne (by decide)]
  unfold stepByte
  cases hctl : q.ctl <;> rw [hctl] at hp hb hcontent hcrlf
  case version => exact turns_stepMatch (by decide) (.inr ⟨_, rfl⟩)
  case versionDigit =>
    change Turns ((q.setVersion CR).afterVersion, _)
    -- No version was read before, so a CR leaves none.
    have hversion : (q.setVersion CR).d.version = .undefined := hb
    unfold afterVersion
    rw [if_pos hversion]
    exact .inr ⟨_, rfl⟩
  case space n =>
    cases n with
    | status => exact .inr ⟨_, rfl⟩
    | value f => exact turns_stepValue f
  case status n =>
    cases n with
    | none => exact .inr ⟨_, rfl⟩
    | some v => exact .inl rfl
  case headers => exact .inl rfl
  case con => exact turns_stepMatch (by decide) (turns_stepHeaders q)
  case tent => exact turns_stepMatch (by decide) (turns_stepName _ _)
  case content => exact absurd rfl hcontent
  case name f i => exact turns_stepName f i
  case cr => exact .inl rfl
  case crlf => exact absurd rfl hcrlf
  -- A third CR begins a line end again.
  case crlfcr => exact .inl rfl
  case length n =>
    cases n with
    | none => exact .inl rfl
    | some v => exact .inl rfl
  case encoding => exact turns_stepMatch (by decide) (turns_stepHeaders q)
  case chunked => exact turns_stepMatch (by decide) (turns_stepHeaders q)
  case connection => exact .inl rfl
  case halt why unread =>
    cases why with
    | finished => exact absurd hp hbody
    | nul => exact hp.elim
    | rejected =>
      refine .inr ⟨unread ++ [(CR, false)], ?_⟩
      unfold stepHalt
      rw [hctl]
      rfl
  all_goals exact absurd hp hbody

/-- Behind the empty line the body begins, unless the response was refused. -/
theorem stateAfter_emptyLine (h : Turns (resMachine.step q (CR, false))) :
    let q' := resMachine.stateAfter q (fresh [CR, LF, CR, LF])
    q'.ctl = bodyCtl q'.d ∨ ∃ unread, q'.ctl = .halt .rejected unread := by
  intro q'
  have hq' : q' = resMachine.stateAfter (resMachine.step q (CR, false)).1 (fresh [LF, CR, LF]) :=
    Transducer.stateAfter_cons _ _ _ _
  unfold Turns at h
  generalize (resMachine.step q (CR, false)).1 = q₁ at h hq'
  rcases h with hcr | ⟨unread, hhalt⟩
  · obtain ⟨ctl, d⟩ := q₁
    obtain rfl : ctl = .cr := hcr
    refine .inl ?_
    rw [hq']
    rfl
  · refine .inr ⟨unread ++ fresh [LF, CR, LF], ?_⟩
    rw [hq', Transducer.stateAfter, resMachine_run_of_halt hhalt]
    rfl

/-! ## Bodies without chunks -/

end ResMachine

/-- A body without chunks, or a response that is over. -/
def ResCtl.Plain : ResCtl → Prop
  | .data | .untilClose | .halt .finished _ | .halt .rejected _ => True
  | _ => False

namespace ResMachine

variable {q : ResMachine} {x : Cell}

/-- A body without chunks stays one, zero bytes and all, until it is over. -/
theorem plain_step (h : q.ctl.Plain) : (resMachine.step q x).1.ctl.Plain := by
  have hzero : q.ctl.takesZero = true := by
    cases hctl : q.ctl <;> rw [hctl] at h
    case halt => rfl
    case data => rfl
    case untilClose => rfl
    all_goals exact h.elim
  rw [show resMachine.step q x = q.stepByte x from step_of_takesZero hzero x]
  unfold stepByte
  cases hctl : q.ctl <;> rw [hctl] at h
  case data =>
    change (if q.d.bodyLength - 1 > 0 then ResCtl.data else .halt .finished []).Plain
    split <;> trivial
  case untilClose =>
    change q.ctl.Plain
    rw [hctl]
    trivial
  case halt why unread =>
    change (q.stepHalt x).1.ctl.Plain
    unfold stepHalt
    rw [hctl]
    cases why with
    | finished => trivial
    | rejected => trivial
    | nul => exact h.elim
  all_goals exact h.elim

/-- Every byte of a body without chunks: `plain_step` along the run. -/
theorem plain_stateAfter (h : q.ctl.Plain) (l : List Cell) : (resMachine.stateAfter q l).ctl.Plain :=
  resMachine.run_invariant (I := fun _ q => q.ctl.Plain) (fun _ _ _ h => plain_step h) [] q h l

/-- The parser comes back from every cut in a body without chunks: it pushes nothing back. -/
theorem resumes_of_plain (h : q.ctl.Plain) (l : List Cell) : q.Resumes l := by
  obtain ⟨ctl, d⟩ := q
  cases ctl with
  | data | untilClose | halt => exact ⟨trivial, nofun⟩
  | _ => exact h.elim

/-! ## Where a response can be cut -/

/-- Where the machine is behind what was received. -/
def behind (withTransf : Bool) (l : List UInt8) : ResMachine :=
  resMachine.stateAfter (.initial withTransf) (fresh l)

/-- The machine goes on from where it is. -/
theorem behind_append (withTransf : Bool) (l w : List UInt8) :
    behind withTransf (l ++ w) = resMachine.stateAfter (behind withTransf l) (fresh w) := by
  unfold behind
  rw [fresh_append, Transducer.stateAfter_append]

end ResMachine

open ResMachine (behind)

/-- No number that the parser reads in `l` runs over into a negative one. -/
def NumbersFit (withTransf : Bool) (l : List UInt8) : Prop := ∀ p ∈ l.inits, (behind withTransf p).Recalled

instance (withTransf : Bool) (l : List UInt8) : Decidable (NumbersFit withTransf l) :=
  inferInstanceAs (Decidable (∀ p ∈ l.inits, _))

/-- The first empty line does not stand right behind `Content-`, where the parser reads a byte without
looking for a line end. -/
def EndsHead (withTransf : Bool) (s : List UInt8) : Prop :=
  ∀ h, headSection s = h ++ [CR, LF, CR, LF] → (behind withTransf h).ctl ≠ .content

/-- If the parser takes the response for a chunked one, what stands behind the head is a chunked body or
the beginning of one, and anything behind its end. -/
def BeginsChunks (withTransf : Bool) (s : List UInt8) : Prop :=
  (behind withTransf (headSection s)).d.isChunked = true → ∃ body content extra,
    ChunkedBody false body content ∧ s.drop (headSection s).length <+: body ++ extra

section Cuts

variable {withTransf : Bool} {s : List UInt8}

/-- Inside of a head the parser comes back to where it was, and has met no end of its input. -/
theorem resumes_head {p : List UInt8} (hp : 0 ∉ p) (hin : ¬[CR, LF, CR, LF] <:+: p)
    (hrecalled : (behind withTransf p).Recalled) (l : List Cell) : (behind withTransf p).Resumes l := by
  refine ⟨hrecalled, fun hctl => ?_⟩
  have hfollows := ResMachine.follows_stateAfter withTransf hp
  change (behind withTransf p).ctl.Follows p at hfollows
  rw [hctl] at hfollows
  exact absurd hfollows hin

/-- A head without a zero byte does not end the input. -/
theorem noNul_of_follows {p : List UInt8} (hp : 0 ∉ p) : NoNul (.initial withTransf) (fresh p) := by
  intro unread hctl
  have hfollows := ResMachine.follows_stateAfter withTransf hp
  rw [hctl] at hfollows
  exact hfollows

/-- Behind the head the parser is in front of the body, or the response was refused. -/
theorem behind_head {h : List UInt8} (hzero : 0 ∉ h) (hfirst : ¬[CR, LF, CR, LF] <:+: h ++ [CR, LF, CR])
    (hends : (behind withTransf h).ctl ≠ .content) :
    let q := behind withTransf (h ++ [CR, LF, CR, LF])
    q.ctl = ResMachine.bodyCtl q.d ∨ ∃ unread, q.ctl = .halt .rejected unread := by
  have hfollows := ResMachine.follows_stateAfter withTransf hzero
  have hin : ¬[CR, LF, CR, LF] <:+: h := fun hin => hfirst (hin.trans (List.prefix_append h _).isInfix)
  -- Behind a line end the empty line would have been there before.
  have hcrlf : (behind withTransf h).ctl ≠ .crlf := by
    intro hctl
    change (behind withTransf h).ctl.Follows h at hfollows
    rw [hctl] at hfollows
    obtain ⟨t, rfl⟩ := hfollows
    refine hfirst ⟨t, [CR], ?_⟩
    simp only [List.append_assoc, List.cons_append, List.nil_append]
  have hturns := ResMachine.turns_step (ResMachine.inv_stateAfter (ResMachine.inv_initial withTransf) _) hfollows hin
    hends hcrlf
  rw [ResMachine.behind_append]
  exact ResMachine.stateAfter_emptyLine hturns

/-- Where the bytes `t` can be cut that are read from `q` on, none of them a zero that ends the input. -/
structure CutAnywhere (q : ResMachine) (t : List UInt8) : Prop where
  noNul : NoNul q (fresh t)
  resumes : ∀ as bs, t = as ++ bs → bs ≠ [] → (resMachine.stateAfter q (fresh as)).Resumes (fresh bs)

/-- A body without chunks can be cut anywhere. -/
theorem cutAnywhere_plain {q : ResMachine} (h : q.ctl.Plain) (t : List UInt8) : CutAnywhere q t where
  noNul := by
    intro unread hctl
    have hplain := ResMachine.plain_stateAfter h (fresh t)
    rw [hctl] at hplain
    exact hplain
  resumes as bs _ _ := ResMachine.resumes_of_plain (ResMachine.plain_stateAfter h (fresh as)) (fresh bs)

/-- A chunked body can be cut anywhere, and so can its beginning. -/
theorem cutAnywhere_chunks {d : ResponseFields} {t body content extra : List UInt8}
    (h : ChunkedBody false body content) (ht : t <+: body ++ extra) : CutAnywhere ⟨.chunkSize none, d⟩ t where
  noNul := by
    obtain ⟨z, hz⟩ := ht
    exact noNul_chunks h d hz.symm
  resumes := by
    rintro as bs rfl hbs
    obtain ⟨z, hz⟩ := ht
    exact ResMachine.resumes_chunks h d (hz.symm.trans (List.append_assoc as bs z)) hbs

/-- A body can be cut anywhere. -/
theorem cutAnywhere_body {q : ResMachine} {t : List UInt8}
    (hq : q.ctl = ResMachine.bodyCtl q.d ∨ ∃ unread, q.ctl = .halt .rejected unread)
    (hchunks : q.d.isChunked = true → ∃ body content extra,
      ChunkedBody false body content ∧ t <+: body ++ extra) : CutAnywhere q t := by
  obtain ⟨ctl, d⟩ := q
  rcases hq with hctl | ⟨unread, hctl⟩
  · obtain rfl : ctl = ResMachine.bodyCtl d := hctl
    unfold ResMachine.bodyCtl
    split
    · next hchunked =>
      obtain ⟨body, content, extra, hbody, ht⟩ := hchunks hchunked
      exact cutAnywhere_chunks hbody ht
    refine cutAnywhere_plain ?_ t
    split
    · trivial
    split <;> trivial
  · obtain rfl : ctl = .halt .rejected unread := hctl
    refine cutAnywhere_plain ?_ t
    trivial

/-- A response can be cut anywhere, if its head ends at its first empty line. -/
theorem cutAnywhere (hzero : 0 ∉ headSection s) (hnum : NumbersFit withTransf (headSection s))
    (hends : EndsHead withTransf s) (hchunks : BeginsChunks withTransf s) :
    CutAnywhere (.initial withTransf) s := by
  rcases headSection_cases s with ⟨heq, hno⟩ | ⟨h, t, hs, heq, hfirst⟩
  · rw [heq] at hzero hnum
    refine ⟨noNul_of_follows hzero, ?_⟩
    rintro as bs rfl -
    have hpre : as <+: as ++ bs := List.prefix_append as bs
    exact resumes_head (fun h => hzero (hpre.subset h)) (fun h => hno (h.trans hpre.isInfix)) (hnum as ((List.mem_inits as _).mpr hpre)) _
  · have hhead : s = headSection s ++ t := by
      rw [heq, List.append_assoc]
      exact hs
    have hdrop : s.drop (headSection s).length = t := by
      have hcut : (headSection s ++ t).drop (headSection s).length = t := List.drop_left
      rwa [← hhead] at hcut
    unfold BeginsChunks at hchunks
    rw [hdrop] at hchunks
    have hzeroh : 0 ∉ h := fun hmem => hzero (heq ▸ List.mem_append_left _ hmem)
    have hq := behind_head hzeroh hfirst (hends h heq)
    rw [← heq] at hq
    have hbody := cutAnywhere_body hq hchunks
    constructor
    · rw [hhead, fresh_append]
      refine hbody.noNul.congr ?_
      rw [Transducer.stateAfter_append]
      rfl
    · intro as bs hcut hbs
      rw [hhead] at hcut
      -- The cut is in the body, in front of it or in the head.
      rcases List.append_eq_append_iff.mp hcut with ⟨m, rfl, ht⟩ | ⟨m, hhm, rfl⟩
      · rw [fresh_append, Transducer.stateAfter_append]
        exact hbody.resumes m bs ht hbs
      · cases m with
        | nil =>
          rw [List.append_nil] at hhm
          rw [← hhm]
          exact hbody.resumes [] t rfl hbs
        | cons c m =>
          have hpre : as <+: headSection s := ⟨c :: m, hhm.symm⟩
          -- The last byte of the empty line is still to come.
          have hfront : as <+: h ++ [CR, LF, CR] := by
            have hlast : headSection s = h ++ [CR, LF, CR] ++ [LF] := by
              rw [heq, List.append_assoc]
              rfl
            rw [hlast] at hpre
            refine (List.prefix_concat_iff.mp hpre).resolve_left fun hall => ?_
            rw [hlast, hall] at hhm
            exact absurd (congrArg List.length hhm) (by simp only [List.length_append, List.length_cons]; omega)
          exact resumes_head (fun hmem => hzero (hpre.subset hmem))
            (fun hin => hfirst (hin.trans hfront.isInfix)) (hnum as ((List.mem_inits as _).mpr hpre)) _

end Cuts

/-! ## The outcome -/

/-- What two runs of the parser agree in. -/
structure ResFeed.Agrees (f g : ResFeed) : Prop where
  fields : f.rData.toResponseFields = g.rData.toResponseFields
  parserState : f.rData.parserState = g.rData.parserState
  bOut : f.bOut = g.bOut
  bTransf : f.bTransf = g.bTransf
  unread : f.rData.state = .RES_OK → f.bIn.bytes = g.bIn.bytes

/-- The calls came to where the machine is in `q`. -/
structure ResFeed.Reaches (f : ResFeed) (q : ResMachine) : Prop where
  goes : f.rData.state = .RES_OK → f.Continues q ∧ f.Rereads q
  stops : f.rData.state ≠ .RES_OK → ∃ unread, q = ⟨.halt .rejected unread, f.rData.toResponseFields⟩
  failed : f.rData.state ≠ .RES_OK → f.rData.parserState = f.rData.errorState

namespace ResFeed

variable {f g : ResFeed} {q : ResMachine}

/-- The machine's state says how the calls ended. -/
theorem Reaches.fields (h : f.Reaches q) : f.rData.toResponseFields = q.d := by
  by_cases hok : f.rData.state = .RES_OK
  · exact (h.goes hok).1.fields
  · obtain ⟨unread, rfl⟩ := h.stops hok
    rfl

/-- Calls that came to the same state of the machine agree. -/
theorem Reaches.agrees (hf : f.Reaches q) (hg : g.Reaches q) (hout : f.bOut = g.bOut)
    (htransf : f.bTransf = g.bTransf) : f.Agrees g := by
  have hfields : f.rData.toResponseFields = g.rData.toResponseFields := hf.fields.trans hg.fields.symm
  have hstate : f.rData.state = g.rData.state := congrArg ResponseFields.state hfields
  by_cases hok : f.rData.state = .RES_OK
  · obtain ⟨hfc, hfr⟩ := hf.goes hok
    obtain ⟨hgc, hgr⟩ := hg.goes (hstate ▸ hok)
    refine ⟨hfields, hfc.parserState.trans hgc.parserState.symm, hout, htransf, fun _ => ?_⟩
    have hcells : f.bIn.cells = g.bIn.cells := by
      by_cases hlive : ∀ why unread, q.ctl ≠ .halt why unread
      · exact (hfr hlive).trans (hgr hlive).symm
      · push Not at hlive
        obtain ⟨why, unread, hhalt⟩ := hlive
        exact (hfc.halts why unread hhalt).2.trans (hgc.halts why unread hhalt).2.symm
    rw [← Buffer.map_fst_cells, hcells, Buffer.map_fst_cells]
  · refine ⟨hfields, ?_, hout, htransf, fun h => absurd h hok⟩
    rw [hf.failed hok, hg.failed (hstate ▸ hok), hfields]

end ResFeed

/-- Data the parser goes on with are sound. -/
theorem ResFeed.Continues.sound {f : ResFeed} {q : ResMachine} (h : f.Continues q) : f.rData.Sound where
  state := h.state
  wf := h.consistent.wf
  body hrank := by
    refine h.consistent.body ?_
    cases hp : f.rData.parserState <;> rw [hp] at hrank
    case BODY_NORMAL => exact .inl rfl
    case BODY_TRANSFORMATION => exact .inr rfl
    all_goals cases hrank

/-- Where an error was reported the parser stays. The induction is on the fragments. -/
theorem ResponseData.Sound.calls (ws : List (List UInt8)) : ∀ {f g : ResFeed}, f.rData.Sound →
    resCalls f ws = some g → g.rData.state ≠ .RES_OK → g.rData.parserState = g.rData.errorState := by
  induction ws with
  | nil =>
    rintro f g h ⟨⟩ hstate
    exact absurd h.state hstate
  | cons w ws ih =>
    intro f g h hcalls hstate
    unfold resCalls at hcalls
    split at hcalls
    · cases hcalls
    · next r hr =>
      obtain ⟨hgoes, hfails⟩ := h.call hr
      split at hcalls
      · next herror =>
        cases hcalls
        exact hfails herror
      · next hok => exact ih (hgoes (not_not.mp hok)) hcalls hstate

section Outcome

variable {withTransf : Bool} {s : List UInt8} {n₀ n : Nat}

/-- The calls on any fragments of a response come to where the machine is behind all of it. -/
theorem resCalls_reaches (hcut : CutAnywhere (.initial withTransf) s) (hroom : PUSH_BACK_ROOM ≤ n₀)
    (hn : n₀ + s.length ≤ n) (bOut bTransf : Buffer) {ws : List (List UInt8)} (hws : ws.flatten = s)
    (hne : ∀ w ∈ ws, w ≠ []) :
    ∃ f, resCalls (.start withTransf (bufferInitR n₀ n) bOut bTransf) ws = some f ∧
      f.Reaches (behind withTransf s) ∧
      f.bOut = bufferWriteAll bOut (outs (resMachine.emitted (.initial withTransf) (fresh s))) ∧
      f.bTransf = bufferWriteAll bTransf (transfs (resMachine.emitted (.initial withTransf) (fresh s))) := by
  subst hws
  have hn₀ : n₀ ≤ n := Nat.le_of_add_right_le hn
  have hstart := ResFeed.resting_start hn₀ hroom withTransf bOut bTransf
  obtain ⟨f, hf, hout, htransf, hgoes, hstops⟩ := hstart.continues.calls ws hne hn hcut.noNul
    (fun hmore => hcut.resumes [] _ rfl (flatten_ne_nil hne hmore)) (atEveryCut_fresh ws hne hcut.resumes)
  refine ⟨f, hf, ⟨fun hok => ⟨(hgoes hok).1, (hgoes hok).2 fun _ => hstart.cells⟩, hstops, ?_⟩, hout, htransf⟩
  exact ResponseData.Sound.calls ws hstart.continues.sound hf

/-- A response that arrives in fragments comes to what the response received whole comes to, if its numbers
fit in an `int`, its first empty line is not right behind `Content-`, and a body that the parser takes for
chunks is one. -/
theorem resCalls_agrees (hzero : 0 ∉ headSection s) (hnum : NumbersFit withTransf (headSection s))
    (hends : EndsHead withTransf s) (hchunks : BeginsChunks withTransf s) (hroom : PUSH_BACK_ROOM ≤ n₀)
    (hn : n₀ + s.length ≤ n) (bOut bTransf : Buffer) {ws : List (List UInt8)} (hws : ws.flatten = s)
    (hne : ∀ w ∈ ws, w ≠ []) :
    ∃ f g, resCalls (.start withTransf (bufferInitR n₀ n) bOut bTransf) ws = some f ∧
      resCalls (.start withTransf (bufferInitR n₀ n) bOut bTransf) [s] = some g ∧ f.Agrees g := by
  have hcut := cutAnywhere hzero hnum hends hchunks
  by_cases hs : s = []
  · subst hs
    have hnil : ws = [] := by
      by_contra hmore
      exact flatten_ne_nil hne hmore hws
    subst hnil
    exact ⟨_, _, rfl, rfl, rfl, rfl, rfl, rfl, fun _ => rfl⟩
  · obtain ⟨f, hf, hreaches, hout, htransf⟩ := resCalls_reaches hcut hroom hn bOut bTransf hws hne
    have hwhole : [s].flatten = s := List.append_nil s
    obtain ⟨g, hg, hreaches', hout', htransf'⟩ := resCalls_reaches hcut hroom hn bOut bTransf hwhole
      fun w hw => List.mem_singleton.mp hw ▸ hs
    exact ⟨f, g, hf, hg, hreaches.agrees hreaches' (hout.trans hout'.symm) (htransf.trans htransf'.symm)⟩

end Outcome

/-- A chunked response, and a byte behind it. -/
def chunkedAndMore : List UInt8 :=
  lit "HTTP/1.1 200 \r\nTransfer-Encoding: chunked\r\n\r\n" ++ (zeroChunk ++ lit "x")

/-- It is cut inside a field's name, inside its value, inside the empty line and inside a chunk. -/
theorem resCalls_agrees_chunked :
    ∃ f g, resCalls (.start true (bufferInitR 20 120) (bufferInit 100) (bufferInit 100))
        [chunkedAndMore.take 20, (chunkedAndMore.take 36).drop 20, (chunkedAndMore.take 44).drop 36,
          (chunkedAndMore.take 50).drop 44, chunkedAndMore.drop 50] = some f ∧
      resCalls (.start true (bufferInitR 20 120) (bufferInit 100) (bufferInit 100)) [chunkedAndMore] = some g ∧
      f.Agrees g := by
  have hhead : headSection chunkedAndMore = lit "HTTP/1.1 200 \r\nTransfer-Encoding: chunked\r\n\r\n" := by
    decide +kernel
  refine resCalls_agrees (by decide +kernel) (by decide +kernel) (fun h heq => ?_) (fun _ => ?_) (by decide)
    (by decide) _ _ (by decide +kernel) (by decide +kernel)
  · have hh : h = lit "HTTP/1.1 200 \r\nTransfer-Encoding: chunked" :=
      List.append_cancel_right (heq.symm.trans (hhead.trans (by decide)))
    rw [hh]
    decide +kernel
  · refine ⟨zeroChunk, _, lit "x", chunkedBody_zeroChunk, ?_⟩
    rw [hhead]
    exact List.prefix_rfl

/-- The empty line is right behind `Content-`, so its first CR is read as a byte of a name. -/
def swallowed : List (List UInt8) := [lit "HTTP/1.1 200 OK\r\nX: content-\r\n\r\na\x00b", lit "c"]

/-- The parser goes on in the body, where a zero byte ends its input: what is behind the zero is read when
the next fragment comes, and never when none does. -/
theorem not_agrees_swallowed :
    0 ∉ headSection swallowed.flatten ∧ NumbersFit false swallowed.flatten ∧
      (behind false (headSection swallowed.flatten)).d.isChunked = false ∧
      ¬∃ f g, resCalls (.start false (bufferInitR 20 100) (bufferInit 100) (bufferInit 100)) swallowed = some f ∧
        resCalls (.start false (bufferInitR 20 100) (bufferInit 100) (bufferInit 100)) [swallowed.flatten] = some g ∧
        f.Agrees g := by
  refine ⟨by decide +kernel, by decide +kernel, by decide +kernel, ?_⟩
  rintro ⟨f, g, hf, hg, h⟩
  have hne : (resCalls (.start false (bufferInitR 20 100) (bufferInit 100) (bufferInit 100)) swallowed).map
      (·.bOut) ≠
        (resCalls (.start false (bufferInitR 20 100) (bufferInit 100) (bufferInit 100)) [swallowed.flatten]).map
          (·.bOut) := by
    decide +kernel
  rw [hf, hg] at hne
  exact hne (congrArg some h.bOut)

end HttpProxy
