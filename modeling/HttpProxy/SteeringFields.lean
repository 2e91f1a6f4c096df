import HttpProxy.HeadLines
import HttpProxy.NumberRange

/-!
# The fields that steer a response

`checkHeaders` takes a name for a field wherever in the head it comes upon it. By `fields_steer` the length,
the coding and the connection that it leaves are those of the head's own field lines, if each of the three names
that it comes upon opens such a line and the last length fits in an `int`. A field at the beginning of a line is
never missed (`bodyLength_line`); only text that is taken for a field leads astray.
-/

namespace HttpProxy

/-! ## A byte of the head -/

namespace ResCtl

/-- The state is none in which a value is looked at. -/
def Scans : ResCtl → Prop
  | .space (.value _) | .length _ | .chunked _ | .connection => False
  | _ => True

/-- The state is one in the head. -/
def InHead : ResCtl → Prop
  | .data | .untilClose | .chunkSize _ | .chunkSizeEnd _ | .chunkData | .chunkEnd _ _ | .halt _ _ => False
  | _ => True

/-- The state is one behind a line end. -/
def AtLine (c : ResCtl) : Prop := c = .crlf ∨ c = .headers

end ResCtl

/-- Two responses agree in length, coding and connection. -/
structure SameSteering (d d' : ResponseFields) : Prop where
  bodyLength : d'.bodyLength = d.bodyLength
  isChunked : d'.isChunked = d.isChunked
  isClose : d'.isClose = d.isClose

theorem SameSteering.refl (d : ResponseFields) : SameSteering d d := ⟨rfl, rfl, rfl⟩

namespace ResMachine

/-- What a byte of the head does. -/
inductive HeadStep (q : ResMachine) (c : UInt8) (q' : ResMachine) : Prop
  | scans (ctl : q'.ctl.Scans) (d : SameSteering q.d q'.d)
  /-- A name was read, or a blank behind it. -/
  | names {f : HeaderField} (ctl : q'.ctl = .space (.value f)) (d : q'.d = q.d)
  | digit {n : Option Int} (source : q.ctl = .length n ∨ n = none ∧ q.ctl = .space (.value .contentLength))
      (isdigit : isdigit c = true)
      (ctl : q'.ctl = .length (some (toInt32 (Radix.dec.base * n.getD 0 + Radix.dec.value c)))) (d : q'.d = q.d)
  | measured {v : Int} (source : q.ctl = .length (some v)) (ctl : q'.ctl.Scans)
      (d : SameSteering { q.d with bodyLength := v } q'.d)
  | codes {i : Nat} (source : q.ctl = .chunked i ∨ i = 0 ∧ q.ctl = .space (.value .transferEncoding))
      (matches_ : toupper c = (lit "CHUNKED").getD i 0) (ctl : q'.ctl = .chunked (i + 1)) (d : q'.d = q.d)
  | coded {i : Nat} (source : q.ctl = .chunked i) (last : i + 1 = (lit "CHUNKED").length)
      (matches_ : toupper c = (lit "CHUNKED").getD i 0) (ctl : q'.ctl.Scans)
      (d : SameSteering { q.d with isChunked := true } q'.d)
  | drops (source : q.ctl = .connection ∨ q.ctl = .space (.value .connection)) (ctl : q'.ctl = .connection)
      (d : q'.d = q.d)
  | closes (source : q.ctl = .connection ∨ q.ctl = .space (.value .connection)) (ctl : q'.ctl.Scans)
      (d : SameSteering { q.d with isClose := true } q'.d)

variable {q : ResMachine} {c : UInt8}

/-- The scan of the lines looks at no value, and finds nothing out. -/
theorem scans_stepHeaders (q : ResMachine) (x : Cell) :
    (q.stepHeaders x).1.ctl.Scans ∧ (q.stepHeaders x).1.d = q.d := by
  refine ⟨?_, rfl⟩
  unfold stepHeaders
  dsimp only [goto]
  split
  · trivial
  split
  · trivial
  split <;> trivial

/-- What the scan of the lines does with a byte. -/
theorem headStep_stepHeaders (x : Cell) : q.HeadStep c (q.stepHeaders x).1 :=
  .scans (scans_stepHeaders q x).1 (.refl _)

/-- A refused response is scanned no further. -/
theorem headStep_rejected (e : ResponseErr) (x : Cell) : q.HeadStep c (stepHalt (q.reject e) x).1 :=
  .scans trivial ⟨rfl, rfl, rfl⟩

/-- A byte of a format, or one that misses it. -/
theorem headStep_stepMatch {format : List UInt8} {i : Nat} {g : Nat → ResCtl} {done : ResMachine}
    {miss : Cell → Out}
    (hinside : toupper c = toupper (format.getD i 0) → q.HeadStep c (q.goto (g (i + 1))))
    (hdone : i + 1 = format.length → toupper c = toupper (format.getD i 0) → q.HeadStep c done)
    (hmiss : q.HeadStep c (miss (c, false)).1) :
    q.HeadStep c (q.stepMatch format i g done miss (c, false)).1 := by
  unfold stepMatch HttpProxy.stepMatch
  split
  · next heq =>
    split
    · next hlast => exact hdone hlast heq
    · exact hinside heq
  · exact hmiss

/-- A byte of a name, or of what was taken for one. -/
theorem headStep_stepName (f : HeaderField) (i : Nat) : q.HeadStep c (q.stepName f i (c, false)).1 :=
  headStep_stepMatch (fun _ => .scans trivial (.refl _)) (fun _ _ => .names rfl rfl) (headStep_stepHeaders _)

/-- A byte of a length. -/
theorem headStep_stepLength {n : Option Int}
    (h : q.ctl = .length n ∨ n = none ∧ q.ctl = .space (.value .contentLength)) :
    q.HeadStep c (q.stepLength n (c, false)).1 := by
  unfold stepLength stepNumber
  split
  · next hdigit => exact .digit h hdigit rfl rfl
  · cases n with
    | none => exact headStep_stepHeaders _
    | some v =>
      have hsource : q.ctl = .length (some v) := h.resolve_right fun h => by cases h.1
      exact .measured hsource (scans_stepHeaders (q.setBodyLength v) _).1 ⟨rfl, rfl, rfl⟩

/-- No letter of the coding is changed by capitals. -/
theorem toupper_chunked (i : Nat) : toupper ((lit "CHUNKED").getD i 0) = (lit "CHUNKED").getD i 0 :=
  match i with
  | 0 | 1 | 2 | 3 | 4 | 5 | 6 | _ + 7 => rfl

/-- A byte of the coding. -/
theorem headStep_stepChunked {i : Nat}
    (h : q.ctl = .chunked i ∨ i = 0 ∧ q.ctl = .space (.value .transferEncoding)) :
    q.HeadStep c (q.stepChunked i (c, false)).1 := by
  refine headStep_stepMatch (fun heq => ?_) (fun hlast heq => ?_) (headStep_stepHeaders _)
  · exact .codes h (heq.trans (toupper_chunked i)) rfl rfl
  · rcases h with h | ⟨rfl, -⟩
    · exact .coded h hlast (heq.trans (toupper_chunked i)) trivial ⟨rfl, rfl, rfl⟩
    · cases hlast

/-- A byte of a connection's value. -/
theorem headStep_stepConnection (h : q.ctl = .connection ∨ q.ctl = .space (.value .connection)) :
    q.HeadStep c (q.stepConnection (c, false)).1 := by
  unfold stepConnection
  split
  · exact .closes h (scans_stepHeaders q.setClose _).1 ⟨rfl, rfl, rfl⟩
  · exact .drops h rfl rfl

/-- A byte of the status, or of what was taken for one. -/
theorem headStep_stepStatus (n : Option Int) : q.HeadStep c (q.stepStatus n (c, false)).1 := by
  unfold stepStatus stepNumber
  split
  · exact .scans trivial (.refl _)
  · cases n with
    | none => exact headStep_rejected _ _
    | some v => exact .scans (scans_stepHeaders (q.setStatus v) _).1 ⟨rfl, rfl, rfl⟩

/-- A body begins with what the head said. -/
theorem scans_bodyCtl (d : ResponseFields) : (bodyCtl d).Scans := by
  unfold bodyCtl
  split
  · trivial
  split
  · trivial
  split <;> trivial

/-- What a byte of the head does. The cases are the control states. -/
theorem headStep_stepByte (h : q.ctl.InHead) : q.HeadStep c (q.stepByte (c, false)).1 := by
  unfold stepByte
  cases hctl : q.ctl <;> rw [hctl] at h
  case version =>
    exact headStep_stepMatch (fun _ => .scans trivial (.refl _)) (fun _ _ => .scans trivial (.refl _))
      (headStep_rejected _ _)
  case versionDigit =>
    change q.HeadStep c (q.setVersion c).afterVersion
    unfold afterVersion
    split <;> exact .scans trivial ⟨rfl, rfl, rfl⟩
  case space n =>
    change q.HeadStep c (q.stepSpace n (c, false)).1
    unfold stepSpace
    split
    · cases n with
      | status => exact .scans trivial (.refl _)
      | value f => exact .names rfl rfl
    · cases n with
      | status => exact headStep_stepStatus none
      | value f =>
        cases f with
        | connection => exact headStep_stepConnection (.inr hctl)
        | contentLength => exact headStep_stepLength (.inr ⟨rfl, hctl⟩)
        | contentEncoding =>
          exact headStep_stepMatch (fun _ => .scans trivial (.refl _))
            (fun _ _ => .scans trivial ⟨rfl, rfl, rfl⟩) (headStep_stepHeaders _)
        | contentType => exact headStep_stepHeaders _
        | transferEncoding => exact headStep_stepChunked (.inr ⟨rfl, hctl⟩)
  case status n => exact headStep_stepStatus n
  case headers => exact headStep_stepHeaders _
  case con =>
    exact headStep_stepMatch (fun _ => .scans trivial (.refl _)) (fun _ _ => .scans trivial (.refl _))
      (headStep_stepHeaders _)
  case tent =>
    exact headStep_stepMatch (fun _ => .scans trivial (.refl _)) (fun _ _ => .scans trivial (.refl _))
      (headStep_stepName _ _)
  case content =>
    change q.HeadStep c (q.stepContent (c, false)).1
    refine .scans ?_ (.refl _)
    unfold stepContent
    dsimp only [goto]
    split
    · trivial
    split
    · trivial
    split <;> trivial
  case name f i => exact headStep_stepName f i
  case cr =>
    exact headStep_stepMatch (fun _ => .scans trivial (.refl _)) (fun _ _ => .scans trivial (.refl _))
      (headStep_stepHeaders _)
  case crlf =>
    change q.HeadStep c (q.stepCrlf (c, false)).1
    unfold stepCrlf
    split
    · exact .scans trivial (.refl _)
    · exact headStep_stepHeaders _
  case crlfcr =>
    change q.HeadStep c (q.stepCrlfcr (c, false)).1
    unfold stepCrlfcr
    split
    · exact .scans (scans_bodyCtl q.d) (.refl _)
    · exact headStep_stepHeaders _
  case length n => exact headStep_stepLength (.inl hctl)
  case encoding =>
    exact headStep_stepMatch (fun _ => .scans trivial (.refl _)) (fun _ _ => .scans trivial ⟨rfl, rfl, rfl⟩)
      (headStep_stepHeaders _)
  case chunked i => exact headStep_stepChunked (.inl hctl)
  case connection => exact headStep_stepConnection (.inl hctl)
  all_goals exact h.elim

/-! ## A run over the head -/

/-- Every byte of `w` is read in the head, and none is zero. -/
def ReadsInHead (q : ResMachine) (w : List UInt8) : Prop :=
  resMachine.Along (fun q x => q.ctl.InHead ∧ x.1 ≠ 0) q (fresh w)

section Run

variable {w v : List UInt8}

theorem ReadsInHead.append (h : q.ReadsInHead (v ++ w)) :
    q.ReadsInHead v ∧ (resMachine.stateAfter q (fresh v)).ReadsInHead w := by
  unfold ReadsInHead at h
  rwa [fresh_append, Transducer.along_append] at h

/-- Bytes are read in the head if the state in front of each is one. The induction is on the bytes. -/
theorem readsInHead (h0 : 0 ∉ w) (h : ∀ u, u <+: w → u ≠ w → (resMachine.stateAfter q (fresh u)).ctl.InHead) :
    q.ReadsInHead w := by
  induction w using List.reverseRecOn with
  | nil => trivial
  | append_singleton w c ih =>
    unfold ReadsInHead
    rw [fresh_append, Transducer.along_append]
    have hlen (u : List UInt8) (hu : u <+: w) : u ≠ w ++ [c] := fun heq =>
      absurd hu.length_le (by rw [heq, List.length_append, List.length_singleton]; omega)
    refine ⟨ih (fun hmem => h0 (List.mem_append_left _ hmem)) fun u hu _ => ?_, ⟨?_, ?_⟩, trivial⟩
    · exact h u (hu.trans (List.prefix_append w [c])) (hlen u hu)
    · exact h w (List.prefix_append w [c]) (hlen w (List.prefix_refl w))
    · exact fun hc => h0 (List.mem_append_right _ (hc ▸ List.mem_cons_self))

/-- A byte that is read in the head does a step of the head. -/
theorem ReadsInHead.headStep (h : q.ReadsInHead [c]) : q.HeadStep c (resMachine.stateAfter q (fresh [c])) := by
  obtain ⟨⟨hctl, hc⟩, -⟩ := h
  change q.HeadStep c (resMachine.step q (c, false)).1
  rw [res_step_of_ne hc]
  exact headStep_stepByte hctl

/-- No byte of the head is zero. -/
theorem ReadsInHead.ne_zero (h : q.ReadsInHead w) (hc : c ∈ w) : c ≠ 0 := by
  obtain ⟨u, v, rfl⟩ := List.append_of_mem hc
  have hstep := (resMachine.along_iff q _).mp h (fresh u) (c, false) (fresh v) (by rw [fresh_append, fresh_cons])
  exact hstep.2

/-- What every step of the head keeps holds at the end of a run over it. The induction is on the bytes. -/
theorem headRun {I : List UInt8 → ResMachine → Prop} (hin : q.ReadsInHead w) (hstart : I [] q)
    (hstep : ∀ u c q', u ++ [c] <+: w → I u (resMachine.stateAfter q (fresh u)) →
      (resMachine.stateAfter q (fresh u)).HeadStep c q' → I (u ++ [c]) q') :
    I w (resMachine.stateAfter q (fresh w)) := by
  induction w using List.reverseRecOn with
  | nil => exact hstart
  | append_singleton w c ih =>
    obtain ⟨hfront, hlast⟩ := hin.append
    have hw := ih hfront fun u d q' hu => hstep u d q' (hu.trans (List.prefix_append w [c]))
    rw [fresh_append, Transducer.stateAfter_append]
    exact hstep w c _ (List.prefix_refl _) hw hlast.headStep

/-- Where no `Content-Length` is found, the length stays. -/
theorem bodyLength_of_unnamed (hin : q.ReadsInHead w) (hctl : ∀ n, q.ctl ≠ .length n)
    (hno : ∀ u, u <+: w → (resMachine.stateAfter q (fresh u)).ctl ≠ .space (.value .contentLength)) :
    (resMachine.stateAfter q (fresh w)).d.bodyLength = q.d.bodyLength := by
  suffices hrun : (resMachine.stateAfter q (fresh w)).d.bodyLength = q.d.bodyLength ∧
      ∀ n, (resMachine.stateAfter q (fresh w)).ctl ≠ .length n from hrun.1
  refine headRun (I := fun _ q' => q'.d.bodyLength = q.d.bodyLength ∧ ∀ n, q'.ctl ≠ .length n) hin
    ⟨rfl, hctl⟩ ?_
  rintro u c q' hu ⟨hlength, hstate⟩ hstep
  have hscans (h : q'.ctl.Scans) : ∀ n, q'.ctl ≠ .length n := by
    intro n hn
    rw [hn] at h
    exact h
  cases hstep with
  | scans ctl d => exact ⟨d.bodyLength.trans hlength, hscans ctl⟩
  | names ctl d => exact ⟨by rw [d]; exact hlength, by rw [ctl]; exact fun _ => ResCtl.noConfusion⟩
  | digit source =>
    rcases source with h | ⟨-, h⟩
    · exact absurd h (hstate _)
    · exact absurd h (hno u ((List.prefix_append u [c]).trans hu))
  | measured source => exact absurd source (hstate _)
  | codes source matches_ ctl d => exact ⟨by rw [d]; exact hlength, by rw [ctl]; exact fun _ => ResCtl.noConfusion⟩
  | coded source last matches_ ctl d => exact ⟨d.bodyLength.trans hlength, hscans ctl⟩
  | drops source ctl d => exact ⟨by rw [d]; exact hlength, by rw [ctl]; exact fun _ => ResCtl.noConfusion⟩
  | closes source ctl d => exact ⟨d.bodyLength.trans hlength, hscans ctl⟩

/-- A response is chunked only if a `Transfer-Encoding` was found and `chunked` read behind it. -/
theorem isChunked_of_opens {O : List UInt8 → Prop} (hin : q.ReadsInHead w) (hctl : q.ctl.Scans)
    (hopen : ∀ u, u <+: w → (resMachine.stateAfter q (fresh u)).ctl = .space (.value .transferEncoding) → O u)
    (h : (resMachine.stateAfter q (fresh w)).d.isChunked = true) :
    q.d.isChunked = true ∨ ∃ u x y, w = u ++ (x ++ y) ∧ O u ∧ x.map toupper = lit "CHUNKED" := by
  suffices hrun : ((resMachine.stateAfter q (fresh w)).d.isChunked = true → q.d.isChunked = true ∨
        ∃ u x y, w = u ++ (x ++ y) ∧ O u ∧ x.map toupper = lit "CHUNKED") ∧
      ∀ i, (resMachine.stateAfter q (fresh w)).ctl = .chunked i →
        ∃ u x, w = u ++ x ∧ O u ∧ x.map toupper = (lit "CHUNKED").take i from hrun.1 h
  refine headRun (I := fun w q' => (q'.d.isChunked = true → q.d.isChunked = true ∨
      ∃ u x y, w = u ++ (x ++ y) ∧ O u ∧ x.map toupper = lit "CHUNKED") ∧
    ∀ i, q'.ctl = .chunked i → ∃ u x, w = u ++ x ∧ O u ∧ x.map toupper = (lit "CHUNKED").take i) hin
    ⟨.inl, fun i hi => ?_⟩ ?_
  · rw [hi] at hctl
    exact hctl.elim
  rintro v c q' hv ⟨hchunked, hcodes⟩ hstep
  have hkeeps (hd : q'.d.isChunked = (resMachine.stateAfter q (fresh v)).d.isChunked) :
      q'.d.isChunked = true → q.d.isChunked = true ∨
        ∃ u x y, v ++ [c] = u ++ (x ++ y) ∧ O u ∧ x.map toupper = lit "CHUNKED" := by
    intro hq'
    rw [hd] at hq'
    rcases hchunked hq' with hold | ⟨u, x, y, rfl, hO, hx⟩
    · exact .inl hold
    · exact .inr ⟨u, x, y ++ [c], by simp only [List.append_assoc], hO, hx⟩
  have hscans (h : q'.ctl.Scans) : ∀ i, q'.ctl = .chunked i →
      ∃ u x, v ++ [c] = u ++ x ∧ O u ∧ x.map toupper = (lit "CHUNKED").take i := by
    intro i hi
    rw [hi] at h
    exact h.elim
  -- A letter of the coding goes on with what was read of it.
  have hletter {i : Nat} (source : (resMachine.stateAfter q (fresh v)).ctl = .chunked i ∨
      i = 0 ∧ (resMachine.stateAfter q (fresh v)).ctl = .space (.value .transferEncoding))
      (heq : toupper c = (lit "CHUNKED").getD i 0) :
      ∃ u x, v ++ [c] = u ++ x ∧ O u ∧ x.map toupper = (lit "CHUNKED").take (i + 1) := by
    obtain ⟨u, x, rfl, hO, hx⟩ : ∃ u x, v = u ++ x ∧ O u ∧ x.map toupper = (lit "CHUNKED").take i := by
      rcases source with hctl | ⟨rfl, hctl⟩
      · exact hcodes i hctl
      · exact ⟨v, [], (List.append_nil v).symm, hopen v ((List.prefix_append v [c]).trans hv) hctl, rfl⟩
    have hc : c ≠ 0 := hin.ne_zero (hv.subset (List.mem_append_right _ List.mem_cons_self))
    rw [List.getD_eq_getElem?_getD] at heq
    have hi : i < (lit "CHUNKED").length := by
      by_contra hge
      rw [List.getElem?_eq_none (Nat.le_of_not_lt hge)] at heq
      exact hc (toupper_eq_zero.mp heq)
    rw [List.getElem?_eq_getElem hi] at heq
    refine ⟨u, x ++ [c], List.append_assoc u x [c], hO, ?_⟩
    rw [List.map_append, hx, List.map_singleton, heq, Option.getD_some, List.take_append_getElem]
  cases hstep with
  | scans ctl d => exact ⟨hkeeps d.isChunked, hscans ctl⟩
  | names ctl d => exact ⟨hkeeps (by rw [d]), by rw [ctl]; exact fun _ => nofun⟩
  | digit source isdigit ctl d => exact ⟨hkeeps (by rw [d]), by rw [ctl]; exact fun _ => nofun⟩
  | measured source ctl d => exact ⟨hkeeps d.isChunked, hscans ctl⟩
  | codes source matches_ ctl d =>
    refine ⟨hkeeps (by rw [d]), ?_⟩
    rw [ctl]
    rintro _ ⟨⟩
    exact hletter source matches_
  | coded source last matches_ ctl d =>
    refine ⟨fun _ => ?_, hscans ctl⟩
    obtain ⟨u, x, hcut, hO, hx⟩ := hletter (.inl source) matches_
    rw [last, List.take_length] at hx
    exact .inr ⟨u, x, [], by rw [List.append_nil]; exact hcut, hO, hx⟩
  | drops source ctl d => exact ⟨hkeeps (by rw [d]), by rw [ctl]; exact fun _ => nofun⟩
  | closes source ctl d => exact ⟨hkeeps d.isChunked, hscans ctl⟩

/-- The connection is closed only if a `Connection` was found. -/
theorem isClose_of_opens {O : List UInt8 → Prop} (hin : q.ReadsInHead w) (hctl : q.ctl.Scans)
    (hopen : ∀ u, u <+: w → (resMachine.stateAfter q (fresh u)).ctl = .space (.value .connection) → O u)
    (h : (resMachine.stateAfter q (fresh w)).d.isClose = true) :
    q.d.isClose = true ∨ ∃ u y, w = u ++ y ∧ O u := by
  suffices hrun : ((resMachine.stateAfter q (fresh w)).d.isClose = true →
        q.d.isClose = true ∨ ∃ u y, w = u ++ y ∧ O u) ∧
      ((resMachine.stateAfter q (fresh w)).ctl = .connection → ∃ u y, w = u ++ y ∧ O u) from hrun.1 h
  refine headRun (I := fun w q' => (q'.d.isClose = true → q.d.isClose = true ∨ ∃ u y, w = u ++ y ∧ O u) ∧
    (q'.ctl = .connection → ∃ u y, w = u ++ y ∧ O u)) hin ⟨.inl, fun hi => ?_⟩ ?_
  · rw [hi] at hctl
    exact hctl.elim
  rintro v c q' hv ⟨hclose, hdrops⟩ hstep
  have hmore (h : ∃ u y, v = u ++ y ∧ O u) : ∃ u y, v ++ [c] = u ++ y ∧ O u := by
    obtain ⟨u, y, rfl, hO⟩ := h
    exact ⟨u, y ++ [c], List.append_assoc u y [c], hO⟩
  have hkeeps (hd : q'.d.isClose = (resMachine.stateAfter q (fresh v)).d.isClose) :
      q'.d.isClose = true → q.d.isClose = true ∨ ∃ u y, v ++ [c] = u ++ y ∧ O u :=
    fun hq' => (hclose (hd ▸ hq')).imp id hmore
  have hscans (h : q'.ctl.Scans) : q'.ctl = .connection → ∃ u y, v ++ [c] = u ++ y ∧ O u := by
    intro hi
    rw [hi] at h
    exact h.elim
  have hvalue (source : (resMachine.stateAfter q (fresh v)).ctl = .connection ∨
      (resMachine.stateAfter q (fresh v)).ctl = .space (.value .connection)) :
      ∃ u y, v ++ [c] = u ++ y ∧ O u := by
    rcases source with hctl | hctl
    · exact hmore (hdrops hctl)
    · exact ⟨v, [c], rfl, hopen v ((List.prefix_append v [c]).trans hv) hctl⟩
  cases hstep with
  | scans ctl d => exact ⟨hkeeps d.isClose, hscans ctl⟩
  | names ctl d => exact ⟨hkeeps (by rw [d]), by rw [ctl]; exact nofun⟩
  | digit source isdigit ctl d => exact ⟨hkeeps (by rw [d]), by rw [ctl]; exact nofun⟩
  | measured source ctl d => exact ⟨hkeeps d.isClose, hscans ctl⟩
  | codes source matches_ ctl d => exact ⟨hkeeps (by rw [d]), by rw [ctl]; exact nofun⟩
  | coded source last matches_ ctl d => exact ⟨hkeeps d.isClose, hscans ctl⟩
  | drops source ctl d => exact ⟨hkeeps (by rw [d]), fun _ => hvalue source⟩
  | closes source ctl d => exact ⟨fun _ => .inr (hvalue source), hscans ctl⟩

end Run

/-! ## A length in its line -/

/-- A byte that is not zero. -/
theorem stateAfter_cons_of_ne (hc : c ≠ 0) (q : ResMachine) (w : List UInt8) :
    resMachine.stateAfter q (fresh (c :: w)) = resMachine.stateAfter (q.stepByte (c, false)).1 (fresh w) := by
  rw [fresh_cons, Transducer.stateAfter_cons, res_step_of_ne hc]

/-- The rest of a format is read up to its end, in any case. The induction is on what is read. -/
theorem stateAfter_format {format w : List UInt8} {g : Nat → ResCtl} {d : ResponseFields} {done : ResMachine}
    {miss : Nat → Cell → Out}
    (hstep : ∀ j, (⟨g j, d⟩ : ResMachine).stepByte =
      (⟨g j, d⟩ : ResMachine).stepMatch format j g done (miss j))
    (h0 : 0 ∉ w) {i : Nat} (hi : i < format.length) (hw : w.map toupper = (format.drop i).map toupper) :
    resMachine.stateAfter ⟨g i, d⟩ (fresh w) = done := by
  induction w generalizing i with
  | nil =>
    have hlen := congrArg List.length hw
    simp only [List.map_nil, List.length_nil, List.length_map, List.length_drop] at hlen
    omega
  | cons c w ih =>
    obtain ⟨hc, h0⟩ := List.ne_and_not_mem_of_not_mem_cons h0
    rw [List.drop_eq_getElem_cons hi, List.map_cons, List.map_cons] at hw
    obtain ⟨heq, hw⟩ := List.cons.inj hw
    rw [stateAfter_cons_of_ne hc.symm, hstep]
    unfold stepMatch HttpProxy.stepMatch
    rw [List.getD_eq_getElem?_getD, List.getElem?_eq_getElem hi, Option.getD_some, if_pos heq]
    split
    · next hlast =>
      rw [hlast, List.drop_length, List.map_nil] at hw
      rw [List.map_eq_nil_iff.mp hw]
      rfl
    · next hmore => exact ih h0 (by omega) hw

section Line

variable {w : List UInt8} {d : ResponseFields}

/-- At the beginning of a line the name of a length is found. -/
theorem stateAfter_contentLength (hctl : q.ctl.AtLine) (h0 : 0 ∉ w)
    (hw : w.map toupper = HeaderField.contentLength.name) :
    resMachine.stateAfter q (fresh w) = q.goto (.space (.value .contentLength)) := by
  have hname : HeaderField.contentLength.name =
      0x43 :: (lit "ON" ++ (lit "TENT-" ++ 0x4c :: lit "ENGTH:")) := by decide
  rw [hname] at hw
  obtain ⟨c, w, rfl, hc, hw⟩ := List.map_eq_cons_iff.mp hw
  obtain ⟨on, w, rfl, hon, hw⟩ := List.map_eq_append_iff.mp hw
  obtain ⟨tent, w, rfl, htent, hw⟩ := List.map_eq_append_iff.mp hw
  obtain ⟨l, ength, rfl, hl, hength⟩ := List.map_eq_cons_iff.mp hw
  simp only [List.mem_cons, List.mem_append, not_or] at h0
  obtain ⟨hc0, hon0, htent0, hl0, hength0⟩ := h0
  have hfirst : (q.stepByte (c, false)).1 = q.goto (.con 0) := by
    have hheaders : (q.stepHeaders (c, false)).1 = q.goto (.con 0) := by
      unfold stepHeaders
      dsimp only
      rw [if_pos hc]
    have hcr : c ≠ CR := by
      rintro rfl
      exact absurd hc (by decide)
    unfold stepByte
    rcases hctl with hctl | hctl <;> rw [hctl]
    · change (q.stepCrlf (c, false)).1 = _
      unfold stepCrlf
      rw [if_neg hcr]
      exact hheaders
    · exact hheaders
  rw [stateAfter_cons_of_ne (Ne.symm hc0), hfirst, fresh_append, Transducer.stateAfter_append]
  have hcon : resMachine.stateAfter (q.goto (.con 0)) (fresh on) = q.goto (.tent 0) :=
    stateAfter_format (g := .con) (fun _ => rfl) hon0 (by decide)
      (hon.trans (show lit "ON" = ((lit "ON").drop 0).map toupper by decide))
  rw [hcon, fresh_append, Transducer.stateAfter_append]
  have htent : resMachine.stateAfter (q.goto (.tent 0)) (fresh tent) = q.goto .content :=
    stateAfter_format (g := .tent) (fun _ => rfl) htent0 (by decide)
      (htent.trans (show lit "TENT-" = ((lit "TENT-").drop 0).map toupper by decide))
  have hletter : ((q.goto .content).stepByte (l, false)).1 = q.goto (.name .contentLength 0) := by
    change ((q.goto .content).stepContent (l, false)).1 = _
    unfold stepContent
    dsimp only
    rw [if_pos hl]
    rfl
  rw [htent, stateAfter_cons_of_ne (Ne.symm hl0), hletter]
  exact stateAfter_format (g := .name .contentLength) (fun _ => rfl) hength0 (by decide)
    (hength.trans (show lit "ENGTH:" = (HeaderField.contentLength.format.drop 0).map toupper by decide))

/-- The blanks behind a name lead nowhere. -/
theorem stateAfter_blanks (hw : ∀ c ∈ w, isBlank c = true) (n : ResAfterSpaces) :
    resMachine.stateAfter ⟨.space n, d⟩ (fresh w) = ⟨.space n, d⟩ := by
  induction w with
  | nil => rfl
  | cons c w ih =>
    have hblank := hw c List.mem_cons_self
    have hc : c ≠ 0 := by
      rintro rfl
      exact absurd hblank (by decide)
    have hstep : ((⟨.space n, d⟩ : ResMachine).stepByte (c, false)).1 = ⟨.space n, d⟩ := by
      change ((⟨.space n, d⟩ : ResMachine).stepSpace n (c, false)).1 = _
      unfold stepSpace
      rw [if_pos hblank]
      rfl
    rw [stateAfter_cons_of_ne hc, hstep]
    exact ih fun c hc => hw c (List.mem_cons_of_mem _ hc)

/-- The digits of a length are read as its number. The induction is on the digits. -/
theorem stateAfter_digits (hw : ∀ c ∈ w, isdigit c = true) (n : Option Int) :
    resMachine.stateAfter ⟨.length n, d⟩ (fresh w) = ⟨.length (numberValue .dec n w), d⟩ := by
  induction w generalizing n with
  | nil => rfl
  | cons c w ih =>
    have hdigit : Radix.dec.isDigit c = true := hw c List.mem_cons_self
    have hstep : ((⟨.length n, d⟩ : ResMachine).stepByte (c, false)).1 =
        ⟨.length (some (toInt32 (Radix.dec.base * n.getD 0 + Radix.dec.value c))), d⟩ := by
      change ((⟨.length n, d⟩ : ResMachine).stepLength n (c, false)).1 = _
      unfold stepLength stepNumber
      rw [if_pos hdigit]
      rfl
    rw [stateAfter_cons_of_ne (ne_zero_of_isdigit hdigit), hstep, ih fun c hc => hw c (List.mem_cons_of_mem _ hc)]
    rfl

/-- Digits behind a name and blanks are read as a number. -/
theorem stateAfter_value (hne : w ≠ []) (hw : ∀ c ∈ w, isdigit c = true) :
    resMachine.stateAfter ⟨.space (.value .contentLength), d⟩ (fresh w) =
      ⟨.length (some (toInt32 (Radix.dec.valueOf w))), d⟩ := by
  obtain ⟨c, w, rfl⟩ := List.exists_cons_of_ne_nil hne
  have hdigit : Radix.dec.isDigit c = true := hw c List.mem_cons_self
  have hblank : ¬isBlank c = true := fun h => Bool.false_ne_true ((not_isdigit_of_isBlank h).symm.trans hdigit)
  have hstep : ((⟨.space (.value .contentLength), d⟩ : ResMachine).stepByte (c, false)).1 =
      ((⟨.length none, d⟩ : ResMachine).stepByte (c, false)).1 := by
    change ((⟨.space (.value .contentLength), d⟩ : ResMachine).stepSpace (.value .contentLength) (c, false)).1 =
      ((⟨.length none, d⟩ : ResMachine).stepLength none (c, false)).1
    unfold stepSpace
    rw [if_neg hblank]
    change ((⟨.space (.value .contentLength), d⟩ : ResMachine).stepLength none (c, false)).1 = _
    unfold stepLength stepNumber
    rw [if_pos hdigit, if_pos hdigit]
    rfl
  rw [stateAfter_cons_of_ne (ne_zero_of_isdigit hdigit), hstep, ← stateAfter_cons_of_ne (ne_zero_of_isdigit hdigit),
    stateAfter_digits hw, numberValue_eq .dec hne]

/-- What a value leaves behind its first byte that is no digit. -/
theorem stateAfter_lengthValue (hw : ∀ c ∈ w, isdigit c = true) (hdigit : isdigit c = false) (hc : c ≠ 0)
    (hblank : w = [] → isBlank c = false) :
    let q := resMachine.stateAfter ⟨.space (.value .contentLength), d⟩ (fresh (w ++ [c]))
    q.ctl.Scans ∧ q.d.bodyLength = if w = [] then d.bodyLength else toInt32 (Radix.dec.valueOf w) := by
  have hno : ¬Radix.dec.isDigit c = true := by
    rw [show Radix.dec.isDigit c = false from hdigit]
    exact Bool.false_ne_true
  intro q
  by_cases hne : w = []
  · subst hne
    have hq : q = ((⟨.space (.value .contentLength), d⟩ : ResMachine).stepHeaders (c, false)).1 := by
      change resMachine.stateAfter _ (fresh [c]) = _
      rw [stateAfter_cons_of_ne hc]
      change ((⟨.space (.value .contentLength), d⟩ : ResMachine).stepSpace (.value .contentLength) (c, false)).1 = _
      unfold stepSpace
      rw [if_neg (by rw [hblank rfl]; exact Bool.false_ne_true)]
      change ((⟨.space (.value .contentLength), d⟩ : ResMachine).stepLength none (c, false)).1 = _
      unfold stepLength stepNumber
      rw [if_neg hno]
    rw [hq, if_pos rfl]
    exact ⟨(scans_stepHeaders _ _).1, rfl⟩
  · have hq : q = (((⟨.length (some (toInt32 (Radix.dec.valueOf w))), d⟩ : ResMachine).setBodyLength
        (toInt32 (Radix.dec.valueOf w))).stepHeaders (c, false)).1 := by
      change resMachine.stateAfter _ (fresh (w ++ [c])) = _
      rw [fresh_append, Transducer.stateAfter_append, stateAfter_value hne hw, stateAfter_cons_of_ne hc]
      change ((⟨.length (some (toInt32 (Radix.dec.valueOf w))), d⟩ : ResMachine).stepLength
        (some (toInt32 (Radix.dec.valueOf w))) (c, false)).1 = _
      unfold stepLength stepNumber
      rw [if_neg hno]
    rw [hq, if_neg hne]
    exact ⟨(scans_stepHeaders _ _).1, rfl⟩

/-- Of the names found in a line, each opens it. -/
def FindsOwn (q : ResMachine) (f : HeaderField) (w : List UInt8) : Prop :=
  ∀ u, u <+: w → (resMachine.stateAfter q (fresh u)).ctl = .space (.value f) → OpensField f u

/-- What a line does to the length: the number of a `Content-Length` is taken. -/
theorem bodyLength_line {t : List UInt8} (hctl : q.ctl.AtLine) (hin : q.ReadsInHead (t ++ [CR, LF]))
    (hopen : q.FindsOwn .contentLength (t ++ [CR, LF])) :
    (resMachine.stateAfter q (fresh (t ++ [CR, LF]))).d.bodyLength = (lineLength t).elim q.d.bodyLength toInt32 := by
  have hnolength : ∀ n, q.ctl ≠ .length n := by
    rintro n hn
    rw [hn] at hctl
    rcases hctl with hctl | hctl <;> cases hctl
  by_cases hfield : IsField .contentLength t
  · obtain ⟨p, hp⟩ := exists_lengthParts hfield
    rw [p.line_eq] at hin hopen ⊢
    obtain ⟨hin₁, hin₂⟩ := hin.append
    have hnamed : resMachine.stateAfter q (fresh (p.name ++ p.blanks)) = ⟨.space (.value .contentLength), q.d⟩ := by
      rw [fresh_append, Transducer.stateAfter_append,
        stateAfter_contentLength hctl (fun h => hin₁.ne_zero (List.mem_append_left _ h) rfl) p.name_eq]
      exact stateAfter_blanks p.allBlank _
    rw [hnamed] at hin₂
    obtain ⟨hin₂, hin₃⟩ := hin₂.append
    have hnext : p.next ≠ 0 := hin₂.ne_zero (List.mem_append_right _ List.mem_cons_self)
    obtain ⟨hscans, hlength⟩ := stateAfter_lengthValue (d := q.d) p.allDigits p.next_ok.1 hnext p.next_ok.2
    rw [fresh_append, Transducer.stateAfter_append, hnamed, fresh_append, Transducer.stateAfter_append]
    have hrest := bodyLength_of_unnamed hin₃ (fun n hn => by rw [hn] at hscans; exact hscans) fun u hu hspace => by
      refine p.not_opens u (hopen _ ?_ ?_)
      · exact (List.prefix_append_right_inj _).mpr ((List.prefix_append_right_inj _).mpr hu)
      · rw [fresh_append, Transducer.stateAfter_append, hnamed, fresh_append, Transducer.stateAfter_append]
        exact hspace
    rw [hrest, hlength, hp]
    by_cases hnil : p.digits = []
    · rw [if_pos hnil, if_pos hnil, Option.elim_none]
    · rw [if_neg hnil, if_neg hnil, Option.elim_some]
  · have hnone : lineLength t = none := by
      unfold lineLength
      exact if_neg fun h => hfield h.1
    rw [hnone, Option.elim_none]
    refine bodyLength_of_unnamed hin hnolength fun u hu hspace => hfield ?_
    obtain ⟨z, hz⟩ := hu
    have hall : IsField .contentLength (t ++ [CR, LF]) := hz ▸ (hopen u ⟨z, hz⟩ hspace).1.append z
    exact hall.of_lineEnd

end Line

end ResMachine

/-! ## Line after line -/

open ResMachine (behind behind_append)

/-- What a scan of lines knows that takes nothing but their fields. -/
structure KnowsLines (ts : List (List UInt8)) (d : ResponseFields) : Prop where
  bodyLength : d.bodyLength = (ts.filterMap lineLength).getLast?.elim NO_BODY_LENGTH toInt32
  isChunked : d.isChunked = true → ∃ t ∈ ts, IsChunkedLine t
  isClose : d.isClose = true → ∃ t ∈ ts, IsField .connection t

/-- The fields that a response depends on. -/
def steering : List HeaderField := [.connection, .contentLength, .transferEncoding]

/-- Each of their names that the scan comes upon opens a field. -/
def FindsFields (withTransf : Bool) (l : List UInt8) : Prop :=
  ∀ u ∈ l.inits, ∀ f ∈ steering, (behind withTransf u).ctl = .space (.value f) →
    ∃ t ∈ (fieldLines u).getLast?, OpensField f t

instance (withTransf : Bool) (l : List UInt8) : Decidable (FindsFields withTransf l) :=
  inferInstanceAs (Decidable (∀ u ∈ l.inits, ∀ f ∈ steering, _ → ∃ t ∈ (fieldLines u).getLast?, _))

section Lines

variable {withTransf : Bool} {p g w t u : List UInt8} {ts : List (List UInt8)}

/-- The bytes are read in the head, and only the last of them ends it. -/
structure ReadInHead (withTransf : Bool) (p : List UInt8) : Prop where
  reads : (ResMachine.initial withTransf).ReadsInHead p
  first : ∀ u, u <+: p → u ≠ p → ¬HasHead u

theorem ReadInHead.left (h : ReadInHead withTransf (p ++ w)) : ReadInHead withTransf p where
  reads := h.reads.append.1
  first := by
    intro u hu hne
    refine h.first u (hu.trans (List.prefix_append p w)) fun heq => hne ?_
    exact hu.eq_of_length_le (by rw [heq, List.length_append]; omega)

/-- Behind a line end in the head the next line begins. -/
theorem ReadInHead.atLine (h : ReadInHead withTransf (g ++ [CR, LF] ++ w)) (hw : w ≠ []) :
    (behind withTransf (g ++ [CR, LF])).ctl.AtLine := by
  obtain ⟨c, w, rfl⟩ := List.exists_cons_of_ne_nil hw
  have hline : (behind withTransf (g ++ [CR, LF])).ctl.InHead := h.reads.append.2.1.1
  rw [List.append_assoc] at h
  have hzero : 0 ∉ g := fun hmem => h.reads.ne_zero (List.mem_append_left _ hmem) rfl
  have hcr : (resMachine.step (behind withTransf g) (CR, false)).1.ctl.InHead := h.reads.append.2.2.1.1
  have hinv : (behind withTransf g).Inv := ResMachine.inv_stateAfter (ResMachine.inv_initial withTransf) _
  have hfollows : (behind withTransf g).ctl.Follows g := ResMachine.follows_stateAfter withTransf hzero
  have hno : ¬HasHead g := h.first g (List.prefix_append _ _) fun heq =>
    absurd (congrArg List.length heq) (by simp only [List.length_append, List.length_cons]; omega)
  have hrun : behind withTransf (g ++ [CR, LF]) = (resMachine.step (resMachine.step (behind withTransf g)
      (CR, false)).1 (LF, false)).1 := behind_append withTransf g [CR, LF]
  rw [hrun] at hline ⊢
  generalize behind withTransf g = q at *
  -- Only right behind `Content-` and right behind a line end the CR is not looked at as that of another.
  by_cases hcontent : q.ctl = .content
  · obtain ⟨ctl, d⟩ := q
    obtain rfl : ctl = .content := hcontent
    exact .inr rfl
  by_cases hcrlf : q.ctl = .crlf
  · obtain ⟨ctl, d⟩ := q
    obtain rfl : ctl = .crlf := hcrlf
    change (ResMachine.bodyCtl d).InHead at hline
    unfold ResMachine.bodyCtl at hline
    split at hline
    · exact hline.elim
    split at hline
    · exact hline.elim
    split at hline <;> exact hline.elim
  rcases ResMachine.turns_step hinv hfollows hno hcontent hcrlf with hcr' | ⟨unread, hhalt⟩
  · generalize (resMachine.step q (CR, false)).1 = q' at *
    obtain ⟨ctl, d⟩ := q'
    obtain rfl : ctl = .cr := hcr'
    exact .inl rfl
  · rw [hhalt] at hcr
    exact hcr.elim

theorem FindsFields.left (h : FindsFields withTransf (p ++ w)) : FindsFields withTransf p := fun u hu =>
  h u ((List.mem_inits _ _).mpr (((List.mem_inits _ _).mp hu).trans (List.prefix_append p w)))

/-- Behind the first line nothing is known. -/
theorem knowsLines_start (hin : ReadInHead withTransf (t ++ [CR, LF]))
    (hfinds : FindsFields withTransf (t ++ [CR, LF])) (ht : ¬[CR, LF] <:+: t) :
    KnowsLines [] (behind withTransf (t ++ [CR, LF])).d := by
  have hno : ∀ f ∈ steering, ∀ u, u <+: t ++ [CR, LF] →
      (resMachine.stateAfter (.initial withTransf) (fresh u)).ctl ≠ .space (.value f) :=
    fun f hf u hu hspace => not_opens_start ht hu (hfinds u ((List.mem_inits _ _).mpr hu) f hf hspace)
  refine ⟨?_, fun hchunked => ?_, fun hclose => ?_⟩
  · exact ResMachine.bodyLength_of_unnamed hin.reads (fun _ => ResCtl.noConfusion) (hno _ (by decide))
  · rcases ResMachine.isChunked_of_opens (O := fun _ => False) hin.reads trivial (hno _ (by decide)) hchunked with
      hold | ⟨_, _, _, _, hO, _⟩
    · cases hold
    · exact hO.elim
  · rcases ResMachine.isClose_of_opens (O := fun _ => False) hin.reads trivial (hno _ (by decide)) hclose with
      hold | ⟨_, _, _, hO⟩
    · cases hold
    · exact hO.elim

/-- A value that begins with `chunked` behind the name of a coding makes the line a chunked one. -/
theorem isChunkedLine_of_opens {x y : List UInt8} (h : OpensField .transferEncoding u)
    (hx : x.map toupper = lit "CHUNKED") : IsChunkedLine (u ++ (x ++ y)) := by
  refine ⟨h.1.append _, ?_⟩
  have hvalue : fieldValue .transferEncoding (u ++ (x ++ y)) = x ++ y := by
    have hword : lit "CHUNKED" = 0x43 :: lit "HUNKED" := by decide
    obtain ⟨c, x, rfl, hc, -⟩ := List.map_eq_cons_iff.mp (hx.trans hword)
    have hblank : ¬isBlank c = true := by
      intro h
      unfold isBlank at h
      rcases Bool.or_eq_true_iff.mp h with h | h
      all_goals
        rw [beq_iff_eq.mp h] at hc
        exact absurd hc (by decide)
    rw [h.fieldValue_append, List.cons_append, List.dropWhile_cons_of_neg hblank]
  rw [hvalue, List.map_append, hx]
  exact List.prefix_append _ _

/-- A line more is known as its field, or not at all. -/
theorem KnowsLines.line (h : KnowsLines ts (behind withTransf (g ++ [CR, LF])).d)
    (hin : ReadInHead withTransf (g ++ [CR, LF] ++ (t ++ [CR, LF])))
    (hfinds : FindsFields withTransf (g ++ [CR, LF] ++ (t ++ [CR, LF]))) (ht : ¬[CR, LF] <:+: t) :
    KnowsLines (ts ++ [t]) (behind withTransf (g ++ [CR, LF] ++ (t ++ [CR, LF]))).d := by
  have hctl := hin.atLine (List.append_ne_nil_of_right_ne_nil t (List.cons_ne_nil _ _))
  have hreads : (behind withTransf (g ++ [CR, LF])).ReadsInHead (t ++ [CR, LF]) := hin.reads.append.2
  have hown : ∀ f ∈ steering, (behind withTransf (g ++ [CR, LF])).FindsOwn f (t ++ [CR, LF]) := by
    intro f hf u hu hspace
    refine opens_line ht hu (hfinds _ ((List.mem_inits _ _).mpr ((List.prefix_append_right_inj _).mpr hu)) f hf ?_)
    rwa [behind_append]
  have hscans : (behind withTransf (g ++ [CR, LF])).ctl.Scans := by
    rcases hctl with hctl | hctl <;> rw [hctl] <;> trivial
  rw [behind_append]
  refine ⟨?_, fun hchunked => ?_, fun hclose => ?_⟩
  · rw [ResMachine.bodyLength_line hctl hreads (hown _ (by decide)), List.filterMap_append, List.getLast?_append,
      h.bodyLength]
    cases hlength : lineLength t with
    | none => rw [List.filterMap_cons_none hlength]; rfl
    | some n => rw [List.filterMap_cons_some hlength]; rfl
  · rcases ResMachine.isChunked_of_opens hreads hscans (hown _ (by decide)) hchunked with
      hold | ⟨u, x, y, hcut, hopens, hx⟩
    · obtain ⟨v, hv, hline⟩ := h.isChunked hold
      exact ⟨v, List.mem_append_left _ hv, hline⟩
    · have hline : IsChunkedLine (t ++ [CR, LF]) := hcut ▸ isChunkedLine_of_opens hopens hx
      exact ⟨t, List.mem_append_right _ List.mem_cons_self, hline.of_lineEnd⟩
  · rcases ResMachine.isClose_of_opens hreads hscans (hown _ (by decide)) hclose with hold | ⟨u, y, hcut, hopens⟩
    · obtain ⟨v, hv, hline⟩ := h.isClose hold
      exact ⟨v, List.mem_append_left _ hv, hline⟩
    · have hline : IsField .connection (t ++ [CR, LF]) := hcut ▸ hopens.1.append y
      exact ⟨t, List.mem_append_right _ List.mem_cons_self, hline.of_lineEnd⟩

/-- Behind any lines their fields are known. The induction is on the lines behind the first. -/
theorem knowsLines (hin : ReadInHead withTransf ((t :: ts).flatMap (· ++ [CR, LF])))
    (hfinds : FindsFields withTransf ((t :: ts).flatMap (· ++ [CR, LF])))
    (hlines : ∀ v ∈ t :: ts, ¬[CR, LF] <:+: v) :
    KnowsLines ts (behind withTransf ((t :: ts).flatMap (· ++ [CR, LF]))).d := by
  induction ts using List.reverseRecOn with
  | nil =>
    rw [List.flatMap_singleton] at hin hfinds ⊢
    exact knowsLines_start hin hfinds (hlines t List.mem_cons_self)
  | append_singleton ts v ih =>
    have hcut : (t :: (ts ++ [v])).flatMap (· ++ [CR, LF]) =
        (t :: ts).flatMap (· ++ [CR, LF]) ++ (v ++ [CR, LF]) := by
      rw [← List.cons_append, List.flatMap_append, List.flatMap_singleton]
    rw [hcut] at hin hfinds ⊢
    have hfront := ih hin.left hfinds.left fun u hu => hlines u (by
      rw [← List.cons_append]
      exact List.mem_append_left _ hu)
    obtain ⟨g, hg⟩ : ∃ g, (t :: ts).flatMap (· ++ [CR, LF]) = g ++ [CR, LF] := by
      rw [← List.dropLast_append_getLast (List.cons_ne_nil t ts), List.flatMap_append, List.flatMap_singleton]
      exact ⟨_, (List.append_assoc _ _ _).symm⟩
    rw [hg] at hin hfinds hfront ⊢
    exact hfront.line hin hfinds (hlines v (by simp only [List.mem_cons, List.mem_append, true_or, or_true]))

end Lines

/-! ## The fields of a head -/

/-- A head, up to its end. -/
def IsHead (l : List UInt8) : Prop := HasHead l ∧ headSection l = l

instance (l : List UInt8) : Decidable (IsHead l) := inferInstanceAs (Decidable (_ ∧ _))

/-- The length, the coding and the connection are those of the head's own fields. -/
structure FollowsFields (l : List UInt8) (d : ResponseFields) : Prop where
  bodyLength : d.bodyLength = (lastLength l).getD NO_BODY_LENGTH
  isChunked : d.isChunked = true → ∃ t ∈ fieldLines l, IsChunkedLine t
  isClose : d.isClose = true → ∃ t ∈ fieldLines l, IsField .connection t

/-- The scan comes upon the names in field lines only, and the last length fits in an `int`. -/
structure SteeredByFields (withTransf : Bool) (l : List UInt8) : Prop where
  finds : FindsFields withTransf l
  fits : ∀ n ∈ lastLength l, n < 2 ^ 31

section Heads

variable {withTransf : Bool} {l : List UInt8}

/-- A head ends with the empty line, and holds none in front of it. -/
theorem IsHead.cut (h : IsHead l) :
    ∃ g, l = g ++ [CR, LF, CR, LF] ∧ ¬[CR, LF, CR, LF] <:+: g ++ [CR, LF, CR] := by
  obtain ⟨hhas, hself⟩ := h
  rcases headSection_cases l with ⟨-, hno⟩ | ⟨g, t, -, heq, hno⟩
  · exact absurd hhas hno
  · exact ⟨g, hself.symm.trans heq, hno⟩

/-- What a call reads of a head that it does not refuse is read in the head. -/
theorem readInHead (h0 : 0 ∉ l) (hhead : IsHead l)
    (hok : ∀ unread, (behind withTransf l).ctl ≠ .halt .rejected unread) : ReadInHead withTransf l := by
  obtain ⟨g, rfl, hno⟩ := hhead.cut
  have hfirst : ∀ u, u <+: g ++ [CR, LF, CR, LF] → u ≠ g ++ [CR, LF, CR, LF] → ¬HasHead u := by
    intro u hu hne hhas
    rw [show g ++ [CR, LF, CR, LF] = g ++ [CR, LF, CR] ++ [LF] by rw [List.append_assoc]; rfl] at hu hne
    exact hno (hhas.trans ((List.prefix_concat_iff.mp hu).resolve_left hne).isInfix)
  refine ⟨ResMachine.readsInHead h0 fun u hu hne => ?_, hfirst⟩
  have hfollows := ResMachine.follows_stateAfter withTransf (fun hmem => h0 (hu.subset hmem))
  have hbody := hfirst u hu hne
  obtain ⟨v, hv⟩ := hu
  change (behind withTransf u).ctl.Follows u at hfollows
  change (behind withTransf u).ctl.InHead
  have hrejected : ∀ unread, (behind withTransf u).ctl ≠ .halt .rejected unread := by
    intro unread hctl
    refine hok (unread ++ fresh v) ?_
    have hrun := congrArg (fun r => r.1.ctl) (resMachine_run_of_halt hctl (fresh v))
    rw [← hv, behind_append]
    exact hrun
  generalize behind withTransf u = q at *
  cases hctl : q.ctl <;> rw [hctl] at hfollows hrejected
  case halt why unread =>
    cases why with
    | finished => exact hbody hfollows
    | rejected => exact hrejected unread rfl
    | nul => exact hfollows
  case data | untilClose | chunkSize | chunkSizeEnd | chunkData | chunkEnd => exact hbody hfollows
  all_goals trivial

/-- A length is no negative number. -/
theorem nonneg_of_lastLength {n : Int} (h : n ∈ lastLength l) : 0 ≤ n := by
  obtain ⟨t, -, ht⟩ := List.mem_filterMap.mp (List.mem_of_getLast? h)
  unfold lineLength at ht
  dsimp only at ht
  split at ht
  · rw [← Option.some.inj ht]
    exact Radix.dec_lawful.le_valueFrom (Int.le_refl 0) (takeWhile_all isdigit _)
  · cases ht

/-- Behind a head the machine knows its fields, if the names that it came upon are theirs. -/
theorem followsFields_behind (h0 : 0 ∉ l) (hhead : IsHead l) (hsteered : SteeredByFields withTransf l)
    (hok : ∀ unread, (behind withTransf l).ctl ≠ .halt .rejected unread) :
    FollowsFields l (behind withTransf l).d := by
  have hin := readInHead h0 hhead hok
  obtain ⟨g, hg, -⟩ := hhead.cut
  have hcut : l = g ++ [CR, LF] ++ [CR, LF] := by rw [hg, List.append_assoc]; rfl
  obtain ⟨t, ts, hlines⟩ := List.exists_cons_of_ne_nil (crlfLines_ne_nil (g ++ [CR, LF]))
  have hfields : fieldLines l = ts ++ [[]] := by
    unfold fieldLines
    rw [hcut, crlfLines_lineEnd, hlines]
    rfl
  have hlast : lastLength l = (ts.filterMap lineLength).getLast? := by
    unfold lastLength
    rw [hfields, List.filterMap_append]
    exact congrArg List.getLast? (List.append_nil _)
  have hjoin : (t :: ts).flatMap (· ++ [CR, LF]) = l := by
    rw [← hlines, flatMap_crlfLines, hcut]
  have hknows : KnowsLines ts (behind withTransf l).d := by
    rw [← hjoin]
    refine knowsLines (hjoin.symm ▸ hin) (hjoin.symm ▸ hsteered.finds) fun v hv => ?_
    exact not_crlf_of_mem (hlines ▸ hv)
  refine ⟨?_, fun h => ?_, fun h => ?_⟩
  · rw [hknows.bodyLength, ← hlast]
    cases hn : lastLength l with
    | none => rfl
    | some n => exact toInt32_eq (Int.le_trans (by decide) (nonneg_of_lastLength hn)) (hsteered.fits n hn)
  · obtain ⟨v, hv, hline⟩ := hknows.isChunked h
    exact ⟨v, hfields ▸ List.mem_append_left _ hv, hline⟩
  · obtain ⟨v, hv, hline⟩ := hknows.isClose h
    exact ⟨v, hfields ▸ List.mem_append_left _ hv, hline⟩

/-- Only its own fields steer a response, if the three names stand nowhere else where the scan comes upon them and
the last length fits in an `int`. -/
theorem fields_steer (withTransf : Bool) (l : List UInt8) (h0 : 0 ∉ l) (hhead : IsHead l)
    (hsteered : SteeredByFields withTransf l) (bIn bOut bTransf : Buffer) (hwf : bIn.Wf)
    (hroom : PUSH_BACK_ROOM ≤ bIn.infLimit) (hcells : bIn.cells = fresh l) :
    ∃ r, checkResponse (responseStart withTransf) bIn bOut bTransf = some r ∧
      (r.rData.state = .RES_OK → FollowsFields l r.rData.toResponseFields) := by
  have hconsistent : (responseStart withTransf).Consistent := consistent_version rfl rfl
  have hnul : NoNul (responseStart withTransf).machine bIn.cells := hcells ▸ noNul_of_follows h0
  obtain ⟨r, hr, hend, -⟩ := checkResponse_move bOut bTransf hconsistent hwf hroom hnul
  have hmachine : resMachine.stateAfter (responseStart withTransf).machine bIn.cells = behind withTransf l := by
    rw [hcells]
    rfl
  refine ⟨r, hr, fun hstate => ?_⟩
  cases hend with
  | waits success rests =>
    rw [hmachine] at rests
    rw [rests.fields]
    exact followsFields_behind h0 hhead hsteered fun unread => rests.rests _ unread
  | rejects unread success state => exact absurd hstate state
  | finished parserState wf keeps after =>
    rw [hmachine] at after
    have hknows := followsFields_behind h0 hhead hsteered fun unread hctl => by
      rw [after] at hctl
      cases hctl
    rw [after] at hknows
    exact hknows

end Heads

/-- A head whose fields stand in lines of their own. -/
theorem fields_steer_length :
    let l := lit "HTTP/1.1 200 OK\r\nConnection: close\r\ncontent-length:  5\r\n\r\n"
    ∃ r, checkResponse (responseStart false) (bufferWriteAll (bufferInitR 20 120) l) (bufferInit 120) (bufferInit 1) =
        some r ∧ FollowsFields l r.rData.toResponseFields ∧ r.rData.bodyLength = 5 := by
  intro l
  obtain ⟨r, hr, hfollows⟩ := fields_steer false l (by decide +kernel) (by decide +kernel)
    ⟨by decide +kernel, by decide +kernel⟩ (bufferWriteAll (bufferInitR 20 120) l) (bufferInit 120) (bufferInit 1)
    ⟨by decide +kernel, by decide +kernel, by decide +kernel⟩ (by decide +kernel) (by decide +kernel)
  have hknown : (checkResponse (responseStart false) (bufferWriteAll (bufferInitR 20 120) l) (bufferInit 120)
      (bufferInit 1)).map (fun r => (r.rData.state, r.rData.bodyLength)) = some (.RES_OK, 5) := by decide +kernel
  rw [hr, Option.map_some, Option.some.injEq, Prod.mk.injEq] at hknown
  exact ⟨r, hr, hfollows hknown.1, hknown.2⟩

/-- The length of another field is taken for that of the body. -/
theorem length_embedded :
    let l := lit "HTTP/1.1 200 OK\r\nX-Content-Length: 5\r\n\r\n"
    0 ∉ l ∧ IsHead l ∧
      ∃ r, checkResponse (responseStart false) (bufferWriteAll (bufferInitR 20 120) l) (bufferInit 120)
          (bufferInit 1) = some r ∧ r.rData.state = .RES_OK ∧ r.rData.parserState = .BODY_NORMAL ∧
        ¬FollowsFields l r.rData.toResponseFields := by
  intro l
  have hknown : (checkResponse (responseStart false) (bufferWriteAll (bufferInitR 20 120) l) (bufferInit 120)
      (bufferInit 1)).map (fun r => (r.rData.state, r.rData.parserState, r.rData.bodyLength)) =
      some (.RES_OK, .BODY_NORMAL, 5) := by decide +kernel
  obtain ⟨r, hr, hfields⟩ := Option.map_eq_some_iff.mp hknown
  simp only [Prod.mk.injEq] at hfields
  refine ⟨by decide, by decide, r, hr, hfields.1, hfields.2.1, fun h => ?_⟩
  -- The head has no length of its own.
  have hnone : r.rData.bodyLength = NO_BODY_LENGTH := h.bodyLength
  rw [hfields.2.2] at hnone
  cases hnone

end HttpProxy
