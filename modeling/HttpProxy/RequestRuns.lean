import HttpProxy.RequestFragments

/-!
# What the request machine does with the parts of a request

`Takes` says that the machine reads some bytes, from one state to another and writing others, and
that the parser comes back from a cut anywhere among them. The lemmas are about the parts requests
are made of: keywords, runs of blanks, the method, the target, the version, a host and a port.
-/

namespace HttpProxy

/-- A cut in front of `x`, with the machine in `q`, from which the parser comes back. -/
structure CutHere (q : ReqMachine) (x : Cell) : Prop where
  halt : ∀ why unread, q.ctl ≠ .halt why unread
  refused : q.ctl ≠ .refused
  target : q.ctl.moved = q.ctl
  fits : q.pushBack.length ≤ RESERVED
  port : ∀ place i v, q.ctl = .port place i (some v) → 0 ≤ v
  digit : ∀ place i, q.ctl = .port place i none → isdigit x.1 = true

namespace ReqMachine

/-- Outside a host of the target nothing is refused. -/
theorem refuses_of_moved {q : ReqMachine} (h : q.ctl.moved = q.ctl) (l : List Cell) :
    q.refuses l = false := by
  cases l with
  | nil => rfl
  | cons x l =>
    have hon : q.refusesOn x = false := by
      unfold refusesOn
      split
      · next hctl => rw [hctl] at h; cases h
      · next hctl => rw [hctl] at h; cases h
      · rfl
    rw [refuses, hon, h, bne_self_eq_false]
    rfl

end ReqMachine

/-- A cut in front of a byte is one the parser comes back from, whatever is behind the byte. -/
theorem CutHere.safeCut {q : ReqMachine} {x : Cell} (h : CutHere q x) (l : List Cell) :
    SafeCut q (x :: l) where
  stalled := h.halt .stalled
  refused := h.refused
  fits := h.fits
  port := h.port
  digit place i hctl y hy := by
    obtain rfl : x = y := Option.some.inj hy
    exact h.digit place i hctl
  authority := ReqMachine.refuses_of_moved h.target _

/-- The parser comes back from every cut of bytes it could be cut anywhere among. -/
theorem atCuts_of_along {q : ReqMachine} {ws : List (List UInt8)} (hne : ∀ w ∈ ws, w ≠ [])
    (h : reqMachine.Along CutHere q (fresh ws.flatten)) : AtCuts SafeCut q ws := by
  induction ws generalizing q with
  | nil => exact trivial
  | cons w ws ih =>
    rw [List.flatten_cons, fresh_append, Transducer.along_append] at h
    refine ⟨fun hws => ?_, ih (fun u hu => hne u (List.mem_cons_of_mem _ hu)) h.2⟩
    obtain ⟨u, us, rfl⟩ := List.exists_cons_of_ne_nil hws
    obtain ⟨c, u, rfl⟩ := List.exists_cons_of_ne_nil (hne u (List.mem_cons_of_mem _ List.mem_cons_self))
    exact h.2.1.safeCut _

/-- Bytes that take the machine from `q` to `q'`, writing `e`; the parser comes back from a cut in
front of any of them. -/
structure Takes (q : ReqMachine) (p : List UInt8) (q' : ReqMachine) (e : List UInt8) : Prop where
  run_eq : reqMachine.run q (fresh p) = (q', e)
  cuts : reqMachine.Along CutHere q (fresh p)

namespace Takes

variable {q q' q'' : ReqMachine} {p p' e e' : List UInt8}

theorem nil (q : ReqMachine) : Takes q [] q [] := ⟨rfl, trivial⟩

/-- Bytes read one after the other are read at once, with the cuts among them. -/
theorem append (h : Takes q p q' e) (h' : Takes q' p' q'' e') :
    Takes q (p ++ p') q'' (e ++ e') := by
  have hafter : reqMachine.stateAfter q (fresh p) = q' := congrArg Prod.fst h.run_eq
  constructor
  · rw [fresh_append]
    exact Transducer.run_append_eq _ h.run_eq h'.run_eq
  · rw [fresh_append, Transducer.along_append, hafter]
    exact ⟨h.cuts, h'.cuts⟩

/-- One byte, with the cut in front of it. -/
theorem byte {c : UInt8} (h : q.step (c, false) = (q', e)) (hc : CutHere q (c, false)) :
    Takes q [c] q' e := by
  have hs : reqMachine.step q (c, false) = (q', e) := h
  refine ⟨?_, hc, trivial⟩
  rw [fresh_cons, fresh_nil, Transducer.run_cons, hs]
  exact congrArg (Prod.mk q') (List.append_nil e)

/-- A byte and what is read behind it. -/
theorem cons {c : UInt8} (h : q.step (c, false) = (q', e)) (hc : CutHere q (c, false))
    (h' : Takes q' p q'' e') : Takes q (c :: p) q'' (e ++ e') :=
  (byte h hc).append h'

end Takes

/-! ## Cuts in the states outside a host -/

/-- Control states that push back a part of a keyword, or nothing. -/
def ReqCtl.Plain : ReqCtl → Prop
  | .host _ _ | .port _ _ _ | .portEnd | .refused | .halt _ _ => False
  | .methodIn _ opts _ => (opts.headD ([], .UNDEFINED_M)).1.length ≤ 7
  | _ => True

/-- The beginning of a word is no longer than the word. -/
theorem length_append_take_le (p l : List UInt8) (i : Nat) :
    (p ++ l.take i).length ≤ p.length + l.length := by
  have htake := List.length_take_le' i l
  rw [List.length_append]
  omega

/-- Outside a host what is pushed back is part of a keyword, and short. -/
theorem ReqCtl.Plain.length_pushBack {q : ReqMachine} (h : q.ctl.Plain) :
    q.pushBack.length ≤ 12 := by
  have hkeyword : ∀ (p l : List UInt8) (i : Nat), p.length + l.length ≤ 12 →
      (p ++ l.take i).length ≤ 12 := fun p l i hl => (length_append_take_le p l i).trans hl
  unfold ReqMachine.pushBack
  cases hctl : q.ctl with
  | methodIn c opts i =>
    rw [hctl] at h
    have hopt : (opts.headD ([], .UNDEFINED_M)).1.length ≤ 7 := h
    have htail := List.length_take_le' i (opts.headD ([], .UNDEFINED_M)).1.tail
    rw [List.length_tail] at htail
    rw [List.length_cons]
    omega
  | uri i => exact hkeyword [] (lit "HTTP") i (by decide)
  | uriSep i => exact hkeyword (lit "HTTP") (lit "://") i (by decide)
  | version i => exact hkeyword [] (lit "HTTP/1.") i (by decide)
  | versionDigit => exact (by decide : (lit "HTTP/1.").length ≤ 12)
  | startLineEnd i => exact hkeyword [] [CR, LF] i (by decide)
  | localName i => exact hkeyword [] (lit "X-LOCALHOST:") i (by decide)
  | hostName i => exact hkeyword (lit "H") (lit "OST:") i (by decide)
  | cr i => exact hkeyword [CR] [LF] i (by decide)
  | crlf i => exact hkeyword [CR, LF] [CR, LF] i (by decide)
  | host | port => rw [hctl] at h; exact absurd h id
  | _ => exact Nat.zero_le _

/-- Outside a host the parser comes back from every cut. -/
theorem ReqCtl.Plain.cutHere {q : ReqMachine} (h : q.ctl.Plain) (x : Cell) : CutHere q x where
  halt why unread hctl := by rw [hctl] at h; exact h
  refused hctl := by rw [hctl] at h; exact h
  target := by
    cases hctl : q.ctl with
    | host => rw [hctl] at h; exact absurd h id
    | port => rw [hctl] at h; exact absurd h id
    | _ => rfl
  fits := h.length_pushBack.trans (by decide)
  port place i v hctl := by rw [hctl] at h; exact absurd h id
  digit place i hctl := by rw [hctl] at h; exact absurd h id

namespace ReqMachine

variable {q : ReqMachine}

/-! ## Keywords and blanks -/

/-- A keyword, in any letter case. -/
theorem takes_format {format : List UInt8} (inside : Nat → ReqCtl) {done : ReqMachine}
    (miss : Nat → Cell → Out) (hne : format ≠ [])
    (hstep : ∀ j < format.length, ∀ x, (q.goto (inside j)).step x =
      q.stepMatch format j inside done (miss j) x)
    (hcut : ∀ j < format.length, (inside j).Plain) {w : List UInt8}
    (hw : w.map toupper = format.map toupper) : Takes (q.goto (inside 0)) w done w := by
  -- `j` bytes of the format are behind.
  suffices rest : ∀ (w : List UInt8) (j : Nat), j < format.length →
      w.map toupper = (format.drop j).map toupper → Takes (q.goto (inside j)) w done w from
    rest w 0 (List.length_pos_of_ne_nil hne) hw
  intro w
  induction w with
  | nil =>
    intro j hj hw
    have hlen := congrArg List.length hw
    simp only [List.map_nil, List.length_nil, List.length_map, List.length_drop] at hlen
    omega
  | cons c w ih =>
    intro j hj hw
    rw [List.drop_eq_getElem_cons hj, List.map_cons, List.map_cons] at hw
    obtain ⟨hc, hw⟩ := List.cons.inj hw
    have hget : format.getD j 0 = format[j] := by
      rw [List.getD_eq_getElem?_getD, List.getElem?_eq_getElem hj, Option.getD_some]
    have hs := hstep j hj (c, false)
    rw [ReqMachine.stepMatch, HttpProxy.stepMatch, hget, if_pos hc] at hs
    by_cases hlast : j + 1 = format.length
    · rw [hlast, List.drop_length] at hw
      obtain rfl : w = [] := List.map_eq_nil_iff.mp hw
      rw [if_pos hlast] at hs
      exact Takes.byte hs ((hcut j hj).cutHere (q := q.goto (inside j)) _)
    · rw [if_neg hlast] at hs
      exact Takes.cons hs ((hcut j hj).cutHere (q := q.goto (inside j)) _)
        (ih (j + 1) (by omega) hw)

/-- In front of a state blanks are skipped, and anything else is read by it. -/
theorem step_spaceTo (q : ReqMachine) (n : AfterSpaces) (x : Cell) :
    (q.goto (.space n)).step x = q.stepSpace n (q.goto n.ctl).step x := by
  cases n <;> rfl

/-- A run of blanks is read without writing. -/
theorem takes_blanks (q : ReqMachine) (n : AfterSpaces) {bl : List UInt8}
    (h : ∀ c ∈ bl, isBlank c = true) : Takes (q.goto (.space n)) bl (q.goto (.space n)) [] := by
  induction bl with
  | nil => exact Takes.nil _
  | cons c bl ih =>
    have hs : (q.goto (.space n)).step (c, false) = (q.goto (.space n), []) := by
      rw [step_spaceTo, ReqMachine.stepSpace, if_pos (h c List.mem_cons_self)]
    exact Takes.cons hs (ReqCtl.Plain.cutHere (q := q.goto (.space n)) trivial _)
      (ih fun d hd => h d (List.mem_cons_of_mem _ hd))

/-- After a run of blanks one space is written in front of what follows. -/
theorem takes_afterSpaces {n : AfterSpaces} {bl w e : List UInt8} {q' : ReqMachine}
    (hbl : ∀ c ∈ bl, isBlank c = true) (hw : w ≠ []) (hhead : ∀ c ∈ w.head?, isBlank c = false)
    (h : Takes (q.goto n.ctl) w q' e) : Takes (q.goto (.space n)) (bl ++ w) q' (SP :: e) := by
  refine (takes_blanks q n hbl).append ?_
  obtain ⟨c, w, rfl⟩ := List.exists_cons_of_ne_nil hw
  have hs : reqMachine.step (q.goto (.space n)) (c, false) =
      (((q.goto n.ctl).step (c, false)).1, SP :: ((q.goto n.ctl).step (c, false)).2) := by
    refine (step_spaceTo q n _).trans ?_
    rw [ReqMachine.stepSpace, if_neg (Bool.eq_false_iff.mp (hhead c rfl))]
  obtain ⟨hrun, hcuts⟩ := h
  rw [fresh_cons, Transducer.run_cons] at hrun
  constructor
  · rw [fresh_cons, Transducer.run_cons, hs]
    exact congrArg (fun r : Out => (r.1, SP :: r.2)) hrun
  · refine ⟨ReqCtl.Plain.cutHere (q := q.goto (.space n)) trivial _, ?_⟩
    rw [hs]
    exact hcuts.2

/-! ## The start line -/

def setMethod (q : ReqMachine) (m : HttpMethod) : ReqMachine :=
  { q with d := { q.d with method := m } }

/-- A method the proxy supports, in any letter case. -/
theorem takes_method (q : ReqMachine) {m : HttpMethod} {w : List UInt8}
    (hw : (w.map toupper, m) ∈ methodOption) (hm : isSupported m = true) :
    Takes (q.goto .method) w ((q.setMethod m).goto (.space .uri)) w := by
  -- A supported method is the first option for its first byte.
  have hoption : ∃ c name rest, w.map toupper = c :: name ∧ name ≠ [] ∧ name.length ≤ 6 ∧
      name.map toupper = name ∧
      optionsFor c methodOption = (c :: name, m) :: rest := by
    have hall : ∀ o ∈ methodOption, isSupported o.2 = true →
        o.1 ≠ [] ∧ o.1.tail ≠ [] ∧ o.1.tail.length ≤ 6 ∧ o.1.tail.map toupper = o.1.tail ∧
          (optionsFor (o.1.headD 0) methodOption).head? = some o := by decide
    obtain ⟨hne, htail, hlen, hupper, hhead⟩ := hall _ hw hm
    obtain ⟨c, name, hname⟩ := List.exists_cons_of_ne_nil hne
    simp only at hname
    rw [hname] at htail hlen hhead hupper
    obtain ⟨rest, hrest⟩ := List.head?_eq_some_iff.mp hhead
    exact ⟨c, name, rest, hname, htail, hlen, hupper, hrest⟩
  obtain ⟨c, name, rest, hname, hne, hlen, hupper, hopts⟩ := hoption
  obtain ⟨b, w, rfl⟩ := List.exists_cons_of_ne_nil (l := w) (by rintro rfl; cases hname)
  rw [List.map_cons] at hname
  obtain ⟨hb, hw'⟩ := List.cons.inj hname
  have hfirst : (q.goto .method).step (b, false) =
      (q.goto (.methodIn c ((c :: name, m) :: rest) 0), [b]) := by
    have hs : (q.goto .method).step (b, false) = (q.goto .method).stepMethod (b, false) := rfl
    rw [hs, stepMethod]
    simp only [hb, hopts, reduceCtorEq, if_false, echoed_fresh]
    rfl
  have hdone : q.afterMethod m = (q.setMethod m).goto (.space .uri) := by
    unfold afterMethod
    rw [hm]
    rfl
  refine Takes.cons hfirst (ReqCtl.Plain.cutHere (q := q.goto .method) trivial _) ?_
  rw [← hdone]
  refine takes_format (.methodIn c ((c :: name, m) :: rest))
    (fun j => (q.goto (.methodIn c ((c :: name, m) :: rest) j)).stepMethodIn c rest 0) hne
    (fun j _ x => ?_) (fun _ _ => Nat.succ_le_succ hlen) (hw'.trans hupper.symm)
  have hs : (q.goto (.methodIn c ((c :: name, m) :: rest) j)).step x =
      (q.goto (.methodIn c ((c :: name, m) :: rest) j)).stepMethodIn c ((c :: name, m) :: rest) j x := rfl
  rw [hs, stepMethodIn, if_pos (show (c :: name).headD 0 = c from rfl)]
  rfl

/-- A target that does not start like `http`, up to the blank behind it. -/
theorem takes_target (q : ReqMachine) {c : UInt8} {w : List UInt8} (hc : toupper c ≠ 0x48)
    (hblank : ∀ b ∈ c :: w, isBlank b = false) :
    Takes (q.goto (.uri 0)) (c :: w) (q.goto .relative) (c :: w) := by
  have hrel : ∀ {b : UInt8}, isBlank b = false → ∀ q' : ReqMachine,
      q'.stepRelative (b, false) = (q'.goto .relative, [b]) := by
    intro b hb q'
    rw [stepRelative, if_neg (Bool.eq_false_iff.mp hb)]
    rfl
  have htail : ∀ {w : List UInt8}, (∀ b ∈ w, isBlank b = false) →
      Takes (q.goto .relative) w (q.goto .relative) w := by
    intro w hw
    induction w with
    | nil => exact Takes.nil _
    | cons b w ih =>
      have hs : (q.goto .relative).step (b, false) = (q.goto .relative, [b]) :=
        hrel (hw b List.mem_cons_self) (q.goto .relative)
      exact Takes.cons hs (ReqCtl.Plain.cutHere (q := q.goto .relative) trivial _)
        (ih fun d hd => hw d (List.mem_cons_of_mem _ hd))
  have hs : (q.goto (.uri 0)).step (c, false) = (q.goto .relative, [c]) := by
    have hmiss : (q.goto (.uri 0)).step (c, false) = (q.goto (.uri 0)).stepRelative (c, false) :=
      if_neg hc
    rw [hmiss, hrel (hblank c List.mem_cons_self)]
    rfl
  exact Takes.cons hs (ReqCtl.Plain.cutHere (q := q.goto (.uri 0)) trivial _)
    (htail fun b hb => hblank b (List.mem_cons_of_mem _ hb))

/-- The blanks behind a target. -/
theorem takes_targetEnd (q : ReqMachine) {c : UInt8} {bl : List UInt8}
    (h : ∀ b ∈ c :: bl, isBlank b = true) :
    Takes (q.goto .relative) (c :: bl) (q.goto (.space .version)) [] := by
  have hs : (q.goto .relative).step (c, false) = (q.goto (.space .version), []) := by
    have hrel : (q.goto .relative).step (c, false) = (q.goto .relative).stepRelative (c, false) := rfl
    rw [hrel, stepRelative, if_pos (h c List.mem_cons_self), stepSpaceVersion, stepSpace,
      if_pos (h c List.mem_cons_self)]
    rfl
  exact Takes.cons hs (ReqCtl.Plain.cutHere (q := q.goto .relative) trivial _)
    (takes_blanks q .version fun b hb => h b (List.mem_cons_of_mem _ hb))

/-- The version, in any letter case, and the end of the start line. -/
theorem takes_version (q : ReqMachine) {w : List UInt8} {c : UInt8}
    (hw : w.map toupper = lit "HTTP/1.") (hc : c = 0x30 ∨ c = 0x31) :
    Takes (q.goto (.version 0)) (w ++ [c] ++ [CR, LF])
      ((q.setVersion c).goto .localHost) (w ++ [c] ++ [CR, LF]) := by
  have hname : Takes (q.goto (.version 0)) w (q.goto .versionDigit) w :=
    takes_format .version (fun j => (q.goto (.version j)).stepAfterVersion)
      (by decide) (fun _ _ _ => rfl) (fun _ _ => trivial) (hw.trans (by decide))
  have hversion : (q.setVersion c).d.version ≠ .undefined := by
    rcases hc with rfl | rfl
    · exact nofun
    · exact nofun
  have hdigit : (q.goto .versionDigit).step (c, false) =
      ((q.setVersion c).goto (.startLineEnd 0), [c]) :=
    congrArg (fun q : ReqMachine => (q, [c])) (if_neg hversion)
  have hend : Takes ((q.setVersion c).goto (.startLineEnd 0)) [CR, LF]
      ((q.setVersion c).goto .localHost) [CR, LF] :=
    takes_format .startLineEnd
      (fun j => stepHalt (((q.setVersion c).goto (.startLineEnd j)).reject .START_LINE_END_ERROR))
      (List.cons_ne_nil _ _) (fun _ _ _ => rfl) (fun _ _ => trivial) rfl
  exact (hname.append (Takes.byte hdigit
    (ReqCtl.Plain.cutHere (q := q.goto .versionDigit) trivial _))).append hend

/-! ## Header lines -/

/-- Control states inside a header line of which `u`, in capitals, was read. -/
def InLine (u : List UInt8) : ReqCtl → Prop
  | .headers => True
  | .hostName i => i < (lit "OST:").length ∧ (lit "HOST:").take (i + 1) <:+ u
  | _ => False

/-- Inside a header line what is pushed back is part of `Host:`. -/
theorem InLine.plain {u : List UInt8} {ctl : ReqCtl} (h : InLine u ctl) : ctl.Plain := by
  cases ctl <;> first | exact trivial | exact absurd h id

/-- A byte looked at afresh. -/
theorem stepHeaders_inLine (q : ReqMachine) (u : List UInt8) {c : UInt8} (hc : c ≠ CR) :
    ∃ ctl, q.stepHeaders (c, false) = (q.goto ctl, [c]) ∧ InLine (u ++ [toupper c]) ctl := by
  refine ⟨_, rfl, ?_⟩
  have hcr : toupper c ≠ CR := by
    unfold toupper
    grind
  simp only
  split
  · next h =>
    rw [h]
    exact ⟨by decide, ⟨u, rfl⟩⟩
  · exact trivial

/-- A byte inside a header line that completes no `Host:` is written, and the line goes on. -/
theorem step_inLine (q : ReqMachine) {u : List UInt8} {ctl : ReqCtl} (h : InLine u ctl) {c : UInt8}
    (hc : c ≠ CR) (hno : ¬lit "HOST:" <:+ u ++ [toupper c]) :
    ∃ ctl', (q.goto ctl).step (c, false) = (q.goto ctl', [c]) ∧ InLine (u ++ [toupper c]) ctl' := by
  cases ctl with
  | headers => exact stepHeaders_inLine (q.goto .headers) u hc
  | hostName i =>
    obtain ⟨hi, v, rfl⟩ := h
    have hs : (q.goto (.hostName i)).step (c, false) =
        (q.goto (.hostName i)).stepHostName i (c, false) := rfl
    rw [hs, stepHostName, ReqMachine.stepMatch, HttpProxy.stepMatch]
    have hget : (lit "OST:").getD i 0 = (lit "OST:")[i] := by
      rw [List.getD_eq_getElem?_getD, List.getElem?_eq_getElem hi, Option.getD_some]
    have hlits : ∀ i (hi : i < (lit "OST:").length), toupper (lit "OST:")[i] = (lit "OST:")[i] ∧
        (lit "HOST:").take (i + 2) = (lit "HOST:").take (i + 1) ++ [(lit "OST:")[i]] := by decide
    obtain ⟨hupper, htake⟩ := hlits i hi
    rw [hget, hupper]
    split
    · next hmatch =>
      simp only at hmatch
      have hsuffix : (lit "HOST:").take (i + 2) <:+
          v ++ (lit "HOST:").take (i + 1) ++ [toupper c] := by
        rw [htake, hmatch, List.append_assoc]
        exact List.suffix_append _ _
      split
      · next hlast =>
        have hall : (lit "HOST:").take (i + 2) = lit "HOST:" := by
          rw [List.take_of_length_le]
          have : (lit "HOST:").length = (lit "OST:").length + 1 := by decide
          omega
        rw [hall] at hsuffix
        exact absurd hsuffix hno
      · next hlast => exact ⟨_, rfl, by omega, hsuffix⟩
    · exact stepHeaders_inLine (q.goto (.hostName i)) _ hc
  | _ => exact absurd h id

/-- Bytes of a header line without `host:` are written. The induction is on those still to read. -/
theorem takes_inLine (q : ReqMachine) {w : List UInt8} (hw : ∀ b ∈ w, b ≠ CR) :
    ∀ {u : List UInt8} {ctl : ReqCtl}, InLine u ctl → ¬lit "HOST:" <:+: u ++ w.map toupper →
      ∃ ctl', Takes (q.goto ctl) w (q.goto ctl') w ∧ InLine (u ++ w.map toupper) ctl' := by
  induction w with
  | nil =>
    intro u ctl h _
    rw [List.map_nil, List.append_nil]
    exact ⟨ctl, Takes.nil _, h⟩
  | cons c w ih =>
    intro u ctl h hno
    have happ : u ++ (c :: w).map toupper = u ++ [toupper c] ++ w.map toupper := by
      rw [List.map_cons, List.append_assoc, List.singleton_append]
    rw [happ] at hno ⊢
    obtain ⟨ctl₁, hs, h₁⟩ := step_inLine q h (hw c List.mem_cons_self)
      fun hsuf => hno (hsuf.isInfix.trans (List.prefix_append _ _).isInfix)
    obtain ⟨ctl₂, htakes, h₂⟩ := ih (fun b hb => hw b (List.mem_cons_of_mem _ hb)) h₁ hno
    exact ⟨ctl₂, Takes.cons hs (h.plain.cutHere (q := q.goto ctl) _) htakes, h₂⟩

/-- The end of a header line. -/
theorem takes_lineEnd (q : ReqMachine) {u : List UInt8} {ctl : ReqCtl} (h : InLine u ctl) :
    Takes (q.goto ctl) [CR, LF] (q.goto (.crlf 0)) [CR, LF] := by
  have hcr : (q.goto ctl).step (CR, false) = (q.goto (.cr 0), [CR]) := by
    cases ctl with
    | headers => rfl
    | hostName i =>
      have hi : i < (lit "OST:").length := h.1
      have hmiss : toupper CR ≠ toupper ((lit "OST:").getD i 0) := by
        clear h
        revert i
        decide
      have hs : (q.goto (.hostName i)).step (CR, false) =
          (q.goto (.hostName i)).stepHeaders (CR, false) := if_neg hmiss
      rw [hs]
      rfl
    | _ => exact absurd h id
  have hlf : (q.goto (.cr 0)).step (LF, false) = (q.goto (.crlf 0), [LF]) := rfl
  exact Takes.cons hcr (h.plain.cutHere (q := q.goto ctl) _)
    (Takes.byte hlf (ReqCtl.Plain.cutHere (q := q.goto (.cr 0)) trivial _))

/-- In front of a header line: what is written before its first byte `c`, which starts no other
header the parser knows. -/
structure LineStart (q : ReqMachine) (ctl : ReqCtl) (e : List UInt8) (c : UInt8) : Prop where
  step_eq : (q.goto ctl).step (c, false) = (((q.goto ctl).stepHeaders (c, false)).1, e ++ [c])
  plain : ctl.Plain

/-- The first header, when it does not begin with `x`, has the proxy's own header in front of it. -/
theorem lineStart_first {q : ReqMachine} (hq : q.d.isLocalHost = false) {c : UInt8}
    (hc : toupper c ≠ 0x58) : LineStart q .localHost (lit "X-LOCALHOST: TRUE\r\n") c where
  step_eq := by
    have hs : (q.goto .localHost).step (c, false) =
        (((q.goto .localHost).stepChecked (c, false)).1,
          lit "X-LOCALHOST: TRUE\r\n" ++ ((q.goto .localHost).stepChecked (c, false)).2) :=
      if_pos hc
    have hchecked : (q.goto .localHost).stepChecked (c, false) =
        (q.goto .localHost).stepHeaders (c, false) := if_neg (Bool.eq_false_iff.mp hq)
    rw [hs, hchecked]
    rfl
  plain := trivial

/-- Every other header begins behind the line end of the one before. -/
theorem lineStart_next (q : ReqMachine) {c : UInt8} (hc : c ≠ CR) :
    LineStart q (.crlf 0) [] c where
  step_eq := by
    have hcr : toupper c ≠ toupper CR := by
      unfold toupper
      grind
    exact if_neg hcr
  plain := trivial

/-- A header line without `host:`. -/
theorem takes_line {q : ReqMachine} {ctl : ReqCtl} {e : List UInt8} {c : UInt8} {w : List UInt8}
    (h : LineStart q ctl e c) (hw : ∀ b ∈ c :: w, b ≠ CR)
    (hno : ¬lit "HOST:" <:+: (c :: w).map toupper) :
    Takes (q.goto ctl) (c :: w ++ [CR, LF]) (q.goto (.crlf 0)) (e ++ (c :: w ++ [CR, LF])) := by
  obtain ⟨ctl₁, hs, h₁⟩ := stepHeaders_inLine (q.goto ctl) [] (hw c List.mem_cons_self)
  have hfirst : (q.goto ctl).step (c, false) = (q.goto ctl₁, e ++ [c]) := by
    rw [h.step_eq, hs]
    rfl
  obtain ⟨ctl₂, htakes, h₂⟩ := takes_inLine q (fun b hb => hw b (List.mem_cons_of_mem _ hb)) h₁ hno
  have hall := (Takes.cons hfirst (h.plain.cutHere (q := q.goto ctl) _) htakes).append
    (takes_lineEnd q h₂)
  simpa only [List.append_assoc, List.singleton_append, List.cons_append, List.nil_append] using hall

/-- The name of a `Host` header. -/
theorem takes_hostName {q : ReqMachine} {ctl : ReqCtl} {e : List UInt8} {c : UInt8} {w : List UInt8}
    (h : LineStart q ctl e c) (hw : (c :: w).map toupper = lit "HOST:") :
    Takes (q.goto ctl) (c :: w) (q.goto (.space .host)) (e ++ c :: w) := by
  have hlit : lit "HOST:" = 0x48 :: lit "OST:" := by decide
  rw [hlit, List.map_cons] at hw
  obtain ⟨hc, hw⟩ := List.cons.inj hw
  have hs : (q.goto ctl).stepHeaders (c, false) = (q.goto (.hostName 0), [c]) := by
    rw [stepHeaders]
    simp only [hc, if_true, echoed_fresh]
    rfl
  have hfirst : (q.goto ctl).step (c, false) = (q.goto (.hostName 0), e ++ [c]) := by
    rw [h.step_eq, hs]
  have hname : Takes (q.goto (.hostName 0)) w (q.goto (.space .host)) w :=
    takes_format .hostName (fun j => (q.goto (.hostName j)).stepHeaders)
      (by decide) (fun _ _ _ => rfl) (fun _ _ => trivial) (hw.trans (by decide))
  have hall := Takes.cons hfirst (h.plain.cutHere (q := q.goto ctl) _) hname
  rwa [List.append_assoc, List.singleton_append] at hall

/-! ## The host and the port -/

/-- The host array with `w`, in lower case, copied to it from index `i` on. -/
def putHost (q : ReqMachine) : Nat → List UInt8 → ReqMachine
  | _, [] => q
  | i, c :: w => putHost (q.setHost i (tolower c)) (i + 1) w

/-- Copying bytes of a host writes the array alone. -/
theorem putHost_eq (q : ReqMachine) (i : Nat) (w : List UInt8) :
    ∃ host, q.putHost i w = { q with d := { q.d with host := host } } := by
  induction w generalizing q i with
  | nil => exact ⟨q.d.host, rfl⟩
  | cons c w ih =>
    obtain ⟨host, hhost⟩ := ih (q.setHost i (tolower c)) (i + 1)
    exact ⟨host, hhost⟩

/-- The array behind the copying: what was there, the bytes in lower case, and what is behind
them. -/
theorem toList_putHost (q : ReqMachine) {i : Nat} {w : List UInt8} (h : i + w.length ≤ HOST_MAX_SIZE) :
    (q.putHost i w).d.host.toList =
      q.d.host.toList.take i ++ w.map tolower ++ q.d.host.toList.drop (i + w.length) := by
  induction w generalizing q i with
  | nil =>
    rw [List.map_nil, List.append_nil, List.length_nil, Nat.add_zero, List.take_append_drop]
    rfl
  | cons c w ih =>
    rw [List.length_cons] at h
    have hlt : i < HOST_MAX_SIZE := by omega
    have hdrop : (q.setHost i (tolower c)).d.host.toList.drop (i + 1 + w.length) =
        q.d.host.toList.drop (i + 1 + w.length) := by
      change (q.d.host.setIfInBounds i (tolower c)).toList.drop _ = _
      rw [Vector.toList_setIfInBounds, List.drop_set, if_pos (by omega)]
    have htake : (q.setHost i (tolower c)).d.host.toList.take (i + 1) =
        q.d.host.toList.take i ++ [tolower c] := take_setIfInBounds q.d.host hlt (tolower c)
    have hrest := ih (q.setHost i (tolower c)) (i := i + 1) (by omega)
    rw [hdrop, htake] at hrest
    rw [putHost, hrest, List.map_cons, List.length_cons, List.append_assoc, List.append_assoc,
      List.append_assoc, List.singleton_append, List.cons_append,
      show i + 1 + w.length = i + (w.length + 1) by omega]

/-- The string in the host array after a host was copied to its start: what the array held behind
the host, up to a zero, is still there. -/
theorem cString_putHost (q : ReqMachine) {w : List UInt8} (hlen : w.length ≤ HOST_MAX_SIZE)
    (hw : ∀ c ∈ w, isHostChar (tolower c) = true) :
    cString (q.putHost 0 w).d.host =
      w.map tolower ++ (q.d.host.toList.drop w.length).takeWhile (· != 0) := by
  have hne : ∀ c ∈ w.map tolower, (c != 0) = true := by
    intro c hc
    obtain ⟨b, hb, rfl⟩ := List.mem_map.mp hc
    exact bne_iff_ne.mpr (ne_zero_of_isHostChar (hw b hb))
  unfold cString
  rw [toList_putHost q (by rw [Nat.zero_add]; exact hlen), List.take_zero, List.nil_append,
    Nat.zero_add, List.takeWhile_append_of_pos hne]

/-- A byte of a host is copied and written. -/
theorem step_hostChar (q : ReqMachine) (place : HostPlace) {i : Nat} {c : UInt8}
    (hc : isHostChar (tolower c) = true) (hi : i + 1 < HOST_MAX_SIZE) :
    (q.goto (.host place i)).step (c, false) =
      ((q.setHost i (tolower c)).goto (.host place (i + 1)), [c]) := by
  have hs : (q.goto (.host place i)).step (c, false) =
      (q.goto (.host place i)).stepHost place i (c, false) := rfl
  rw [hs, stepHost]
  simp only [hc, if_true, if_pos hi, echoed_fresh]
  rfl

/-- A host is copied to the host array. -/
theorem run_hostChars (place : HostPlace) (w : List UInt8) : ∀ (q : ReqMachine) (i : Nat),
    (∀ c ∈ w, isHostChar (tolower c) = true) → i + w.length < HOST_MAX_SIZE →
    reqMachine.run (q.goto (.host place i)) (fresh w) =
      ((q.putHost i w).goto (.host place (i + w.length)), w) := by
  induction w with
  | nil => exact fun _ _ _ _ => rfl
  | cons c w ih =>
    intro q i hw hlen
    rw [List.length_cons] at hlen
    have hs : reqMachine.step (q.goto (.host place i)) (c, false) = _ :=
      step_hostChar q place (hw c List.mem_cons_self) (by omega)
    rw [fresh_cons, Transducer.run_cons, hs]
    simp only
    rw [ih (q.setHost i (tolower c)) (i + 1) (fun d hd => hw d (List.mem_cons_of_mem _ hd)) (by omega),
      show i + 1 + w.length = i + (c :: w).length by rw [List.length_cons]; omega]
    rfl

/-- The parser comes back from a cut inside a host, as long as the reserved zone holds it. -/
theorem cutHere_host (q : ReqMachine) {i : Nat} (hi : i ≤ RESERVED) (x : Cell) :
    CutHere (q.goto (.host .header i)) x where
  halt := nofun
  refused := nofun
  target := rfl
  fits := by
    have htake := List.length_take_le i q.d.host.toList
    exact Nat.le_trans htake hi
  port := nofun
  digit := nofun

/-- The bytes of a host are copied and written. The induction is on those still to read. -/
theorem takes_hostChars (q : ReqMachine) {i : Nat} {w : List UInt8}
    (hw : ∀ c ∈ w, isHostChar (tolower c) = true) (hlen : i + w.length < HOST_MAX_SIZE) :
    Takes (q.goto (.host .header i)) w
      ((q.putHost i w).goto (.host .header (i + w.length))) w := by
  refine ⟨run_hostChars .header w q i hw hlen, ?_⟩
  induction w generalizing q i with
  | nil => exact trivial
  | cons c w ih =>
    rw [List.length_cons] at hlen
    have hs : reqMachine.step (q.goto (.host .header i)) (c, false) = _ :=
      step_hostChar q .header (hw c List.mem_cons_self) (by omega)
    refine ⟨cutHere_host q (Nat.le_of_lt (Nat.lt_of_le_of_lt (Nat.le_add_right _ _) hlen)) _, ?_⟩
    rw [hs]
    exact ih (q.setHost i (tolower c)) (fun d hd => hw d (List.mem_cons_of_mem _ hd)) (by omega)

/-- A `:` behind a host begins its port. -/
theorem step_colon (q : ReqMachine) (place : HostPlace) (i : Nat) :
    (q.goto (.host place i)).step (0x3a, false) = (q.goto (.port place i none), [0x3a]) := by
  cases place <;> rfl

/-- A digit of a port is added to it and written. -/
theorem step_digit (q : ReqMachine) (place : HostPlace) (i : Nat) (n : Option Int) {c : UInt8}
    (hc : isdigit c = true) :
    (q.goto (.port place i n)).step (c, false) =
      (q.goto (.port place i (numberValue .dec n [c])), [c]) := by
  have hd : Radix.dec.isDigit c = true := hc
  have hs : (q.goto (.port place i n)).step (c, false) =
      (q.goto (.port place i n)).stepPort place i n (c, false) := rfl
  rw [hs]
  unfold stepPort stepNumber
  rw [if_pos hd]
  rfl

/-- The digits of a port are added up and written. -/
theorem run_digits (place : HostPlace) (i : Nat) (ds : List UInt8) : ∀ (q : ReqMachine) (n : Option Int),
    (∀ c ∈ ds, isdigit c = true) →
    reqMachine.run (q.goto (.port place i n)) (fresh ds) =
      (q.goto (.port place i (numberValue .dec n ds)), ds) := by
  induction ds with
  | nil => exact fun _ _ _ => rfl
  | cons c ds ih =>
    intro q n hds
    have hs : reqMachine.step (q.goto (.port place i n)) (c, false) = _ :=
      step_digit q place i n (hds c List.mem_cons_self)
    rw [fresh_cons, Transducer.run_cons, hs]
    simp only
    rw [ih q _ fun d hd => hds d (List.mem_cons_of_mem _ hd)]
    rfl

/-- The parser comes back from a cut inside a port, as long as the reserved zone holds it with its
host. -/
theorem cutHere_port (q : ReqMachine) {i : Nat} {n : Option Int} {x : Cell} (hi : i ≤ 240)
    (hn : ∀ v, n = some v → 0 ≤ v ∧ v < 2 ^ 31) (hx : n = none → isdigit x.1 = true) :
    CutHere (q.goto (.port .header i n)) x where
  halt := nofun
  refused := nofun
  target := rfl
  fits := by
    have htake := List.length_take_le i q.d.host.toList
    have hv : n.getD 0 < 2 ^ 31 := by
      cases n with
      | none => exact (by decide : (0 : Int) < 2 ^ 31)
      | some v => exact (hn v rfl).2
    have hdigits := length_digitsOf_dec hv
    have hcolon : (lit ":").length = 1 := by decide
    change (q.d.host.toList.take i ++ lit ":" ++ digitsOf .dec (n.getD 0)).length ≤ 255
    rw [List.length_append, List.length_append]
    omega
  port place j v hctl := by
    obtain ⟨-, -, rfl⟩ := ReqCtl.port.inj hctl
    exact (hn v rfl).1
  digit place j hctl := by
    obtain ⟨-, -, rfl⟩ := ReqCtl.port.inj hctl
    exact hx rfl

/-- The digits of a port within an `int`. -/
theorem takes_port (q : ReqMachine) {i : Nat} {ds : List UInt8} (hi : i ≤ 240) (hne : ds ≠ [])
    (hds : ∀ c ∈ ds, isdigit c = true) (hlt : Radix.dec.valueOf ds < 2 ^ 31) :
    Takes (q.goto (.host .header i)) (0x3a :: ds)
      (q.goto (.port .header i (some (Radix.dec.valueOf ds)))) (0x3a :: ds) := by
  have hdec := Radix.dec_lawful
  refine Takes.cons (step_colon q .header i) (cutHere_host q (Nat.le_trans hi (by decide)) _)
    ⟨?_, ?_⟩
  · rw [run_digits .header i ds q none hds, numberValue_of_lt hdec hne hds hlt]
  · -- `n` is the number of the digits read so far, and no more than that of all of them.
    have hcuts : ∀ (ds : List UInt8) (n : Option Int), (∀ c ∈ ds, isdigit c = true) →
        (∀ v, n = some v → 0 ≤ v ∧ v < 2 ^ 31) → Radix.dec.valueFrom (n.getD 0) ds < 2 ^ 31 →
        reqMachine.Along CutHere (q.goto (.port .header i n)) (fresh ds) := by
      intro ds
      induction ds with
      | nil => exact fun _ _ _ _ => trivial
      | cons c ds ih =>
        intro n hds hn hlt
        have hc := hds c List.mem_cons_self
        have hs : reqMachine.step (q.goto (.port .header i n)) (c, false) = _ :=
          step_digit q .header i n hc
        refine ⟨cutHere_port q hi hn fun _ => hc, ?_⟩
        rw [hs]
        have hds' : ∀ d ∈ ds, isdigit d = true := fun d hd => hds d (List.mem_cons_of_mem _ hd)
        have hn0 : 0 ≤ n.getD 0 := by
          cases n with
          | none => exact Int.le_refl 0
          | some v => exact (hn v rfl).1
        have hvc := hdec.value_nonneg c hc
        have hmul : 0 ≤ Radix.dec.base * n.getD 0 := Int.mul_nonneg (Int.natCast_nonneg _) hn0
        have hle := hdec.le_valueFrom (n := Radix.dec.base * n.getD 0 + Radix.dec.value c) (by omega) hds'
        have hval : numberValue .dec n [c] = some (Radix.dec.base * n.getD 0 + Radix.dec.value c) :=
          congrArg some (toInt32_eq (by omega) (Int.lt_of_le_of_lt hle hlt))
        rw [hval]
        refine ih _ hds' (fun v hv => ?_) hlt
        obtain rfl := Option.some.inj hv
        exact ⟨by omega, Int.lt_of_le_of_lt hle hlt⟩
    exact hcuts ds none hds nofun hlt

end ReqMachine

end HttpProxy
