import HttpProxy.RequestRuns
import HttpProxy.StartLineForm

/-!
# The machine on what it wrote

A step passes its byte on: it is written, or left unread. The exceptions are the blanks, of which a
run is written as one space when the byte behind it is there, and the mark in front of the headers
(`Echoes`). So a second machine that reads what the first one wrote goes through the same states, at
most one space behind (`Follows`), until the first one writes the mark; and the mark is what the
second one looks for there (`stateAfter_marked`).
-/

namespace HttpProxy

namespace ReqMachine

/-- What a halted machine left unread. -/
def unread (q : ReqMachine) : List Cell :=
  match q.ctl with
  | .halt _ l => l
  | _ => []

/-- The byte was written or left unread. -/
def Keeps (c : UInt8) (r : Out) : Prop := fresh r.2 ++ r.1.unread = [(c, false)]

/-- A step function passes on the byte `c`, or leaves it to the state that a space leads to. -/
inductive Echoes (f : Cell → Out) (c : UInt8) : Prop
  | keeps (h : Keeps c (f (c, false)))
  | spaces (n : AfterSpaces) (silent : (f (SP, false)).2 = []) (ctl : (f (SP, false)).1.ctl = .space n)
      (step : (f (SP, false)).1.step (c, false) = f (c, false))

variable {q : ReqMachine} {c : UInt8}

/-- A machine that stops in front of the byte leaves it unread. -/
theorem keeps_halt {why : Halt} (h : q.ctl = .halt why []) : Keeps c (q.stepHalt (c, false)) := by
  unfold Keeps stepHalt unread
  rw [h]
  rfl

/-- A byte in a format is written, or passed on by what a miss does. -/
theorem keeps_match {format : List UInt8} {i : Nat} {inside : Nat → ReqCtl} {done : ReqMachine}
    {miss : Cell → Out} (hinside : ∀ j, (q.goto (inside j)).unread = []) (hdone : done.unread = [])
    (hmiss : Keeps c (miss (c, false))) :
    Keeps c (q.stepMatch format i inside done miss (c, false)) := by
  unfold ReqMachine.stepMatch HttpProxy.stepMatch
  split
  · unfold Keeps
    split
    · rw [hdone]
      rfl
    · rw [hinside]
      rfl
  · exact hmiss

/-- A byte in a format is passed on when a miss passes it on; a space is a miss. -/
theorem echoes_match {format : List UInt8} {i : Nat} {inside : Nat → ReqCtl} {done : ReqMachine}
    {miss : Cell → Out} (hinside : ∀ j, (q.goto (inside j)).unread = []) (hdone : done.unread = [])
    (hsp : toupper SP ≠ toupper (format.getD i 0)) (hmiss : Echoes miss c) :
    Echoes (q.stepMatch format i inside done miss) c := by
  by_cases hc : toupper c = toupper (format.getD i 0)
  · refine .keeps ?_
    unfold Keeps ReqMachine.stepMatch HttpProxy.stepMatch
    rw [if_pos hc]
    split
    · rw [hdone]
      rfl
    · rw [hinside]
      rfl
  · have hspace : q.stepMatch format i inside done miss (SP, false) = miss (SP, false) := if_neg hsp
    have hbyte : q.stepMatch format i inside done miss (c, false) = miss (c, false) := if_neg hc
    cases hmiss with
    | keeps h => exact .keeps (by rw [hbyte]; exact h)
    | spaces n silent ctl step =>
      exact .spaces n (by rw [hspace]; exact silent) (by rw [hspace]; exact ctl)
        (by rw [hspace, hbyte]; exact step)

/-! ## End of the start line -/

theorem keeps_stepStartLineEnd (i : Nat) : Keeps c (q.stepStartLineEnd i (c, false)) :=
  keeps_match (fun _ => rfl) rfl (keeps_halt rfl)

/-- Behind the version the byte ends the line or is refused. -/
theorem keeps_stepAfterVersion : Keeps c (q.stepAfterVersion (c, false)) := by
  unfold stepAfterVersion
  split
  · exact keeps_halt rfl
  · exact keeps_stepStartLineEnd 0

/-- The digit of the version is written, whatever it is. -/
theorem keeps_stepVersionDigit : Keeps c (q.stepVersionDigit (c, false)) := by
  unfold Keeps stepVersionDigit afterVersion
  simp only
  split <;> rfl

theorem keeps_stepVersion (i : Nat) : Keeps c (q.stepVersion i (c, false)) :=
  keeps_match (fun _ => rfl) rfl keeps_stepAfterVersion

/-- The blanks in front of the version are one space on the way out. -/
theorem echoes_stepSpaceVersion : Echoes q.stepSpaceVersion c := .spaces .version rfl rfl rfl

/-! ## The target -/

/-- A byte of a relative target is written. -/
theorem keeps_stepRelative (hc : isBlank c = false) : Keeps c (q.stepRelative (c, false)) := by
  unfold stepRelative
  rw [if_neg (Bool.eq_false_iff.mp hc)]
  rfl

/-- A blank behind a relative target becomes the space in front of the version. -/
theorem echoes_stepRelative : Echoes q.stepRelative c := by
  cases hc : isBlank c with
  | false => exact .keeps (keeps_stepRelative hc)
  | true =>
    refine .spaces .version rfl rfl ?_
    have hbyte : q.stepRelative (c, false) = q.stepSpaceVersion (c, false) := if_pos hc
    rw [hbyte]
    rfl

/-- In a refused authority the byte is left to the relative target or written. -/
theorem keeps_stepRefused : Keeps c (q.stepRefused (c, false)) := by
  unfold stepRefused
  split
  · exact keeps_halt rfl
  · rfl

/-- Dropping what was taken for a host leaves no byte unread. -/
theorem unread_noHost (place : HostPlace) : (q.noHost place).unread = [] := by
  unfold noHost
  cases place <;> simp only <;> split <;> rfl

/-- Where a host ends its last byte is written or left unread. -/
theorem keeps_stepHostEnd (place : HostPlace) : Keeps c (q.stepHostEnd place (c, false)) := by
  unfold stepHostEnd
  cases place with
  | uri => exact keeps_halt rfl
  | uriHost => exact keeps_halt rfl
  | header =>
    simp only
    split
    · exact keeps_halt rfl
    · split
      · exact keeps_halt rfl
      · exact keeps_halt rfl

/-- A byte of a host is written, also when the host is too long. -/
theorem keeps_stepHost (place : HostPlace) (i : Nat) : Keeps c (q.stepHost place i (c, false)) := by
  unfold stepHost
  simp only
  split
  · unfold Keeps
    split
    · rfl
    · rw [unread_noHost]
      rfl
  · split
    · rfl
    · split
      · rfl
      · exact keeps_stepHostEnd place

/-- A byte that begins no host is part of the target, or the end of the call. -/
theorem echoes_stepNoHost (place : HostPlace) : Echoes (q.stepNoHost place) c := by
  unfold stepNoHost
  cases place with
  | uri =>
    simp only
    split
    · exact .keeps keeps_stepRefused
    · exact echoes_stepRelative
  | uriHost =>
    simp only
    split
    · exact .keeps (keeps_halt rfl)
    · exact echoes_stepSpaceVersion
  | header =>
    simp only
    split
    · exact .keeps (keeps_halt rfl)
    · exact .keeps (keeps_stepHost .header 0)

/-- Behind a port the byte ends the host. -/
theorem keeps_stepPortEnd : Keeps c (q.stepPortEnd (c, false)) := by
  unfold stepPortEnd
  split
  · exact keeps_halt rfl
  · unfold stepNoHost
    simp only
    split
    · exact keeps_halt rfl
    · exact keeps_stepHost .header 0

/-- A byte behind `:` is a digit of the port, or in the target what stands there without one. -/
theorem echoes_stepPort (place : HostPlace) (i : Nat) (n : Option Int) :
    Echoes (q.stepPort place i n) c := by
  cases hc : Radix.dec.isDigit c with
  | true =>
    refine .keeps ?_
    unfold stepPort stepNumber
    rw [if_pos hc]
    rfl
  | false =>
    cases n with
    | some v =>
      refine .keeps ?_
      unfold stepPort stepNumber
      rw [if_neg (Bool.eq_false_iff.mp hc)]
      simp only
      split
      · exact keeps_stepPortEnd
      · exact keeps_halt rfl
    | none =>
      have hmiss : ∀ b, Radix.dec.isDigit b = false →
          q.stepPort place i none (b, false) = q.stepNoHost place (b, false) := by
        intro b hb
        unfold stepPort stepNumber
        rw [if_neg (Bool.eq_false_iff.mp hb)]
      have hspace := hmiss SP (by decide)
      have hbyte := hmiss c hc
      cases echoes_stepNoHost (q := q) (c := c) place with
      | keeps h => exact .keeps (by rw [hbyte]; exact h)
      | spaces n silent ctl step =>
        exact .spaces n (by rw [hspace]; exact silent) (by rw [hspace]; exact ctl)
          (by rw [hspace, hbyte]; exact step)

/-- No byte of a format is a blank. -/
theorem toupper_ne_getD {format : List UInt8} (h : ∀ f ∈ format, toupper SP ≠ toupper f) (i : Nat) :
    toupper SP ≠ toupper (format.getD i 0) := by
  rw [List.getD_eq_getElem?_getD]
  cases hi : format[i]? with
  | none => decide
  | some f => exact h f (List.mem_of_getElem? hi)

theorem echoes_stepUriSep (i : Nat) : Echoes (q.stepUriSep i) c :=
  echoes_match (fun _ => rfl) rfl (toupper_ne_getD (by decide +kernel) i) echoes_stepRelative

theorem echoes_stepUri (i : Nat) : Echoes (q.stepUri i) c :=
  echoes_match (fun _ => rfl) rfl (toupper_ne_getD (by decide +kernel) i) echoes_stepRelative

/-- A byte of `http` in the target is written, as the target is when the scheme is missed. -/
theorem keeps_stepUri (i : Nat) (hc : isBlank c = false) : Keeps c (q.stepUri i (c, false)) :=
  keeps_match (fun _ => rfl) rfl (keeps_stepRelative hc)

/-- The blanks in front of the target are one space on the way out. -/
theorem echoes_stepSpaceUri : Echoes q.stepSpaceUri c := .spaces .uri rfl rfl rfl

/-! ## Headers -/

/-- In the headers every byte is written. -/
theorem keeps_stepHeaders : Keeps c (q.stepHeaders (c, false)) := by
  unfold Keeps stepHeaders
  simp only
  split
  · rfl
  · split <;> rfl

theorem keeps_stepHostName (i : Nat) : Keeps c (q.stepHostName i (c, false)) :=
  keeps_match (fun _ => rfl) rfl keeps_stepHeaders

theorem keeps_stepCr (i : Nat) : Keeps c (q.stepCr i (c, false)) :=
  keeps_match (fun _ => rfl) rfl keeps_stepHeaders

theorem keeps_stepCrlf (i : Nat) : Keeps c (q.stepCrlf i (c, false)) :=
  keeps_match (fun _ => rfl) rfl keeps_stepHeaders

theorem keeps_stepChecked : Keeps c (q.stepChecked (c, false)) := by
  unfold stepChecked
  split
  · exact keeps_halt rfl
  · exact keeps_stepHeaders

/-- A byte of the name in the mark is written. -/
theorem keeps_stepLocalName (i : Nat) : Keeps c (q.stepLocalName i (c, false)) :=
  keeps_match (fun _ => rfl) rfl keeps_stepChecked

/-- In front of the headers `x` is taken for the beginning of the mark, and written. -/
theorem keeps_stepLocalHost (hc : toupper c = 0x58) : Keeps c (q.stepLocalHost (c, false)) := by
  unfold stepLocalHost
  rw [if_neg (not_not.mpr hc)]
  exact keeps_stepLocalName 0

/-! ## The method -/

/-- Going on behind a method leaves no byte unread. -/
theorem unread_afterMethod (m : HttpMethod) : (q.afterMethod m).unread = [] := by
  unfold afterMethod
  simp only
  split <;> rfl

/-- A blank behind a method becomes the space in front of the target. -/
theorem echoes_stepAfterMethod (m : HttpMethod) : Echoes (q.stepAfterMethod m) c := by
  unfold stepAfterMethod
  split
  · exact echoes_stepSpaceUri
  · next hm =>
    refine .keeps (@keeps_halt _ c .rejected ?_)
    unfold afterMethod
    simp only
    rw [if_neg hm]
    rfl

/-- A byte in a method is passed on by the option it belongs to, or by those still to try. The
induction is on these. -/
theorem echoes_stepMethodIn (c' : UInt8) {opts : List (List UInt8 × HttpMethod)}
    (hopts : opts <:+ methodOption) (i : Nat) : Echoes (q.stepMethodIn c' opts i) c := by
  induction opts generalizing i with
  | nil => exact echoes_stepAfterMethod _
  | cons o rest ih =>
    have hnames : ∀ o ∈ methodOption, ∀ f ∈ o.1.tail, toupper SP ≠ toupper f := by decide +kernel
    have hrest := ih ((List.suffix_cons o rest).trans hopts)
    have hname := hnames o (hopts.subset List.mem_cons_self)
    obtain ⟨name, m⟩ := o
    by_cases hc : name.headD 0 = c'
    · have hstep : q.stepMethodIn c' ((name, m) :: rest) i =
          q.stepMatch name.tail i (.methodIn c' ((name, m) :: rest)) (q.afterMethod m)
            (q.stepMethodIn c' rest 0) := by
        funext x
        rw [stepMethodIn, if_pos hc]
      rw [hstep]
      exact echoes_match (fun _ => rfl) (unread_afterMethod m) (toupper_ne_getD hname i) (hrest 0)
    · have hstep : q.stepMethodIn c' ((name, m) :: rest) i = q.stepMethodIn c' rest 0 := by
        funext x
        rw [stepMethodIn, if_neg hc]
      rw [hstep]
      exact hrest 0

/-- The first byte of the request is written. -/
theorem keeps_stepMethod : Keeps c (q.stepMethod (c, false)) := by
  unfold Keeps stepMethod
  simp only
  split
  · rw [unread_afterMethod]
    rfl
  · rfl

/-! ## Any step -/

/-- The step that writes the mark. -/
def Marks (q : ReqMachine) (x : Cell) : Prop := q.ctl = .localHost ∧ toupper x.1 ≠ 0x58

/-- Blanks are dropped; before anything else one space is written. -/
theorem step_space_cases {n : AfterSpaces} (hctl : q.ctl = .space n) (c : UInt8) :
    isBlank c = true ∧ q.step (c, false) = (q, []) ∨
      isBlank c = false ∧ ∃ r : Out, Keeps c r ∧ q.step (c, false) = (r.1, SP :: r.2) := by
  obtain ⟨ctl, d, calls⟩ := q
  cases hctl
  cases hc : isBlank c with
  | true =>
    refine .inl ⟨rfl, ?_⟩
    cases n with
    | uri => exact if_pos hc
    | version => exact if_pos hc
    | host => exact if_pos hc
  | false =>
    have hspace : ∀ {q : ReqMachine} {step : Cell → Out}, Keeps c (step (c, false)) →
        ∃ r : Out, Keeps c r ∧ q.stepSpace n step (c, false) = (r.1, SP :: r.2) :=
      fun h => ⟨_, h, if_neg (Bool.eq_false_iff.mp hc)⟩
    refine .inr ⟨rfl, ?_⟩
    cases n with
    | uri => exact hspace (keeps_stepUri 0 hc)
    | version => exact hspace (keeps_stepVersion 0)
    | host => exact hspace (keeps_stepHost .header 0)

/-- In a method the options still to try are the last ones of the table. -/
theorem suffix_of_methodPlace {c' : UInt8} {opts : List (List UInt8 × HttpMethod)} {i : Nat}
    (h : MethodPlace c' opts i) : opts <:+ methodOption := by
  rcases h.2 with rfl | ⟨-, rfl, -⟩
  · exact List.dropWhile_suffix _
  · decide +kernel

/-- Every step but the one that writes the mark passes its byte on. The cases are the control
states. -/
theorem echoes_step (h : q.Inv) (hlive : ∀ why l, q.ctl ≠ .halt why l) (hmark : ¬q.Marks (c, false)) :
    Echoes q.step c := by
  obtain ⟨ctl, d, calls⟩ := q
  cases ctl with
  | method => exact .keeps keeps_stepMethod
  | methodIn c' opts i => exact echoes_stepMethodIn c' (suffix_of_methodPlace h.2) i
  | space n => cases n <;> exact .spaces _ rfl rfl rfl
  | uri i => exact echoes_stepUri i
  | uriSep i => exact echoes_stepUriSep i
  | host place i => exact .keeps (keeps_stepHost place i)
  | port place i n => exact echoes_stepPort place i n
  | portEnd => exact .keeps keeps_stepPortEnd
  | relative => exact echoes_stepRelative
  | refused => exact .keeps keeps_stepRefused
  | version i => exact .keeps (keeps_stepVersion i)
  | versionDigit => exact .keeps keeps_stepVersionDigit
  | startLineEnd i => exact .keeps (keeps_stepStartLineEnd i)
  | localHost => exact .keeps (keeps_stepLocalHost (not_not.mp fun hc => hmark ⟨rfl, hc⟩))
  | localName i => exact .keeps (keeps_stepLocalName i)
  | headers => exact .keeps keeps_stepHeaders
  | hostName i => exact .keeps (keeps_stepHostName i)
  | cr i => exact .keeps (keeps_stepCr i)
  | crlf i => exact .keeps (keeps_stepCrlf i)
  | halt why l => exact absurd rfl (hlive why l)

/-! ## What a run leaves and writes -/

/-- What a step that keeps its byte writes and leaves is no other byte. -/
theorem Keeps.bounds {r : Out} (h : Keeps c r) : r.1.unread <:+ [(c, false)] ∧ ∀ x ∈ r.2, x = c := by
  refine ⟨⟨fresh r.2, h⟩, fun x hx => ?_⟩
  have hmem : (x, false) ∈ fresh r.2 ++ r.1.unread := List.mem_append_left _ (List.mem_map_of_mem hx)
  unfold Keeps at h
  rw [h, List.mem_singleton] at hmem
  exact congrArg Prod.fst hmem

/-- A step leaves at most its byte unread, and writes no zero byte of its own. -/
theorem step_bounds (h : q.Inv) :
    (q.step (c, false)).1.unread <:+ q.unread ++ [(c, false)] ∧ (c ≠ 0 → 0 ∉ (q.step (c, false)).2) := by
  have hkeeps : ∀ {r : Out}, Keeps c r → ∀ e, 0 ∉ e →
      r.1.unread <:+ q.unread ++ [(c, false)] ∧ (c ≠ 0 → 0 ∉ e ++ r.2) := by
    intro r hr e he
    obtain ⟨hunread, hout⟩ := hr.bounds
    refine ⟨hunread.trans (List.suffix_append _ _), fun hc h0 => ?_⟩
    rcases List.mem_append.mp h0 with h0 | h0
    · exact he h0
    · exact hc (hout 0 h0).symm
  have hspace : ∀ {q' : ReqMachine} {n : AfterSpaces}, q'.ctl = .space n →
      (q'.step (c, false)).1.unread <:+ q.unread ++ [(c, false)] ∧ (c ≠ 0 → 0 ∉ (q'.step (c, false)).2) := by
    intro q' n hctl
    rcases step_space_cases hctl c with ⟨-, hstep⟩ | ⟨-, r, hr, hstep⟩
    · rw [hstep]
      unfold unread
      rw [hctl]
      exact ⟨List.nil_suffix, fun _ => List.not_mem_nil⟩
    · rw [hstep]
      exact hkeeps hr [SP] (by decide)
  by_cases hlive : ∀ why l, q.ctl ≠ .halt why l
  · by_cases hmark : q.Marks (c, false)
    · have hstep : q.step (c, false) =
          ((q.stepChecked (c, false)).1, lit "X-LOCALHOST: TRUE\r\n" ++ (q.stepChecked (c, false)).2) := by
        unfold ReqMachine.step
        rw [hmark.1]
        exact if_pos hmark.2
      rw [hstep]
      exact hkeeps keeps_stepChecked (lit "X-LOCALHOST: TRUE\r\n") (by decide +kernel)
    · cases echoes_step h hlive hmark with
      | keeps hr => exact hkeeps hr [] List.not_mem_nil
      | spaces n silent ctl step =>
        rw [← step]
        exact hspace ctl
  · push Not at hlive
    obtain ⟨why, l, hctl⟩ := hlive
    unfold ReqMachine.step unread
    rw [hctl]
    unfold stepHalt
    simp only [hctl]
    exact ⟨List.suffix_rfl, fun _ => List.not_mem_nil⟩

/-- In a run nothing but what was read is left unread, and no zero byte is written that was not
read. -/
theorem run_bounds (u : List UInt8) (h : q.Inv) :
    (reqMachine.stateAfter q (fresh u)).unread <:+ q.unread ++ fresh u ∧
      (0 ∉ u → 0 ∉ reqMachine.emitted q (fresh u)) := by
  induction u generalizing q with
  | nil =>
    rw [fresh_nil, List.append_nil]
    exact ⟨List.suffix_rfl, id⟩
  | cons c u ih =>
    obtain ⟨hunread, hout⟩ := step_bounds (c := c) h
    obtain ⟨hunread', hout'⟩ := ih (inv_step h)
    rw [fresh_cons, Transducer.stateAfter_cons, Transducer.emitted_cons, List.mem_append, not_or]
    constructor
    · obtain ⟨p, hp⟩ := hunread
      refine hunread'.trans ⟨p, ?_⟩
      rw [← List.append_assoc, hp, List.append_assoc]
      rfl
    · intro hz
      rw [List.mem_cons, not_or] at hz
      exact ⟨hout (Ne.symm hz.1), hout' hz.2⟩

/-! ## The way through the headers -/

/-- Control states behind the check for the mark. -/
def Past : ReqCtl → Prop
  | .localName _ | .headers | .hostName _ | .cr _ | .crlf _ | .space .host | .host .header _
  | .port .header _ _ | .portEnd | .halt _ _ => True
  | _ => False

section Past

variable {x : Cell}

/-- A machine that stops stays behind the mark. -/
theorem past_halt {why : Halt} (h : q.ctl = .halt why []) : Past (q.stepHalt x).1.ctl := by
  unfold stepHalt
  rw [h]
  trivial

/-- A step in a format stays behind the mark when its two ends do. -/
theorem past_match {format : List UInt8} {i : Nat} {inside : Nat → ReqCtl} {done : ReqMachine}
    {miss : Cell → Out} (hinside : ∀ j, Past (inside j)) (hdone : Past done.ctl) (hmiss : Past (miss x).1.ctl) :
    Past (q.stepMatch format i inside done miss x).1.ctl := by
  unfold ReqMachine.stepMatch HttpProxy.stepMatch
  split
  · split
    · exact hdone
    · exact hinside _
  · exact hmiss

theorem past_stepHeaders : Past (q.stepHeaders x).1.ctl := by
  unfold stepHeaders goto
  simp only
  split
  · trivial
  · split <;> trivial

theorem past_stepChecked : Past (q.stepChecked x).1.ctl := by
  unfold stepChecked
  split
  · exact past_halt rfl
  · exact past_stepHeaders

/-- Looking for the mark leads behind it, whether it is there or not. -/
theorem past_stepLocalHost : Past (q.stepLocalHost x).1.ctl := by
  unfold stepLocalHost
  split
  · exact past_stepChecked
  · exact past_match (fun _ => trivial) trivial past_stepChecked

/-- A host in the headers leads to no state in front of the mark. -/
theorem past_stepHost (i : Nat) : Past (q.stepHost .header i x).1.ctl := by
  unfold stepHost stepHostEnd noHost
  simp only
  split
  · split
    · trivial
    · split <;> trivial
  · split
    · trivial
    · split
      · trivial
      · split
        · exact past_halt rfl
        · split
          · exact past_halt rfl
          · exact past_halt rfl

theorem past_stepNoHost : Past (q.stepNoHost .header x).1.ctl := by
  unfold stepNoHost
  simp only
  split
  · exact past_halt rfl
  · exact past_stepHost 0

theorem past_stepPortEnd : Past (q.stepPortEnd x).1.ctl := by
  unfold stepPortEnd
  split
  · exact past_halt rfl
  · exact past_stepNoHost

theorem past_stepPort (i : Nat) (n : Option Int) : Past (q.stepPort .header i n x).1.ctl := by
  unfold stepPort stepNumber
  split
  · trivial
  · cases n with
    | some v => exact past_stepPortEnd
    | none => exact past_stepNoHost

/-- No step leads back in front of the mark. -/
theorem past_step (h : Past q.ctl ∨ q.ctl = .localHost) : Past (q.step x).1.ctl := by
  obtain ⟨ctl, d, calls⟩ := q
  rcases h with h | rfl
  · cases ctl with
    | space n =>
      cases n with
      | host =>
        change Past (stepSpace _ .host _ x).1.ctl
        unfold stepSpace
        split
        · trivial
        · exact past_stepHost 0
      | uri => exact absurd h id
      | version => exact absurd h id
    | host place i =>
      cases place with
      | header => exact past_stepHost i
      | uri => exact absurd h id
      | uriHost => exact absurd h id
    | port place i n =>
      cases place with
      | header => exact past_stepPort i n
      | uri => exact absurd h id
      | uriHost => exact absurd h id
    | portEnd => exact past_stepPortEnd
    | localName i => exact past_match (fun _ => trivial) trivial past_stepChecked
    | headers => exact past_stepHeaders
    | hostName i => exact past_match (fun _ => trivial) trivial past_stepHeaders
    | cr i => exact past_match (fun _ => trivial) trivial past_stepHeaders
    | crlf i => exact past_match (fun _ => trivial) trivial past_stepHeaders
    | halt why l => trivial
    | _ => exact absurd h id
  · exact past_stepLocalHost

/-- No run leads back in front of the mark: `past_step` along it. -/
theorem past_run (l : List Cell) (h : Past q.ctl) : Past (reqMachine.stateAfter q l).ctl := by
  induction l generalizing q with
  | nil => exact h
  | cons x l ih => exact ih (past_step (.inl h))

/-- The check for the mark is come to once. -/
theorem localHost_once {l l' : List Cell} (h : (reqMachine.stateAfter q l).ctl = .localHost)
    (h' : (reqMachine.stateAfter q (l ++ l')).ctl = .localHost) : l' = [] := by
  cases l' with
  | nil => rfl
  | cons x l' =>
    rw [Transducer.stateAfter_append, Transducer.stateAfter_cons] at h'
    have hpast : Past (reqMachine.stateAfter (reqMachine.step (reqMachine.stateAfter q l) x).1 l').ctl :=
      past_run l' (past_step (.inr h))
    rw [h'] at hpast
    exact absurd hpast id

/-- What is behind it is known from the bytes. -/
theorem eq_behind_localHost {u u' v v' : List UInt8} (h : u ++ v = u' ++ v')
    (hu : (reqMachine.stateAfter q (fresh u)).ctl = .localHost)
    (hu' : (reqMachine.stateAfter q (fresh u')).ctl = .localHost) : v = v' := by
  rcases List.append_eq_append_iff.mp h with ⟨w, rfl, rfl⟩ | ⟨w, rfl, rfl⟩
  · rw [fresh_append] at hu'
    rw [List.map_eq_nil_iff.mp (localHost_once hu hu'), List.nil_append]
  · rw [fresh_append] at hu
    rw [List.map_eq_nil_iff.mp (localHost_once hu' hu), List.nil_append]

end Past

/-! ## The way to the headers -/

/-- A step that does not come to the check for the mark. -/
def Off (r : Out) : Prop := r.1.ctl ≠ .localHost

section Off

variable {x : Cell}

/-- Behind the mark a step does not come to the check for it. -/
theorem off_of_past {r : Out} (h : Past r.1.ctl) : Off r := by
  intro hctl
  rw [hctl] at h
  exact h

theorem off_halt {why : Halt} (h : q.ctl = .halt why []) : Off (q.stepHalt x) := by
  unfold Off stepHalt
  rw [h]
  exact nofun

/-- A step in a format comes to the check only with its last byte. -/
theorem off_match {format : List UInt8} {i : Nat} {inside : Nat → ReqCtl} {done : ReqMachine}
    {miss : Cell → Out} (hinside : ∀ j, inside j ≠ .localHost) (hdone : done.ctl ≠ .localHost)
    (hmiss : Off (miss x)) : Off (q.stepMatch format i inside done miss x) := by
  unfold ReqMachine.stepMatch HttpProxy.stepMatch
  split
  · unfold Off
    split
    · exact hdone
    · exact hinside _
  · exact hmiss

theorem off_space {n : AfterSpaces} {step : Cell → Out} (h : Off (step x)) : Off (q.stepSpace n step x) := by
  unfold stepSpace
  split
  · exact nofun
  · exact h

/-- Only the LF at the end of the start line comes to the check. -/
theorem off_stepStartLineEnd {i : Nat} (hi : i < 2) (hx : i = 0 ∨ x.1 ≠ LF) : Off (q.stepStartLineEnd i x) := by
  unfold stepStartLineEnd ReqMachine.stepMatch HttpProxy.stepMatch
  split
  · next hc =>
    have h0 : i = 0 := by
      refine hx.elim id fun hne => Nat.lt_one_iff.mp (Nat.lt_of_le_of_ne (Nat.le_of_lt_succ hi) ?_)
      rintro rfl
      exact hne (toupper_eq_lf.mp hc)
    subst h0
    exact nofun
  · exact off_halt rfl

theorem off_stepAfterVersion : Off (q.stepAfterVersion x) := by
  unfold stepAfterVersion
  split
  · exact off_halt rfl
  · exact off_stepStartLineEnd (by decide) (.inl rfl)

theorem off_stepVersion (i : Nat) : Off (q.stepVersion i x) :=
  off_match (fun _ => nofun) nofun off_stepAfterVersion

theorem off_stepVersionDigit : Off (q.stepVersionDigit x) := by
  unfold Off stepVersionDigit afterVersion
  simp only
  split <;> exact nofun

theorem off_stepSpaceVersion : Off (q.stepSpaceVersion x) := off_space (off_stepVersion 0)

theorem off_stepRelative : Off (q.stepRelative x) := by
  unfold stepRelative
  split
  · exact off_stepSpaceVersion
  · exact nofun

theorem off_stepRefused : Off (q.stepRefused x) := by
  unfold stepRefused
  split
  · exact off_halt rfl
  · exact nofun

/-- What stands in the place of a host does not lead to the check for the mark. -/
theorem off_stepNoHost (place : HostPlace) : Off (q.stepNoHost place x) := by
  cases place with
  | uri =>
    unfold stepNoHost
    simp only
    split
    · exact off_stepRefused
    · exact off_stepRelative
  | uriHost =>
    unfold stepNoHost
    simp only
    split
    · exact off_halt rfl
    · exact off_stepSpaceVersion
  | header => exact off_of_past (past_stepNoHost (q := q))

theorem off_noHost (place : HostPlace) : (q.noHost place).ctl ≠ .localHost := by
  unfold noHost
  cases place <;> simp only <;> split <;> exact nofun

/-- A byte of a host does not lead to the check for the mark. -/
theorem off_stepHost (place : HostPlace) (i : Nat) : Off (q.stepHost place i x) := by
  unfold stepHost stepHostEnd Off
  simp only
  split
  · split
    · exact nofun
    · exact off_noHost place
  · split
    · exact nofun
    · split
      · exact nofun
      · cases place with
        | uri => exact off_halt rfl
        | uriHost => exact off_halt rfl
        | header =>
          simp only
          split
          · exact off_halt rfl
          · split <;> exact off_halt rfl

/-- A digit of a port does not lead to the check for the mark. -/
theorem off_stepPort (place : HostPlace) (i : Nat) (n : Option Int) : Off (q.stepPort place i n x) := by
  unfold stepPort stepNumber
  split
  · exact nofun
  · cases n with
    | none => exact off_stepNoHost place
    | some v =>
      simp only
      split
      · exact off_of_past past_stepPortEnd
      · exact off_halt rfl

theorem off_stepUriSep (i : Nat) : Off (q.stepUriSep i x) := off_match (fun _ => nofun) nofun off_stepRelative

theorem off_stepUri (i : Nat) : Off (q.stepUri i x) := off_match (fun _ => nofun) nofun off_stepRelative

theorem off_stepSpaceUri : Off (q.stepSpaceUri x) := off_space (off_stepUri 0)

theorem off_afterMethod (m : HttpMethod) : (q.afterMethod m).ctl ≠ .localHost := by
  unfold afterMethod
  simp only
  split <;> exact nofun

theorem off_stepAfterMethod (m : HttpMethod) : Off (q.stepAfterMethod m x) := by
  unfold stepAfterMethod
  split
  · exact off_stepSpaceUri
  · next hm =>
    refine @off_halt _ _ .rejected ?_
    unfold afterMethod
    simp only
    rw [if_neg hm]
    rfl

/-- A byte of a method does not lead to the check for the mark. The induction is on the methods still
to try. -/
theorem off_stepMethodIn (c : UInt8) (opts : List (List UInt8 × HttpMethod)) (i : Nat) :
    Off (q.stepMethodIn c opts i x) := by
  induction opts generalizing i with
  | nil => exact off_stepAfterMethod _
  | cons o rest ih =>
    unfold stepMethodIn
    split
    · exact off_match (fun _ => ReqCtl.noConfusion) (off_afterMethod o.2) (ih 0)
    · exact ih 0

theorem off_stepMethod : Off (q.stepMethod x) := by
  unfold Off stepMethod
  simp only
  split
  · exact off_afterMethod _
  · exact nofun

end Off

/-- The check for the mark is come to with the LF of the start line. -/
theorem lf_of_localHost {x : Cell} (hq : q.Inv) (h : (q.step x).1.ctl = .localHost) : x.1 = LF := by
  by_contra hx
  refine absurd h ?_
  obtain ⟨ctl, d, calls⟩ := q
  cases ctl with
  | method => exact off_stepMethod
  | methodIn c opts i => exact off_stepMethodIn c opts i
  | space n =>
    cases n with
    | uri => exact off_stepSpaceUri
    | version => exact off_stepSpaceVersion
    | host => exact off_space (off_stepHost .header 0)
  | uri i => exact off_stepUri i
  | uriSep i => exact off_stepUriSep i
  | host place i => exact off_stepHost place i
  | port place i n => exact off_stepPort place i n
  | relative => exact off_stepRelative
  | refused => exact off_stepRefused
  | version i => exact off_stepVersion i
  | versionDigit => exact off_stepVersionDigit
  | startLineEnd i => exact off_stepStartLineEnd hq.2 (.inr hx)
  | halt why l => exact nofun
  | localHost => exact off_of_past (past_step (.inr rfl))
  | localName | headers | hostName | cr | crlf | portEnd =>
    refine off_of_past (past_step (.inl ?_))
    trivial

/-- On the way to the check an LF was read. -/
theorem lf_mem_of_localHost {u : List UInt8} (hq : q.Inv) (hctl : q.ctl ≠ .localHost)
    (h : (reqMachine.stateAfter q (fresh u)).ctl = .localHost) : LF ∈ u := by
  induction u generalizing q with
  | nil => exact absurd h hctl
  | cons c u ih =>
    by_cases hstep : (q.step (c, false)).1.ctl = .localHost
    · rw [← lf_of_localHost hq hstep]
      exact List.mem_cons_self
    · exact List.mem_cons_of_mem c (ih (inv_step hq) hstep h)

/-! ## The second machine -/

/-- Where a machine `q₂` that read what another wrote is when that is in `q`: in the same state, or in
front of the space in it; and when that has halted, what it left unread is still to come. -/
inductive Follows (q₂ : ReqMachine) : ReqMachine → Prop
  | same (live : ∀ why l, q₂.ctl ≠ .halt why l) : Follows q₂ q₂
  | behind {q : ReqMachine} {n : AfterSpaces} (ctl : q.ctl = .space n)
      (step : (q₂.step (SP, false)).1 = q) : Follows q₂ q
  | halted {q : ReqMachine} {why : Halt} {l : List Cell} (ctl : q.ctl = .halt why l)
      (after : reqMachine.stateAfter q₂ l = q) : Follows q₂ q

variable {q₂ : ReqMachine}

/-- When the second machine comes to where the first one is, it is in the same state, or both have
halted. -/
theorem follows_of_append {e : List UInt8}
    (h : reqMachine.stateAfter q₂ (fresh e ++ q.unread) = q) :
    Follows (reqMachine.stateAfter q₂ (fresh e)) q := by
  rw [Transducer.stateAfter_append] at h
  by_cases hlive : ∀ why l, q.ctl ≠ .halt why l
  · have hunread : q.unread = [] := by
      unfold unread
      split
      · next hctl => exact absurd hctl (hlive _ _)
      · rfl
    rw [hunread, Transducer.stateAfter_nil] at h
    rw [h]
    exact .same hlive
  · push Not at hlive
    obtain ⟨why, l, hctl⟩ := hlive
    have hunread : q.unread = l := by
      unfold unread
      rw [hctl]
    rw [hunread] at h
    exact .halted hctl h

/-- Out of blanks the second machine is caught up: the space and the byte are written together. -/
theorem follows_space {n : AfterSpaces} (hctl : q.ctl = .space n) (h : (q₂.step (SP, false)).1 = q)
    (c : UInt8) :
    Follows (reqMachine.stateAfter q₂ (fresh (q.step (c, false)).2)) (q.step (c, false)).1 := by
  rcases step_space_cases hctl c with ⟨-, hstep⟩ | ⟨-, r, hkeeps, hstep⟩
  · rw [hstep]
    exact .behind hctl h
  · refine follows_of_append ?_
    have hfirst : (reqMachine.step q₂ (SP, false)).1 = q := h
    unfold Keeps at hkeeps
    rw [hstep, fresh_cons, List.cons_append, hkeeps, Transducer.stateAfter_cons, hfirst,
      Transducer.stateAfter_cons, Transducer.stateAfter_nil]
    exact congrArg Prod.fst hstep

/-- The second machine reads what the first one writes in a step. -/
theorem follows_step (hq : q.Inv) (hmark : ¬q.Marks (c, false)) (h : Follows q₂ q) :
    Follows (reqMachine.stateAfter q₂ (fresh (q.step (c, false)).2)) (q.step (c, false)).1 := by
  cases h with
  | same live =>
    cases echoes_step hq live hmark with
    | keeps hkeeps =>
      refine follows_of_append ?_
      rw [hkeeps]
      rfl
    | spaces n silent ctl step =>
      rw [← step]
      exact follows_space ctl rfl c
  | behind ctl step => exact follows_space ctl step c
  | @halted _ why l ctl after =>
    have hstep : q.step (c, false) = (q.goto (.halt why (l ++ [(c, false)])), []) := by
      unfold ReqMachine.step
      rw [ctl]
      unfold stepHalt
      rw [ctl]
    have hafter : reqMachine.stateAfter q₂ (l ++ [(c, false)]) = (q.step (c, false)).1 := by
      rw [Transducer.stateAfter_append, after]
      rfl
    rw [hstep] at hafter ⊢
    exact .halted rfl hafter

/-- The second machine follows the first one over a run that writes no mark. One step is by
`echoes_step`: the byte is passed on, or the space in front of it is still to come. -/
theorem follows_run (u : List UInt8) (hq : q.Inv)
    (hmarks : reqMachine.Along (fun q x => ¬q.Marks x) q (fresh u)) (h : Follows q₂ q) :
    Follows (reqMachine.stateAfter q₂ (fresh (reqMachine.emitted q (fresh u))))
      (reqMachine.stateAfter q (fresh u)) := by
  induction u generalizing q q₂ with
  | nil => exact h
  | cons c u ih =>
    have hstep := ih (inv_step hq) hmarks.2 (follows_step hq hmarks.1 h)
    rw [← Transducer.stateAfter_append, ← fresh_append] at hstep
    exact hstep

/-- The mark is read. -/
theorem stateAfter_mark (hctl : q.ctl = .localHost) :
    reqMachine.stateAfter q (fresh (lit "X-LOCALHOST:")) =
      accept { q with d := { q.d with isLocalHost := true } } := by
  obtain ⟨ctl, d, calls⟩ := q
  cases hctl
  rfl

/-- A second machine that comes to the mark accepts the request as one of the proxy's own. -/
theorem stateAfter_marked {u v : List UInt8} {c : UInt8} (hq : q.Inv)
    (hmarks : reqMachine.Along (fun q x => ¬q.Marks x) q (fresh u))
    (hmark : (reqMachine.stateAfter q (fresh u)).Marks (c, false)) (h : Follows q₂ q) (l : List Cell) :
    ∃ unread, (reqMachine.stateAfter q₂
        (fresh (reqMachine.emitted q (fresh (u ++ c :: v))) ++ l)).ctl = .halt .accepted unread ∧
      (reqMachine.stateAfter q₂
        (fresh (reqMachine.emitted q (fresh (u ++ c :: v))) ++ l)).d.isLocalHost = true := by
  have hfollows := follows_run u hq hmarks h
  obtain ⟨hctl, hc⟩ := hmark
  generalize hq₁ : reqMachine.stateAfter q (fresh u) = q₁ at hfollows hctl hc
  have hsame : reqMachine.stateAfter q₂ (fresh (reqMachine.emitted q (fresh u))) = q₁ := by
    cases hfollows with
    | same => rfl
    | behind ctl => cases hctl.symm.trans ctl
    | halted ctl => cases hctl.symm.trans ctl
  have hstep : reqMachine.step q₁ (c, false) = q₁.stepLocalHost (c, false) := by
    change q₁.step (c, false) = _
    unfold ReqMachine.step
    rw [hctl]
  have hemit : ∃ e, reqMachine.emitted q (fresh (u ++ c :: v)) =
      reqMachine.emitted q (fresh u) ++ (lit "X-LOCALHOST:" ++ e) := by
    rw [fresh_append, Transducer.emitted_append, hq₁, fresh_cons, Transducer.emitted_cons, hstep]
    unfold stepLocalHost
    rw [if_pos hc]
    refine ⟨lit " TRUE\r\n" ++ ((q₁.stepChecked (c, false)).2 ++
      reqMachine.emitted (q₁.stepChecked (c, false)).1 (fresh v)), ?_⟩
    rw [← List.append_assoc (lit "X-LOCALHOST:")]
    exact congrArg _ (List.append_assoc _ _ _)
  obtain ⟨e, he⟩ := hemit
  rw [he, fresh_append, List.append_assoc, Transducer.stateAfter_append, hsame, fresh_append,
    List.append_assoc, Transducer.stateAfter_append, stateAfter_mark hctl]
  have hhalt := run_halt .accepted [] { q₁.d with isLocalHost := true }
    (q₁.calls ++ [(cString q₁.d.host, q₁.d.port)]) (fresh e ++ l)
  unfold accept Transducer.stateAfter
  rw [hhalt]
  exact ⟨_, rfl, rfl⟩

/-- The machine writes the mark on its way through `l`. -/
def Marked (q : ReqMachine) (l : List UInt8) : Prop :=
  ∃ u c v, l = u ++ c :: v ∧ (reqMachine.stateAfter q (fresh u)).Marks (c, false)

/-- Where a list of bytes is cut in its cells it is cut as bytes. -/
theorem fresh_eq_append {l : List UInt8} {as bs : List Cell} {x : Cell} (h : fresh l = as ++ x :: bs) :
    ∃ u c v, l = u ++ c :: v ∧ as = fresh u ∧ x = (c, false) ∧ bs = fresh v := by
  obtain ⟨u, v, rfl, hu, hv⟩ := List.map_eq_append_iff.mp h
  obtain ⟨c, v, rfl, hc, hv⟩ := List.map_eq_cons_iff.mp hv
  exact ⟨u, c, v, rfl, hu.symm, hc.symm, hv.symm⟩

/-- Up to the mark none is written. -/
theorem along_marks {u : List UInt8} {c : UInt8} (hmark : (reqMachine.stateAfter q (fresh u)).Marks (c, false)) :
    reqMachine.Along (fun q x => ¬q.Marks x) q (fresh u) := by
  rw [Transducer.along_iff]
  intro as x bs hu hx
  have hctl := hmark.1
  rw [hu] at hctl
  exact List.cons_ne_nil _ _ (localHost_once hx.1 hctl)

/-- What comes back to a machine that accepted a request is accepted, and taken for one of the proxy's own
just if the first machine wrote the mark. -/
theorem second_pass {l : List UInt8} {unread : List Cell} (hq : q.Inv) (hlive : ∀ why l, q.ctl ≠ .halt why l)
    (hctl : (reqMachine.stateAfter q (fresh l)).ctl = .halt .accepted unread)
    (hlocal : (reqMachine.stateAfter q (fresh l)).d.isLocalHost = false) :
    (∃ unread', (reqMachine.stateAfter q (fresh (reqMachine.emitted q (fresh l)) ++ unread)).ctl =
        .halt .accepted unread') ∧
      ((reqMachine.stateAfter q (fresh (reqMachine.emitted q (fresh l)) ++ unread)).d.isLocalHost = true ↔
        q.Marked l) := by
  by_cases hmarked : q.Marked l
  · obtain ⟨u, c, v, rfl, hmark⟩ := id hmarked
    obtain ⟨unread', hctl', hlocal'⟩ := stateAfter_marked hq (along_marks hmark) hmark (.same hlive) unread
    exact ⟨⟨unread', hctl'⟩, iff_of_true hlocal' hmarked⟩
  · have halong : reqMachine.Along (fun q x => ¬q.Marks x) q (fresh l) := by
      rw [Transducer.along_iff]
      intro as x bs hl hx
      obtain ⟨u, c, v, hsplit, rfl, rfl, -⟩ := fresh_eq_append hl
      exact hmarked ⟨u, c, v, hsplit, hx⟩
    have hafter : reqMachine.stateAfter q (fresh (reqMachine.emitted q (fresh l)) ++ unread) =
        reqMachine.stateAfter q (fresh l) := by
      rw [Transducer.stateAfter_append]
      have hfollows := follows_run l hq halong (.same hlive)
      generalize reqMachine.stateAfter q (fresh l) = q₁ at hctl hfollows
      cases hfollows with
      | same live => exact absurd hctl (live _ _)
      | behind ctl => cases hctl.symm.trans ctl
      | halted ctl after =>
        obtain rfl := (ReqCtl.halt.inj (hctl.symm.trans ctl)).2
        exact after
    rw [hafter, hlocal]
    exact ⟨⟨unread, hctl⟩, iff_of_false Bool.false_ne_true hmarked⟩

end ReqMachine

end HttpProxy
