import HttpProxy.RequestMachine
import Mathlib.Data.List.TakeWhile

/-!
# Where the request parser rests

Between calls the parser keeps of the machine's state only its parser state and the bytes it
pushed back. `run_restart` says that this suffices: the machine started again in the parser state
comes back, over the bytes pushed back and without writing anything, to the state it was in, up to
two things it forgets (`ReqMachine.resumed`): that a host in the target was begun by the same call
that read `http://`, and that a port had no digits yet, which it takes for a zero.

`ReqMachine.Inv` is what the machine's states hold for this.
-/

namespace HttpProxy

open ReqMachine (optionsFor)

/-! ## The invariant of the machine -/

/-- A place inside a method: the option is the first for its first byte, or it is `PUT` after
`POST` missed. -/
def MethodPlace (c : UInt8) (opts : List (List UInt8 × HttpMethod)) (i : Nat) : Prop :=
  i < (opts.headD ([], .UNDEFINED_M)).1.tail.length ∧
    (opts = optionsFor c methodOption ∨
      c = 0x50 ∧ opts = [(lit "PUT", .PUT), (lit "TRACE", .TRACE)] ∧ 0 < i)

/-- The first `i` bytes of the host array are those of a host. -/
def HostPrefix (d : RequestFields) (i : Nat) : Prop :=
  i < HOST_MAX_SIZE ∧ ∀ c ∈ d.host.toList.take i, isHostChar c = true

def ReqCtl.Bounded (d : RequestFields) : ReqCtl → Prop
  | .methodIn c opts i => MethodPlace c opts i
  | .uri i => i < (lit "HTTP").length
  | .uriSep i => i < (lit "://").length
  | .host _ i => HostPrefix d i
  | .port _ i n => HostPrefix d i ∧ ∀ v, n = some v → v < 2 ^ 31
  | .version i => i < (lit "HTTP/1.").length
  | .startLineEnd i | .crlf i => i < [CR, LF].length
  | .localName i => 0 < i ∧ i < (lit "X-LOCALHOST:").length
  | .hostName i => i < (lit "OST:").length
  | .cr i => i < [LF].length
  | .method | .space _ | .portEnd | .relative | .refused | .versionDigit | .localHost | .headers
  | .halt _ _ => True

/-- A request that is neither accepted nor rejected yet. -/
structure ReqMachine.Live (q : ReqMachine) : Prop where
  version : q.d.version ≠ .undefined
  state : q.d.state = .OK
  calls : q.calls = []

def ReqMachine.Inv (q : ReqMachine) : Prop :=
  match q.ctl with
  | .halt .stalled _ => q.Live
  | .halt .accepted _ => q.d.state = .OK
  | .halt _ _ => True
  | ctl => q.Live ∧ ctl.Bounded q.d

namespace ReqMachine

/-- Going to another control state writes no field. -/
theorem Live.goto {q : ReqMachine} (h : q.Live) (ctl : ReqCtl) : (q.goto ctl).Live :=
  ⟨h.version, h.state, h.calls⟩

/-- A live machine keeps the invariant where the place it goes to is a place inside its format. -/
theorem Live.inv {q : ReqMachine} (h : q.Live) {ctl : ReqCtl} (hb : ctl.Bounded q.d) :
    (q.goto ctl).Inv := by
  unfold Inv
  split
  · exact h.goto ctl
  · exact h.state
  · trivial
  · next hctl => exact ⟨h.goto ctl, hb⟩

theorem Live.goto_inv {q : ReqMachine} (h : q.Live) (ctl : ReqCtl) (hb : ctl.Bounded q.d) :
    (q.goto ctl).Inv := h.inv hb

/-- A machine that rejected the request has nothing more to keep. -/
theorem inv_reject (q : ReqMachine) (e : RequestErr) (x : Cell) :
    ((q.reject e).stepHalt x).1.Inv := trivial

/-- A machine that accepted the request keeps that it found no error. -/
theorem inv_accept {q : ReqMachine} (hq : q.Live) (x : Cell) : (q.accept.stepHalt x).1.Inv := hq.state

/-- A step in a format stays inside it, completes it or misses it. -/
theorem inv_stepMatch {q : ReqMachine} {format : List UInt8} {i : Nat} {inside : Nat → ReqCtl}
    {done : ReqMachine} {miss : Cell → Out} {x : Cell} (hi : i < format.length) (hq : q.Live)
    (hinside : ∀ j < format.length, 0 < j → (inside j).Bounded q.d) (hdone : done.Inv)
    (hmiss : (miss x).1.Inv) : (q.stepMatch format i inside done miss x).1.Inv := by
  unfold ReqMachine.stepMatch HttpProxy.stepMatch
  split
  · split
    · exact hdone
    · next hne => exact hq.inv (hinside (i + 1) (by omega) (Nat.succ_pos i))
  · exact hmiss

/-- A step through blanks stays, or is the step behind them. -/
theorem inv_stepSpace {q : ReqMachine} {n : AfterSpaces} {step : Cell → Out} {x : Cell}
    (hq : q.Live) (h : (step x).1.Inv) : (q.stepSpace n step x).1.Inv := by
  unfold ReqMachine.stepSpace
  split
  · exact hq.inv trivial
  · exact h

/-! ### One lemma for each step function -/

variable {q : ReqMachine} {x : Cell}

theorem inv_stepStartLineEnd (hq : q.Live) {i : Nat} (hi : i < [CR, LF].length) :
    (q.stepStartLineEnd i x).1.Inv :=
  inv_stepMatch hi hq (fun _ hj _ => hj) (hq.inv trivial) (inv_reject _ _ _)

theorem inv_stepAfterVersion (hq : q.Live) : (q.stepAfterVersion x).1.Inv := by
  unfold stepAfterVersion
  rw [if_neg hq.version]
  exact inv_stepStartLineEnd hq (Nat.zero_lt_succ _)

/-- A version that is none rejects the request, and any other goes on to the end of the line. -/
theorem inv_afterVersion (hq : q.Live) : q.afterVersion.Inv := by
  unfold afterVersion
  rw [if_neg hq.version]
  exact hq.inv (Nat.zero_lt_succ _)

/-- The digit of the version sets it, or leaves what an earlier call preset. -/
theorem inv_stepVersionDigit (hq : q.Live) : (q.stepVersionDigit x).1.Inv := by
  refine inv_afterVersion ⟨?_, hq.state, hq.calls⟩
  unfold setVersion
  simp only
  split
  · decide
  · split
    · decide
    · exact hq.version

theorem inv_stepVersion (hq : q.Live) {i : Nat} (hi : i < (lit "HTTP/1.").length) :
    (q.stepVersion i x).1.Inv :=
  inv_stepMatch hi hq (fun _ hj _ => hj) (hq.inv trivial) (inv_stepAfterVersion hq)

theorem inv_stepSpaceVersion (hq : q.Live) : (q.stepSpaceVersion x).1.Inv :=
  inv_stepSpace hq (inv_stepVersion hq (by decide))

/-- A relative target has no place to keep. -/
theorem inv_stepRelative (hq : q.Live) : (q.stepRelative x).1.Inv := by
  unfold stepRelative
  split
  · exact inv_stepSpaceVersion hq
  · exact hq.inv trivial

/-- A refused authority is left as a relative target. -/
theorem inv_stepRefused (hq : q.Live) : (q.stepRefused x).1.Inv := by
  unfold stepRefused
  split
  · exact hq.goto _
  · exact hq.inv trivial

theorem hostPrefix_zero (d : RequestFields) : HostPrefix d 0 :=
  ⟨Nat.zero_lt_succ _, fun _ hc => absurd hc List.not_mem_nil⟩

/-- The bytes of the host up to the one just copied. -/
theorem take_setIfInBounds (host : Vector UInt8 HOST_MAX_SIZE) {i : Nat} (hi : i < HOST_MAX_SIZE)
    (c : UInt8) :
    (host.setIfInBounds i c).toList.take (i + 1) = host.toList.take i ++ [c] := by
  have hlen : i < host.toList.length := by rwa [Vector.length_toList]
  rw [Vector.toList_setIfInBounds, List.take_set, List.take_succ_eq_append_getElem hlen]
  rw [List.set_append_right _ _ (by rw [List.length_take]; omega), List.length_take,
    Nat.min_eq_left (Nat.le_of_lt hlen), Nat.sub_self]
  rfl

/-- A byte of a host, copied at its place, makes the prefix one longer. -/
theorem hostPrefix_set {d : RequestFields} {i : Nat} {c : UInt8} (h : HostPrefix d i)
    (hc : isHostChar c = true) (hi : i + 1 < HOST_MAX_SIZE) :
    HostPrefix { d with host := d.host.setIfInBounds i c } (i + 1) := by
  refine ⟨hi, fun b hb => ?_⟩
  simp only [take_setIfInBounds d.host h.1, List.mem_append, List.mem_singleton] at hb
  rcases hb with hb | rfl
  · exact h.2 b hb
  · exact hc

/-- Copying a byte of the host neither accepts nor rejects. -/
theorem Live.setHost (hq : q.Live) (i : Nat) (c : UInt8) : (q.setHost i c).Live :=
  ⟨hq.version, hq.state, hq.calls⟩

/-- Setting the port neither accepts nor rejects. -/
theorem Live.setPort (hq : q.Live) (n : Int) : (q.setPort n).Live :=
  ⟨hq.version, hq.state, hq.calls⟩

/-- Where there is no host the machine goes on without one, or rejects the request. -/
theorem inv_noHost (hq : q.Live) (place : HostPlace) : (q.noHost place).Inv := by
  cases place with
  | uri => unfold noHost; simp only; split <;> exact hq.inv trivial
  | uriHost =>
    unfold noHost
    simp only
    split
    · trivial
    · exact hq.inv trivial
  | header =>
    unfold noHost
    simp only
    split
    · trivial
    · exact hq.inv (hostPrefix_zero _)

/-- Where a host ends, a port begins or the host is done. -/
theorem inv_stepHostEnd (hq : q.Live) (place : HostPlace) :
    (q.stepHostEnd place x).1.Inv := by
  cases place with
  | uri => exact inv_accept hq x
  | uriHost => exact inv_accept hq x
  | header =>
    unfold stepHostEnd
    simp only
    split
    · exact inv_accept hq x
    · split <;> trivial

/-- A byte of a host makes the prefix one longer, or ends the host. -/
theorem inv_stepHost (hq : q.Live) {place : HostPlace} {i : Nat} (hi : HostPrefix q.d i) :
    (q.stepHost place i x).1.Inv := by
  unfold stepHost
  simp only
  split
  · next hc =>
    split
    · next hlt => exact (hq.setHost i _).inv (hostPrefix_set hi hc hlt)
    · exact inv_noHost (hq.setHost i _) place
  · split
    · exact (hq.setHost 0 0).inv (hostPrefix_zero _)
    · split
      · exact hq.inv ⟨hi, fun _ hv => nomatch hv⟩
      · exact inv_stepHostEnd hq place

/-- What stands in the place of a host and is none is the target or an error. -/
theorem inv_stepNoHost (hq : q.Live) (place : HostPlace) : (q.stepNoHost place x).1.Inv := by
  cases place with
  | uri =>
    unfold stepNoHost
    simp only
    split
    · exact inv_stepRefused hq
    · exact inv_stepRelative hq
  | uriHost =>
    unfold stepNoHost
    simp only
    split
    · trivial
    · exact inv_stepSpaceVersion hq
  | header =>
    unfold stepNoHost
    simp only
    split
    · trivial
    · exact inv_stepHost hq (hostPrefix_zero _)

theorem inv_stepPortEnd (hq : q.Live) : (q.stepPortEnd x).1.Inv := by
  unfold stepPortEnd
  split
  · exact inv_accept hq x
  · exact inv_stepNoHost hq .header

/-- A digit of a port stays in the `int`, and anything else ends the port. -/
theorem inv_stepPort (hq : q.Live) {place : HostPlace} {i : Nat} {n : Option Int}
    (hi : HostPrefix q.d i) : (q.stepPort place i n x).1.Inv := by
  unfold stepPort stepNumber
  split
  · refine hq.inv ⟨hi, fun v hv => ?_⟩
    obtain rfl := Option.some.inj hv
    exact toInt32_lt _
  · cases n with
    | none => exact inv_stepNoHost hq place
    | some v =>
      simp only
      split
      · exact inv_stepPortEnd (hq.setPort v)
      · exact inv_accept (hq.setPort v) x

theorem inv_stepUriSep (hq : q.Live) {i : Nat} (hi : i < (lit "://").length) :
    (q.stepUriSep i x).1.Inv :=
  inv_stepMatch hi hq (fun _ hj _ => hj) (hq.inv (hostPrefix_zero _)) (inv_stepRelative hq)

theorem inv_stepUri (hq : q.Live) {i : Nat} (hi : i < (lit "HTTP").length) :
    (q.stepUri i x).1.Inv :=
  inv_stepMatch hi hq (fun _ hj _ => hj) (hq.goto_inv (.uriSep 0) (Nat.zero_lt_succ _))
    (inv_stepRelative hq)

/-- In the headers the machine looks for `H` and for CR. -/
theorem inv_stepHeaders (hq : q.Live) : (q.stepHeaders x).1.Inv := by
  unfold stepHeaders
  refine hq.inv ?_
  split
  · exact (Nat.zero_lt_succ _ : 0 < (lit "OST:").length)
  · split
    · exact (Nat.zero_lt_succ _ : 0 < [LF].length)
    · trivial

theorem inv_stepHostName (hq : q.Live) {i : Nat} (hi : i < (lit "OST:").length) :
    (q.stepHostName i x).1.Inv :=
  inv_stepMatch hi hq (fun _ hj _ => hj) (hq.inv trivial) (inv_stepHeaders hq)

theorem inv_stepCr (hq : q.Live) {i : Nat} (hi : i < [LF].length) : (q.stepCr i x).1.Inv :=
  inv_stepMatch hi hq (fun _ hj _ => hj) (hq.goto_inv (.crlf 0) (Nat.zero_lt_succ _))
    (inv_stepHeaders hq)

theorem inv_stepCrlf (hq : q.Live) {i : Nat} (hi : i < [CR, LF].length) :
    (q.stepCrlf i x).1.Inv :=
  inv_stepMatch hi hq (fun _ hj _ => hj) trivial (inv_stepHeaders hq)

/-- Behind the host the machine stops and accepts. -/
theorem inv_stepChecked (hq : q.Live) : (q.stepChecked x).1.Inv := by
  unfold stepChecked
  split
  · exact inv_accept hq x
  · exact inv_stepHeaders hq

theorem inv_stepLocalName (hq : q.Live) {i : Nat} (hi : i < (lit "X-LOCALHOST:").length) :
    (q.stepLocalName i x).1.Inv :=
  inv_stepMatch hi hq (fun _ hj hpos => ⟨hpos, hj⟩) hq.state (inv_stepChecked hq)

theorem inv_stepLocalHost (hq : q.Live) : (q.stepLocalHost x).1.Inv := by
  unfold stepLocalHost
  split
  · exact inv_stepChecked hq
  · exact inv_stepLocalName hq (Nat.zero_lt_succ _)

theorem Live.setMethod (hq : q.Live) (m : HttpMethod) :
    Live { q with d := { q.d with method := m } } :=
  ⟨hq.version, hq.state, hq.calls⟩

/-- Behind a method the machine goes on when it is supported. -/
theorem inv_afterMethod (hq : q.Live) (m : HttpMethod) : (q.afterMethod m).Inv := by
  unfold afterMethod
  simp only
  split
  · exact (hq.setMethod m).inv trivial
  · trivial

theorem inv_stepSpaceUri (hq : q.Live) : (q.stepSpaceUri x).1.Inv :=
  inv_stepSpace hq (inv_stepUri hq (Nat.zero_lt_succ _))

theorem inv_stepAfterMethod (hq : q.Live) (m : HttpMethod) : (q.stepAfterMethod m x).1.Inv := by
  unfold stepAfterMethod
  split
  · exact inv_stepSpaceUri (hq.setMethod m)
  · next hm =>
    unfold afterMethod
    simp only [hm]
    trivial

/-! ### The method -/

/-- The options a method can be in: the first for its first byte. -/
theorem optionsFor_methodOption (c : UInt8) :
    optionsFor c methodOption = [] ∨ c ∈ lit "CDGHOPT" := by
  by_cases h : c ∈ lit "CDGHOPT"
  · exact .inr h
  · have hheads : ∀ o ∈ methodOption, o.1.headD 0 ∈ lit "CDGHOPT" := by decide
    exact .inl (List.dropWhile_eq_nil_iff.mpr fun o ho => bne_iff_ne.mpr fun hc => h (hc ▸ hheads o ho))

/-- When no method is left that begins with the first byte, the method is what was read. -/
theorem stepMethodIn_nil (q : ReqMachine) {c : UInt8} {opts : List (List UInt8 × HttpMethod)}
    (h : ∀ o ∈ opts, o.1.headD 0 ≠ c) (i : Nat) (x : Cell) :
    q.stepMethodIn c opts i x = q.stepAfterMethod q.d.method x := by
  induction opts generalizing i with
  | nil => rfl
  | cons o opts ih =>
    rw [stepMethodIn, if_neg (h o List.mem_cons_self)]
    exact ih (fun o ho => h o (List.mem_cons_of_mem _ ho)) 0

/-- Inside one of the methods: a byte of it, its end, or a miss, behind which the next one is
tried. -/
theorem inv_stepMethodIn_cons (hq : q.Live) {c : UInt8} {o : List UInt8 × HttpMethod}
    {rest : List (List UInt8 × HttpMethod)} {i : Nat} (hi : i < o.1.tail.length)
    (hplace : ∀ j < o.1.tail.length, 0 < j → MethodPlace c (o :: rest) j)
    (hmiss : (q.stepMethodIn c rest 0 x).1.Inv) : (q.stepMethodIn c (o :: rest) i x).1.Inv := by
  rw [stepMethodIn]
  split
  · unfold ReqMachine.stepMatch HttpProxy.stepMatch
    split
    · split
      · exact inv_afterMethod hq o.2
      · exact hq.inv (hplace (i + 1) (by omega) (Nat.succ_pos i))
    · exact hmiss
  · exact hmiss

/-- A byte of a method. The induction is on the methods still to try, of which only the first can be
inside. -/
theorem inv_stepMethodIn (hq : q.Live) {c : UInt8} {opts : List (List UInt8 × HttpMethod)} {i : Nat}
    (h : MethodPlace c opts i) : (q.stepMethodIn c opts i x).1.Inv := by
  obtain ⟨hi, rfl | ⟨rfl, rfl, hpos⟩⟩ := h
  · cases hopts : optionsFor c methodOption with
    | nil => exact absurd hi (by rw [hopts]; exact Nat.not_lt_zero _)
    | cons o rest =>
      rw [hopts] at hi
      refine inv_stepMethodIn_cons hq hi (fun j hj _ => ⟨hj, .inl hopts.symm⟩) ?_
      have hc := (optionsFor_methodOption c).resolve_left (by rw [hopts]; exact List.cons_ne_nil _ _)
      by_cases hP : c = 0x50
      · subst hP
        obtain ⟨-, rfl⟩ := List.cons.inj hopts
        refine inv_stepMethodIn_cons hq (o := (lit "PUT", .PUT)) (by decide)
          (fun j hj hpos => ⟨hj, .inr ⟨rfl, rfl, hpos⟩⟩) ?_
        rw [stepMethodIn_nil q (by decide)]
        exact inv_stepAfterMethod hq _
      · -- No other first byte has two options.
        have hrest : ∀ o ∈ rest, o.1.headD 0 ≠ c := by
          have htail : rest = (optionsFor c methodOption).tail := by rw [hopts]; rfl
          rw [htail]
          clear htail hopts hi
          revert hP
          revert c
          decide +kernel
        rw [stepMethodIn_nil q hrest]
        exact inv_stepAfterMethod hq _
  · refine inv_stepMethodIn_cons hq hi (fun j hj hpos => ⟨hj, .inr ⟨rfl, rfl, hpos⟩⟩) ?_
    rw [stepMethodIn_nil q (by decide)]
    exact inv_stepAfterMethod hq _

/-- The first byte of the request begins a method, or ends the call with none. -/
theorem inv_stepMethod (hq : q.Live) : (q.stepMethod x).1.Inv := by
  unfold stepMethod
  simp only
  split
  · exact inv_afterMethod hq _
  · next hopts =>
    refine hq.inv ⟨?_, .inl rfl⟩
    have hc := (optionsFor_methodOption (toupper x.1)).resolve_left hopts
    clear hopts
    generalize toupper x.1 = c at hc ⊢
    revert c
    decide +kernel

/-! ### The machine -/

/-- What is behind blanks keeps the invariant, whichever it is. -/
theorem inv_stepSpaceTo (hq : q.Live) (n : AfterSpaces) : (q.stepSpaceTo n x).1.Inv := by
  cases n with
  | uri => exact inv_stepSpaceUri hq
  | version => exact inv_stepSpaceVersion hq
  | host => exact inv_stepSpace hq (inv_stepHost hq (hostPrefix_zero _))

/-- A machine that stopped keeps what it stopped with. -/
theorem inv_halted (h : q.Inv) {why : Halt} {unread : List Cell} (hctl : q.ctl = .halt why unread) :
    (q.stepHalt x).1.Inv := by
  obtain ⟨ctl, d, calls⟩ := q
  obtain rfl : ctl = .halt why unread := hctl
  cases why with
  | stalled => exact ⟨h.version, h.state, h.calls⟩
  | accepted => exact h
  | rejected => trivial
  | spin => trivial

/-- A state that is not a halt has a request neither accepted nor rejected, in bounds. -/
theorem Inv.live {q : ReqMachine} (h : q.Inv) {ctl : ReqCtl} (hctl : q.ctl = ctl)
    (hne : ∀ why unread, ctl ≠ .halt why unread) : q.Live ∧ ctl.Bounded q.d := by
  subst hctl
  unfold Inv at h
  split at h
  · next hh => exact absurd hh (hne _ _)
  · next hh => exact absurd hh (hne _ _)
  · next hh => exact absurd hh (hne _ _)
  · exact h

/-- Every step keeps the invariant. -/
theorem inv_step (h : q.Inv) : (q.step x).1.Inv := by
  have live := fun {ctl : ReqCtl} (hctl : q.ctl = ctl) => h.live hctl
  unfold step
  cases hctl : q.ctl with
  | method => exact inv_stepMethod (live hctl nofun).1
  | methodIn => exact inv_stepMethodIn (live hctl nofun).1 (live hctl nofun).2
  | space n => exact inv_stepSpaceTo (live hctl nofun).1 n
  | uri => exact inv_stepUri (live hctl nofun).1 (live hctl nofun).2
  | uriSep => exact inv_stepUriSep (live hctl nofun).1 (live hctl nofun).2
  | host => exact inv_stepHost (live hctl nofun).1 (live hctl nofun).2
  | port => exact inv_stepPort (live hctl nofun).1 (live hctl nofun).2.1
  | portEnd => exact inv_stepPortEnd (live hctl nofun).1
  | relative => exact inv_stepRelative (live hctl nofun).1
  | refused => exact inv_stepRefused (live hctl nofun).1
  | version => exact inv_stepVersion (live hctl nofun).1 (live hctl nofun).2
  | versionDigit => exact inv_stepVersionDigit (live hctl nofun).1
  | startLineEnd => exact inv_stepStartLineEnd (live hctl nofun).1 (live hctl nofun).2
  | localHost => exact inv_stepLocalHost (live hctl nofun).1
  | localName => exact inv_stepLocalName (live hctl nofun).1 (live hctl nofun).2.2
  | headers => exact inv_stepHeaders (live hctl nofun).1
  | hostName => exact inv_stepHostName (live hctl nofun).1 (live hctl nofun).2
  | cr => exact inv_stepCr (live hctl nofun).1 (live hctl nofun).2
  | crlf => exact inv_stepCrlf (live hctl nofun).1 (live hctl nofun).2
  | halt => exact inv_halted h hctl

/-- The invariant holds in every state of a run: `inv_step` along it. -/
theorem inv_stateAfter (h : q.Inv) (l : List Cell) : (reqMachine.stateAfter q l).Inv :=
  reqMachine.run_invariant (I := fun _ q => q.Inv) (fun _ _ _ h => inv_step h) [] q h l

end ReqMachine

/-! ## What is pushed back -/

namespace ReqMachine

variable {q : ReqMachine}

/-- A byte of a host is not taken for the end of the input. -/
theorem ne_zero_of_isHostChar {c : UInt8} (h : isHostChar c = true) : c ≠ 0 := by
  rintro rfl
  exact absurd h (by decide)

theorem zero_not_mem_take {l : List UInt8} (h : 0 ∉ l) (i : Nat) : 0 ∉ l.take i :=
  fun hmem => h (List.mem_of_mem_take hmem)

theorem zero_not_mem_append_take {p l : List UInt8} (hp : 0 ∉ p) (hl : 0 ∉ l) (i : Nat) :
    0 ∉ p ++ l.take i := by
  rw [List.mem_append, not_or]
  exact ⟨hp, zero_not_mem_take hl i⟩

/-- What is pushed back inside a method has no zero byte. -/
theorem zero_not_mem_method {c : UInt8} {opts : List (List UInt8 × HttpMethod)} {i : Nat}
    (h : MethodPlace c opts i) : 0 ∉ c :: (opts.headD ([], .UNDEFINED_M)).1.tail.take i := by
  have hcons : ∀ {c : UInt8} {name : List UInt8}, 0 ∉ c :: name → 0 ∉ c :: name.take i :=
    fun hname => zero_not_mem_take (i := i + 1) hname
  obtain ⟨hi, rfl | ⟨rfl, rfl, -⟩⟩ := h
  · have hc : c ∈ lit "CDGHOPT" := (optionsFor_methodOption c).resolve_left fun hnil => by
      rw [hnil] at hi
      exact absurd hi (Nat.not_lt_zero _)
    refine hcons ?_
    clear hi
    revert c
    decide +kernel
  · exact hcons (by decide)

/-- No zero byte is pushed back. -/
theorem Inv.zero_not_mem_pushBack (h : q.Inv) : 0 ∉ q.pushBack := by
  have bounded := fun {ctl : ReqCtl} (hctl : q.ctl = ctl) hne => (h.live hctl hne).2
  have hhost : ∀ {i}, HostPrefix q.d i → 0 ∉ q.d.host.toList.take i :=
    fun hb hmem => ne_zero_of_isHostChar (hb.2 0 hmem) rfl
  unfold pushBack
  cases hctl : q.ctl with
  | methodIn c opts i => exact zero_not_mem_method (bounded hctl nofun)
  | host place i => exact hhost (bounded hctl nofun)
  | port place i n =>
    have hdigits : 0 ∉ digitsOf .dec (n.getD 0) :=
      fun hmem => ne_zero_of_isdigit (isDigit_of_mem_digitsOf Radix.dec_lawful hmem) rfl
    have hcolon : 0 ∉ lit ":" := by decide
    simp only [List.mem_append, not_or]
    exact ⟨⟨hhost (bounded hctl nofun).1, hcolon⟩, hdigits⟩
  | uri i => exact zero_not_mem_take (by decide) i
  | uriSep i => exact zero_not_mem_append_take (by decide) (by decide) i
  | version i => exact zero_not_mem_take (by decide) i
  | versionDigit => simp only; decide
  | startLineEnd i => exact zero_not_mem_take (by decide) i
  | localName i => exact zero_not_mem_take (by decide) i
  | hostName i => exact zero_not_mem_append_take (by decide) (by decide) i
  | cr i => exact zero_not_mem_append_take (by decide) (by decide) i
  | crlf i => exact zero_not_mem_append_take (by decide) (by decide) i
  | _ => exact List.not_mem_nil

end ReqMachine

/-! ## Starting again -/

/-- Where a call starts that resumes in a control state. -/
def ReqCtl.start : ReqCtl → ReqCtl
  | .method | .methodIn _ _ _ => .method
  | .space n => .space n
  | .uri _ | .uriSep _ => .uri 0
  | .host .header _ | .port .header _ _ | .portEnd => .host .header 0
  | .host _ _ | .port _ _ _ => .host .uriHost 0
  | .relative | .refused => .relative
  | .version _ | .versionDigit => .version 0
  | .startLineEnd _ => .startLineEnd 0
  | .localHost | .localName _ => .localHost
  | .headers | .hostName _ | .cr _ | .crlf _ => .headers
  | .halt why unread => .halt why unread

/-- Where a host in the target is read by a later call. -/
def HostPlace.resumed : HostPlace → HostPlace
  | .uri | .uriHost => .uriHost
  | .header => .header

/-- The control state that reading back what was pushed back leads to. -/
def ReqCtl.resumed : ReqCtl → ReqCtl
  | .host place i => .host place.resumed i
  | .port place i n => .port place.resumed i (some (n.getD 0))
  | .refused => .relative
  | ctl => ctl

namespace ReqMachine

variable {q : ReqMachine}

/-- Bytes pushed back that take the machine from `q` to `q'`; nothing is written for them. -/
def Replays (q : ReqMachine) (p : List UInt8) (q' : ReqMachine) : Prop :=
  reqMachine.run q (pushedBack p) = (q', [])

theorem Replays.nil (q : ReqMachine) : Replays q [] q := rfl

/-- What is read again one after the other is read again at once. -/
theorem Replays.append {q q' q'' : ReqMachine} {p p' : List UInt8} (h : Replays q p q')
    (h' : Replays q' p' q'') : Replays q (p ++ p') q'' := by
  unfold Replays
  rw [pushedBack_append]
  exact Transducer.run_append_eq _ h h'

/-- One byte that is read again. -/
theorem Replays.byte {q q' : ReqMachine} {c : UInt8} (h : q.step (c, true) = (q', [])) :
    Replays q [c] q' := by
  have hs : reqMachine.step q (c, true) = (q', []) := h
  unfold Replays
  rw [pushedBack_cons, Transducer.run_cons, hs]
  rfl

section Match

variable {format : List UInt8} {inside : Nat → ReqCtl} {done : ReqMachine} {miss : Nat → Cell → Out}

/-- Some bytes of a format, read back by a machine matching it. -/
theorem replays_take (inside : Nat → ReqCtl) (done : ReqMachine) (miss : Nat → Cell → Out)
    (hstep : ∀ j < format.length, ∀ x, (q.goto (inside j)).step x =
      q.stepMatch format j inside done (miss j) x) {i : Nat} (hi : i < format.length) :
    Replays (q.goto (inside 0)) (format.take i) (q.goto (inside i)) := by
  induction i with
  | zero => exact Replays.nil _
  | succ i ih =>
    have hs := hstep i (by omega) (format[i], true)
    have hget : format.getD i 0 = format[i] := by
      rw [List.getD_eq_getElem?_getD, List.getElem?_eq_getElem (by omega), Option.getD_some]
    rw [ReqMachine.stepMatch, HttpProxy.stepMatch, hget, if_pos rfl, if_neg (by omega)] at hs
    rw [List.take_succ_eq_append_getElem (by omega)]
    exact (ih (by omega)).append (Replays.byte hs)

/-- All the bytes of a format. -/
theorem replays_format (inside : Nat → ReqCtl) (miss : Nat → Cell → Out) (hne : format ≠ [])
    (hstep : ∀ j < format.length, ∀ x, (q.goto (inside j)).step x =
      q.stepMatch format j inside done (miss j) x) :
    Replays (q.goto (inside 0)) format done := by
  have hpos := List.length_pos_of_ne_nil hne
  have hlt : format.length - 1 < format.length := by omega
  have hs := hstep _ hlt (format[format.length - 1], true)
  have hget : format.getD (format.length - 1) 0 = format[format.length - 1] := by
    rw [List.getD_eq_getElem?_getD, List.getElem?_eq_getElem hlt, Option.getD_some]
  rw [ReqMachine.stepMatch, HttpProxy.stepMatch, hget, if_pos rfl, if_pos (by omega)] at hs
  have happ := (replays_take inside done miss hstep hlt).append (Replays.byte hs)
  rwa [← List.take_succ_eq_append_getElem hlt, Nat.sub_add_cancel hpos, List.take_length] at happ

end Match

/-! ### The host and the port -/

/-- A byte of a host has no upper case left. -/
theorem tolower_of_isHostChar {c : UInt8} (h : isHostChar c = true) : tolower c = c := by
  unfold isHostChar at h
  unfold tolower
  grind

/-- Copying a byte of the host to where it stands changes nothing. -/
theorem setHost_getElem (q : ReqMachine) {i : Nat} (hi : i < HOST_MAX_SIZE) :
    q.setHost i q.d.host[i] = q := by
  obtain ⟨ctl, d, calls⟩ := q
  have : d.host.setIfInBounds i d.host[i] = d.host := by
    ext j hj
    rw [Vector.getElem_setIfInBounds]
    split
    · next h => subst h; rfl
    · rfl
  simp only [setHost, this]

/-- The bytes of a host that was copied, read back. -/
theorem replays_host {i : Nat} (h : HostPrefix q.d i) (place : HostPlace) :
    Replays (q.goto (.host place 0)) (q.d.host.toList.take i) (q.goto (.host place i)) := by
  induction i with
  | zero => exact Replays.nil _
  | succ i ih =>
    have hlt : i < HOST_MAX_SIZE := Nat.lt_of_succ_lt h.1
    have hlen : i < q.d.host.toList.length := by rwa [Vector.length_toList]
    have htake : q.d.host.toList.take (i + 1) = q.d.host.toList.take i ++ [q.d.host[i]] := by
      rw [List.take_succ_eq_append_getElem hlen, Vector.getElem_toList]
    have hchars := h.2
    rw [htake] at hchars ⊢
    have hc : isHostChar q.d.host[i] = true :=
      hchars _ (List.mem_append_right _ (List.mem_singleton_self _))
    refine (ih ⟨hlt, fun c hmem => hchars c (List.mem_append_left _ hmem)⟩).append (Replays.byte ?_)
    have hstep : (q.goto (.host place i)).step (q.d.host[i], true) =
        (q.goto (.host place i)).stepHost place i (q.d.host[i], true) := rfl
    have hset : (q.goto (.host place i)).setHost i q.d.host[i] = q.goto (.host place i) :=
      setHost_getElem (q.goto (.host place i)) hlt
    rw [hstep, stepHost]
    simp only [tolower_of_isHostChar hc, hc, if_true, if_pos h.1, echoed_pushedBack, hset]
    rfl

/-- The digits of a number, read back. -/
theorem replays_number (q : ReqMachine) (place : HostPlace) (i : Nat) {ds : List UInt8}
    (hds : ∀ c ∈ ds, isdigit c = true) (n : Option Int) :
    Replays (q.goto (.port place i n)) ds (q.goto (.port place i (numberValue .dec n ds))) := by
  induction ds generalizing n with
  | nil => exact Replays.nil _
  | cons c ds ih =>
    have hc : Radix.dec.isDigit c = true := hds c List.mem_cons_self
    have hstep : (q.goto (.port place i n)).step (c, true) =
        (q.goto (.port place i (some (toInt32 (Radix.dec.base * n.getD 0 + Radix.dec.value c)))),
          []) := by
      have hs : (q.goto (.port place i n)).step (c, true) =
          (q.goto (.port place i n)).stepPort place i n (c, true) := rfl
      rw [hs]
      unfold stepPort stepNumber
      rw [if_pos hc]
      rfl
    exact (Replays.byte hstep).append (ih (fun d hd => hds d (List.mem_cons_of_mem _ hd)) _)

/-- The `:` behind a host is read again. -/
theorem replays_colon (q : ReqMachine) (place : HostPlace) (i : Nat) :
    Replays (q.goto (.host place i)) (lit ":") (q.goto (.port place i none)) := by
  have hlit : lit ":" = [0x3a] := by decide
  rw [hlit]
  refine Replays.byte ?_
  cases place <;> rfl

/-- A host, the `:` and the digits of its port so far are read again, to the same number. -/
theorem replays_port {i : Nat} (h : HostPrefix q.d i) (place : HostPlace) {n : Option Int}
    (h₀ : 0 ≤ n.getD 0) (h₁ : n.getD 0 < 2 ^ 31) :
    Replays (q.goto (.host place 0))
      (q.d.host.toList.take i ++ lit ":" ++ digitsOf .dec (n.getD 0))
      (q.goto (.port place i (some (n.getD 0)))) := by
  have hnum := replays_number q place i
    (fun c hc => isDigit_of_mem_digitsOf Radix.dec_lawful (n := n.getD 0) hc) none
  rw [numberValue_digitsOf Radix.dec_lawful h₀ h₁] at hnum
  exact ((replays_host h place).append (replays_colon q place i)).append hnum

/-! ### The method -/

/-- The bytes matched of an option, from the option's start. -/
theorem replays_option (q : ReqMachine) {c : UInt8} {o : List UInt8 × HttpMethod}
    {rest : List (List UInt8 × HttpMethod)} (ho : o.1.headD 0 = c) {i : Nat}
    (hi : i < o.1.tail.length) :
    Replays (q.goto (.methodIn c (o :: rest) 0)) (o.1.tail.take i)
      (q.goto (.methodIn c (o :: rest) i)) := by
  refine replays_take (.methodIn c (o :: rest)) (q.afterMethod o.2)
    (fun j => (q.goto (.methodIn c (o :: rest) j)).stepMethodIn c rest 0) (fun j _ x => ?_) hi
  have hs : (q.goto (.methodIn c (o :: rest) j)).step x =
      (q.goto (.methodIn c (o :: rest) j)).stepMethodIn c (o :: rest) j x := rfl
  rw [hs, stepMethodIn, if_pos ho]
  rfl

/-- The first bytes of the methods are in upper case. -/
theorem toupper_of_mem {c : UInt8} (h : c ∈ lit "CDGHOPT") : toupper c = c := by
  revert c
  decide +kernel

/-- The bytes of a method are read again to the same place. `PUT` is in its place because `POST`
missed, and is tried as `POST` first. -/
theorem replays_methodIn {c : UInt8} {opts : List (List UInt8 × HttpMethod)} {i : Nat}
    (h : MethodPlace c opts i) :
    Replays (q.goto .method) (c :: (opts.headD ([], .UNDEFINED_M)).1.tail.take i)
      (q.goto (.methodIn c opts i)) := by
  obtain ⟨hi, rfl | ⟨rfl, rfl, hpos⟩⟩ := h
  · cases hopts : optionsFor c methodOption with
    | nil => exact absurd hi (by rw [hopts]; exact Nat.not_lt_zero _)
    | cons o rest =>
      have hc := (optionsFor_methodOption c).resolve_left (by rw [hopts]; exact List.cons_ne_nil _ _)
      have hhead : o.1.headD 0 = c := by
        have ho : o = (optionsFor c methodOption).headD ([], .UNDEFINED_M) := by rw [hopts]; rfl
        rw [ho]
        clear ho hopts hi
        revert c
        decide +kernel
      have hbyte : Replays (q.goto .method) [c] (q.goto (.methodIn c (o :: rest) 0)) := by
        refine Replays.byte ?_
        have hs : (q.goto .method).step (c, true) = (q.goto .method).stepMethod (c, true) := rfl
        rw [hs, stepMethod]
        simp only [toupper_of_mem hc, hopts, reduceCtorEq, if_false, echoed_pushedBack]
        rfl
      rw [hopts] at hi
      exact hbyte.append (replays_option q hhead hi)
  · -- `PUT` is reached when `POST` misses at the `U`.
    obtain rfl : i = 1 := by
      simp only [List.headD_cons] at hi
      have : (lit "PUT").tail.length = 2 := by decide
      omega
    exact rfl

/-! ### Every state -/

/-- `HTTP` is read again in front of `://`. -/
theorem replays_uri (q : ReqMachine) :
    Replays (q.goto (.uri 0)) (lit "HTTP") (q.goto (.uriSep 0)) :=
  replays_format .uri (fun j => (q.goto (.uri j)).stepRelative) (by decide)
    fun _ _ _ => rfl

/-- `HTTP/1.` is read again in front of the digit. -/
theorem replays_version (q : ReqMachine) :
    Replays (q.goto (.version 0)) (lit "HTTP/1.") (q.goto .versionDigit) :=
  replays_format .version (fun j => (q.goto (.version j)).stepAfterVersion)
    (by decide) fun _ _ _ => rfl

/-- The `H` of `Host:` and the CR of the end are read again. -/
theorem replays_headers (q : ReqMachine) :
    Replays (q.goto .headers) (lit "H") (q.goto (.hostName 0)) ∧
      Replays (q.goto .headers) [CR] (q.goto (.cr 0)) := ⟨rfl, rfl⟩

/-- The LF behind the CR is read again. -/
theorem replays_cr (q : ReqMachine) : Replays (q.goto (.cr 0)) [LF] (q.goto (.crlf 0)) :=
  replays_format .cr (fun j => (q.goto (.cr j)).stepHeaders)
    (List.cons_ne_nil _ _) fun _ _ _ => rfl

/-- The bytes of `X-LOCALHOST:` are read again, once there is one. -/
theorem replays_localName (q : ReqMachine) {i : Nat} (hpos : 0 < i)
    (hi : i < (lit "X-LOCALHOST:").length) :
    Replays (q.goto .localHost) ((lit "X-LOCALHOST:").take i) (q.goto (.localName i)) := by
  have htake : Replays (q.goto (.localName 0)) ((lit "X-LOCALHOST:").take i)
      (q.goto (.localName i)) :=
    replays_take .localName (accept { q with d := { q.d with isLocalHost := true } })
      (fun j => (q.goto (.localName j)).stepChecked) (fun _ _ _ => rfl) hi
  cases i with
  | zero => exact absurd hpos (Nat.lt_irrefl 0)
  | succ i => exact htake

/-- The bytes pushed back lead from the start of the parser state back to where the machine was. -/
theorem replays_pushBack (h : q.Inv) (hr : ∀ why unread, q.ctl ≠ .halt why unread)
    (hp : q.ctl ≠ .portEnd) (hport : ∀ place i v, q.ctl = .port place i (some v) → 0 ≤ v) :
    Replays (q.goto q.ctl.start) q.pushBack (q.goto q.ctl.resumed) := by
  obtain ⟨-, hb⟩ := h.live rfl hr
  unfold pushBack
  cases hctl : q.ctl with
  | halt why unread => exact absurd hctl (hr why unread)
  | portEnd => exact absurd hctl hp
  | method | space | relative | refused | localHost | headers => exact Replays.nil _
  | versionDigit => exact replays_version q
  | methodIn => rw [hctl] at hb; exact replays_methodIn hb
  | uri =>
    rw [hctl] at hb
    exact replays_take .uri (q.goto (.uriSep 0))
      (fun j => (q.goto (.uri j)).stepRelative) (fun _ _ _ => rfl) hb
  | uriSep =>
    rw [hctl] at hb
    exact (replays_uri q).append (replays_take .uriSep (q.goto (.host .uri 0))
      (fun j => (q.goto (.uriSep j)).stepRelative) (fun _ _ _ => rfl) hb)
  | version =>
    rw [hctl] at hb
    exact replays_take .version (q.goto .versionDigit)
      (fun j => (q.goto (.version j)).stepAfterVersion) (fun _ _ _ => rfl) hb
  | startLineEnd =>
    rw [hctl] at hb
    exact replays_take .startLineEnd (q.goto .localHost)
      (fun j => stepHalt ((q.goto (.startLineEnd j)).reject .START_LINE_END_ERROR))
      (fun _ _ _ => rfl) hb
  | localName => rw [hctl] at hb; exact replays_localName q hb.1 hb.2
  | hostName =>
    rw [hctl] at hb
    exact (replays_headers q).1.append (replays_take .hostName
      (q.goto (.space .host)) (fun j => (q.goto (.hostName j)).stepHeaders)
      (fun _ _ _ => rfl) hb)
  | cr =>
    rw [hctl] at hb
    exact (replays_headers q).2.append (replays_take .cr (q.goto (.crlf 0))
      (fun j => (q.goto (.cr j)).stepHeaders) (fun _ _ _ => rfl) hb)
  | crlf =>
    rw [hctl] at hb
    exact ((replays_headers q).2.append (replays_cr q)).append (replays_take .crlf
      (q.reject .HOST_ERROR) (fun j => (q.goto (.crlf j)).stepHeaders)
      (fun _ _ _ => rfl) hb)
  | host place i =>
    rw [hctl] at hb
    have hhost := replays_host (q := q) hb place.resumed
    cases place <;> exact hhost
  | port place i n =>
    rw [hctl] at hb
    -- A port without digits is pushed back as a `0`.
    have hn : 0 ≤ n.getD 0 ∧ n.getD 0 < 2 ^ 31 := by
      cases n with
      | none => exact ⟨Int.le_refl 0, by decide⟩
      | some v => exact ⟨hport place i v hctl, hb.2 v rfl⟩
    have hread := replays_port (q := q) hb.1 place.resumed hn.1 hn.2
    cases place <;> exact hread

end ReqMachine

end HttpProxy
