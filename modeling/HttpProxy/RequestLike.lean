import HttpProxy.RequestRest

/-!
# What a resumed request parser forgets

A parser that resumed is not in the state of one that was never interrupted: every call presets
the version to 1.1, and a host in the target that `http://` was read in front of by an earlier call
is read in the code's other place for it. `ReqMachine.Like` relates the two. They write the same
and stay related, as long as the authority of the target is not refused (`Like.run`): the two
places differ in what they do with a host that is too long and with a `:` without a port.
-/

namespace HttpProxy

/-- A host in the target, read in the place for later calls. -/
def ReqCtl.moved : ReqCtl → ReqCtl
  | .host .uri i => .host .uriHost i
  | .port .uri i n => .port .uriHost i n
  | ctl => ctl

namespace ReqMachine

variable {q : ReqMachine} {x : Cell} {v : HttpVersion}

def withVersion (q : ReqMachine) (v : HttpVersion) : ReqMachine :=
  { q with d := { q.d with version := v } }

/-! ## The version -/

/-- `r'` is `r` but for the version. -/
def VersionOnly (r r' : Out) : Prop :=
  ∃ v, v ≠ .undefined ∧ r' = (r.1.withVersion v, r.2)

/-- A machine that is another but for its version, with the same written. -/
theorem VersionOnly.intro (hv : v ≠ .undefined) {q q' : ReqMachine} {e : List UInt8}
    (h : q' = q.withVersion v) : VersionOnly (q, e) (q', e) :=
  ⟨v, hv, by rw [h]⟩

/-- A test that does not look at the version. -/
theorem VersionOnly.ite {p : Prop} [Decidable p] {r₁ r₁' r₂ r₂' : Out} (h₁ : VersionOnly r₁ r₁')
    (h₂ : VersionOnly r₂ r₂') : VersionOnly (if p then r₁ else r₂) (if p then r₁' else r₂') := by
  split
  · exact h₁
  · exact h₂

/-- Writing the same in front. -/
theorem VersionOnly.emit {r r' : Out} (h : VersionOnly r r') (w : List UInt8) :
    VersionOnly (r.1, w ++ r.2) (r'.1, w ++ r'.2) := by
  obtain ⟨v, hv, rfl⟩ := h
  exact ⟨v, hv, rfl⟩

/-- The same machines with something else written. -/
theorem VersionOnly.machine {r r' : Out} (h : VersionOnly r r') (e : List UInt8) :
    VersionOnly (r.1, e) (r'.1, e) := by
  obtain ⟨v, hv, rfl⟩ := h
  exact ⟨v, hv, rfl⟩

variable (hv : v ≠ .undefined)
include hv

/-- A machine that has stopped keeps what is unread, whatever the version. -/
theorem stepHalt_withVersion (q : ReqMachine) (x : Cell) :
    VersionOnly (q.stepHalt x) ((q.withVersion v).stepHalt x) := by
  obtain ⟨ctl, d, calls⟩ := q
  cases ctl <;> exact .intro hv rfl

/-- A step in a format does not depend on the version when its two ends do not. -/
theorem stepMatch_withVersion {format : List UInt8} {i : Nat} {inside : Nat → ReqCtl}
    {done done' : ReqMachine} {miss miss' : Cell → Out}
    (hdone : done' = done.withVersion v) (hmiss : VersionOnly (miss x) (miss' x)) :
    VersionOnly (q.stepMatch format i inside done miss x)
      ((q.withVersion v).stepMatch format i inside done' miss' x) := by
  unfold ReqMachine.stepMatch HttpProxy.stepMatch
  refine .ite ?_ hmiss
  split
  · exact .intro hv hdone
  · exact .intro hv rfl

/-- A step through blanks does not depend on the version when the step behind them does not. -/
theorem stepSpace_withVersion {n : AfterSpaces} {step step' : Cell → Out}
    (h : VersionOnly (step x) (step' x)) :
    VersionOnly (q.stepSpace n step x) ((q.withVersion v).stepSpace n step' x) := by
  unfold ReqMachine.stepSpace
  exact .ite (.intro hv rfl) (h.emit [SP])

theorem stepStartLineEnd_withVersion (i : Nat) :
    VersionOnly (q.stepStartLineEnd i x) ((q.withVersion v).stepStartLineEnd i x) :=
  stepMatch_withVersion hv rfl (stepHalt_withVersion hv _ x)

/-- Behind the version only that there is one matters, not which. -/
theorem stepAfterVersion_withVersion (hq : q.d.version ≠ .undefined) :
    VersionOnly (q.stepAfterVersion x) ((q.withVersion v).stepAfterVersion x) := by
  unfold stepAfterVersion
  rw [if_neg hq, if_neg (show (q.withVersion v).d.version ≠ .undefined from hv)]
  exact stepStartLineEnd_withVersion hv 0

/-- The digit of the version overwrites it, or leaves it where the digit is another. -/
theorem stepVersionDigit_withVersion (hq : q.d.version ≠ .undefined) :
    VersionOnly (q.stepVersionDigit x) ((q.withVersion v).stepVersionDigit x) := by
  have hset : ∀ {u : HttpVersion}, u ≠ .undefined →
      (if x.1 = 0x30 then HttpVersion.v1_0 else if x.1 = 0x31 then .v1_1 else u) ≠ .undefined := by
    intro u hu
    split
    · decide
    · split
      · decide
      · exact hu
  refine ⟨_, hset hv, ?_⟩
  unfold stepVersionDigit afterVersion setVersion
  simp only
  rw [if_neg (hset hq), if_neg (hset (u := (q.withVersion v).d.version) hv)]
  rfl

/-- In `HTTP/1.` the version counts only where the format is missed. -/
theorem stepVersion_withVersion (hq : q.d.version ≠ .undefined) (i : Nat) :
    VersionOnly (q.stepVersion i x) ((q.withVersion v).stepVersion i x) :=
  stepMatch_withVersion hv rfl (stepAfterVersion_withVersion hv hq)

theorem stepSpaceVersion_withVersion (hq : q.d.version ≠ .undefined) :
    VersionOnly (q.stepSpaceVersion x) ((q.withVersion v).stepSpaceVersion x) :=
  stepSpace_withVersion hv (stepVersion_withVersion hv hq 0)

theorem stepRelative_withVersion (hq : q.d.version ≠ .undefined) :
    VersionOnly (q.stepRelative x) ((q.withVersion v).stepRelative x) := by
  unfold stepRelative
  exact .ite (stepSpaceVersion_withVersion hv hq) (.intro hv rfl)

/-- A refused authority is left without a look at the version. -/
theorem stepRefused_withVersion :
    VersionOnly (q.stepRefused x) ((q.withVersion v).stepRefused x) := by
  unfold stepRefused
  exact .ite (stepHalt_withVersion hv (q.halt .stalled) x) (.intro hv rfl)

omit hv in
/-- A host that is not one is dropped whatever the version. -/
theorem noHost_withVersion (place : HostPlace) :
    (q.withVersion v).noHost place = (q.noHost place).withVersion v := by
  unfold noHost
  cases place <;>
  · simp only
    rw [apply_ite (fun q : ReqMachine => q.withVersion v)]
    rfl

/-- Where a host ends the machine stops, or goes on to its port. -/
theorem stepHostEnd_withVersion (place : HostPlace) :
    VersionOnly (q.stepHostEnd place x) ((q.withVersion v).stepHostEnd place x) := by
  cases place with
  | uri => exact stepHalt_withVersion hv q.accept x
  | uriHost => exact stepHalt_withVersion hv q.accept x
  | header =>
    exact .ite (stepHalt_withVersion hv q.accept x)
      (.ite (stepHalt_withVersion hv (q.reject .HOST_ERROR) x)
        (stepHalt_withVersion hv (q.halt .spin) x))

/-- A byte of a host is copied whatever the version. -/
theorem stepHost_withVersion (place : HostPlace) (i : Nat) :
    VersionOnly (q.stepHost place i x) ((q.withVersion v).stepHost place i x) := by
  unfold stepHost
  refine .ite ?_ (.ite (.intro hv rfl) (.ite (.intro hv rfl) (stepHostEnd_withVersion hv place)))
  simp only
  split
  · exact .intro hv rfl
  · exact .intro hv (noHost_withVersion (q := q.setHost i (tolower x.1)) place)

/-- Where no host is found the target is taken for a relative one. -/
theorem stepNoHost_withVersion (hq : q.d.version ≠ .undefined) (place : HostPlace) :
    VersionOnly (q.stepNoHost place x) ((q.withVersion v).stepNoHost place x) := by
  cases place with
  | uri => exact .ite (stepRefused_withVersion hv) (stepRelative_withVersion hv hq)
  | uriHost =>
    exact .ite (stepHalt_withVersion hv (q.reject .HOST_ERROR) x) (stepSpaceVersion_withVersion hv hq)
  | header =>
    exact .ite (stepHalt_withVersion hv (q.reject .HOST_ERROR) x) (stepHost_withVersion hv .header 0)

theorem stepPortEnd_withVersion (hq : q.d.version ≠ .undefined) :
    VersionOnly (q.stepPortEnd x) ((q.withVersion v).stepPortEnd x) := by
  unfold stepPortEnd
  exact .ite (stepHalt_withVersion hv q.accept x) (stepNoHost_withVersion hv hq .header)

/-- A digit of a port is added whatever the version. -/
theorem stepPort_withVersion (hq : q.d.version ≠ .undefined) (place : HostPlace) (i : Nat)
    (n : Option Int) : VersionOnly (q.stepPort place i n x) ((q.withVersion v).stepPort place i n x) := by
  unfold stepPort stepNumber
  refine .ite (.intro hv rfl) ?_
  cases n with
  | none => exact stepNoHost_withVersion hv hq place
  | some w =>
    exact .ite (stepPortEnd_withVersion (q := q.setPort w) hv hq)
      (stepHalt_withVersion hv (q.setPort w).accept x)

theorem stepUriSep_withVersion (hq : q.d.version ≠ .undefined) (i : Nat) :
    VersionOnly (q.stepUriSep i x) ((q.withVersion v).stepUriSep i x) :=
  stepMatch_withVersion hv rfl (stepRelative_withVersion hv hq)

theorem stepUri_withVersion (hq : q.d.version ≠ .undefined) (i : Nat) :
    VersionOnly (q.stepUri i x) ((q.withVersion v).stepUri i x) :=
  stepMatch_withVersion hv rfl (stepRelative_withVersion hv hq)

/-- In the headers nothing looks at the version. -/
theorem stepHeaders_withVersion :
    VersionOnly (q.stepHeaders x) ((q.withVersion v).stepHeaders x) := .intro hv rfl

theorem stepHostName_withVersion (i : Nat) :
    VersionOnly (q.stepHostName i x) ((q.withVersion v).stepHostName i x) :=
  stepMatch_withVersion hv rfl (stepHeaders_withVersion hv)

theorem stepCr_withVersion (i : Nat) :
    VersionOnly (q.stepCr i x) ((q.withVersion v).stepCr i x) :=
  stepMatch_withVersion hv rfl (stepHeaders_withVersion hv)

theorem stepCrlf_withVersion (i : Nat) :
    VersionOnly (q.stepCrlf i x) ((q.withVersion v).stepCrlf i x) :=
  stepMatch_withVersion hv rfl (stepHeaders_withVersion hv)

theorem stepChecked_withVersion :
    VersionOnly (q.stepChecked x) ((q.withVersion v).stepChecked x) := by
  unfold stepChecked
  exact .ite (stepHalt_withVersion hv q.accept x) (stepHeaders_withVersion hv)

theorem stepLocalName_withVersion (i : Nat) :
    VersionOnly (q.stepLocalName i x) ((q.withVersion v).stepLocalName i x) :=
  stepMatch_withVersion hv rfl (stepChecked_withVersion hv)

theorem stepLocalHost_withVersion :
    VersionOnly (q.stepLocalHost x) ((q.withVersion v).stepLocalHost x) := by
  unfold stepLocalHost
  exact .ite ((stepChecked_withVersion hv).emit _) (stepLocalName_withVersion hv 0)

/-- Behind a method the machine goes on, or stops with an error. -/
theorem afterMethod_withVersion (m : HttpMethod) (e : List UInt8) :
    VersionOnly (q.afterMethod m, e) ((q.withVersion v).afterMethod m, e) := by
  unfold afterMethod
  simp only
  split
  · exact .intro hv rfl
  · exact .intro hv rfl

theorem stepSpaceUri_withVersion (hq : q.d.version ≠ .undefined) :
    VersionOnly (q.stepSpaceUri x) ((q.withVersion v).stepSpaceUri x) :=
  stepSpace_withVersion hv (stepUri_withVersion hv hq 0)

/-- The target is reached with the method that was read. -/
theorem stepAfterMethod_withVersion (hq : q.d.version ≠ .undefined) (m : HttpMethod) :
    VersionOnly (q.stepAfterMethod m x) ((q.withVersion v).stepAfterMethod m x) := by
  unfold stepAfterMethod
  split
  · exact stepSpaceUri_withVersion (q := { q with d := { q.d with method := m } }) hv hq
  · next hm =>
    unfold afterMethod
    simp only [hm]
    exact stepHalt_withVersion hv _ x

/-- The methods that begin with a letter are tried one after the other, whatever the version. The
induction is on those still to try. -/
theorem stepMethodIn_withVersion (hq : q.d.version ≠ .undefined) (c : UInt8)
    (opts : List (List UInt8 × HttpMethod)) (i : Nat) :
    VersionOnly (q.stepMethodIn c opts i x) ((q.withVersion v).stepMethodIn c opts i x) := by
  induction opts generalizing i with
  | nil => exact stepAfterMethod_withVersion hv hq q.d.method
  | cons o rest ih =>
    unfold stepMethodIn
    refine .ite ?_ (ih 0)
    unfold ReqMachine.stepMatch HttpProxy.stepMatch
    refine .ite ?_ (ih 0)
    split
    · exact afterMethod_withVersion hv o.2 _
    · exact .intro hv rfl

theorem stepMethod_withVersion :
    VersionOnly (q.stepMethod x) ((q.withVersion v).stepMethod x) := by
  unfold stepMethod
  simp only
  split
  · exact afterMethod_withVersion hv _ _
  · exact .intro hv rfl

/-- What is behind blanks does not depend on the version. -/
theorem stepSpaceTo_withVersion (hq : q.d.version ≠ .undefined) (n : AfterSpaces) :
    VersionOnly (q.stepSpaceTo n x) ((q.withVersion v).stepSpaceTo n x) := by
  cases n with
  | uri => exact stepSpaceUri_withVersion hv hq
  | version => exact stepSpaceVersion_withVersion hv hq
  | host => exact stepSpace_withVersion hv (stepHost_withVersion hv .header 0)

/-- No step depends on the version. -/
theorem step_withVersion (h : q.Inv) : VersionOnly (q.step x) ((q.withVersion v).step x) := by
  have live := fun {ctl : ReqCtl} (hctl : q.ctl = ctl) hne => (h.live hctl hne).1.version
  have hctl' : (q.withVersion v).ctl = q.ctl := rfl
  unfold step
  rw [hctl']
  cases hctl : q.ctl with
  | method => exact stepMethod_withVersion hv
  | methodIn => exact stepMethodIn_withVersion hv (live hctl nofun) _ _ _
  | space n => exact stepSpaceTo_withVersion hv (live hctl nofun) n
  | uri => exact stepUri_withVersion hv (live hctl nofun) _
  | uriSep => exact stepUriSep_withVersion hv (live hctl nofun) _
  | host place i => exact stepHost_withVersion hv place i
  | port => exact stepPort_withVersion hv (live hctl nofun) _ _ _
  | portEnd => exact stepPortEnd_withVersion hv (live hctl nofun)
  | relative => exact stepRelative_withVersion hv (live hctl nofun)
  | refused => exact stepRefused_withVersion hv
  | version => exact stepVersion_withVersion hv (live hctl nofun) _
  | versionDigit => exact stepVersionDigit_withVersion hv (live hctl nofun)
  | startLineEnd i => exact stepStartLineEnd_withVersion hv i
  | localHost => exact stepLocalHost_withVersion hv
  | localName i => exact stepLocalName_withVersion hv i
  | headers => exact stepHeaders_withVersion hv
  | hostName i => exact stepHostName_withVersion hv i
  | cr i => exact stepCr_withVersion hv i
  | crlf i => exact stepCrlf_withVersion hv i
  | halt => exact stepHalt_withVersion hv q x

omit hv

/-! ## The place of a host in the target -/

def moved (q : ReqMachine) : ReqMachine := q.goto q.ctl.moved

/-- The authority of the target is refused at `x`, in the call that read `http://`. -/
def refusesOn (q : ReqMachine) (x : Cell) : Bool :=
  match q.ctl with
  | .host .uri i => HOST_MAX_SIZE ≤ i + 1 && isHostChar (tolower x.1)
  | .port .uri _ none => !isdigit x.1
  | _ => false

/-- The authority that the machine is in is refused before it ends. -/
def refuses : ReqMachine → List Cell → Bool
  | _, [] => false
  | q, x :: l => q.refusesOn x || (q.ctl.moved != q.ctl && refuses (q.step x).1 l)

/-- `r'` is `r` but for the place of a host in the target. -/
def PlaceOnly (r r' : Out) : Prop := r' = r ∨ r' = (r.1.moved, r.2)

/-- A test that sees the same in both places. -/
theorem PlaceOnly.ite {p p' : Prop} [Decidable p] [Decidable p'] {r₁ r₁' r₂ r₂' : Out}
    (hp : p' ↔ p) (h₁ : p → PlaceOnly r₁ r₁') (h₂ : ¬p → PlaceOnly r₂ r₂') :
    PlaceOnly (if p then r₁ else r₂) (if p' then r₁' else r₂') := by
  by_cases h : p
  · rw [if_pos h, if_pos (hp.mpr h)]
    exact h₁ h
  · rw [if_neg h, if_neg (mt hp.mp h)]
    exact h₂ h

/-- A host in the target that is not refused is read alike in both places. -/
theorem step_moved (q : ReqMachine) (x : Cell) (h : q.refusesOn x = false) :
    PlaceOnly (q.step x) (q.moved.step x) := by
  have hstay : ∀ {ctl : ReqCtl}, q.ctl = ctl → ctl.moved = ctl → q.moved = q := by
    intro ctl hctl hm
    unfold moved
    rw [hctl, hm, ← hctl]
    rfl
  unfold refusesOn at h
  cases hctl : q.ctl with
  | host place i =>
    cases place with
    | uri =>
      obtain ⟨ctl, d, calls⟩ := q
      obtain rfl : ctl = .host .uri i := hctl
      have hplace : (HostPlace.uriHost ≠ .header ∧ tolower x.1 = 0x40) ↔
          (HostPlace.uri ≠ .header ∧ tolower x.1 = 0x40) :=
        and_congr_left' ⟨fun _ => nofun, fun _ => nofun⟩
      refine .ite Iff.rfl (fun hc => ?_) fun _ => .ite hplace (fun _ => .inr rfl) fun _ =>
        .ite Iff.rfl (fun _ => .inr rfl) fun _ => .inl rfl
      have hlt : i + 1 < HOST_MAX_SIZE := by
        simp only [hc, Bool.and_true, decide_eq_false_iff_not, Nat.not_le] at h
        exact h
      simp only [if_pos hlt]
      exact .inr rfl
    | uriHost => rw [hstay hctl rfl]; exact .inl rfl
    | header => rw [hstay hctl rfl]; exact .inl rfl
  | port place i n =>
    cases place with
    | uri =>
      obtain ⟨ctl, d, calls⟩ := q
      obtain rfl : ctl = .port .uri i n := hctl
      refine PlaceOnly.ite Iff.rfl (fun _ => .inr rfl) fun hd => ?_
      cases n with
      | none =>
        simp only [Bool.not_eq_false'] at h
        exact absurd h hd
      | some v => exact .inl rfl
    | uriHost => rw [hstay hctl rfl]; exact .inl rfl
    | header => rw [hstay hctl rfl]; exact .inl rfl
  | _ => rw [hstay hctl rfl]; exact .inl rfl

/-! ## What a resumed machine forgets -/

/-- `q'` is what a machine that was interrupted and resumed is in place of `q`; `late` says that
the version may have been forgotten. -/
inductive Like (late : Prop) (q : ReqMachine) : ReqMachine → Prop
  | same (v : HttpVersion) (hv : v ≠ .undefined) (hlate : late ∨ v = q.d.version) :
      Like late q (q.withVersion v)
  | moved (v : HttpVersion) (hv : v ≠ .undefined) (hlate : late ∨ v = q.d.version) :
      Like late q (q.moved.withVersion v)

/-- Forgetting the version lasts. -/
theorem step_same (late : Prop) (h : q.Inv) (hv : v ≠ .undefined) (hlate : late ∨ v = q.d.version)
    (x : Cell) :
    ∃ u, u ≠ .undefined ∧ (late ∨ u = (q.step x).1.d.version) ∧
      (q.withVersion v).step x = ((q.step x).1.withVersion u, (q.step x).2) := by
  obtain ⟨u, hu, hstep⟩ := step_withVersion (x := x) hv h
  refine ⟨u, hu, ?_, hstep⟩
  refine hlate.imp id fun hver => ?_
  subst hver
  have hsame : q.step x = ((q.step x).1.withVersion u, (q.step x).2) := hstep
  exact (congrArg (fun r : Out => r.1.d.version) hsame).symm

/-- A run of the machine with another version writes the same and ends in a machine like it. -/
theorem run_same {late : Prop} (l : List Cell) : ∀ {q : ReqMachine} {v : HttpVersion}, q.Inv →
    v ≠ .undefined → (late ∨ v = q.d.version) →
    Like late (reqMachine.stateAfter q l) (reqMachine.stateAfter (q.withVersion v) l) ∧
      reqMachine.emitted (q.withVersion v) l = reqMachine.emitted q l := by
  induction l with
  | nil => exact fun _ hv hlate => ⟨.same _ hv hlate, rfl⟩
  | cons x l ih =>
    intro q v h hv hlate
    obtain ⟨u, hu, hulate, hstep⟩ := step_same late h hv hlate x
    have hs : reqMachine.step (q.withVersion v) x = _ := hstep
    obtain ⟨hlike, hemit⟩ := ih (inv_step (x := x) h) hu hulate
    rw [Transducer.stateAfter_cons, Transducer.stateAfter_cons, Transducer.emitted_cons,
      Transducer.emitted_cons, hs]
    exact ⟨hlike, congrArg _ hemit⟩

/-- A machine that is not in a host of the target has no other place. -/
theorem moved_of_eq {q : ReqMachine} (h : q.ctl.moved = q.ctl) : q.moved = q := by
  unfold moved
  rw [h]
  rfl

/-- The invariant holds in both places for a host in the target. -/
theorem Inv.moved (h : q.Inv) : q.moved.Inv := by
  cases hctl : q.ctl with
  | host place i =>
    obtain ⟨hq, hb⟩ := h.live hctl nofun
    unfold ReqMachine.moved
    rw [hctl]
    cases place <;> exact hq.inv hb
  | port place i n =>
    obtain ⟨hq, hb⟩ := h.live hctl nofun
    unfold ReqMachine.moved
    rw [hctl]
    cases place <;> exact hq.inv hb
  | _ => rw [moved_of_eq (by rw [hctl]; rfl)]; exact h

/-- What a control state bounds does not mention the version. -/
theorem bounded_withVersion {d : RequestFields} {ctl : ReqCtl} (h : ctl.Bounded d)
    (v : HttpVersion) : ctl.Bounded { d with version := v } := by
  cases ctl <;> exact h

/-- The invariant holds for every version that there is. -/
theorem Inv.withVersion (h : q.Inv) (hv : v ≠ .undefined) : (q.withVersion v).Inv := by
  have hctl' : (q.withVersion v).ctl = q.ctl := rfl
  cases hctl : q.ctl with
  | halt why unread =>
    unfold Inv at h ⊢
    rw [hctl', hctl]
    rw [hctl] at h
    cases why with
    | stalled => exact ⟨hv, h.state, h.calls⟩
    | accepted => exact h
    | _ => trivial
  | _ =>
    obtain ⟨hq, hb⟩ := h.live hctl nofun
    have hinv := Live.inv (q := q.withVersion v) ⟨hv, hq.state, hq.calls⟩
      (bounded_withVersion hb v)
    rw [← hctl] at hinv
    exact hinv

/-- In both places the parser pushes back the same. -/
theorem pushBack_moved (q : ReqMachine) : q.moved.pushBack = q.pushBack := by
  obtain ⟨ctl, d, calls⟩ := q
  cases ctl with
  | host place i => cases place <;> rfl
  | port place i n => cases place <;> rfl
  | _ => rfl

/-- A run from the other place for a host writes the same, as long as the authority is not refused:
step by step in the host, and by `run_same` behind it. -/
theorem run_moved {late : Prop} (l : List Cell) : ∀ {q : ReqMachine} {v : HttpVersion}, q.Inv →
    v ≠ .undefined → (late ∨ v = q.d.version) → q.refuses l = false →
    Like late (reqMachine.stateAfter q l) (reqMachine.stateAfter (q.moved.withVersion v) l) ∧
      reqMachine.emitted (q.moved.withVersion v) l = reqMachine.emitted q l := by
  induction l with
  | nil => exact fun _ hv hlate _ => ⟨.moved _ hv hlate, rfl⟩
  | cons x l ih =>
    intro q v h hv hlate hr
    by_cases hm : q.ctl.moved = q.ctl
    · rw [moved_of_eq hm]
      exact run_same (x :: l) h hv hlate
    simp only [refuses, Bool.or_eq_false_iff, bne_iff_ne.mpr hm, Bool.true_and] at hr
    obtain ⟨u, hu, hulate, hstep⟩ := step_same late h.moved hv hlate x
    have hs : reqMachine.step (q.moved.withVersion v) x = _ := hstep
    rw [Transducer.stateAfter_cons, Transducer.stateAfter_cons, Transducer.emitted_cons,
      Transducer.emitted_cons, hs]
    rcases step_moved q x hr.1 with hout | hout
    · rw [hout] at hulate ⊢
      obtain ⟨hlike, hemit⟩ := run_same l (inv_step (x := x) h) hu hulate
      exact ⟨hlike, congrArg _ hemit⟩
    · rw [hout] at hulate ⊢
      obtain ⟨hlike, hemit⟩ := ih (inv_step (x := x) h) hu hulate hr.2
      exact ⟨hlike, congrArg _ hemit⟩

end ReqMachine

end HttpProxy
