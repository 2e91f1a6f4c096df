import HttpProxy.SecondPass
import Mathlib.Data.List.Induction

/-!
# The way through the headers

Behind the start line the machine looks for `host:` in every byte, wherever it stands in a line. `headRun` says
how that ends: it finds the first, with nothing skipped in front of it, or the call ends. Behind it the value is
read without a line feed (`value_read`).
-/

namespace HttpProxy

namespace ReqMachine

variable {q : ReqMachine} {x : Cell}

/-! ## In front of a Host field -/

/-- Control states in which no `host:` was read yet. -/
def Head : ReqCtl → Prop
  | .localHost | .localName _ | .headers | .hostName _ | .cr _ | .crlf _ => True
  | _ => False

/-- What a step makes of a machine in the headers: it stays there, a `host:` is read, or the call ends. -/
inductive HeadStep (q : ReqMachine) (x : Cell) (q' : ReqMachine) : Prop
  | stays {ctl : ReqCtl} (eq : q' = q.goto ctl) (head : Head ctl)
      (name : ∀ j, ctl = .hostName j → j = 0 ∧ toupper x.1 = 0x48 ∨
        ∃ i, q.ctl = .hostName i ∧ j = i + 1 ∧ toupper x.1 = (lit "OST:").getD i 0)
  | found (ctl : q.ctl = .hostName 3) (colon : toupper x.1 = 0x3a) (eq : q' = q.goto (.space .host))
  | ends {why : Halt} {unread : List Cell} (ctl : q'.ctl = .halt why unread)
      (local_ : why = .accepted → q'.d.isLocalHost = true)

/-- A byte looked at afresh. -/
theorem headStep_stepHeaders : HeadStep q x (q.stepHeaders x).1 := by
  unfold stepHeaders
  simp only
  refine .stays rfl ?_ fun j hj => ?_
  · split
    · trivial
    · split <;> trivial
  · split at hj
    · next hc => exact .inl ⟨(ReqCtl.hostName.inj hj).symm, hc⟩
    · split at hj <;> cases hj

/-- A step in a format whose ends are steps through the headers. -/
theorem headStep_match {format : List UInt8} {i : Nat} {inside : Nat → ReqCtl} {done : ReqMachine}
    {miss : Cell → Out}
    (hin : toupper x.1 = toupper (format.getD i 0) → i + 1 ≠ format.length →
      HeadStep q x (q.goto (inside (i + 1))))
    (hdone : toupper x.1 = toupper (format.getD i 0) → i + 1 = format.length → HeadStep q x done)
    (hmiss : HeadStep q x (miss x).1) : HeadStep q x (q.stepMatch format i inside done miss x).1 := by
  unfold ReqMachine.stepMatch HttpProxy.stepMatch
  split
  · next heq =>
    split
    · next hlast => exact hdone heq hlast
    · next hlast => exact hin heq hlast
  · exact hmiss

/-- Behind the check for the mark the byte is looked at as any other. -/
theorem headStep_stepChecked (hlocal : q.d.isLocalHost = false) : HeadStep q x (q.stepChecked x).1 := by
  unfold stepChecked
  rw [if_neg (Bool.eq_false_iff.mp hlocal)]
  exact headStep_stepHeaders

/-- A step through the headers. -/
theorem headStep_step (hq : q.Inv) (hlocal : q.d.isLocalHost = false) (h : Head q.ctl) :
    HeadStep q x (q.step x).1 := by
  obtain ⟨ctl, d, calls⟩ := q
  have hin : ∀ {ctl' : ReqCtl}, Head ctl' → (∀ j, ctl' ≠ .hostName j) →
      HeadStep ⟨ctl, d, calls⟩ x (goto ⟨ctl, d, calls⟩ ctl') :=
    fun hhead hname => .stays rfl hhead fun j hj => absurd hj (hname j)
  cases ctl with
  | localHost =>
    change HeadStep _ x (stepLocalHost _ x).1
    unfold stepLocalHost
    split
    · exact headStep_stepChecked hlocal
    · exact headStep_match (fun _ _ => hin trivial nofun) (fun _ _ => .ends rfl fun _ => rfl)
        (headStep_stepChecked hlocal)
  | localName i =>
    exact headStep_match (fun _ _ => hin trivial nofun) (fun _ _ => .ends rfl fun _ => rfl)
      (headStep_stepChecked hlocal)
  | headers => exact headStep_stepHeaders
  | hostName i =>
    have hi : i < (lit "OST:").length := (hq.live rfl nofun).2
    have hupper : ∀ i < (lit "OST:").length, toupper ((lit "OST:").getD i 0) = (lit "OST:").getD i 0 := by decide
    refine headStep_match (fun heq hlast => .stays rfl trivial ?_) (fun heq hlast => ?_) headStep_stepHeaders
    · intro j hj
      obtain rfl := (ReqCtl.hostName.inj hj).symm
      exact .inr ⟨i, rfl, rfl, heq.trans (hupper i hi)⟩
    · obtain rfl : i = 3 := Nat.succ_injective hlast
      exact .found rfl heq rfl
  | cr i =>
    exact headStep_match (fun _ _ => hin trivial nofun) (fun _ _ => hin trivial nofun) headStep_stepHeaders
  | crlf i =>
    exact headStep_match (fun _ _ => hin trivial nofun) (fun _ _ => .ends rfl nofun) headStep_stepHeaders
  | _ => exact absurd h id


/-! ## Behind a Host field -/

/-- Control states in which the value of a `Host` header is read. -/
def InValue : ReqCtl → Prop
  | .space .host | .host .header _ | .port .header _ _ | .portEnd => True
  | _ => False

/-- What a step makes of a machine in the value: it stays there, or the call ends. -/
inductive ValueStep (x : Cell) (q' : ReqMachine) : Prop
  | stays (value : InValue q'.ctl) (lf : x.1 ≠ LF)
  | ends {why : Halt} {unread : List Cell} (ctl : q'.ctl = .halt why unread)
      (unread_ : why = .accepted → unread = [x])

/-- A call that ends leaves its byte unread. -/
theorem valueStep_halt {why : Halt} (h : q.ctl = .halt why []) : ValueStep x (q.stepHalt x).1 := by
  unfold stepHalt
  simp only [h]
  exact .ends rfl fun _ => rfl

/-- A byte of the host, or the one behind it. -/
theorem valueStep_stepHost (i : Nat) : ValueStep x (q.stepHost .header i x).1 := by
  have hlf : x.1 = LF → isHostChar (tolower x.1) = false ∧ tolower x.1 ≠ 0x3a := by
    intro h
    rw [h]
    decide
  unfold stepHost stepHostEnd noHost
  simp only
  split
  · next hchar =>
    have hne : x.1 ≠ LF := fun h => by
      rw [(hlf h).1] at hchar
      cases hchar
    split
    · exact .stays trivial hne
    · split
      · exact .ends rfl nofun
      · exact .stays trivial hne
  · split
    · next hat => exact absurd rfl hat.1
    · split
      · next hcolon => exact .stays trivial fun h => (hlf h).2 hcolon
      · split
        · exact valueStep_halt rfl
        · split
          · exact valueStep_halt rfl
          · exact valueStep_halt rfl

/-- Where no host was read the call ends, or the byte is the first of one. -/
theorem valueStep_stepNoHost : ValueStep x (q.stepNoHost .header x).1 := by
  unfold stepNoHost
  simp only
  split
  · exact valueStep_halt rfl
  · exact valueStep_stepHost 0

/-- The byte behind the port. -/
theorem valueStep_stepPortEnd : ValueStep x (q.stepPortEnd x).1 := by
  unfold stepPortEnd
  split
  · exact valueStep_halt rfl
  · exact valueStep_stepNoHost

/-- A byte of the port, or the one behind it. -/
theorem valueStep_stepPort (i : Nat) (n : Option Int) : ValueStep x (q.stepPort .header i n x).1 := by
  unfold stepPort stepNumber
  split
  · next hdigit =>
    refine .stays trivial fun h => ?_
    rw [h] at hdigit
    exact absurd hdigit (by decide)
  · cases n with
    | some v => exact valueStep_stepPortEnd
    | none => exact valueStep_stepNoHost

/-- A step through the value. -/
theorem valueStep_step (h : InValue q.ctl) : ValueStep x (q.step x).1 := by
  obtain ⟨ctl, d, calls⟩ := q
  cases ctl with
  | space n =>
    cases n with
    | host =>
      change ValueStep x (stepSpace _ .host _ x).1
      unfold stepSpace
      split
      · next hblank =>
        refine .stays trivial fun h => ?_
        rw [h] at hblank
        exact absurd hblank (by decide)
      · exact valueStep_stepHost 0
    | uri => exact absurd h id
    | version => exact absurd h id
  | host place i =>
    cases place with
    | header => exact valueStep_stepHost i
    | uri => exact absurd h id
    | uriHost => exact absurd h id
  | port place i n =>
    cases place with
    | header => exact valueStep_stepPort i n
    | uri => exact absurd h id
    | uriHost => exact absurd h id
  | portEnd => exact valueStep_stepPortEnd
  | _ => exact absurd h id

/-- What a halted machine is at the end of a run. -/
theorem ctl_of_halt {why : Halt} {unread : List Cell} (h : q.ctl = .halt why unread) (l : List Cell) :
    (reqMachine.stateAfter q l).ctl = .halt why (unread ++ l) :=
  congrArg (fun r => (Prod.fst r).ctl) (run_of_halt h l)

/-- No run leads from the value back to the headers: `valueStep_step` along it. -/
theorem not_head_of_value (l : List Cell) (h : InValue q.ctl) : ¬Head (reqMachine.stateAfter q l).ctl := by
  induction l generalizing q with
  | nil =>
    rw [Transducer.stateAfter_nil]
    intro hhead
    cases hctl : q.ctl <;> rw [hctl] at h hhead <;> first | exact h | exact hhead
  | cons x l ih =>
    rw [Transducer.stateAfter_cons]
    cases valueStep_step (x := x) h with
    | stays value lf => exact ih value
    | ends ctl unread_ =>
      rw [show (reqMachine.stateAfter (reqMachine.step q x).1 l).ctl = _ from ctl_of_halt ctl l]
      exact id

/-- A call that accepts the request in the value has read no line feed there. -/
theorem value_read (v : List UInt8) {unread : List Cell} (h : InValue q.ctl)
    (hacc : (reqMachine.stateAfter q (fresh v)).ctl = .halt .accepted unread) :
    ∃ read rest, v = read ++ rest ∧ LF ∉ read ∧ unread = fresh rest := by
  induction v generalizing q with
  | nil =>
    rw [fresh_nil, Transducer.stateAfter_nil] at hacc
    rw [hacc] at h
    exact absurd h id
  | cons c v ih =>
    rw [fresh_cons, Transducer.stateAfter_cons] at hacc
    cases valueStep_step (x := (c, false)) h with
    | stays value lf =>
      obtain ⟨read, rest, rfl, hread, hrest⟩ := ih value hacc
      exact ⟨c :: read, rest, rfl, List.not_mem_cons_of_ne_of_not_mem (Ne.symm lf) hread, hrest⟩
    | ends ctl unread_ =>
      obtain ⟨hwhy, hunread⟩ := ReqCtl.halt.inj ((ctl_of_halt ctl _).symm.trans hacc)
      rw [unread_ hwhy] at hunread
      exact ⟨[], c :: v, rfl, List.not_mem_nil, hunread.symm⟩

/-! ## The first Host field -/

/-- The machine is behind `i + 1` bytes of a `host:` that stands in a line, or in the name of the mark. -/
def AtName (i : Nat) (ctl : ReqCtl) : Prop := ctl = .hostName i ∨ ctl = .localName (8 + i)

/-- An `h` may begin a `host:`, wherever it stands in the headers. -/
theorem atName_first (hq : q.Inv) (hlocal : q.d.isLocalHost = false) (h : Head q.ctl)
    (hx : toupper x.1 = 0x48) : ∃ ctl, AtName 0 ctl ∧ (q.step x).1 = q.goto ctl := by
  have hheaders : (q.stepHeaders x).1 = q.goto (.hostName 0) := by
    unfold stepHeaders
    simp only [hx, if_true]
  have hchecked : (q.stepChecked x).1 = q.goto (.hostName 0) := by
    unfold stepChecked
    rw [if_neg (Bool.eq_false_iff.mp hlocal)]
    exact hheaders
  have hmiss : ∀ {format : List UInt8} {i : Nat} {inside : Nat → ReqCtl} {done : ReqMachine},
      toupper (format.getD i 0) ≠ 0x48 →
        (q.stepMatch format i inside done q.stepHeaders x).1 = q.goto (.hostName 0) := by
    intro format i inside done hne
    unfold ReqMachine.stepMatch HttpProxy.stepMatch
    rw [hx, if_neg (Ne.symm hne)]
    exact hheaders
  obtain ⟨ctl, d, calls⟩ := q
  cases ctl with
  | localHost =>
    refine ⟨_, .inl rfl, ?_⟩
    change (stepLocalHost _ x).1 = _
    unfold stepLocalHost
    rw [if_pos (by rw [hx]; decide)]
    exact hchecked
  | localName i =>
    have hi : i < (lit "X-LOCALHOST:").length := (hq.live rfl nofun).2.2
    have hformat : ∀ i < (lit "X-LOCALHOST:").length,
        toupper ((lit "X-LOCALHOST:").getD i 0) = 0x48 → i = 7 := by decide
    change ∃ ctl, AtName 0 ctl ∧ (stepLocalName _ i x).1 = _
    unfold stepLocalName ReqMachine.stepMatch HttpProxy.stepMatch
    rw [hx]
    split
    · next heq =>
      obtain rfl := hformat i hi heq.symm
      exact ⟨_, .inr rfl, rfl⟩
    · exact ⟨_, .inl rfl, hchecked⟩
  | headers => exact ⟨_, .inl rfl, hheaders⟩
  | hostName i =>
    have hi : i < (lit "OST:").length := (hq.live rfl nofun).2
    have hformat : ∀ i < (lit "OST:").length, toupper ((lit "OST:").getD i 0) ≠ 0x48 := by decide
    exact ⟨_, .inl rfl, hmiss (hformat i hi)⟩
  | cr i =>
    have hi : i < [LF].length := (hq.live rfl nofun).2
    have hformat : ∀ i < [LF].length, toupper ([LF].getD i 0) ≠ 0x48 := by decide
    exact ⟨_, .inl rfl, hmiss (hformat i hi)⟩
  | crlf i =>
    have hi : i < [CR, LF].length := (hq.live rfl nofun).2
    have hformat : ∀ i < [CR, LF].length, toupper ([CR, LF].getD i 0) ≠ 0x48 := by decide
    exact ⟨_, .inl rfl, hmiss (hformat i hi)⟩
  | _ => exact absurd h id

/-- The next byte of it. -/
theorem atName_next {i : Nat} {ctl : ReqCtl} (h : AtName i ctl) (hi : i < 3)
    (hx : toupper x.1 = (lit "OST:").getD i 0) :
    ∃ ctl', AtName (i + 1) ctl' ∧ ((q.goto ctl).step x).1 = q.goto ctl' := by
  have hformats : ∀ i < 3, toupper ((lit "OST:").getD i 0) = (lit "OST:").getD i 0 ∧
      toupper ((lit "X-LOCALHOST:").getD (8 + i) 0) = (lit "OST:").getD i 0 ∧
      i + 1 ≠ (lit "OST:").length ∧ 8 + i + 1 ≠ (lit "X-LOCALHOST:").length := by decide
  obtain ⟨hhost, hlocal, hlen, hlen'⟩ := hformats i hi
  rcases h with rfl | rfl
  · refine ⟨_, .inl rfl, ?_⟩
    change ((q.goto (.hostName i)).stepHostName i x).1 = _
    unfold stepHostName ReqMachine.stepMatch HttpProxy.stepMatch
    rw [if_pos (hx.trans hhost.symm), if_neg hlen]
    rfl
  · refine ⟨_, .inr rfl, ?_⟩
    change ((q.goto (.localName (8 + i))).stepLocalName (8 + i) x).1 = _
    unfold stepLocalName ReqMachine.stepMatch HttpProxy.stepMatch
    rw [if_pos (hx.trans hlocal.symm), if_neg hlen']
    rfl

/-- The last byte of it leads out of the headers. -/
theorem atName_last {ctl : ReqCtl} (h : AtName 3 ctl) (hx : toupper x.1 = 0x3a) :
    InValue ((q.goto ctl).step x).1.ctl ∨ ∃ why unread, ((q.goto ctl).step x).1.ctl = .halt why unread := by
  rcases h with rfl | rfl
  · left
    change InValue ((q.goto (.hostName 3)).stepHostName 3 x).1.ctl
    unfold stepHostName ReqMachine.stepMatch HttpProxy.stepMatch
    rw [if_pos (hx.trans (by decide)), if_pos (by decide)]
    trivial
  · right
    refine ⟨.accepted, [], ?_⟩
    change ((q.goto (.localName 11)).stepLocalName 11 x).1.ctl = _
    unfold stepLocalName ReqMachine.stepMatch HttpProxy.stepMatch
    rw [if_pos (hx.trans (by decide)), if_pos (by decide)]
    rfl

/-- Behind a `host:` the machine is out of the headers. -/
theorem not_head_of_name (hq : q.Inv) (hlocal : q.d.isLocalHost = false) (h : Head q.ctl) {n : List UInt8}
    (hn : n.map toupper = lit "HOST:") (l : List Cell) :
    ¬Head (reqMachine.stateAfter q (fresh n ++ l)).ctl := by
  obtain ⟨c₀, n₀, rfl, h₀, hn⟩ := List.map_eq_cons_iff.mp
    (hn.trans (show lit "HOST:" = 0x48 :: lit "OST:" by decide))
  obtain ⟨c₁, n₁, rfl, h₁, hn⟩ := List.map_eq_cons_iff.mp
    (hn.trans (show lit "OST:" = 0x4f :: lit "ST:" by decide))
  obtain ⟨c₂, n₂, rfl, h₂, hn⟩ := List.map_eq_cons_iff.mp
    (hn.trans (show lit "ST:" = 0x53 :: lit "T:" by decide))
  obtain ⟨c₃, n₃, rfl, h₃, hn⟩ := List.map_eq_cons_iff.mp
    (hn.trans (show lit "T:" = 0x54 :: lit ":" by decide))
  obtain ⟨c₄, n₄, rfl, h₄, hn⟩ := List.map_eq_cons_iff.mp
    (hn.trans (show lit ":" = 0x3a :: [] by decide))
  obtain rfl : n₄ = [] := List.map_eq_nil_iff.mp hn
  obtain ⟨ctl₀, hat₀, hs₀⟩ := atName_first (x := (c₀, false)) hq hlocal h h₀
  obtain ⟨ctl₁, hat₁, hs₁⟩ := atName_next (q := q) (x := (c₁, false)) hat₀ (by decide) h₁
  obtain ⟨ctl₂, hat₂, hs₂⟩ := atName_next (q := q) (x := (c₂, false)) hat₁ (by decide) h₂
  obtain ⟨ctl₃, hat₃, hs₃⟩ := atName_next (q := q) (x := (c₃, false)) hat₂ (by decide) h₃
  have hlast := atName_last (q := q) (x := (c₄, false)) hat₃ h₄
  have hrun : reqMachine.stateAfter q (fresh [c₀, c₁, c₂, c₃, c₄] ++ l) =
      reqMachine.stateAfter ((q.goto ctl₃).step (c₄, false)).1 l := by
    rw [← hs₃, ← hs₂, ← hs₁, ← hs₀]
    rfl
  rw [hrun]
  rcases hlast with hvalue | ⟨why, unread, hctl⟩
  · exact not_head_of_value l hvalue
  · rw [ctl_of_halt hctl]
    exact id

/-- The machine went through `u`, from the check for the mark on, without leaving the headers. -/
structure Heads (q : ReqMachine) (u : List UInt8) : Prop where
  head : ∀ p, p <+: u → ∃ ctl, reqMachine.stateAfter q (fresh p) = q.goto ctl ∧ Head ctl
  name : ∀ i, (reqMachine.stateAfter q (fresh u)).ctl = .hostName i →
    (lit "HOST:").take (i + 1) <:+ u.map toupper

/-- A byte that leaves the machine in the headers. -/
theorem Heads.snoc {u : List UInt8} (h : Heads q u) {c : UInt8} {ctl : ReqCtl}
    (hstep : reqMachine.stateAfter q (fresh (u ++ [c])) = q.goto ctl) (hhead : Head ctl)
    (hname : ∀ j, ctl = .hostName j → (lit "HOST:").take (j + 1) <:+ (u ++ [c]).map toupper) :
    Heads q (u ++ [c]) where
  head := by
    intro p hp
    rcases List.prefix_concat_iff.mp hp with rfl | hp
    · exact ⟨ctl, hstep, hhead⟩
    · exact h.head p hp
  name := by
    intro j hj
    rw [hstep] at hj
    exact hname j hj

/-- No `host:` is in what the machine went through in the headers. -/
theorem Heads.no_name {u : List UInt8} (h : Heads q u) (hq : q.Inv) (hlocal : q.d.isLocalHost = false) :
    ¬lit "HOST:" <:+: u.map toupper := by
  rintro ⟨as, bs, hsplit⟩
  obtain ⟨u', v, rfl, hu', rfl⟩ := List.map_eq_append_iff.mp hsplit.symm
  obtain ⟨p, n, rfl, rfl, hn⟩ := List.map_eq_append_iff.mp hu'
  obtain ⟨ctl, hp, hhead⟩ := h.head p ⟨n ++ v, by rw [List.append_assoc]⟩
  obtain ⟨ctl', hend, hhead'⟩ := h.head _ List.prefix_rfl
  rw [fresh_append, fresh_append, List.append_assoc, Transducer.stateAfter_append] at hend
  have hinv := inv_stateAfter hq (fresh p)
  refine not_head_of_name hinv (by rw [hp]; exact hlocal) (by rw [hp]; exact hhead) hn (fresh v) ?_
  rw [hend]
  exact hhead'

/-- A run through the headers: it stays there, comes to a `host:`, or ends. -/
inductive HeadRun (q : ReqMachine) (w : List UInt8) : Prop
  | stays (heads : Heads q w)
  | found {u v : List UInt8} {c : UInt8} (eq : w = u ++ c :: v) (heads : Heads q u)
      (name : lit "HOST:" <:+ (u ++ [c]).map toupper)
      (after : reqMachine.stateAfter q (fresh (u ++ [c])) = q.goto (.space .host))
  | ends {why : Halt} {unread : List Cell} (ctl : (reqMachine.stateAfter q (fresh w)).ctl = .halt why unread)
      (local_ : why = .accepted → (reqMachine.stateAfter q (fresh w)).d.isLocalHost = true)

/-- The run from the check for the mark on: `headStep_step` along the bytes. -/
theorem headRun (hq : q.Inv) (hlocal : q.d.isLocalHost = false) (h : q.ctl = .localHost) (w : List UInt8) :
    HeadRun q w := by
  induction w using List.reverseRecOn with
  | nil =>
    refine .stays ⟨fun p hp => ?_, fun i hi => ?_⟩
    · obtain rfl := List.prefix_nil.mp hp
      exact ⟨.localHost, by rw [← h]; rfl, trivial⟩
    · rw [fresh_nil, Transducer.stateAfter_nil, h] at hi
      cases hi
  | append_singleton w c ih =>
    have hlast : reqMachine.stateAfter q (fresh (w ++ [c])) =
        ((reqMachine.stateAfter q (fresh w)).step (c, false)).1 := by
      rw [fresh_append, Transducer.stateAfter_append]
      rfl
    cases ih with
    | stays heads =>
      obtain ⟨ctl, hafter, hhead⟩ := heads.head w List.prefix_rfl
      have hinv : (q.goto ctl).Inv := hafter ▸ inv_stateAfter hq (fresh w)
      have hname := heads.name
      rw [hafter] at hlast hname
      cases headStep_step (x := (c, false)) hinv hlocal hhead with
      | @stays ctl' eq head name =>
        refine .stays (heads.snoc (hlast.trans eq) head fun j hj => ?_)
        rw [List.map_append]
        rcases name j hj with ⟨rfl, hc⟩ | ⟨i, hi, rfl, hc⟩
        · exact ⟨w.map toupper, by rw [List.map_singleton, hc]; rfl⟩
        · -- One more byte of the name.
          have hlt : i < (lit "OST:").length := by
            have hbounded := (hinv.live hi nofun).2
            exact hbounded
          have htake : ∀ i < (lit "OST:").length,
              (lit "HOST:").take (i + 1 + 1) = (lit "HOST:").take (i + 1) ++ [(lit "OST:").getD i 0] := by decide
          obtain ⟨v, hv⟩ := hname i hi
          rw [htake i hlt, ← hv, List.map_singleton, hc, List.append_assoc]
          exact List.suffix_append _ _
      | found ctl_eq colon eq =>
        refine .found rfl heads ?_ (hlast.trans eq)
        obtain ⟨v, hv⟩ := hname 3 ctl_eq
        rw [List.map_append, ← hv, List.map_singleton, show toupper c = 0x3a from colon, List.append_assoc]
        exact List.suffix_append _ _
      | ends ctl_eq local_ =>
        refine .ends (by rw [hlast]; exact ctl_eq) fun hwhy => ?_
        rw [hlast]
        exact local_ hwhy
    | @found u v d eq heads name after =>
      exact .found (by rw [eq, List.append_assoc]; rfl) heads name after
    | ends ctl local_ =>
      have hrun := run_of_halt ctl (fresh [c])
      have hafter : reqMachine.stateAfter (reqMachine.stateAfter q (fresh w)) (fresh [c]) = _ :=
        congrArg Prod.fst hrun
      rw [← Transducer.stateAfter_append, ← fresh_append] at hafter
      refine .ends (congrArg ReqMachine.ctl hafter) fun hwhy => ?_
      rw [hafter]
      exact local_ hwhy

end ReqMachine

end HttpProxy
