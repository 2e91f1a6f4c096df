import HttpProxy.LoopDetection

/-!
# What a target leaves in the host array

User information is copied to the host array and only its first byte is cleared. When the authority behind it is
refused without a host, the rest of it is still there when the `Host` header is read (`leaves_line`).
-/

namespace HttpProxy

/-! ## User information -/

/-- The longest user information of an authority, where `i` characters stand behind the last `@` and `m` is
the longest in front of it. -/
def longestUserinfo : Nat → Nat → List UInt8 → Nat
  | _, m, [] => m
  | i, m, c :: w =>
    if isHostChar (tolower c) then longestUserinfo (i + 1) m w
    else if tolower c = 0x40 then longestUserinfo 0 (max m i) w
    else m

/-- The length of the longest user information in a target. -/
def userinfoLength (t : List UInt8) : Nat :=
  if (t.take 7).map toupper = lit "HTTP://" then longestUserinfo 0 0 (t.drop 7) else 0

/-- Behind `http://` the authority is looked at. -/
theorem userinfoLength_scheme {t : List UInt8} (h : t.map toupper = lit "HTTP://") (s : List UInt8) :
    userinfoLength (t ++ s) = longestUserinfo 0 0 s := by
  have hlen : t.length = 7 := by
    rw [← List.length_map toupper, h]
    decide
  unfold userinfoLength
  rw [List.take_left' hlen, if_pos h, List.drop_left' hlen]

/-- A target that begins otherwise has no authority. -/
theorem userinfoLength_miss {t : List UInt8} {i : Nat} (hi : i < 7) (h : t.map toupper = (lit "HTTP://").take i)
    {c : UInt8} (hc : toupper c ≠ (lit "HTTP://").getD i 0) (s : List UInt8) : userinfoLength (t ++ c :: s) = 0 := by
  have hlen : t.length = i := by
    rw [← List.length_map toupper, h, List.length_take]
    exact Nat.min_eq_left (Nat.le_of_lt hi)
  refine if_neg fun heq => hc ?_
  have hget : (((t ++ c :: s).take 7).map toupper).getD i 0 = (lit "HTTP://").getD i 0 :=
    congrArg (List.getD · i 0) heq
  rw [← hget, List.getD_eq_getElem?_getD, List.getElem?_map, List.getElem?_take_of_lt hi, ← hlen,
    List.getElem?_append_right (Nat.le_refl _), Nat.sub_self]
  rfl

/-- The scan of an authority ends at a blank. -/
theorem longestUserinfo_blank {c : UInt8} (hc : isBlank c = true) (t s : List UInt8) :
    ∀ i m, longestUserinfo i m (t ++ c :: s) = longestUserinfo i m t := by
  have hother : isHostChar (tolower c) = false ∧ tolower c ≠ 0x40 := by
    unfold isBlank at hc
    unfold isHostChar tolower
    grind
  induction t with
  | nil =>
    intro i m
    have hstep : longestUserinfo i m (c :: s) = m := by
      rw [longestUserinfo, hother.1, if_neg Bool.false_ne_true, if_neg hother.2]
    exact hstep
  | cons d t ih =>
    intro i m
    rw [List.cons_append, longestUserinfo, longestUserinfo]
    split
    · exact ih (i + 1) m
    · split
      · exact ih 0 (max m i)
      · rfl

/-- So the target is all that matters. -/
theorem userinfoLength_blank {c : UInt8} (hc : isBlank c = true) (t s : List UInt8) :
    userinfoLength (t ++ c :: s) = userinfoLength t := by
  have hseven : (lit "HTTP://").length = 7 := by decide
  by_cases hlen : 7 ≤ t.length
  · unfold userinfoLength
    rw [List.take_append_of_le_length hlen, List.drop_append_of_le_length hlen, longestUserinfo_blank hc]
  · -- A blank is no byte of the scheme.
    have hlt : t.length < 7 := Nat.not_le.mp hlen
    have hscheme : toupper c ∉ lit "HTTP://" := by
      have hup : isBlank (toupper c) = true := by rw [isBlank_toupper, hc]
      rcases isBlank_iff.mp hup with h | h
      · rw [h]
        decide
      · rw [h]
        decide
    have hleft : ((t ++ c :: s).take 7).map toupper ≠ lit "HTTP://" := by
      intro heq
      refine hscheme ?_
      rw [← heq]
      refine List.mem_map_of_mem ?_
      rw [List.take_append, List.mem_append]
      obtain ⟨k, hk⟩ := Nat.exists_eq_succ_of_ne_zero (Nat.sub_ne_zero_of_lt hlt)
      rw [hk, List.take_succ_cons]
      exact .inr List.mem_cons_self
    have hright : (t.take 7).map toupper ≠ lit "HTTP://" := by
      intro heq
      have hl := congrArg List.length heq
      rw [List.length_map, List.length_take, hseven] at hl
      omega
    unfold userinfoLength
    rw [if_neg hleft, if_neg hright]

namespace ReqMachine

variable {q : ReqMachine} {x : Cell}

/-! ## What the target leaves in the host array -/

/-- The host array holds the `i` characters read last, and what is left of the longest user information in
front of them; no port was taken. -/
structure Leaves (i m : Nat) (d : RequestFields) : Prop where
  host : ∀ k (hk : k < HOST_MAX_SIZE), d.host[k] ≠ 0 ↔ k < i ∨ 0 < k ∧ k < m
  port : d.port = DEFAULT_PORT
  local_ : d.isLocalHost = false

/-- A character of a host. -/
theorem Leaves.char {i m : Nat} (h : Leaves i m q.d) {c : UInt8} (hc : c ≠ 0) :
    Leaves (i + 1) m (q.setHost i c).d where
  host := by
    intro k hk
    change (q.d.host.setIfInBounds i c)[k] ≠ 0 ↔ _
    by_cases hik : i = k
    · subst hik
      rw [Vector.getElem_setIfInBounds_self]
      exact iff_of_true hc (.inl (Nat.lt_succ_self i))
    · rw [Vector.getElem_setIfInBounds_ne hk hik, h.host k hk]
      omega
  port := h.port
  local_ := h.local_

/-- The `@` behind user information. -/
theorem Leaves.at {i m : Nat} (h : Leaves i m q.d) : Leaves 0 (max m i) (q.setHost 0 0).d where
  host := by
    intro k hk
    change (q.d.host.setIfInBounds 0 0)[k] ≠ 0 ↔ _
    by_cases hk0 : 0 = k
    · subst hk0
      rw [Vector.getElem_setIfInBounds_self]
      exact iff_of_false (fun h => h rfl) (by omega)
    · rw [Vector.getElem_setIfInBounds_ne hk hk0, h.host k hk]
      omega
  port := h.port
  local_ := h.local_

/-- Control states between a target that was passed and the headers. -/
def Rest : ReqCtl → Prop
  | .relative | .space .version | .version _ | .versionDigit | .startLineEnd _ | .localHost => True
  | _ => False

/-- Control states from which the headers are not come to any more. -/
def Lost : ReqCtl → Prop
  | .refused | .port .uri _ (some _) => True
  | ctl => Past ctl

/-- What a step behind the target makes of a machine: it goes on to the headers, or does not come to them. -/
inductive RestStep (q q' : ReqMachine) : Prop
  | stays (rest : Rest q'.ctl) (host : q'.d.host = q.d.host) (port : q'.d.port = q.d.port)
      (local_ : q'.d.isLocalHost = q.d.isLocalHost)
  | past (past : Past q'.ctl)

/-- A step in a format whose ends are steps behind the target. -/
theorem restStep_match {format : List UInt8} {i : Nat} {inside : Nat → ReqCtl} {done : ReqMachine}
    {miss : Cell → Out} (hinside : ∀ j, Rest (inside j)) (hdone : RestStep q done) (hmiss : RestStep q (miss x).1) :
    RestStep q (q.stepMatch format i inside done miss x).1 := by
  unfold ReqMachine.stepMatch HttpProxy.stepMatch
  split
  · split
    · exact hdone
    · exact .stays (hinside _) rfl rfl rfl
  · exact hmiss

/-- The line end behind the version. -/
theorem restStep_stepStartLineEnd (i : Nat) : RestStep q (q.stepStartLineEnd i x).1 :=
  restStep_match (fun _ => trivial) (.stays trivial rfl rfl rfl) (.past (past_halt rfl))

/-- A byte of the version, or the one behind it. -/
theorem restStep_stepVersion (i : Nat) : RestStep q (q.stepVersion i x).1 := by
  refine restStep_match (fun _ => trivial) (.stays trivial rfl rfl rfl) ?_
  unfold stepAfterVersion
  split
  · exact .past (past_halt rfl)
  · exact restStep_stepStartLineEnd 0

/-- The blanks in front of the version. -/
theorem restStep_stepSpaceVersion : RestStep q (q.stepSpaceVersion x).1 := by
  unfold stepSpaceVersion stepSpace
  split
  · exact .stays trivial rfl rfl rfl
  · exact restStep_stepVersion 0

/-- A byte of the target, or the blank behind it. -/
theorem restStep_stepRelative : RestStep q (q.stepRelative x).1 := by
  unfold stepRelative
  split
  · exact restStep_stepSpaceVersion
  · exact .stays trivial rfl rfl rfl

/-- A step behind the target. -/
theorem restStep_step (h : Rest q.ctl) : RestStep q (q.step x).1 := by
  obtain ⟨ctl, d, calls⟩ := q
  cases ctl with
  | relative => exact restStep_stepRelative
  | space n =>
    cases n with
    | version => exact restStep_stepSpaceVersion
    | uri => exact absurd h id
    | host => exact absurd h id
  | version i => exact restStep_stepVersion i
  | versionDigit =>
    change RestStep _ (setVersion _ x.1).afterVersion
    unfold afterVersion
    split
    · exact .past trivial
    · exact .stays trivial rfl rfl rfl
  | startLineEnd i => exact restStep_stepStartLineEnd i
  | localHost => exact .past past_stepLocalHost
  | _ => exact absurd h id

/-- Behind the headers they are not come to again. -/
theorem lost_of_past {ctl : ReqCtl} (h : Past ctl) : Lost ctl := by
  cases ctl with
  | port place i n =>
    cases place with
    | uri => exact absurd h id
    | uriHost => exact absurd h id
    | header => exact h
  | refused => exact absurd h id
  | _ => exact h

/-- No step leads back to the headers. -/
theorem lost_step (h : Lost q.ctl) : Lost (q.step x).1.ctl := by
  by_cases hp : Past q.ctl
  · exact lost_of_past (past_step (.inl hp))
  · obtain ⟨ctl, d, calls⟩ := q
    cases ctl with
    | refused =>
      change Lost (stepRefused _ x).1.ctl
      unfold stepRefused
      split
      · exact lost_of_past (past_halt rfl)
      · trivial
    | port place i n =>
      cases place with
      | uri =>
        cases n with
        | none => exact absurd h id
        | some v =>
          change Lost (stepPort _ .uri i (some v) x).1.ctl
          unfold stepPort stepNumber
          split
          · trivial
          · simp only [reduceCtorEq, if_false]
            exact lost_of_past (past_halt rfl)
      | uriHost => exact absurd h hp
      | header => exact absurd h hp
    | _ => exact absurd h hp

/-- Where the machine is behind the beginning `t` of a target and what is behind it, and what it left in the
host array. -/
inductive TargetRead (t : List UInt8) (q : ReqMachine) : Prop
  | scheme {i : Nat} (ctl : q.ctl = .uri i) (bytes : t.map toupper = (lit "HTTP").take i) (leaves : Leaves 0 0 q.d)
  | sep {i : Nat} (ctl : q.ctl = .uriSep i) (bytes : t.map toupper = lit "HTTP" ++ (lit "://").take i)
      (leaves : Leaves 0 0 q.d)
  | host {i m : Nat} (ctl : q.ctl = .host .uri i) (length : ∀ s, userinfoLength (t ++ s) = longestUserinfo i m s)
      (leaves : Leaves i m q.d)
  | port {i m : Nat} (ctl : q.ctl = .port .uri i none) (length : ∀ s, userinfoLength (t ++ s) = m)
      (leaves : Leaves i m q.d)
  | rest {m : Nat} (ctl : Rest q.ctl) (length : ∀ s, userinfoLength (t ++ s) = m) (leaves : Leaves 0 m q.d)
  | lost (lost : Lost q.ctl)

/-- A step behind the target leaves what the target left. -/
theorem TargetRead.of_restStep {t : List UInt8} {c : UInt8} {q' : ReqMachine} {m : Nat} (h : RestStep q q')
    (length : ∀ s, userinfoLength (t ++ c :: s) = m) (leaves : Leaves 0 m q.d) : TargetRead (t ++ [c]) q' := by
  cases h with
  | stays rest host port local_ =>
    refine .rest (m := m) rest (fun s => ?_) ⟨?_, port.trans leaves.port, local_.trans leaves.local_⟩
    · rw [List.append_assoc]
      exact length s
    · rw [host]
      exact leaves.host
  | past past => exact .lost (lost_of_past past)

/-- One more byte of it. -/
theorem TargetRead.step {t : List UInt8} (h : TargetRead t q) (hq : q.Inv) (c : UInt8) :
    TargetRead (t ++ [c]) (q.step (c, false)).1 := by
  cases h with
  | @scheme i ctl bytes leaves =>
    have hi : i < 4 := (hq.live ctl nofun).2
    have hformat : ∀ i < 4, toupper ((lit "HTTP").getD i 0) = (lit "HTTP").getD i 0 ∧
        (lit "HTTP://").getD i 0 = (lit "HTTP").getD i 0 ∧ (lit "HTTP").take i = (lit "HTTP://").take i ∧
        (lit "HTTP").take (i + 1) = (lit "HTTP").take i ++ [(lit "HTTP").getD i 0] := by decide
    obtain ⟨hupper, hget, htake, hnext⟩ := hformat i hi
    have hstep : q.step (c, false) = q.stepUri i (c, false) := by
      unfold ReqMachine.step
      rw [ctl]
    rw [hstep]
    unfold stepUri ReqMachine.stepMatch HttpProxy.stepMatch
    split
    · next hmatch =>
      have hbytes : (t ++ [c]).map toupper = (lit "HTTP").take (i + 1) := by
        rw [List.map_append, bytes, hnext, List.map_singleton, show toupper c = _ from hmatch, hupper]
      split
      · next hlast =>
        refine .sep rfl ?_ leaves
        rw [hbytes, hlast]
        rfl
      · exact .scheme rfl hbytes leaves
    · next hmiss =>
      refine .of_restStep restStep_stepRelative (fun s => ?_) leaves
      refine userinfoLength_miss (by omega) (bytes.trans htake) (fun heq => hmiss ?_) s
      rw [hupper, ← hget]
      exact heq
  | @sep i ctl bytes leaves =>
    have hi : i < 3 := (hq.live ctl nofun).2
    have hformat : ∀ i < 3, toupper ((lit "://").getD i 0) = (lit "://").getD i 0 ∧
        (lit "HTTP://").getD (4 + i) 0 = (lit "://").getD i 0 ∧
        lit "HTTP" ++ (lit "://").take i = (lit "HTTP://").take (4 + i) ∧
        (lit "://").take (i + 1) = (lit "://").take i ++ [(lit "://").getD i 0] := by decide
    obtain ⟨hupper, hget, htake, hnext⟩ := hformat i hi
    have hstep : q.step (c, false) = q.stepUriSep i (c, false) := by
      unfold ReqMachine.step
      rw [ctl]
    rw [hstep]
    unfold stepUriSep ReqMachine.stepMatch HttpProxy.stepMatch
    split
    · next hmatch =>
      have hbytes : (t ++ [c]).map toupper = lit "HTTP" ++ (lit "://").take (i + 1) := by
        rw [List.map_append, bytes, hnext, List.map_singleton, show toupper c = _ from hmatch, hupper,
          List.append_assoc]
      split
      · next hlast =>
        refine .host rfl (userinfoLength_scheme ?_) leaves
        rw [hbytes, hlast]
        decide
      · exact .sep rfl hbytes leaves
    · next hmiss =>
      refine .of_restStep restStep_stepRelative (fun s => ?_) leaves
      refine userinfoLength_miss (by omega) (bytes.trans htake) (fun heq => hmiss ?_) s
      rw [hupper, ← hget]
      exact heq
  | @host i m ctl length leaves =>
    have hi : i < HOST_MAX_SIZE := (hq.live ctl nofun).2.1
    have hstep : q.step (c, false) = q.stepHost .uri i (c, false) := by
      unfold ReqMachine.step
      rw [ctl]
    have hscan : ∀ s, userinfoLength (t ++ [c] ++ s) = longestUserinfo i m (c :: s) := by
      intro s
      rw [List.append_assoc]
      exact length (c :: s)
    rw [hstep]
    unfold stepHost
    simp only
    split
    · next hchar =>
      have hleaves : Leaves (i + 1) m (q.setHost i (tolower c)).d := leaves.char (ne_zero_of_isHostChar hchar)
      split
      · refine .host rfl (fun s => ?_) hleaves
        rw [hscan, longestUserinfo, if_pos hchar]
      · refine .lost ?_
        have hfirst := (hleaves.host 0 host_max_size_pos).mpr (.inl (Nat.succ_pos i))
        unfold noHost
        simp only
        rw [if_pos hfirst]
        trivial
    · next hchar =>
      split
      · next hat =>
        refine .host rfl (fun s => ?_) leaves.at
        rw [hscan, longestUserinfo, if_neg hchar, if_pos hat.2]
      · next hat =>
        have hne : tolower c ≠ 0x40 := fun h => hat ⟨nofun, h⟩
        split
        · refine .port rfl (fun s => ?_) leaves
          rw [hscan, longestUserinfo, if_neg hchar, if_neg hne]
        · refine .lost ?_
          change Lost (stepHalt q.accept (c, false)).1.ctl
          exact lost_of_past (past_halt rfl)
  | @port i m ctl length leaves =>
    have hstep : q.step (c, false) = q.stepPort .uri i none (c, false) := by
      unfold ReqMachine.step
      rw [ctl]
    rw [hstep]
    unfold stepPort stepNumber
    split
    · exact .lost trivial
    · simp only
      unfold stepNoHost
      simp only
      split
      · refine .lost ?_
        unfold stepRefused
        split
        · exact lost_of_past (past_halt rfl)
        · trivial
      · next hzero =>
        have hi : i = 0 := by
          by_contra hne
          exact hzero ((leaves.host 0 host_max_size_pos).mpr (.inl (Nat.pos_of_ne_zero hne)))
        rw [hi] at leaves
        exact .of_restStep restStep_stepRelative (fun s => length (c :: s)) leaves
  | rest ctl length leaves => exact .of_restStep (restStep_step ctl) (fun s => length (c :: s)) leaves
  | lost lost => exact .lost (lost_step lost)

/-- The rest of it: `TargetRead.step` along the bytes. -/
theorem TargetRead.run {t : List UInt8} (s : List UInt8) (h : TargetRead t q) (hq : q.Inv) :
    TargetRead (t ++ s) (reqMachine.stateAfter q (fresh s)) := by
  induction s generalizing t q with
  | nil =>
    rw [List.append_nil]
    exact h
  | cons c s ih =>
    rw [fresh_cons, Transducer.stateAfter_cons, ← List.singleton_append, ← List.append_assoc]
    exact ih (h.step hq c) (inv_step hq)

/-- Behind blanks the bytes are read as if there were none. -/
theorem stateAfter_blanks (n : AfterSpaces) {bl : List UInt8} (hbl : ∀ c ∈ bl, isBlank c = true) {c : UInt8}
    (hc : isBlank c = false) (l : List UInt8) :
    reqMachine.stateAfter (q.goto (.space n)) (fresh (bl ++ c :: l)) =
      reqMachine.stateAfter (q.goto n.ctl) (fresh (c :: l)) := by
  have hblanks : reqMachine.stateAfter (q.goto (.space n)) (fresh bl) = q.goto (.space n) :=
    congrArg Prod.fst (takes_blanks q n hbl).run_eq
  have hstep : ((q.goto (.space n)).step (c, false)).1 = ((q.goto n.ctl).step (c, false)).1 := by
    rw [step_spaceTo, stepSpace, if_neg (Bool.eq_false_iff.mp hc)]
  rw [fresh_append, Transducer.stateAfter_append, hblanks, fresh_cons, Transducer.stateAfter_cons,
    Transducer.stateAfter_cons]
  exact congrArg (reqMachine.stateAfter · (fresh l)) hstep

/-- What the machine holds behind a start line from which it took no origin. -/
theorem leaves_line (d : LineForm) (h : (reqMachine.stateAfter .initial (fresh d.bytes)).ctl = .localHost) :
    Leaves 0 (userinfoLength d.target) (reqMachine.stateAfter .initial (fresh d.bytes)).d ∧
      (reqMachine.stateAfter .initial (fresh d.bytes)).calls = [] := by
  have hmethod : reqMachine.stateAfter .initial (fresh d.method) =
      (ReqMachine.initial.setMethod d.type).goto (.space .uri) :=
    congrArg Prod.fst (takes_method .initial d.method_eq d.supported).run_eq
  have hinv : ((ReqMachine.initial.setMethod d.type).goto (.uri 0)).Inv :=
    ⟨⟨nofun, rfl, rfl⟩, show 0 < (lit "HTTP").length by decide⟩
  obtain ⟨c, t, ht⟩ := List.exists_cons_of_ne_nil d.target_ne
  obtain ⟨g, gap, hgap⟩ := List.exists_cons_of_ne_nil d.gap₂_ne
  have hafter : reqMachine.stateAfter .initial (fresh d.bytes) =
      reqMachine.stateAfter ((ReqMachine.initial.setMethod d.type).goto (.uri 0))
        (fresh (d.target ++ (d.gap₂ ++ (d.version ++ [CR, LF])))) := by
    unfold LineForm.bytes
    rw [fresh_append, Transducer.stateAfter_append, hmethod, ht, List.cons_append]
    exact stateAfter_blanks .uri d.gap₁_blank (d.target_ok c (ht ▸ List.mem_cons_self)) _
  have hread : TargetRead [] ((ReqMachine.initial.setMethod d.type).goto (.uri 0)) := by
    refine .scheme rfl rfl ⟨fun k hk => ?_, rfl, rfl⟩
    change (Vector.replicate HOST_MAX_SIZE 0)[k] ≠ 0 ↔ _
    rw [Vector.getElem_replicate]
    exact iff_of_false (fun h => h rfl) (by omega)
  have hrun := hread.run (d.target ++ (d.gap₂ ++ (d.version ++ [CR, LF]))) hinv
  have hinv' := inv_stateAfter inv_initial (fresh d.bytes)
  rw [← hafter] at hrun
  refine ⟨?_, (hinv'.live h nofun).1.calls⟩
  cases hrun with
  | scheme ctl => cases ctl.symm.trans h
  | sep ctl => cases ctl.symm.trans h
  | host ctl => cases ctl.symm.trans h
  | port ctl => cases ctl.symm.trans h
  | @rest m ctl length leaves =>
    have hm := length []
    rw [List.append_nil, List.nil_append, hgap, List.cons_append,
      userinfoLength_blank (d.gap₂_blank g (hgap ▸ List.mem_cons_self))] at hm
    rw [hm]
    exact leaves
  | lost lost =>
    rw [h] at lost
    exact absurd lost id

end ReqMachine

end HttpProxy
