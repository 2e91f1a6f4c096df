import HttpProxy.Origins
import HttpProxy.StartLineScan

/-!
# The authority of an absolute target

Behind `http://` the parser looks for an authority before it goes through the rest of the start line.
`authority` says what becomes of that in terms of the bytes: the authority is taken, and the start line
gone no further; there is none, and the start line goes on as with any other target; or the request is
not accepted (`AuthorityRun`).
-/

namespace HttpProxy

/-! ## More bytes behind a host -/

namespace HostScan

variable {h : HostScan}

instance decidableShort (h : HostScan) : Decidable h.Short :=
  inferInstanceAs (Decidable (_ ∧ (_ : List UInt8) = _))

/-- More bytes arrive. -/
def append (h : HostScan) (v : List UInt8) : HostScan := { h with rest := h.rest ++ v }

/-- More bytes do not change whether a `:` is there, once anything is. -/
theorem colon_append (hrest : h.rest ≠ []) (v : List UInt8) : (h.append v).colon = h.colon := by
  obtain ⟨c, w, hw⟩ := List.exists_cons_of_ne_nil hrest
  unfold colon append
  rw [hw]
  rfl

/-- Where something is behind the port, something is behind the host. -/
theorem rest_ne_nil (hafter : h.after ≠ []) : h.rest ≠ [] := by
  intro hnil
  refine hafter ?_
  unfold after
  rw [hnil]
  split <;> rfl

/-- What arrives stands behind the port. -/
theorem after_append (hafter : h.after ≠ []) (v : List UInt8) : (h.append v).after = h.after ++ v := by
  have hrest := rest_ne_nil hafter
  have hcolon := colon_append hrest v
  obtain ⟨c, w, hw⟩ := List.exists_cons_of_ne_nil hrest
  unfold after at hafter ⊢
  rw [hcolon]
  split
  · next hc =>
    rw [if_pos hc, hw] at hafter
    unfold append
    rw [hw]
    exact dropWhile_append_of_ne_nil hafter v
  · rfl

/-- The digits of a port that has ended stay as they are. -/
theorem digits_append (hafter : h.after ≠ []) (hcolon : h.colon = true) (v : List UInt8) :
    (h.append v).digits = h.digits := by
  obtain ⟨c, w, hw⟩ := List.exists_cons_of_ne_nil (rest_ne_nil hafter)
  unfold after at hafter
  rw [if_pos hcolon, hw] at hafter
  unfold digits append
  rw [hw, List.cons_append, List.tail_cons, List.tail_cons, List.takeWhile_append, if_neg]
  intro hall
  refine hafter (List.dropWhile_eq_nil_iff.mpr (List.takeWhile_eq_self_iff.mp ?_))
  exact (List.takeWhile_prefix _).eq_of_length hall

/-- A host that was read or refused is so whatever follows. -/
theorem read_append (hi : h.i ≤ HOST_MAX_SIZE) (hshort : ¬h.Short) (v : List UInt8) :
    ¬(h.append v).Short ∧ ((h.append v).Refused ↔ h.Refused) ∧
      (¬h.Refused → (h.append v).after = h.after ++ v) := by
  by_cases hfull : h.i = HOST_MAX_SIZE
  · refine ⟨fun hs => Nat.ne_of_lt hs.1 hfull, iff_of_true (.inl hfull) (.inl hfull), ?_⟩
    exact fun hr => absurd (.inl hfull) hr
  · have hafter : h.after ≠ [] := fun hnil => hshort ⟨Nat.lt_of_le_of_ne hi hfull, hnil⟩
    have hnext := after_append hafter v
    have hne : (h.append v).after ≠ [] := by
      rw [hnext]
      exact List.append_ne_nil_of_left_ne_nil hafter v
    refine ⟨fun hs => hne hs.2, ?_, fun _ => hnext⟩
    unfold Refused
    rw [colon_append (rest_ne_nil hafter)]
    refine or_congr Iff.rfl (and_congr_right fun hcolon => ?_)
    rw [digits_append hafter hcolon]
    exact and_congr_right fun _ => iff_of_true hne hafter

end HostScan

/-- No more bytes are copied than the array has. -/
theorem i_scanHost_le (userinfo begun : Bool) {i : Nat} (hi : i ≤ HOST_MAX_SIZE) (w : List UInt8) :
    (scanHost userinfo begun i w).i ≤ HOST_MAX_SIZE := by
  induction w generalizing begun i with
  | nil => exact hi
  | cons c w ih =>
    rw [scanHost]
    split
    · next hlt =>
      split
      · exact ih _ hlt
      · split
        · exact ih _ (Nat.zero_le _)
        · exact hi
    · exact hi

/-- A host that has ended, or that fills the array, is the same with more behind it. -/
theorem scanHost_append (userinfo : Bool) {begun : Bool} {i : Nat} {w : List UInt8}
    (h : (scanHost userinfo begun i w).rest ≠ [] ∨ (scanHost userinfo begun i w).i = HOST_MAX_SIZE)
    (v : List UInt8) :
    scanHost userinfo begun i (w ++ v) = (scanHost userinfo begun i w).append v := by
  induction w generalizing begun i with
  | nil =>
    have hfull : i = HOST_MAX_SIZE := h.resolve_left fun hne => hne rfl
    cases v with
    | nil => rfl
    | cons c v =>
      exact if_neg (by rw [hfull]; exact Nat.lt_irrefl _)
  | cons c w ih =>
    rw [scanHost] at h
    rw [List.cons_append, scanHost, scanHost]
    split
    · next hlt =>
      rw [if_pos hlt] at h
      split
      · next hc =>
        rw [if_pos hc] at h
        exact ih h
      · next hc =>
        rw [if_neg hc] at h
        split
        · next hat =>
          rw [if_pos hat] at h
          exact ih h
        · rfl
    · rfl

/-- A scan that did not run out of bytes says the same whatever follows. -/
theorem scanHost_append_of_not_short (userinfo : Bool) {begun : Bool} {i : Nat} (hi : i ≤ HOST_MAX_SIZE)
    {w : List UInt8} (h : ¬(scanHost userinfo begun i w).Short) (v : List UInt8) :
    scanHost userinfo begun i (w ++ v) = (scanHost userinfo begun i w).append v := by
  refine scanHost_append userinfo ?_ v
  by_cases hfull : (scanHost userinfo begun i w).i = HOST_MAX_SIZE
  · exact .inr hfull
  · refine .inl (HostScan.rest_ne_nil fun hnil => h ⟨?_, hnil⟩)
    exact Nat.lt_of_le_of_ne (i_scanHost_le userinfo begun hi w) hfull

/-- A byte of an authority: neither a blank nor the end of a line. -/
def InAuthority (c : UInt8) : Prop := isBlank c = false ∧ c ≠ LF

/-- A byte of a host or a `@` is a byte of an authority. -/
theorem inAuthority_of_host {c : UInt8} (h : isHostChar (tolower c) = true ∨ tolower c = 0x40) :
    InAuthority c := by
  have hstops : ∀ c, c = SP ∨ c = HT ∨ c = LF → ¬(isHostChar (tolower c) = true ∨ tolower c = 0x40) := by
    rintro c (rfl | rfl | rfl) <;> decide
  constructor
  · rw [isBlank_false_iff]
    exact ⟨fun hc => hstops c (.inl hc) h, fun hc => hstops c (.inr (.inl hc)) h⟩
  · exact fun hc => hstops c (.inr (.inr hc)) h

/-- What a scan goes over. -/
theorem scanHost_over (userinfo begun : Bool) (i : Nat) (w : List UInt8) :
    ∃ p, w = p ++ (scanHost userinfo begun i w).rest ∧ ∀ c ∈ p, InAuthority c := by
  induction w generalizing begun i with
  | nil => exact ⟨[], rfl, nofun⟩
  | cons c w ih =>
    have hover : ∀ begun i, InAuthority c →
        ∃ p, c :: w = p ++ (scanHost userinfo begun i w).rest ∧ ∀ c ∈ p, InAuthority c := by
      intro begun i hc
      obtain ⟨p, hp, hall⟩ := ih begun i
      exact ⟨c :: p, congrArg (c :: ·) hp, List.forall_mem_cons.mpr ⟨hc, hall⟩⟩
    rw [scanHost]
    split
    · split
      · next hc => exact hover _ _ (inAuthority_of_host (.inl hc))
      · split
        · next hat => exact hover _ _ (inAuthority_of_host (.inr hat.2))
        · exact ⟨[], rfl, nofun⟩
    · exact ⟨[], rfl, nofun⟩

/-- What a host and its port are in the bytes. -/
theorem scanHost_after (userinfo begun : Bool) (i : Nat) (w : List UInt8) :
    ∃ p, w = p ++ (scanHost userinfo begun i w).after ∧ ∀ c ∈ p, InAuthority c := by
  obtain ⟨p, hw, hp⟩ := scanHost_over userinfo begun i w
  generalize scanHost userinfo begun i w = h at hw
  have hdigit : ∀ c, isdigit c = true → InAuthority c := by
    intro c hc
    refine ⟨isBlank_false_iff.mpr ⟨?_, ?_⟩, ?_⟩ <;> rintro rfl <;> exact absurd hc (by decide)
  by_cases hcolon : h.colon = true
  · have hrest : h.rest ≠ [] := by
      intro hnil
      unfold HostScan.colon at hcolon
      rw [hnil, Bool.and_eq_true] at hcolon
      exact absurd hcolon.2 (by decide)
    obtain ⟨c, w', hrest⟩ := List.exists_cons_of_ne_nil hrest
    have hc : InAuthority c := by
      unfold HostScan.colon at hcolon
      rw [hrest, Bool.and_eq_true, beq_iff_eq] at hcolon
      have h3a : tolower c = 0x3a := hcolon.2
      refine ⟨isBlank_false_iff.mpr ⟨?_, ?_⟩, ?_⟩ <;> rintro rfl <;> exact absurd h3a (by decide)
    refine ⟨p ++ c :: h.digits, ?_, ?_⟩
    · unfold HostScan.after HostScan.digits
      rw [if_pos hcolon, hw, hrest, List.tail_cons, List.append_assoc, List.cons_append,
        List.takeWhile_append_dropWhile]
    · refine List.forall_mem_append.mpr ⟨hp, List.forall_mem_cons.mpr ⟨hc, fun d hd => hdigit d ?_⟩⟩
      exact List.all_eq_true.mp List.all_takeWhile d hd
  · refine ⟨p, ?_, hp⟩
    unfold HostScan.after
    rw [if_neg hcolon]
    exact hw

/-! ## The scan -/

/-- What the parser does at the front of a target: it takes an authority and leaves `rest`, or waits, or
fails. Where it goes on with the start line there is no error. -/
def authorityScan (t : List UInt8) : LineScan :=
  if matched (lit "HTTP://") t = 7 then
    let h := scanHost true false 0 (t.drop 7)
    if h.Short then .waits
    else if h.Refused then .fails (if h.begun then .HOST_ERROR else .OK)
    else .passes h.after
  else if matched (lit "HTTP://") t = t.length then .waits
  else .fails .OK

/-- The authority at the front of the target of the request `w`. -/
def authority (w : List UInt8) : LineScan := methodScan (spacesScan authorityScan) w

/-- The authority is read off the bytes up to its end. -/
theorem stable_authorityScan : Stable authorityScan := by
  intro t v h
  unfold authorityScan at h ⊢
  have hle := matched_le_right (lit "HTTP://") t
  by_cases h7 : matched (lit "HTTP://") t = 7
  · rw [if_pos h7] at h ⊢
    rw [matched_append v (.inl h7), if_pos h7, List.drop_append_of_le_length (h7 ▸ hle)]
    simp only at h ⊢
    have hi := i_scanHost_le true false (Nat.zero_le HOST_MAX_SIZE) (t.drop 7)
    by_cases hshort : (scanHost true false 0 (t.drop 7)).Short
    · exact absurd (if_pos hshort) h
    · rw [scanHost_append_of_not_short true (Nat.zero_le _) hshort v]
      obtain ⟨hshort', hrefused, hafter⟩ := HostScan.read_append hi hshort v
      rw [if_neg hshort', if_neg hshort]
      by_cases hr : (scanHost true false 0 (t.drop 7)).Refused
      · rw [if_pos (hrefused.mpr hr), if_pos hr]
        rfl
      · rw [if_neg (mt hrefused.mp hr), if_neg hr, hafter hr]
        rfl
  · rw [if_neg h7] at h ⊢
    by_cases hall : matched (lit "HTTP://") t = t.length
    · exact absurd (if_pos hall) h
    · have hlt : matched (lit "HTTP://") t < t.length := Nat.lt_of_le_of_ne hle hall
      rw [matched_append v (.inr hlt), if_neg h7, if_neg hall, if_neg (by rw [List.length_append]; omega)]
      rfl

/-- The method, the blanks and the authority are read off the bytes up to its end. -/
theorem stable_authority : Stable authority := stable_methodScan (stable_spacesScan stable_authorityScan)

/-- What is matched of a format without a LF has none. -/
theorem lf_not_mem_matched {format w : List UInt8} (hf : LF ∉ format.map toupper) :
    LF ∉ w.take (matched format w) := by
  intro hmem
  have hmap := List.mem_map_of_mem (f := toupper) hmem
  rw [map_take_matched, List.map_take] at hmap
  exact hf (List.mem_of_mem_take hmap)

/-- What is gone over in an absolute target. -/
theorem absolute_over {t : List UInt8} (h7 : matched (lit "HTTP://") t = 7) :
    ∃ p, t = p ++ (scanHost true false 0 (t.drop 7)).after ∧ ∀ c ∈ p, InAuthority c := by
  obtain ⟨p, hover, hin⟩ := scanHost_after true false 0 (t.drop 7)
  refine ⟨t.take 7 ++ p, ?_, List.forall_mem_append.mpr ⟨fun c hc => ?_, hin⟩⟩
  · rw [List.append_assoc, ← hover, List.take_append_drop]
  · rw [← h7] at hc
    refine ⟨isBlank_matched (by decide +kernel) c hc, ?_⟩
    rintro rfl
    exact lf_not_mem_matched (by decide) hc

/-- In front of what is left behind an authority no line ends. -/
theorem authorityScan_passes {t rest : List UInt8} (h : authorityScan t = .passes rest) :
    ∃ p, t = p ++ rest ∧ LF ∉ p := by
  unfold authorityScan at h
  by_cases h7 : matched (lit "HTTP://") t = 7
  · rw [if_pos h7] at h
    obtain ⟨p, hover, hin⟩ := absolute_over h7
    simp only at h
    split at h
    · cases h
    · split at h
      · cases h
      · obtain rfl := LineScan.passes.inj h
        exact ⟨p, hover, fun hmem => (hin LF hmem).2 rfl⟩
  · rw [if_neg h7] at h
    split at h <;> cases h

/-- An authority that is taken is in the first line. -/
theorem authority_passes {w rest : List UInt8} (h : authority w = .passes rest) :
    ∃ p, w = p ++ rest ∧ LF ∉ p := by
  unfold authority at h
  by_cases hbegins : ∃ o ∈ methodWords, BeginsWith w o
  · obtain ⟨o, ho, hb⟩ := hbegins
    rw [methodScan_of_beginsWith ho hb] at h
    split at h
    · unfold spacesScan at h
      split at h
      · cases h
      · obtain ⟨p, hp, hlf⟩ := authorityScan_passes h
        have hblank : LF ∉ (w.drop o.1.length).takeWhile isBlank := fun hmem =>
          absurd (List.all_eq_true.mp List.all_takeWhile LF hmem) (by decide)
        have hword : LF ∉ w.take o.1.length := by
          rw [← show matched o.1 w = o.1.length from hb]
          have hwords : ∀ o ∈ methodWords, LF ∉ o.1.map toupper := by decide +kernel
          exact lf_not_mem_matched (hwords o ho)
        refine ⟨w.take o.1.length ++ ((w.drop o.1.length).takeWhile isBlank ++ p), ?_, ?_⟩
        · rw [List.append_assoc, List.append_assoc, ← hp, List.takeWhile_append_dropWhile,
            List.take_append_drop]
        · rw [List.mem_append, List.mem_append, not_or, not_or]
          exact ⟨hword, hblank, hlf⟩
    · cases h
  · push Not at hbegins
    rw [methodScan_of_none hbegins] at h
    split at h <;> cases h

/-- Where an authority can still come the target is not over. -/
theorem targetScan_waits_of_authorityScan {t : List UInt8} (h : authorityScan t = .waits) :
    targetScan t = .waits := by
  refine if_pos (List.dropWhile_eq_nil_iff.mpr fun c hc => ?_)
  have hword := @isBlank_matched (lit "HTTP://") t (by decide +kernel)
  unfold authorityScan at h
  by_cases h7 : matched (lit "HTTP://") t = 7
  · rw [if_pos h7] at h
    obtain ⟨p, hover, hin⟩ := absolute_over h7
    simp only at h
    split at h
    · next hshort =>
      rw [hshort.2, List.append_nil] at hover
      rw [hover] at hc
      rw [(hin c hc).1]
      rfl
    · split at h <;> cases h
  · rw [if_neg h7] at h
    split at h
    · next hall =>
      rw [hall, List.take_length] at hword
      rw [hword c hc]
      rfl
    · cases h

/-- Where an authority can still come, the end of the start line can. -/
theorem lineScan_waits_of_authority {w : List UInt8} (h : authority w = .waits) : lineScan w = .waits := by
  unfold authority at h
  unfold lineScan
  by_cases hbegins : ∃ o ∈ methodWords, BeginsWith w o
  · obtain ⟨o, ho, hb⟩ := hbegins
    rw [methodScan_of_beginsWith ho hb] at h ⊢
    split at h
    · next hs =>
      rw [if_pos hs]
      unfold spacesScan at h ⊢
      split at h
      · next hnil => rw [if_pos hnil]
      · next hne =>
        rw [if_neg hne]
        exact targetScan_waits_of_authorityScan h
    · cases h
  · push Not at hbegins
    rw [methodScan_of_none hbegins] at h ⊢
    exact h

/-- There is no authority in front of the end of a start line where there is none in all of the
request. -/
theorem authority_of_append {w v rest : List UInt8} (h : authority (w ++ v) = .fails .OK)
    (hline : lineScan w = .passes rest) : authority w = .fails .OK := by
  have hstable := stable_authority w v fun hwaits => by
    rw [lineScan_waits_of_authority hwaits] at hline
    cases hline
  rw [h] at hstable
  cases hw : authority w with
  | waits =>
    rw [lineScan_waits_of_authority hw] at hline
    cases hline
  | fails e =>
    rw [hw] at hstable
    exact hstable.symm
  | passes rest =>
    rw [hw] at hstable
    cases hstable

/-! ## The loop -/

/-- What the loop does from `s` on with an authority, `line` being what it does with the start line where
there is none. -/
inductive AuthorityRun (line : LineScan) : ReqState → LineScan → Prop
  | goes {s s' : ReqState} {r : LineScan} (go : loopBody s = .inl s') (run : AuthorityRun line s' r) :
      AuthorityRun line s r
  | ends {s s' : ReqState} {r : LineScan} (ends : loopBody s = .inr (false, s'))
      (none : r ≠ .fails .OK) (taken : ∀ rest, r ≠ .passes rest) : AuthorityRun line s r
  | taken {s : ReqState} {l : List Cell} {rest : List UInt8} (reads : s.Reads l)
      (bytes : l.map Prod.fst = rest) (hp : s.rData.parserState = .FINISHED) :
      AuthorityRun line s (.passes rest)
  | none {s : ReqState} (run : LineRun s line) : AuthorityRun line s (.fails .OK)

namespace AuthorityRun

variable {line : LineScan} {s : ReqState} {r : LineScan}

theorem byParts (line : LineScan) : ByParts (AuthorityRun line) where
  goes := fun go _ run => .goes go run
  waits := fun ends _ _ => .ends ends nofun nofun
  fails := fun ends _ _ hne _ => .ends ends (fun heq => hne (LineScan.fails.inj heq)) nofun

/-- Where a start line leads to an end, no authority is looked for. -/
theorem of_lineRun {r' : LineScan} (h : LineRun s r) (hpass : ∀ rest, r ≠ .passes rest)
    (none : r' ≠ .fails .OK) (taken : ∀ rest, r' ≠ .passes rest) : AuthorityRun line s r' := by
  induction h with
  | goes go hp run ih => exact .goes go (ih hpass)
  | waits hend flag hp => exact .ends hend none taken
  | fails hend flag error hp => exact .ends hend none taken
  | passes reads bytes hp => exact absurd rfl (hpass _)

/-- What the loop does without an authority matters only where there is none. -/
theorem congr {line' : LineScan} (h : AuthorityRun line s r) (hline : r = .fails .OK → line = line') :
    AuthorityRun line' s r := by
  induction h with
  | goes go run ih => exact .goes go (ih hline)
  | ends hend none taken => exact .ends hend none taken
  | taken reads bytes hp => exact .taken reads bytes hp
  | none run => exact .none (hline rfl ▸ run)

end AuthorityRun

section Run

variable {s : ReqState} {l : List Cell}

/-- The case of a host that fails ends the loop, unless none was copied and the input goes on. -/
theorem loopBody_hostCase_fails {s' : ReqState} {otherwise : ReqState → ReqState}
    (h : iteration s = hostCase (false, s') otherwise)
    (hfails : s'.rData.host[0] ≠ 0 ∨ s'.io.isBufferEmpty = true) : loopBody s = .inr (false, s') := by
  unfold loopBody
  rw [h]
  unfold hostCase
  rw [if_pos ⟨rfl, hfails⟩]
  rfl

/-- Reading a host does not touch the version. -/
theorem version_readHost (userinfo : Bool) (s : ReqState) :
    (readHost userinfo s).2.rData.version = s.rData.version := by
  rw [readHost_eq]
  simp only
  rw [readHostEnd_host]
  unfold readPort
  split
  · split <;> rfl
  · rfl

/-- A target with `http://` in front. -/
theorem authorityRun_absolute {io : Io} (hline : s.InLine) (hp : s.rData.parserState = .URI)
    (htarget : HttpTarget (l.map Prod.fst))
    (hiter : iteration s =
      hostCase (checkUriAbsolute (({ s with io := io } : ReqState).goto .URI_HOST)) (·.gotoSpaces .VERSION))
    (reads : ({ s with io := io } : ReqState).Reads (l.drop 7)) :
    AuthorityRun (targetScan (l.map Prod.fst)) s (authorityScan (l.map Prod.fst)) := by
  have hne : s.rData.parserState ≠ .LOCALHOST_HEADER_CHECK := by rw [hp]; decide
  have hreads : (({ s with io := io } : ReqState).goto .URI_HOST).Reads (l.drop 7) :=
    ⟨reads.shows_, reads.nonzero, reads.notEmpty⟩
  have hhost := readHost_scan true hreads
  have hbegun : ((({ s with io := io } : ReqState).goto .URI_HOST).rData.host[0] != 0) = false := by
    change (s.rData.host[0] != 0) = false
    rw [hline.host]
    rfl
  rw [hbegun, List.map_drop] at hhost
  have h7 := (httpTarget_iff _).mp htarget
  obtain ⟨p, hover, hin⟩ := absolute_over h7
  unfold authorityScan
  rw [if_pos h7]
  unfold checkUriAbsolute checkUriForHost at hiter
  generalize scanHost true false 0 ((l.map Prod.fst).drop 7) = h at hhost hover ⊢
  have hversion : (readHost true (({ s with io := io } : ReqState).goto .URI_HOST)).2.rData.version =
      s.rData.version := version_readHost true _
  generalize readHost true (({ s with io := io } : ReqState).goto .URI_HOST) = r at hhost hiter hversion
  cases hhost with
  | @short s' short flag =>
    simp only [Bool.false_eq_true, if_false, flag, if_true] at hiter
    simp only
    rw [if_pos short]
    exact .ends (loopBody_hostCase_fails hiter (.inr flag)) nofun nofun
  | @refused s' l' v refused invalid reads' bytes begun =>
    have hshort : ¬h.Short := by
      rintro ⟨hlt, hnil⟩
      rcases refused with hfull | ⟨-, -, hafter⟩
      · exact Nat.ne_of_lt hlt hfull
      · exact hafter hnil
    have hok : (decide (h.i < HOST_MAX_SIZE) && v) = false := by
      rw [Bool.eq_false_iff, ne_eq, Bool.and_eq_true, decide_eq_true_iff]
      exact invalid
    simp only [hok, Bool.false_eq_true, if_false, reads'.notEmpty] at hiter
    simp only
    -- With a first byte in the array the loop stalls, without one the target is taken as relative.
    rw [if_neg hshort, if_pos refused]
    cases hb : h.begun with
    | true =>
      have h0 : s'.rData.host[0] ≠ 0 := bne_iff_ne.mp (begun.trans hb)
      refine .ends (loopBody_hostCase_fails hiter (.inl ?_)) nofun nofun
      rw [cleanRelativeUri_rData]
      exact h0
    | false =>
      have h0 : s'.rData.host[0] = 0 := by
        rw [hb, bne_eq_false_iff_eq] at begun
        exact begun
      refine .none (lineRun_relative reads' ⟨fun hv => hline.version (hversion.symm.trans hv), h0⟩ hiter hne ?_)
      rw [bytes, hover]
      refine List.dropWhile_append_of_pos fun c hc => ?_
      rw [(hin c hc).1]
      rfl
  | @valid s' l' lt short refused reads' bytes begun last port =>
    simp only [lt, decide_true, Bool.and_true, if_true] at hiter
    simp only
    rw [if_neg short, if_neg refused]
    have hbody : loopBody s = .inl ((hostCallback s').goto .FINISHED) := by
      unfold loopBody
      rw [hiter]
      rfl
    exact .goes hbody (.taken ⟨reads'.shows_, reads'.nonzero, reads'.notEmpty⟩ bytes rfl)

/-- The loop in `URI` does with an authority what `authorityScan` says. -/
theorem authorityRun_target (h : s.Reads l) (hp : s.rData.parserState = .URI) (hline : s.InLine) :
    AuthorityRun (targetScan (l.map Prod.fst)) s (authorityScan (l.map Prod.fst)) := by
  by_cases htarget : HttpTarget (l.map Prod.fst)
  · have hiter : iteration s = hostCase (checkUri s) (·.gotoSpaces .VERSION) := by
      unfold iteration
      rw [hp]
    have huri := checkUri_scan h
    generalize checkUri s = r at huri hiter
    cases huri with
    | short other none flag => exact absurd htarget other
    | relative other reads => exact absurd htarget other
    | absolute target reads => exact authorityRun_absolute hline hp target hiter reads
  · have h7 : ¬matched (lit "HTTP://") (l.map Prod.fst) = 7 := fun h7 => htarget ((httpTarget_iff _).mpr h7)
    have hrun := lineRun_target h hp hline htarget
    unfold authorityScan
    rw [if_neg h7]
    split
    · next hall =>
      have hwaits : targetScan (l.map Prod.fst) = .waits := by
        refine targetScan_waits_of_authorityScan ?_
        unfold authorityScan
        rw [if_neg h7, if_pos hall]
      rw [hwaits] at hrun
      exact .of_lineRun hrun nofun nofun nofun
    · exact .none hrun

/-- The loop in `METHOD` does with an authority what `authority` says. -/
theorem authorityRun_method (h : s.Reads l) (hp : s.rData.parserState = .METHOD)
    (hm : s.rData.method = .UNDEFINED_M) (hline : s.InLine) :
    AuthorityRun (lineScan (l.map Prod.fst)) s (authority (l.map Prod.fst)) := by
  refine (AuthorityRun.byParts _).method h hp hm hline fun s' l' o mem hs begins hbytes hreads hp' hline' => ?_
  refine (authorityRun_target hreads hp' hline').congr fun hnone => ?_
  have hne : l'.map Prod.fst ≠ [] := by
    intro hnil
    rw [hnil] at hnone
    cases hnone
  unfold lineScan
  rw [methodScan_of_beginsWith mem begins, if_pos hs, spacesScan, ← hbytes, if_neg hne]

end Run

/-! ## The machine -/

/-- The loop comes from `s` with `l` to read to `s'` with `l'` to read. -/
structure ReqState.Leads (s : ReqState) (l : List Cell) (s' : ReqState) (l' : List Cell) : Prop where
  reads : s'.Reads l'
  wf : s'.rData.Wf
  after : reqMachine.stateAfter s.machine l = reqMachine.stateAfter s'.machine l'

section Leads

variable {s s' : ReqState} {l : List Cell}

theorem ReqState.Leads.refl (h : s.Reads l) (hw : s.rData.Wf) : s.Leads l s l := ⟨h, hw, rfl⟩

/-- What the loop comes to on two parts of its way. -/
theorem ReqState.Leads.trans {s'' : ReqState} {l' l'' : List Cell} (h : s.Leads l s' l')
    (h' : s'.Leads l' s'' l'') : s.Leads l s'' l'' :=
  ⟨h'.reads, h'.wf, h.after.trans h'.after⟩

/-- An iteration that goes on is a part of the machine's run. -/
theorem leads_goes (h : s.Reads l) (hw : s.rData.Wf) (hgo : loopBody s = .inl s') :
    ∃ l', s.Leads l s' l' := by
  have hmove := iteration_move h hw
  have hwf := iteration_wf hw
  obtain ⟨hflags, rfl⟩ := loopBody_eq_inl.mp hgo
  generalize iteration s = i at *
  cases hmove with
  | @goes s' l' reads adv =>
    obtain ⟨e, -, hy⟩ := adv.emits
    exact ⟨l', reads, hwf, hy.stateAfter_eq⟩
  | waits => cases hflags
  | stops => cases hflags
  | finished => cases hflags

/-- A loop that ends without success is none that accepts. -/
theorem not_accepted_of_ends (h : s.Reads l) (hw : s.rData.Wf) (hends : loopBody s = .inr (false, s'))
    (unread : List Cell) : (reqMachine.stateAfter s.machine l).ctl ≠ .halt .accepted unread := by
  have hmove := iteration_move h hw
  have hresult := loopBody_eq_inr hends
  generalize iteration s = i at *
  cases hmove with
  | goes s'' reads adv => cases hresult
  | @waits s'' q' rests calls w =>
    obtain ⟨e, -, hy⟩ := w.emits
    rw [hy.stateAfter_eq]
    exact rests.rests.not_halt _ _
  | @stops s'' l' why reads hp rejected adv =>
    obtain ⟨e, -, hy⟩ := adv.emits
    have hhalt := run_halt why [] { s''.rData.toRequestFields with state := errorOf s'' } s''.calls l'
    rw [hy.stateAfter_eq, ReqState.stopped, Transducer.stateAfter, hhalt]
    intro hctl
    obtain rfl := (ReqCtl.halt.inj hctl).1
    rcases rejected with ⟨hwhy, -⟩ | ⟨hwhy, -⟩ <;> cases hwhy
  | finished => cases hresult

/-- A line that is passed is one the loop comes to the end of. -/
theorem LineRun.leads_passes {rest : List UInt8} (h : LineRun s (.passes rest)) (hreads : s.Reads l)
    (hw : s.rData.Wf) : ∃ s' l', s.Leads l s' l' ∧ s'.PastLine ∧ l'.map Prod.fst = rest := by
  generalize hr : LineScan.passes rest = r at h
  induction h generalizing l with
  | goes go hp run ih =>
    obtain ⟨l₁, hleads⟩ := leads_goes hreads hw go
    obtain ⟨s', l', hleads', hpast, hbytes⟩ := ih hleads.reads hleads.wf hr
    exact ⟨s', l', hleads.trans hleads', hpast, hbytes⟩
  | waits => cases hr
  | fails => cases hr
  | @passes s l₁ rest' reads bytes hp =>
    obtain rfl := LineScan.passes.inj hr
    obtain rfl : l₁ = l := reads.shows_.cells.symm.trans hreads.shows_.cells
    exact ⟨s, l₁, .refl hreads hw, hp, bytes⟩

/-- A request that is accepted is past its start line. -/
theorem LineRun.of_accepted {r : LineScan} (h : LineRun s r) (hreads : s.Reads l) (hw : s.rData.Wf)
    {unread : List Cell} (hacc : (reqMachine.stateAfter s.machine l).ctl = .halt .accepted unread) :
    ∃ rest, r = .passes rest := by
  induction h generalizing l with
  | goes go hp run ih =>
    obtain ⟨l₁, hleads⟩ := leads_goes hreads hw go
    exact ih hleads.reads hleads.wf (hleads.after ▸ hacc)
  | waits ends flag hp => exact absurd hacc (not_accepted_of_ends hreads hw ends unread)
  | fails ends flag error hp => exact absurd hacc (not_accepted_of_ends hreads hw ends unread)
  | passes reads bytes hp => exact ⟨_, rfl⟩

namespace AuthorityRun

variable {line r : LineScan}

/-- Without an authority the loop goes on with the start line. -/
theorem leads_none (h : AuthorityRun line s (.fails .OK)) (hreads : s.Reads l) (hw : s.rData.Wf) :
    ∃ s' l', s.Leads l s' l' ∧ LineRun s' line := by
  generalize hr : LineScan.fails .OK = r at h
  induction h generalizing l with
  | goes go run ih =>
    obtain ⟨l₁, hleads⟩ := leads_goes hreads hw go
    obtain ⟨s', l', hleads', hrun⟩ := ih hleads.reads hleads.wf hr
    exact ⟨s', l', hleads.trans hleads', hrun⟩
  | ends hend none taken => exact absurd hr.symm none
  | taken => cases hr
  | none run => exact ⟨_, l, .refl hreads hw, run⟩

/-- With one it accepts the request. -/
theorem leads_taken {rest : List UInt8} (h : AuthorityRun line s (.passes rest)) (hreads : s.Reads l)
    (hw : s.rData.Wf) :
    ∃ s' l', s.Leads l s' l' ∧ s'.rData.parserState = .FINISHED ∧ l'.map Prod.fst = rest := by
  generalize hr : LineScan.passes rest = r at h
  induction h generalizing l with
  | goes go run ih =>
    obtain ⟨l₁, hleads⟩ := leads_goes hreads hw go
    obtain ⟨s', l', hleads', hp, hbytes⟩ := ih hleads.reads hleads.wf hr
    exact ⟨s', l', hleads.trans hleads', hp, hbytes⟩
  | ends hend none taken => exact absurd hr.symm (taken _)
  | @taken s l₁ rest' reads bytes hp =>
    obtain rfl := LineScan.passes.inj hr
    obtain rfl : l₁ = l := reads.shows_.cells.symm.trans hreads.shows_.cells
    exact ⟨s, l₁, .refl hreads hw, hp, bytes⟩
  | none => cases hr

/-- A run that accepts the request has taken the authority, or found none. -/
theorem of_accepted (h : AuthorityRun line s r) (hreads : s.Reads l) (hw : s.rData.Wf)
    {unread : List Cell} (hacc : (reqMachine.stateAfter s.machine l).ctl = .halt .accepted unread) :
    r = .fails .OK ∨ ∃ rest, r = .passes rest := by
  induction h generalizing l with
  | goes go run ih =>
    obtain ⟨l₁, hleads⟩ := leads_goes hreads hw go
    exact ih hleads.reads hleads.wf (hleads.after ▸ hacc)
  | ends hend none taken => exact absurd hacc (not_accepted_of_ends hreads hw hend unread)
  | taken => exact .inr ⟨_, rfl⟩
  | none => exact .inl rfl

end AuthorityRun

end Leads

/-! ## Requests received whole -/

section Whole

variable {w rest : List UInt8}

theorem map_fst_fresh (w : List UInt8) : (fresh w).map Prod.fst = w := by
  unfold fresh
  rw [List.map_map]
  exact List.map_id w

/-- A call that starts with the bytes `w`. -/
def wholeStart (w : List UInt8) : ReqState :=
  callStart defaultRequestStruct (bufferWriteAll (bufferInitR 0 w.length) w)

/-- The call on a whole request has its bytes to read. -/
theorem reads_wholeStart (hz : 0 ∉ w) : (wholeStart w).Reads (fresh w) := by
  have hwf : (bufferInitR 0 w.length).Wf := Buffer.wf_initR (Nat.zero_le _)
  have hfits : (bufferInitR 0 w.length).write + w.length ≤ (bufferInitR 0 w.length).limit :=
    Nat.le_of_eq (Nat.zero_add _)
  refine ⟨⟨Buffer.wf_writeAll hwf hfits, ?_⟩, ?_, rfl⟩
  · refine (Buffer.cells_writeAll hwf hfits).trans ?_
    rw [Buffer.cells_eq_nil.mpr rfl, List.nil_append]
  · intro x hx h0
    obtain ⟨c, hc, rfl⟩ := List.mem_map.mp hx
    obtain rfl : c = 0 := h0
    exact hz hc

theorem wf_wholeStart (w : List UInt8) : (wholeStart w).rData.Wf :=
  (running_callStart RequestData.Wf.default _).1

theorem machine_wholeStart (w : List UInt8) : (wholeStart w).machine = .initial := rfl

/-- The call on a whole request does with an authority what `authority` says. -/
theorem authorityRun_whole (hz : 0 ∉ w) : AuthorityRun (lineScan w) (wholeStart w) (authority w) := by
  have hrun := authorityRun_method (reads_wholeStart hz) rfl rfl
    ⟨show HttpVersion.v1_1 ≠ .undefined by decide, (wf_wholeStart w).host (.inl rfl)⟩
  rwa [map_fst_fresh] at hrun

/-- The machine is in front of the headers when it read a start line without an authority. -/
theorem stateAfter_line (hz : 0 ∉ w) (hauth : authority w = .fails .OK) (hline : lineScan w = .passes []) :
    (reqMachine.stateAfter .initial (fresh w)).ctl = .localHost := by
  have hrun := authorityRun_whole hz
  rw [hauth, hline] at hrun
  obtain ⟨s₁, l₁, hleads₁, hrun₁⟩ := hrun.leads_none (reads_wholeStart hz) (wf_wholeStart w)
  obtain ⟨s₂, l₂, hleads₂, hpast, hbytes⟩ := hrun₁.leads_passes hleads₁.reads hleads₁.wf
  have hafter := (hleads₁.trans hleads₂).after
  rw [List.map_eq_nil_iff.mp hbytes, Transducer.stateAfter_nil] at hafter
  rw [machine_wholeStart] at hafter
  rw [hafter, ReqState.machine, RequestData.startCtl, hpast]

end Whole

end HttpProxy
