import HttpProxy.RequestErrors

/-!
# The origins the parser announces

Four states of the parser announce a host and a port. None of them asks whether the host is empty or
the port in range, and the last entry of the host array, the only one that a host of 255 characters
fills, is never cleared: `ReqState.NamesOrigin` is what the state and the bytes in front of an
iteration have to be for the origin it announces, if it does, to be one that can be resolved.

The invariant is on the host array (`RequestData.KeepsHost`): it holds characters of hosts and zeros,
and no zero behind the first entry once the last one is taken.
-/

namespace HttpProxy

/-- A host and a port that can be resolved. -/
structure ValidOrigin (call : List UInt8 × Int) : Prop where
  nonempty : call.1 ≠ []
  length : call.1.length ≤ 254
  chars : ∀ c ∈ call.1, isHostChar c = true
  port : 1 ≤ call.2 ∧ call.2 ≤ 65535

instance decidableValidOrigin (call : List UInt8 × Int) : Decidable (ValidOrigin call) :=
  haveI : Decidable (∀ c ∈ call.1, isHostChar c = true) := List.decidableBAll _ call.1
  decidable_of_iff (call.1 ≠ [] ∧ call.1.length ≤ 254 ∧ (∀ c ∈ call.1, isHostChar c = true) ∧
      1 ≤ call.2 ∧ call.2 ≤ 65535)
    ⟨fun h => ⟨h.1, h.2.1, h.2.2.1, h.2.2.2⟩, fun h => ⟨h.nonempty, h.length, h.chars, h.port⟩⟩

/-! ## The host array -/

/-- The host array holds characters of hosts and zeros, and no zero behind the first entry once the
last one is taken. -/
structure RequestData.KeepsHost (rd : RequestData) : Prop where
  char : ∀ c ∈ rd.host.toList, c = 0 ∨ isHostChar c = true
  full : rd.host[254] ≠ 0 → ∀ k (hk : k < HOST_MAX_SIZE), 0 < k → rd.host[k] ≠ 0

theorem RequestData.KeepsHost.default : defaultRequestStruct.KeepsHost := by
  have hzero : ∀ c ∈ defaultRequestStruct.host.toList, c = 0 := by decide +kernel
  refine ⟨fun c hc => .inl (hzero c hc), fun h => absurd ?_ h⟩
  exact hzero _ (Vector.mem_toList_iff.mpr (Vector.getElem_mem (by decide)))

/-- What is kept of a host is read off its array. -/
theorem RequestData.KeepsHost.congr {rd rd' : RequestData} (h : rd.KeepsHost) (hhost : rd'.host = rd.host) :
    rd'.KeepsHost := by
  refine ⟨?_, ?_⟩
  · rw [hhost]
    exact h.char
  · rw [hhost]
    exact h.full

/-- A function that writes the host in its loop keeps what is kept of a host. -/
theorem RequestData.KeepsHost.hostStep {s s' : ReqState} (h : s.rData.KeepsHost) (hs : s.HostStep s') :
    s'.rData.KeepsHost := by
  rcases hs.host with hsame | ⟨userinfo, fuel, io, hloop⟩
  · exact h.congr hsame
  · have hkeeps := hostLoop_keeps userinfo fuel ⟨0, 0, s.rData.host, io⟩ (Nat.zero_lt_succ _)
    generalize hostLoop userinfo fuel ⟨0, 0, s.rData.host, io⟩ = t at hkeeps hloop
    refine ⟨?_, ?_⟩
    · rw [hloop]
      exact hkeeps.char h.char
    · rw [hloop]
      intro hlast k hk hpos
      rcases Nat.lt_or_eq_of_le (hkeeps.le (Nat.zero_le _)) with hlt | hfull
      · rw [hkeeps.last hlt] at hlast
        exact hkeeps.later k hk hpos (h.full hlast k hk hpos)
      · refine hkeeps.copied (fun j hj hlt => absurd hlt (Nat.not_lt_zero j)) k hk ?_
        rw [hfull]
        exact hk

/-- A host was begun, it ends in the array, and the port can be addressed. -/
def Addressable (begun : Bool) (rd : RequestData) (port : Int) : Prop :=
  begun = true ∧ rd.host[254] = 0 ∧ 1 ≤ port ∧ port ≤ 65535

/-- A string is not empty exactly when its first byte is not zero. -/
theorem cString_ne_nil_iff (host : Vector UInt8 HOST_MAX_SIZE) : cString host ≠ [] ↔ (host[0] != 0) = true := by
  have hcons : ∃ l, host.toList = host[0] :: l := by
    obtain ⟨c, l, hl⟩ := List.exists_cons_of_length_eq_add_one (n := 254) host.length_toList
    have hpos : 0 < host.toList.length := by rw [hl]; exact Nat.zero_lt_succ _
    have hget : host.toList[0] = host[0] := Vector.getElem_toList hpos
    simp only [hl, List.getElem_cons_zero] at hget
    exact ⟨l, by rw [hl, hget]⟩
  obtain ⟨l, hl⟩ := hcons
  unfold cString
  rw [hl, List.takeWhile_cons]
  cases host[0] != 0 with
  | true => exact iff_of_true (List.cons_ne_nil _ _) rfl
  | false => exact iff_of_false (fun h => h rfl) Bool.false_ne_true

/-- A host is short enough to be resolved exactly when the last byte but one of its array is a
zero. -/
theorem cString_length_iff {rd : RequestData} (h : rd.KeepsHost) (h0 : (rd.host[0] != 0) = true) :
    (cString rd.host).length ≤ 254 ↔ rd.host[254] = 0 := by
  have hlen : rd.host.toList.length = 255 := rd.host.length_toList
  constructor
  · intro hle
    by_contra hlast
    have hall : ∀ c ∈ rd.host.toList, (c != 0) = true := by
      intro c hc
      obtain ⟨k, hk, rfl⟩ := Vector.mem_iff_getElem.mp (Vector.mem_toList_iff.mp hc)
      rcases Nat.eq_zero_or_pos k with rfl | hpos
      · exact h0
      · exact bne_iff_ne.mpr (h.full hlast k hk hpos)
    unfold cString at hle
    rw [List.takeWhile_eq_self_iff.mpr hall, hlen] at hle
    omega
  · intro hlast
    have hpre : cString rd.host <+: rd.host.toList := List.takeWhile_prefix _
    by_contra hlong
    have heq : cString rd.host = rd.host.toList := hpre.eq_of_length_le (by omega)
    have hmem : (0 : UInt8) ∈ rd.host.toList := by
      rw [← hlast]
      exact Vector.mem_toList_iff.mpr (Vector.getElem_mem (by decide))
    exact Bool.false_ne_true (List.takeWhile_eq_self_iff.mp heq 0 hmem)

/-- A host and its port are valid just if the host is begun and ended in the array and the port can be
addressed. -/
theorem validOrigin_iff {rd : RequestData} (h : rd.KeepsHost) (port : Int) :
    ValidOrigin (cString rd.host, port) ↔ Addressable (rd.host[0] != 0) rd port := by
  have hchars : ∀ c ∈ cString rd.host, isHostChar c = true := by
    intro c hc
    have hne : (c != 0) = true := List.all_eq_true.mp List.all_takeWhile c hc
    have hmem : c ∈ rd.host.toList := (List.takeWhile_sublist _).subset hc
    exact (h.char c hmem).resolve_left (bne_iff_ne.mp hne)
  constructor
  · intro hvalid
    have h0 := (cString_ne_nil_iff rd.host).mp hvalid.nonempty
    exact ⟨h0, (cString_length_iff h h0).mp hvalid.length, hvalid.port⟩
  · rintro ⟨h0, hlast, hport⟩
    exact ⟨(cString_ne_nil_iff rd.host).mpr h0, (cString_length_iff h h0).mpr hlast, hchars, hport⟩

/-! ## What an iteration announces -/

/-- The host and its port are read. -/
def HostScan.Read (h : HostScan) : Prop := ¬h.Short ∧ ¬h.Refused

/-- What follows the host may follow it in a header. -/
def HostScan.Ends (h : HostScan) : Prop := isBlank (h.after.headD 0) = true ∨ h.after.headD 0 = CR

/-- The header of an earlier pass through the proxy. -/
def LocalHostHeader (w : List UInt8) : Prop := (w.take 12).map toupper = lit "X-LOCALHOST:"

/-- If the next iteration announces an origin, then one that can be resolved: the bytes it reads begin
a host and have a port in range, and the host array is not full. A request that comes back to the
proxy is announced with the host and the port that are there already. -/
def ReqState.NamesOrigin (s : ReqState) : Prop :=
  let w := s.io.b.bytes
  match s.rData.parserState with
  | .URI =>
    let h := scanHost true false 0 (w.drop 7)
    HttpTarget w ∧ h.Read → Addressable h.begun s.rData (h.port s.rData.port)
  | .URI_HOST =>
    let h := scanHost true (getElem s.rData.host 0 host_max_size_pos != 0) 0 w
    h.Read → Addressable h.begun s.rData (h.port s.rData.port)
  | .HOST =>
    let h := scanHost false (getElem s.rData.host 0 host_max_size_pos != 0) 0 w
    h.Read ∧ h.Ends → Addressable h.begun s.rData (h.port s.rData.port)
  | .LOCALHOST_HEADER_CHECK =>
    LocalHostHeader w → Addressable (getElem s.rData.host 0 host_max_size_pos != 0) s.rData s.rData.port
  | _ => True

/-- A function that looks for a host finds `h` just if `P`. -/
structure HostScan.Found (h : HostScan) (P : Prop) (s : ReqState) (r : Bool × ReqState) : Prop where
  iff : r.1 = true ↔ P
  begun : r.1 = true → (r.2.rData.host[0] != 0) = h.begun
  last : r.1 = true → r.2.rData.host[254] = s.rData.host[254]
  port : r.1 = true → r.2.rData.port = h.port s.rData.port

/-- A host that is announced, and whether it can be resolved; or none. -/
def ReqState.OriginStep (s s' : ReqState) (names : Prop) : Prop :=
  s.Silent s' ∧ names ∨ ∃ call, s'.calls = s.calls ++ [call] ∧ (ValidOrigin call ↔ names)

section Found

variable {s : ReqState} {l : List Cell}

/-- `checkUriForHost` finds the host that the scan finds. -/
theorem checkUriForHost_found (h : s.Reads l) :
    (scanHost true (s.rData.host[0] != 0) 0 (l.map Prod.fst)).Found
      (scanHost true (s.rData.host[0] != 0) 0 (l.map Prod.fst)).Read s (checkUriForHost s) := by
  have hread := readHost_scan true h
  unfold checkUriForHost
  generalize scanHost true (s.rData.host[0] != 0) 0 (l.map Prod.fst) = scan at hread ⊢
  generalize readHost true s = r at hread ⊢
  cases hread with
  | short short flag =>
    refine ⟨iff_of_false Bool.false_ne_true fun hr => hr.1 short, ?_, ?_, ?_⟩ <;> rintro ⟨⟩
  | @refused s' l' v refused invalid reads bytes begun =>
    have hfalse : (decide (scan.i < HOST_MAX_SIZE) && v) = false := by
      rw [Bool.eq_false_iff, ne_eq, Bool.and_eq_true, decide_eq_true_iff]
      exact invalid
    simp only [hfalse]
    refine ⟨iff_of_false Bool.false_ne_true fun hr => hr.2 refused, ?_, ?_, ?_⟩ <;> rintro ⟨⟩
  | @valid s' l' lt short refused reads bytes begun last port =>
    simp only [lt, decide_true, Bool.and_true]
    exact ⟨iff_of_true rfl ⟨short, refused⟩, fun _ => begun, fun _ => last, fun _ => port⟩

/-- `extractHost` finds the host that the scan finds. -/
theorem extractHost_found (h : s.Reads l) :
    (scanHost false (s.rData.host[0] != 0) 0 (l.map Prod.fst)).Found
      ((scanHost false (s.rData.host[0] != 0) 0 (l.map Prod.fst)).Read ∧
        (scanHost false (s.rData.host[0] != 0) 0 (l.map Prod.fst)).Ends) s (extractHost s) := by
  have hread := readHost_scan false h
  unfold extractHost
  generalize scanHost false (s.rData.host[0] != 0) 0 (l.map Prod.fst) = scan at hread ⊢
  generalize readHost false s = r at hread ⊢
  cases hread with
  | short short flag =>
    refine ⟨iff_of_false Bool.false_ne_true fun hr => hr.1.1 short, ?_, ?_, ?_⟩ <;> rintro ⟨⟩
  | @refused s' l' v refused invalid reads bytes begun =>
    have hfalse : (decide (scan.i < HOST_MAX_SIZE) && v) = false := by
      rw [Bool.eq_false_iff, ne_eq, Bool.and_eq_true, decide_eq_true_iff]
      exact invalid
    simp only [hfalse, Bool.false_and]
    refine ⟨iff_of_false Bool.false_ne_true fun hr => hr.1.2 refused, ?_, ?_, ?_⟩ <;> rintro ⟨⟩
  | @valid s' l' lt short refused reads bytes begun last port =>
    have hpeek : bufferPeek s'.io.b = scan.after.headD 0 := by
      rw [← bytes]
      cases l' with
      | nil => exact reads.shows_.peek_nil
      | cons x l' => exact reads.shows_.peek
    have hends : (isBlank (scan.after.headD 0) || scan.after.headD 0 == CR) = true ↔ scan.Ends := by
      unfold HostScan.Ends
      rw [Bool.or_eq_true, beq_iff_eq]
    have hiff : scan.Ends ↔ scan.Read ∧ scan.Ends := (and_iff_right ⟨short, refused⟩).symm
    simp only [lt, decide_true, Bool.true_and, hpeek]
    exact ⟨hends.trans hiff, fun _ => begun, fun _ => last, fun _ => port⟩

/-- `checkUri` finds the host that the scan finds behind `http://`. -/
theorem checkUri_found (h : s.Reads l) (h0 : s.rData.host[0] = 0) :
    (scanHost true false 0 ((l.map Prod.fst).drop 7)).Found
      (HttpTarget (l.map Prod.fst) ∧ (scanHost true false 0 ((l.map Prod.fst).drop 7)).Read) s
      (checkUri s) := by
  have huri := checkUri_scan h
  generalize checkUri s = r at huri ⊢
  cases huri with
  | short other none flag =>
    refine ⟨iff_of_false Bool.false_ne_true fun hr => other hr.1, ?_, ?_, ?_⟩ <;> rintro ⟨⟩
  | relative other reads =>
    refine ⟨iff_of_false Bool.false_ne_true fun hr => other hr.1, ?_, ?_, ?_⟩ <;> rintro ⟨⟩
  | @absolute io target reads =>
    have hreads : (({ s with io := io } : ReqState).goto .URI_HOST).Reads (l.drop 7) :=
      ⟨reads.shows_, reads.nonzero, reads.notEmpty⟩
    have hfound := checkUriForHost_found hreads
    have hbegun : ((({ s with io := io } : ReqState).goto .URI_HOST).rData.host[0] != 0) = false := by
      change (s.rData.host[0] != 0) = false
      rw [h0]
      rfl
    rw [hbegun, List.map_drop] at hfound
    unfold checkUriAbsolute
    generalize scanHost true false 0 ((l.map Prod.fst).drop 7) = scan at hfound ⊢
    generalize checkUriForHost (({ s with io := io } : ReqState).goto .URI_HOST) = r at hfound ⊢
    obtain ⟨ok, s'⟩ := r
    cases ok with
    | true =>
      exact ⟨iff_of_true rfl ⟨target, hfound.iff.mp rfl⟩, hfound.begun, hfound.last, hfound.port⟩
    | false =>
      have hnot : ¬(HttpTarget (l.map Prod.fst) ∧ scan.Read) := fun hr =>
        Bool.false_ne_true (hfound.iff.mpr hr.2)
      simp only [Bool.false_eq_true, if_false]
      split
      · refine ⟨iff_of_false Bool.false_ne_true hnot, ?_, ?_, ?_⟩ <;> rintro ⟨⟩
      · refine ⟨iff_of_false Bool.false_ne_true hnot, ?_, ?_, ?_⟩ <;> rintro ⟨⟩

/-- The host of a `hostCase` is announced if it is found. -/
theorem originStep_hostCase {h : HostScan} {P : Prop} {r : Bool × ReqState}
    {otherwise : ReqState → ReqState} (hfound : h.Found P s r) (hk : r.2.rData.KeepsHost)
    (hsilent : s.Silent r.2) (hother : ∀ s, ReqState.Silent s (otherwise s)) :
    s.OriginStep (hostCase r otherwise).2
      (P → Addressable h.begun s.rData (h.port s.rData.port)) := by
  obtain ⟨ok, s'⟩ := r
  cases ok with
  | true =>
    have hvalid := validOrigin_iff hk s'.rData.port
    refine .inr ⟨(cString s'.rData.host, s'.rData.port), congrArg (· ++ [_]) hsilent, ?_⟩
    rw [hvalid, show (s'.rData.host[0] != 0) = h.begun from hfound.begun rfl,
      show s'.rData.port = h.port s.rData.port from hfound.port rfl]
    unfold Addressable
    rw [show s'.rData.host[254] = s.rData.host[254] from hfound.last rfl]
    exact ⟨fun ha _ => ha, fun ha => ha (hfound.iff.mp rfl)⟩
  | false =>
    refine .inl ⟨?_, fun hP => absurd (hfound.iff.mpr hP) Bool.false_ne_true⟩
    unfold hostCase
    split
    · exact hsilent
    · exact (hother s').trans hsilent

/-- A request that comes back is announced. -/
theorem originStep_localHostCase (h : s.Reads l) (hl : s.rData.isLocalHost = false)
    (hk : s.rData.KeepsHost) :
    s.OriginStep (localHostCase (checkLocalHost s)).2
      (LocalHostHeader (l.map Prod.fst) → Addressable (s.rData.host[0] != 0) s.rData s.rData.port) := by
  have hnot : ∀ {r : Bool × ReqState}, r.1 = false → s.Silent r.2 →
      ¬LocalHostHeader (l.map Prod.fst) →
      s.OriginStep (localHostCase r).2
        (LocalHostHeader (l.map Prod.fst) → Addressable (s.rData.host[0] != 0) s.rData s.rData.port) := by
    intro r hfalse hsilent hother
    refine .inl ⟨?_, fun hheader => absurd hheader hother⟩
    unfold localHostCase
    rw [if_neg (by rw [hfalse]; exact Bool.false_ne_true)]
    split <;> exact hsilent
  have hmatch := matchFormat_scan [] (show 0 ∉ lit "X-LOCALHOST:" by decide) h.nonzero h.shows_
  have hheader := matched_eq_length_iff (lit "X-LOCALHOST:") (l.map Prod.fst)
  have hfirst : ∀ c, peekUpChar s.io.b = c → c ≠ 0x58 → ¬LocalHostHeader (l.map Prod.fst) := by
    intro c hpeek hc hheader
    cases l with
    | nil => cases hheader
    | cons x l =>
      rw [peekUpChar, h.shows_.peek] at hpeek
      have hhead := congrArg (List.headD · 0) hheader
      change toupper x.1 = 0x58 at hhead
      exact hc (hpeek.symm.trans hhead)
  unfold checkLocalHost
  simp only
  split
  · next hc => exact hnot rfl rfl (hfirst 0 hc (by decide))
  · split
    · next hc => exact hnot hl rfl (hfirst _ rfl hc)
    · generalize matchFormat (lit "X-LOCALHOST:") [] s.io = r at hmatch ⊢
      cases hmatch with
      | @full io all shows_ flag =>
        have hheader : LocalHostHeader (l.map Prod.fst) := hheader.mp all
        have hvalid := validOrigin_iff hk s.rData.port
        refine .inr ⟨(cString s.rData.host, s.rData.port), rfl, hvalid.trans ?_⟩
        exact ⟨fun ha _ => ha, fun ha => ha hheader⟩
      | @miss io part more shows_ flag =>
        have hother : ¬LocalHostHeader (l.map Prod.fst) := fun hc => Nat.ne_of_lt part (hheader.mpr hc)
        simp only [Bool.false_eq_true, if_false]
        split
        · exact hnot rfl rfl hother
        · exact hnot hl rfl hother
      | @short io part none flag =>
        have hother : ¬LocalHostHeader (l.map Prod.fst) := fun hc => Nat.ne_of_lt part (hheader.mpr hc)
        simp only [Bool.false_eq_true, if_false, flag, if_true]
        exact hnot rfl rfl hother

end Found

/-- What an iteration announces can be resolved just if the state and the bytes in front of it say
so. -/
theorem originStep_iteration {s : ReqState} {l : List Cell} (h : s.Reads l) (hw : s.rData.Wf)
    (hk : s.rData.KeepsHost) : s.OriginStep (iteration s).2 s.NamesOrigin := by
  have hbytes : s.io.b.bytes = l.map Prod.fst := by rw [← h.shows_.cells, Buffer.map_fst_cells]
  have hcase : ∀ {r : Bool × ReqState} {next : ReqState → ReqState}, s.Silent r.2 →
      (∀ s, ReqState.Silent s (next s)) → s.OriginStep (checkCase r next).2 True := by
    intro r next hsilent hnext
    refine .inl ⟨?_, trivial⟩
    unfold checkCase
    split
    · exact hsilent
    · exact (hnext r.2).trans hsilent
  unfold iteration ReqState.NamesOrigin
  cases hp : s.rData.parserState <;> simp only [hbytes]
  case SPACE_TRANSITION => exact hcase (silent_checkSpaces s) fun _ => rfl
  case METHOD => exact hcase (silent_extractHttpMethod s) fun _ => rfl
  case URI =>
    exact originStep_hostCase (checkUri_found h (hw.host (.inr (.inl hp))))
      (hk.hostStep (hostStep_checkUri s)) (silent_checkUri s) fun _ => rfl
  case URI_HOST =>
    exact originStep_hostCase (checkUriForHost_found h) (hk.hostStep (hostStep_checkUriForHost s))
      (silent_checkUriForHost s) fun _ => rfl
  case RELATIVE_URI => exact hcase (silent_cleanRelativeUri s) fun _ => rfl
  case VERSION => exact hcase (silent_extractHttpVersion s) fun _ => rfl
  case START_LINE_END => exact hcase (r := checkStartLineEnd s) rfl fun _ => rfl
  case LOCALHOST_HEADER_CHECK =>
    refine originStep_localHostCase h (hw.isLocalHost ?_) hk
    rw [hp]
    decide
  case HEADERS => exact hcase (silent_checkHostHeader s) fun _ => rfl
  case HOST =>
    exact originStep_hostCase (extractHost_found h) (hk.hostStep (hostStep_extractHost s))
      (silent_extractHost s) fun _ => rfl
  case FINISHED => exact .inl ⟨rfl, trivial⟩

/-! ## Calls -/

/-- Where a loop of the parser is between two iterations. -/
structure ReqState.AtWork (s : ReqState) : Prop where
  wf : s.rData.Wf
  reads : ∃ l, s.Reads l
  host : s.rData.KeepsHost

/-- An iteration that goes on keeps the loop at work. -/
theorem atWork_goes {s s' : ReqState} (h : s.AtWork) (hgo : loopBody s = .inl s') : s'.AtWork := by
  obtain ⟨hw, hreads⟩ := loopBody_reads ⟨h.wf, h.reads⟩ hgo
  refine ⟨hw, hreads, ?_⟩
  obtain ⟨-, rfl⟩ := loopBody_eq_inl.mp hgo
  exact h.host.hostStep (hostStep_iteration s)

/-- An iteration that ends the loop ends it with its own flag. -/
theorem loopBody_eq_inr {s : ReqState} {r : Bool × ReqState} (h : loopBody s = .inr r) :
    r = ((iteration s).1.success, (iteration s).2) := by
  unfold loopBody at h
  simp only at h
  split at h
  · cases h
  · exact (Sum.inr.inj h).symm

/-- The origins announced at the end of an iteration can be resolved just if those announced before
can, and what is in front of it names one. -/
theorem origins_iteration {s : ReqState} (h : s.AtWork) :
    (∀ call ∈ (iteration s).2.calls, ValidOrigin call) ↔
      (∀ call ∈ s.calls, ValidOrigin call) ∧ s.NamesOrigin := by
  obtain ⟨l, hreads⟩ := h.reads
  rcases originStep_iteration hreads h.wf h.host with ⟨hsilent, hnames⟩ | ⟨call, hcall, hvalid⟩
  · rw [show (iteration s).2.calls = s.calls from hsilent]
    exact (and_iff_left hnames).symm
  · rw [hcall, List.forall_mem_append, List.forall_mem_singleton, hvalid]

/-- The origins of a call are valid exactly when those that its run meets are. The induction is on the
fuel. -/
theorem requestLoop_origins_iff {fuel : Nat} {s : ReqState} {r : Bool × ReqState} (h : s.AtWork)
    (hloop : requestLoop fuel s = some r) :
    (∀ call ∈ r.2.calls, ValidOrigin call) ↔
      (∀ call ∈ s.calls, ValidOrigin call) ∧
        ∀ s', Loop.Reaches loopBody s s' → s'.NamesOrigin := by
  refine Loop.run_iff (I := ReqState.AtWork) (C := ReqState.NamesOrigin)
    (D := fun s => ∀ call ∈ s.calls, ValidOrigin call)
    (P := fun r => ∀ call ∈ r.2.calls, ValidOrigin call) (fun s s' hs hgo => ?_)
    (fun s r hs hend => ?_) h hloop
  · have hiff := origins_iteration hs
    rw [(loopBody_eq_inl.mp hgo).2] at hiff
    exact ⟨atWork_goes hs hgo, hiff⟩
  · rw [loopBody_eq_inr hend]
    exact origins_iteration hs

/-- A loop that reaches a state in front of which no origin is named, but announced, ends. -/
theorem halts_of_not_namesOrigin {s : ReqState} (h : s.AtWork) (hs : ¬s.NamesOrigin) :
    Loop.Halts loopBody s := by
  obtain ⟨l, hreads⟩ := h.reads
  rcases announces_iteration s with hsilent | ⟨hflags, hp, -⟩
  · have hstep := originStep_iteration hreads h.wf h.host
    rcases hstep with ⟨-, hnames⟩ | ⟨call, hcall, -⟩
    · exact absurd hnames hs
    · have hlen := congrArg List.length (hsilent.symm.trans hcall)
      rw [List.length_append] at hlen
      exact absurd hlen (Nat.ne_of_lt (Nat.lt_succ_self _))
  · have hgo : loopBody s = .inl (iteration s).2 := loopBody_eq_inl.mpr ⟨hflags, rfl⟩
    have hend : loopBody (iteration s).2 = .inr (true, (iteration s).2) := by
      unfold loopBody
      rw [iteration_finished hp]
      rfl
    exact .head (.single hgo) (Loop.halts_of_ends hend)

variable {rd : RequestData} {bIn bOut : Buffer} {r : RequestResult}

/-- A call begins with the loop at work. -/
theorem atWork_callStart (hw : rd.Wf) (hk : rd.KeepsHost) (hb : bIn.Wf) (hz : 0 ∉ bIn.bytes) :
    (callStart rd bIn).AtWork := by
  refine ⟨(running_callStart hw bIn).1, ⟨bIn.cells, ⟨hb, rfl⟩, fun x hx h0 => hz ?_, rfl⟩, hk.congr rfl⟩
  rw [← Buffer.map_fst_cells, ← h0]
  exact List.mem_map_of_mem hx

/-- The origins a call announces can be resolved just if no iteration of its loop announces another
one. -/
theorem checkRequest_origins_iff (hw : rd.Wf) (hk : rd.KeepsHost) (hb : bIn.Wf) (hz : 0 ∉ bIn.bytes)
    (h : checkRequest rd bIn bOut = some r) :
    (∀ call ∈ r.calls, ValidOrigin call) ↔
      ∀ s, Loop.Reaches loopBody (callStart rd bIn) s → s.NamesOrigin := by
  obtain ⟨r', hloop, rfl⟩ := checkRequest_eq_some_iff.mp h
  rw [reportError_calls, requestLoop_origins_iff (atWork_callStart hw hk hb hz) hloop]
  exact and_iff_right fun call hcall => absurd hcall List.not_mem_nil

/-- A call whose loop comes to a state in front of which another origin is announced returns. -/
theorem checkRequest_of_not_namesOrigin (bOut : Buffer) (hw : rd.Wf) (hk : rd.KeepsHost) (hb : bIn.Wf)
    (hz : 0 ∉ bIn.bytes) {s : ReqState} (hreach : Loop.Reaches loopBody (callStart rd bIn) s)
    (hs : ¬s.NamesOrigin) : ∃ r, checkRequest rd bIn bOut = some r := by
  have hwork := hreach.invariant (fun _ _ => atWork_goes) (atWork_callStart hw hk hb hz)
  refine (checkRequest_isSome_iff hw bIn bOut).mpr (Loop.Halts.head hreach ?_)
  exact halts_of_not_namesOrigin hwork hs

/-- A call keeps what is kept of a host. -/
theorem checkRequest_keepsHost (hk : rd.KeepsHost) (h : checkRequest rd bIn bOut = some r) :
    r.rData.KeepsHost := by
  obtain ⟨r', hloop, rfl⟩ := checkRequest_eq_some_iff.mp h
  have hstart : (callStart rd bIn).rData.KeepsHost := hk.congr rfl
  have hend : r'.2.rData.KeepsHost := by
    refine Loop.run_induction (P := fun s r => s.rData.KeepsHost → r.2.rData.KeepsHost) ?_ ?_ hloop
      hstart
    · intro s r hend hs
      rw [loopBody_eq_inr hend]
      exact hs.hostStep (hostStep_iteration s)
    · intro s s' r hgo ih hs
      obtain ⟨-, rfl⟩ := loopBody_eq_inl.mp hgo
      exact ih (hs.hostStep (hostStep_iteration s))
  change (reportError r').2.rData.KeepsHost
  unfold reportError
  split
  · exact hend.congr rfl
  · exact hend

/-! ## Runs -/

namespace Feed

/-- Every origin announced in the call after `w` was received can be resolved. -/
def ResolvesOrigins (f : Feed) (w : List UInt8) : Prop :=
  f.rData.state = .OK → ∀ r, checkRequest f.rData (bufferWriteAll f.bIn w) f.bOut = some r →
    ∀ call ∈ r.calls, ValidOrigin call

/-- In front of every iteration of that call is an origin that can be resolved, if one is
announced. -/
def NamesOrigins (f : Feed) (w : List UInt8) : Prop :=
  f.rData.state = .OK →
    ∀ s, Loop.Reaches loopBody (callStart f.rData (bufferWriteAll f.bIn w)) s → s.NamesOrigin

instance decidableResolvesOrigins (f : Feed) (w : List UInt8) : Decidable (f.ResolvesOrigins w) :=
  inferInstanceAs (Decidable
    (_ → ∀ r ∈ checkRequest f.rData (bufferWriteAll f.bIn w) f.bOut, ∀ call ∈ r.calls, ValidOrigin call))

variable {n : Nat} {f f' : Feed} {w : List UInt8}

/-- The origins of one read are resolved exactly when they are named. -/
theorem resolvesOrigins_iff (h : f.Open n) (hk : f.rData.KeepsHost) (hw : 0 ∉ w) :
    f.ResolvesOrigins w ↔ f.NamesOrigins w := by
  refine imp_congr_right fun _ => ?_
  cases h with
  | readable wf bIn =>
    have hb := bIn.writeAll hw
    constructor
    · intro hresolves s hreach
      by_contra hnot
      obtain ⟨r, hr⟩ := checkRequest_of_not_namesOrigin f.bOut wf hk hb.wf hb.nonzero hreach hnot
      exact hnot ((checkRequest_origins_iff wf hk hb.wf hb.nonzero hr).mp (hresolves r hr) s hreach)
    · intro hnames r hr
      exact (checkRequest_origins_iff wf hk hb.wf hb.nonzero hr).mpr hnames
  | small lt bIn rData =>
    obtain ⟨v, hv⟩ := rData
    rw [bIn, hv, writeAll_of_small lt]
    refine iff_of_true (fun r hr => ?_) fun s hreach => ?_
    · rw [checkRequest_of_small] at hr
      obtain rfl := Option.some.inj hr
      exact fun call hcall => absurd hcall List.not_mem_nil
    · rcases Relation.ReflTransGen.cases_head hreach with rfl | ⟨s', hgo, -⟩
      · trivial
      · cases hgo

/-- A read keeps what is kept of a host. -/
theorem keepsHost_receive (hk : f.rData.KeepsHost) (hstep : f.receive w = some f') :
    f'.rData.KeepsHost := by
  unfold receive at hstep
  split at hstep
  · obtain ⟨r, hr, rfl⟩ := Option.map_eq_some_iff.mp hstep
    exact checkRequest_keepsHost hk hr
  · cases hstep

/-- Whatever the fragments, every origin announced can be resolved just if in every call the bytes
read name one where the parser announces it. -/
theorem resolvesOrigins_along_iff (n : Nat) (bOut : Buffer) (ws : List (List UInt8))
    (hz : ∀ w ∈ ws, 0 ∉ w) :
    PartialRun.Along Feed.receive ResolvesOrigins (.start (bufferInitR RESERVED n) bOut) ws ↔
      PartialRun.Along Feed.receive NamesOrigins (.start (bufferInitR RESERVED n) bOut) ws := by
  have hA : PartialRun.Along Feed.receive (fun _ w => 0 ∉ w) (.start (bufferInitR RESERVED n) bOut) ws :=
    PartialRun.along_of_prefixes fun pre w hpre _ _ =>
      hz w (hpre.subset (List.mem_append_right _ List.mem_cons_self))
  refine PartialRun.along_iff (I := fun f => f.Open n ∧ f.rData.KeepsHost) ?_ ?_
    ⟨open_start n bOut, .default⟩ hA
  · rintro f w f' ⟨hopen, hk⟩ hw hstep
    exact ⟨open_receive hopen hw hstep, keepsHost_receive hk hstep⟩
  · rintro f w ⟨hopen, hk⟩ hw
    exact resolvesOrigins_iff hopen hk hw

/-- A host and its port in two parts. -/
theorem resolvesOrigins_along_port :
    PartialRun.Along Feed.receive NamesOrigins (.start (bufferInitR RESERVED 1024) (bufferInit 1024))
      [lit "GET http://u@a.b:80", lit "80/"] :=
  (resolvesOrigins_along_iff 1024 (bufferInit 1024) [lit "GET http://u@a.b:80", lit "80/"]
    (by decide)).mp (by decide +kernel)

/-- A target without a host, which is announced all the same. -/
theorem empty_host_announced :
    ¬PartialRun.Along Feed.receive ResolvesOrigins
      (.start (bufferInitR RESERVED 1024) (bufferInit 1024)) [lit "GET http:/// HTTP/1.1\r\n"] := by
  decide +kernel

end Feed

end HttpProxy
