import HttpProxy.RequestRuns

/-!
# Requests in absolute form

`AbsoluteForm` is a request whose target is `http://`, an authority and a path. The parser copies
user information and host to the same array, each from its start, and only puts a zero at the start
in between. So the host it announces is the one of the request exactly when no user information is
longer than the host (`announces_iff`): otherwise the end of the user information is left behind it.
-/

namespace HttpProxy

structure AbsoluteForm where
  type : HttpMethod
  method : List UInt8
  gap : List UInt8
  /-- `http://`, in any letter case. -/
  scheme : List UInt8
  userinfo : Option (List UInt8)
  host : List UInt8
  port : Option (List UInt8)
  /-- What follows the `/` behind the authority. -/
  rest : List UInt8
  supported : isSupported type = true
  method_eq : (method.map toupper, type) ∈ methodOption
  gap_blank : ∀ c ∈ gap, isBlank c = true
  scheme_eq : scheme.map toupper = lit "HTTP://"
  userinfo_ok : ∀ u ∈ userinfo, u.length ≤ 254 ∧ ∀ c ∈ u, isHostChar (tolower c) = true
  host_length : 1 ≤ host.length ∧ host.length ≤ 254
  host_ok : ∀ c ∈ host, isHostChar (tolower c) = true
  port_ok : ∀ ds ∈ port, ds ≠ [] ∧ (∀ c ∈ ds, isdigit c = true) ∧ Radix.dec.valueOf ds ≤ 65535
  rest_ok : 0 ∉ rest

namespace AbsoluteForm

variable (r : AbsoluteForm)

def userPart : List UInt8 := r.userinfo.elim [] (· ++ [0x40])

def portPart : List UInt8 := r.port.elim [] (0x3a :: ·)

def portNumber : Int := r.port.elim DEFAULT_PORT Radix.dec.valueOf

def authority : List UInt8 := r.userPart ++ r.host ++ r.portPart

def bytes : List UInt8 := r.method ++ r.gap ++ r.scheme ++ r.authority ++ 0x2f :: r.rest

/-- What the user information leaves in the host array behind the host. -/
def leftover : List UInt8 := r.userinfo.elim [] fun u => (u.map tolower).drop r.host.length

end AbsoluteForm

namespace ReqMachine

variable {q : ReqMachine}

/-! ## The authority -/

/-- The scheme of a target. -/
theorem takes_scheme (q : ReqMachine) {w : List UInt8} (hw : w.map toupper = lit "HTTP://") :
    Takes (q.goto (.uri 0)) w (q.goto (.host .uri 0)) w := by
  have hlit : lit "HTTP://" = lit "HTTP" ++ lit "://" := by decide
  obtain ⟨w, v, rfl, hw, hv⟩ := List.map_eq_append_iff.mp (hw.trans hlit)
  have hhttp : Takes (q.goto (.uri 0)) w (q.goto (.uriSep 0)) w :=
    takes_format .uri (fun j => (q.goto (.uri j)).stepRelative) (by decide)
      (fun _ _ _ => rfl) (fun _ _ => trivial) (hw.trans (by decide))
  have hsep : Takes (q.goto (.uriSep 0)) v (q.goto (.host .uri 0)) v :=
    takes_format .uriSep (fun j => (q.goto (.uriSep j)).stepRelative) (by decide)
      (fun _ _ _ => rfl) (fun _ _ => trivial) (hv.trans (by decide))
  exact hhttp.append hsep

/-- The machine after user information: only the first byte of it is overwritten. -/
def afterUser (r : AbsoluteForm) (q : ReqMachine) : ReqMachine :=
  r.userinfo.elim q fun u => (q.putHost 0 u).setHost 0 0

/-- The user's part is read up to its `@`, and forgotten but for its bytes in the array. -/
theorem run_userPart (r : AbsoluteForm) (q : ReqMachine) :
    reqMachine.run (q.goto (.host .uri 0)) (fresh r.userPart) =
      ((afterUser r q).goto (.host .uri 0), r.userPart) := by
  unfold AbsoluteForm.userPart afterUser
  cases huser : r.userinfo with
  | none => rfl
  | some u =>
    obtain ⟨hlen, hu⟩ := r.userinfo_ok u huser
    have hchars := run_hostChars .uri u q 0 hu (by rw [Nat.zero_add]; exact Nat.lt_of_le_of_lt hlen (by decide))
    have hat : reqMachine.run ((q.putHost 0 u).goto (.host .uri (0 + u.length))) (fresh [0x40]) =
        (((q.putHost 0 u).setHost 0 0).goto (.host .uri 0), [0x40]) := rfl
    have happ := Transducer.run_append_eq _ hchars hat
    rwa [← fresh_append] at happ

/-- The machine in front of the `/` behind an authority. -/
def afterAuthority (r : AbsoluteForm) (q : ReqMachine) : ReqMachine :=
  ((afterUser r q).putHost 0 r.host).goto (r.port.elim (.host .uri r.host.length)
    fun ds => .port .uri r.host.length (some (Radix.dec.valueOf ds)))

/-- The authority is read and written, and the host and port are known. -/
theorem run_authority (r : AbsoluteForm) (q : ReqMachine) :
    reqMachine.run (q.goto (.host .uri 0)) (fresh r.authority) = (afterAuthority r q, r.authority) := by
  have hhost := run_hostChars .uri r.host (afterUser r q) 0 r.host_ok
    (by rw [Nat.zero_add]; exact Nat.lt_of_le_of_lt r.host_length.2 (by decide))
  rw [Nat.zero_add] at hhost
  have hboth := Transducer.run_append_eq _ (run_userPart r q) hhost
  rw [← fresh_append] at hboth
  unfold AbsoluteForm.authority AbsoluteForm.portPart afterAuthority
  cases hport : r.port with
  | none =>
    simp only [Option.elim_none, List.append_nil]
    exact hboth
  | some ds =>
    obtain ⟨hne, hds, hmax⟩ := r.port_ok ds hport
    have hdigits := run_digits .uri r.host.length ds ((afterUser r q).putHost 0 r.host) none hds
    rw [numberValue_of_lt Radix.dec_lawful hne hds (by omega)] at hdigits
    have hcolon : reqMachine.run (((afterUser r q).putHost 0 r.host).goto (.host .uri r.host.length))
        (fresh [0x3a]) = (((afterUser r q).putHost 0 r.host).goto (.port .uri r.host.length none), [0x3a]) :=
      rfl
    have hport := Transducer.run_append_eq _ hcolon hdigits
    have hall := Transducer.run_append_eq _ hboth hport
    rw [← fresh_append, ← fresh_append] at hall
    exact hall

/-- The machine that has announced the origin of an authority. -/
def announced (r : AbsoluteForm) (q : ReqMachine) : ReqMachine :=
  (((afterUser r q).putHost 0 r.host).setPort
    (r.port.elim ((afterUser r q).putHost 0 r.host).d.port Radix.dec.valueOf)).accept

/-- The `/` behind an authority announces the origin. -/
theorem step_afterAuthority (r : AbsoluteForm) (q : ReqMachine) :
    reqMachine.step (afterAuthority r q) (0x2f, false) =
      ((announced r q).goto (.halt .accepted [(0x2f, false)]), []) := by
  unfold afterAuthority announced
  generalize (afterUser r q).putHost 0 r.host = q'
  cases r.port with
  | none => rfl
  | some ds => rfl

/-- Copying bytes of a host leaves the port. -/
theorem port_putHost (q : ReqMachine) (i : Nat) (w : List UInt8) :
    (q.putHost i w).d.port = q.d.port := by
  obtain ⟨host, hhost⟩ := putHost_eq q i w
  rw [hhost]

/-- The user's part gives no port. -/
theorem port_afterUser (r : AbsoluteForm) (q : ReqMachine) : (afterUser r q).d.port = q.d.port := by
  unfold afterUser
  cases r.userinfo with
  | none => rfl
  | some u => exact port_putHost q 0 u

/-- The user's part announces nothing. -/
theorem calls_afterUser (r : AbsoluteForm) (q : ReqMachine) : (afterUser r q).calls = q.calls := by
  unfold afterUser
  cases r.userinfo with
  | none => rfl
  | some u =>
    obtain ⟨host, hhost⟩ := putHost_eq q 0 u
    simp only [Option.elim_some, hhost]
    rfl

/-- The string in the host array behind an authority: the host, and what is left of longer user
information. -/
theorem cString_afterUser (r : AbsoluteForm) {q : ReqMachine}
    (hq : q.d.host.toList = List.replicate HOST_MAX_SIZE 0) :
    cString ((afterUser r q).putHost 0 r.host).d.host = r.host.map tolower ++ r.leftover := by
  have hlen := r.host_length
  rw [cString_putHost _ (Nat.le_trans hlen.2 (by decide)) r.host_ok]
  have hnone : ∀ k, (List.replicate k (0 : UInt8)).takeWhile (· != 0) = [] := by
    rintro (_ | k) <;> rfl
  unfold afterUser AbsoluteForm.leftover
  cases huser : r.userinfo with
  | none =>
    simp only [Option.elim_none]
    rw [hq, List.drop_replicate, hnone]
  | some u =>
    obtain ⟨hulen, hu⟩ := r.userinfo_ok u huser
    simp only [Option.elim_some]
    have hhost : ((q.putHost 0 u).setHost 0 0).d.host.toList.drop r.host.length =
        (q.putHost 0 u).d.host.toList.drop r.host.length := by
      change ((q.putHost 0 u).d.host.setIfInBounds 0 0).toList.drop _ = _
      rw [Vector.toList_setIfInBounds, List.drop_set,
        if_pos (Nat.lt_of_lt_of_le Nat.zero_lt_one hlen.1)]
    have hne : ∀ c ∈ (u.map tolower).drop r.host.length, (c != 0) = true := by
      intro c hc
      obtain ⟨b, hb, rfl⟩ := List.mem_map.mp (List.mem_of_mem_drop hc)
      exact bne_iff_ne.mpr (ne_zero_of_isHostChar (hu b hb))
    rw [hhost, toList_putHost q (by rw [Nat.zero_add]; exact Nat.le_trans hulen (by decide)),
      List.take_zero, List.nil_append, hq, Nat.zero_add, List.drop_replicate, List.drop_append,
      List.drop_replicate, List.takeWhile_append_of_pos hne, hnone, List.append_nil]

/-- The host announced is what the array holds up to its first zero. -/
theorem calls_announced (r : AbsoluteForm) {q : ReqMachine}
    (hq : q.d.host.toList = List.replicate HOST_MAX_SIZE 0) (hport : q.d.port = DEFAULT_PORT)
    (hcalls : q.calls = []) :
    (announced r q).calls = [(r.host.map tolower ++ r.leftover, r.portNumber)] := by
  have hputCalls : ((afterUser r q).putHost 0 r.host).calls = [] := by
    obtain ⟨host, hhost⟩ := putHost_eq (afterUser r q) 0 r.host
    rw [hhost]
    exact (calls_afterUser r q).trans hcalls
  have hall : (announced r q).calls = ((afterUser r q).putHost 0 r.host).calls ++
      [(cString ((afterUser r q).putHost 0 r.host).d.host,
        r.port.elim ((afterUser r q).putHost 0 r.host).d.port Radix.dec.valueOf)] := rfl
  rw [hall, hputCalls, cString_afterUser r hq, port_putHost, port_afterUser, hport]
  rfl

end ReqMachine

namespace AbsoluteForm

variable (r : AbsoluteForm)

/-- What the machine ends with. -/
theorem stateAfter_bytes :
    reqMachine.stateAfter .initial (fresh r.bytes) =
      (ReqMachine.announced r (ReqMachine.initial.setMethod r.type)).goto
        (.halt .accepted ([(0x2f, false)] ++ fresh r.rest)) := by
  have hmethod : Takes .initial r.method
      ((ReqMachine.initial.setMethod r.type).goto (.space .uri)) r.method :=
    ReqMachine.takes_method .initial r.method_eq r.supported
  have hscheme : Takes ((ReqMachine.initial.setMethod r.type).goto (.space .uri)) (r.gap ++ r.scheme)
      ((ReqMachine.initial.setMethod r.type).goto (.host .uri 0)) (SP :: r.scheme) := by
    have hlit : lit "HTTP://" = 0x48 :: lit "TTP://" := by decide
    have hs := r.scheme_eq
    refine ReqMachine.takes_afterSpaces r.gap_blank ?_ (fun c hc => ?_)
      (ReqMachine.takes_scheme _ hs)
    · intro hnil
      rw [hnil] at hs
      exact absurd hs (by decide)
    · obtain ⟨w, hw⟩ := List.head?_eq_some_iff.mp hc
      rw [hw] at hs
      have hup : toupper c = 0x48 := (List.cons.inj (hs.trans hlit)).1
      unfold toupper at hup
      unfold isBlank
      grind
  have hfront := Transducer.run_append_eq _ (hmethod.append hscheme).run_eq
    (ReqMachine.run_authority r (ReqMachine.initial.setMethod r.type))
  have hslash := ReqMachine.step_afterAuthority r (ReqMachine.initial.setMethod r.type)
  have hbytes : fresh r.bytes = fresh (r.method ++ (r.gap ++ r.scheme)) ++ fresh r.authority ++
      (0x2f, false) :: fresh r.rest := by
    simp only [bytes, fresh_append, fresh_cons, List.append_assoc]
  have hafter : reqMachine.stateAfter .initial
      (fresh (r.method ++ (r.gap ++ r.scheme)) ++ fresh r.authority) =
        ReqMachine.afterAuthority r (ReqMachine.initial.setMethod r.type) := congrArg Prod.fst hfront
  rw [hbytes, Transducer.stateAfter_append, Transducer.stateAfter_cons, hafter, hslash]
  exact congrArg Prod.fst (run_of_halt rfl (fresh r.rest))

/-- A request in absolute form has no zero byte. -/
theorem zero_not_mem_bytes : 0 ∉ r.bytes := by
  have hupper : ∀ {w l : List UInt8}, w.map toupper = l → 0 ∉ l → 0 ∉ w :=
    fun h hl hmem => hl (h ▸ List.mem_map_of_mem (f := toupper) hmem)
  have hhostChars : ∀ {w : List UInt8}, (∀ c ∈ w, isHostChar (tolower c) = true) → 0 ∉ w :=
    fun h hmem => absurd (h 0 hmem) (by decide)
  have hnames : ∀ o ∈ methodOption, 0 ∉ o.1 := by decide
  have hgap : 0 ∉ r.gap := fun hmem => absurd (r.gap_blank 0 hmem) (by decide)
  have huser : 0 ∉ r.userPart := by
    unfold userPart
    cases h : r.userinfo with
    | none => exact List.not_mem_nil
    | some u =>
      intro hmem
      rcases List.mem_append.mp hmem with hmem | hmem
      · exact hhostChars (r.userinfo_ok u h).2 hmem
      · exact absurd hmem (by decide)
  have hport : 0 ∉ r.portPart := by
    unfold portPart
    cases h : r.port with
    | none => exact List.not_mem_nil
    | some ds =>
      intro hmem
      rcases List.mem_cons.mp hmem with hmem | hmem
      · exact absurd hmem (by decide)
      · exact absurd ((r.port_ok ds h).2.1 0 hmem) (by decide)
  have hslash : (0 : UInt8) ≠ 0x2f := by decide
  simp only [bytes, authority, List.mem_append, List.mem_cons, not_or]
  exact ⟨⟨⟨⟨hupper rfl (hnames _ r.method_eq), hgap⟩, hupper r.scheme_eq (by decide)⟩,
    ⟨⟨huser, hhostChars r.host_ok⟩, hport⟩⟩, hslash, r.rest_ok⟩

/-- Nothing is left over of a user's part that is no longer than the host. -/
theorem leftover_eq_nil : r.leftover = [] ↔ ∀ u ∈ r.userinfo, u.length ≤ r.host.length := by
  unfold leftover
  cases r.userinfo with
  | none => exact ⟨fun _ _ hu => (nomatch hu), fun _ => rfl⟩
  | some u =>
    rw [Option.elim_some, List.drop_eq_nil_iff, List.length_map]
    exact ⟨fun h v hv => Option.some.inj hv ▸ h, fun h => h u rfl⟩

/-- The origin announced for a request received whole is its host and port exactly when its user
information is no longer than its host. -/
theorem announces_iff {n₀ n : Nat} (hroom : n₀ + r.bytes.length ≤ n) (bOut : Buffer) :
    (∃ res, checkRequest defaultRequestStruct (bufferWriteAll (bufferInitR n₀ n) r.bytes) bOut =
        some res ∧ res.calls = [(r.host.map tolower, r.portNumber)]) ↔
      ∀ u ∈ r.userinfo, u.length ≤ r.host.length := by
  have hafter := r.stateAfter_bytes
  obtain ⟨res, hres, -, hcalls⟩ := checkRequest_of_accepted r.zero_not_mem_bytes hroom bOut
    (congrArg ReqMachine.ctl hafter)
  have hannounced : res.calls = [(r.host.map tolower ++ r.leftover, r.portNumber)] := by
    rw [hcalls, hafter]
    exact ReqMachine.calls_announced r rfl rfl rfl
  rw [← r.leftover_eq_nil]
  constructor
  · rintro ⟨res', hres', hcalls'⟩
    obtain rfl : res = res' := Option.some.inj (hres.symm.trans hres')
    rw [hannounced] at hcalls'
    have hhost := congrArg Prod.fst (List.cons.inj hcalls').1
    exact List.append_right_eq_self.mp hhost
  · intro hnil
    rw [hnil, List.append_nil] at hannounced
    exact ⟨res, hres, hannounced⟩

/-- User information `u` in front of the host `ab`. -/
def sample : AbsoluteForm where
  type := .GET
  method := lit "GET"
  gap := lit " "
  scheme := lit "http://"
  userinfo := some (lit "u")
  host := lit "Ab"
  port := some (lit "81")
  rest := lit " HTTP/1.1\r\n"
  supported := rfl
  method_eq := by decide
  gap_blank := by decide +kernel
  scheme_eq := by decide
  userinfo_ok := by decide +kernel
  host_length := by decide
  host_ok := by decide +kernel
  port_ok := by decide +kernel
  rest_ok := by decide

theorem announces_sample :
    (∃ res, checkRequest defaultRequestStruct
        (bufferWriteAll (bufferInitR RESERVED 1024) sample.bytes) (bufferInit 1024) = some res ∧
        res.calls = [(sample.host.map tolower, sample.portNumber)]) ↔
      ∀ u ∈ sample.userinfo, u.length ≤ sample.host.length :=
  announces_iff sample (by decide +kernel) (bufferInit 1024)

/-- Of the user information `user` in front of the host `ab`, `er` is left in the host announced:
it is `aber`. -/
theorem announces_userinfo_left :
    (checkRequest defaultRequestStruct (bufferWriteAll (bufferInitR RESERVED 1024)
        (lit "GET http://user@ab/ HTTP/1.1\r\n")) (bufferInit 1024)).map (·.calls) ≠
      some [(lit "ab", 80)] := by
  decide +kernel

end AbsoluteForm

end HttpProxy
