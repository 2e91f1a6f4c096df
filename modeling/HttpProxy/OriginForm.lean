import HttpProxy.RequestRuns

/-!
# Requests in origin form

`OriginForm` is a request up to the CR that ends its `Host` header, as a structure of its parts.
However its bytes are cut, the parser announces the host and the port when that CR arrives and not
before, and has then written the request with every run of blanks made one space and the proxy's
own header behind the start line (`relay`).
-/

namespace HttpProxy

structure OriginForm where
  type : HttpMethod
  method : List UInt8
  gap₁ : List UInt8
  /-- The target, without the `/` it starts with. -/
  path : List UInt8
  gap₂ : List UInt8
  version : List UInt8
  headers : List (List UInt8)
  /-- `Host:`, in any letter case. -/
  name : List UInt8
  gap₃ : List UInt8
  host : List UInt8
  port : Option (List UInt8)
  supported : isSupported type = true
  method_eq : (method.map toupper, type) ∈ methodOption
  gap₁_ne : gap₁ ≠ []
  gap₁_blank : ∀ c ∈ gap₁, isBlank c = true
  path_ok : ∀ c ∈ path, isBlank c = false ∧ c ≠ 0
  gap₂_ne : gap₂ ≠ []
  gap₂_blank : ∀ c ∈ gap₂, isBlank c = true
  version_eq : version.map toupper = lit "HTTP/1.0" ∨ version.map toupper = lit "HTTP/1.1"
  headers_ok : ∀ l ∈ headers, l ≠ [] ∧ (∀ c ∈ l, c ≠ 0 ∧ c ≠ CR ∧ c ≠ LF) ∧
    ¬lit "HOST:" <:+: l.map toupper
  first_ok : ∀ l ∈ headers.head?, ∀ c ∈ l.head?, toupper c ≠ 0x58
  name_eq : name.map toupper = lit "HOST:"
  gap₃_blank : ∀ c ∈ gap₃, isBlank c = true
  host_length : 1 ≤ host.length ∧ host.length ≤ 240
  host_ok : ∀ c ∈ host, isHostChar (tolower c) = true
  port_ok : ∀ ds ∈ port, ds ≠ [] ∧ (∀ c ∈ ds, isdigit c = true) ∧ Radix.dec.valueOf ds ≤ 2 ^ 31 - 1

/-- Header lines, each with its end. -/
def headerLines (headers : List (List UInt8)) : List UInt8 := headers.flatMap (· ++ [CR, LF])

namespace OriginForm

variable (r : OriginForm)

/-- The port as it is written, with its `:`. -/
def portPart : List UInt8 := r.port.elim [] (0x3a :: ·)

/-- The port the request is for. -/
def portNumber : Int := r.port.elim DEFAULT_PORT Radix.dec.valueOf

def startLine : List UInt8 := r.method ++ r.gap₁ ++ (0x2f :: r.path) ++ r.gap₂ ++ r.version ++ [CR, LF]

/-- The request without its last byte. -/
def head : List UInt8 :=
  r.startLine ++ headerLines r.headers ++ r.name ++ r.gap₃ ++ r.host ++ r.portPart

/-- The bytes of the request, up to the CR behind its host. -/
def bytes : List UInt8 := r.head ++ [CR]

/-- The request as the proxy passes it on. -/
def relayed : List UInt8 :=
  r.method ++ [SP] ++ (0x2f :: r.path) ++ [SP] ++ r.version ++ [CR, LF] ++
    lit "X-LOCALHOST: TRUE\r\n" ++ headerLines r.headers ++ r.name ++ [SP] ++ r.host ++ r.portPart

end OriginForm

namespace ReqMachine

variable {q : ReqMachine}

/-! ## The parts in sequence -/

/-- The start line is read, and the method and the version are known. -/
theorem takes_startLine (r : OriginForm) (q : ReqMachine) : ∃ c, (c = 0x30 ∨ c = 0x31) ∧
    Takes (q.goto .method) r.startLine (((q.setMethod r.type).setVersion c).goto .localHost)
      (r.method ++ [SP] ++ (0x2f :: r.path) ++ [SP] ++ r.version ++ [CR, LF]) := by
  obtain ⟨w, c, hversion, hw, hc⟩ : ∃ w c, r.version = w ++ [c] ∧ w.map toupper = lit "HTTP/1." ∧
      (c = 0x30 ∨ c = 0x31) := by
    have hsplit : ∀ d : UInt8, r.version.map toupper = lit "HTTP/1." ++ [d] →
        ∃ w c, r.version = w ++ [c] ∧ w.map toupper = lit "HTTP/1." ∧ toupper c = d := by
      intro d hd
      obtain ⟨w, v, hv, hw, hlast⟩ := List.map_eq_append_iff.mp hd
      obtain ⟨c, v, rfl, hcd, hnil⟩ := List.map_eq_cons_iff.mp hlast
      obtain rfl := List.map_eq_nil_iff.mp hnil
      exact ⟨w, c, hv, hw, hcd⟩
    -- Only letters are changed by `toupper`.
    have hdigit : ∀ {c d : UInt8}, toupper c = d → d < 0x41 → c = d := by
      intro c d hcd hd
      unfold toupper at hcd
      grind
    rcases r.version_eq with h | h
    · obtain ⟨w, c, hv, hw, hcd⟩ := hsplit 0x30 (h.trans (by decide))
      exact ⟨w, c, hv, hw, .inl (hdigit hcd (by decide))⟩
    · obtain ⟨w, c, hv, hw, hcd⟩ := hsplit 0x31 (h.trans (by decide))
      exact ⟨w, c, hv, hw, .inr (hdigit hcd (by decide))⟩
  refine ⟨c, hc, ?_⟩
  have hmethod := takes_method q r.method_eq r.supported
  have htarget : Takes ((q.setMethod r.type).goto (.space .uri)) (r.gap₁ ++ 0x2f :: r.path)
      ((q.setMethod r.type).goto .relative) (SP :: 0x2f :: r.path) := by
    have hslash : isBlank 0x2f = false := by decide
    refine takes_afterSpaces r.gap₁_blank (List.cons_ne_nil _ _) (fun c hc => ?_)
      (takes_target _ (by decide) fun b hb => ?_)
    · obtain rfl := Option.some.inj hc
      exact hslash
    · rcases List.mem_cons.mp hb with rfl | hb
      · exact hslash
      · exact (r.path_ok b hb).1
  have hgap : Takes ((q.setMethod r.type).goto .relative) r.gap₂
      ((q.setMethod r.type).goto (.space .version)) [] := by
    obtain ⟨b, bl, hbl⟩ := List.exists_cons_of_ne_nil r.gap₂_ne
    rw [hbl]
    exact takes_targetEnd _ (hbl ▸ r.gap₂_blank)
  have hend : Takes ((q.setMethod r.type).goto (.space .version)) (w ++ [c] ++ [CR, LF])
      (((q.setMethod r.type).setVersion c).goto .localHost) (SP :: (w ++ [c] ++ [CR, LF])) := by
    obtain ⟨b, w', rfl⟩ := List.exists_cons_of_ne_nil (l := w) (by rintro rfl; exact absurd hw (by decide))
    have hlit : lit "HTTP/1." = 0x48 :: lit "TTP/1." := by decide
    have hb : isBlank b = false := by
      have hup : toupper b = 0x48 := (List.cons.inj (hw.trans hlit)).1
      unfold toupper at hup
      unfold isBlank
      grind
    have hblanks : ∀ c ∈ ([] : List UInt8), isBlank c = true :=
      fun _ hc => absurd hc List.not_mem_nil
    have hhead : ∀ d ∈ (b :: w' ++ [c] ++ [CR, LF]).head?, isBlank d = false := by
      intro d hd
      obtain rfl := Option.some.inj hd
      exact hb
    have htakes := takes_afterSpaces (n := .version) (q := q.setMethod r.type) hblanks
      (List.cons_ne_nil _ _) hhead (takes_version _ hw hc)
    exact htakes
  have hall := ((hmethod.append htarget).append hgap).append hend
  rw [← hversion] at hall
  simpa only [OriginForm.startLine, List.append_assoc, List.cons_append, List.nil_append,
    List.append_nil, List.singleton_append] using hall

/-- Header lines are read and written up to the name of the Host header. The induction is on the
lines. -/
theorem takes_moreHeaders (q : ReqMachine) {headers : List (List UInt8)} {name : List UInt8}
    (hheaders : ∀ l ∈ headers, l ≠ [] ∧ (∀ c ∈ l, c ≠ 0 ∧ c ≠ CR ∧ c ≠ LF) ∧
      ¬lit "HOST:" <:+: l.map toupper) (hname : name.map toupper = lit "HOST:") :
    Takes (q.goto (.crlf 0)) (headerLines headers ++ name) (q.goto (.space .host))
      (headerLines headers ++ name) := by
  induction headers with
  | nil =>
    obtain ⟨c, name, rfl⟩ := List.exists_cons_of_ne_nil (l := name)
      (by rintro rfl; exact absurd hname (by decide))
    have hlit : lit "HOST:" = 0x48 :: lit "OST:" := by decide
    have hc : toupper c = 0x48 := (List.cons.inj (hname.trans hlit)).1
    have hcr : c ≠ CR := by
      rintro rfl
      exact absurd hc (by decide)
    exact takes_hostName (lineStart_next q hcr) hname
  | cons l headers ih =>
    obtain ⟨hne, hbytes, hno⟩ := hheaders l List.mem_cons_self
    obtain ⟨c, l, rfl⟩ := List.exists_cons_of_ne_nil hne
    have hline := takes_line (lineStart_next q (hbytes c List.mem_cons_self).2.1)
      (fun b hb => (hbytes b hb).2.1) hno
    have hrest := ih fun k hk => hheaders k (List.mem_cons_of_mem _ hk)
    have hall := hline.append hrest
    simpa only [headerLines, List.flatMap_cons, List.append_assoc, List.nil_append] using hall

/-- The headers in front of the `Host` header, and its name. -/
theorem takes_headers (r : OriginForm) {q : ReqMachine} (hq : q.d.isLocalHost = false) :
    Takes (q.goto .localHost) (headerLines r.headers ++ r.name) (q.goto (.space .host))
      (lit "X-LOCALHOST: TRUE\r\n" ++ (headerLines r.headers ++ r.name)) := by
  cases hheaders : r.headers with
  | nil =>
    have hname := r.name_eq
    obtain ⟨c, name, hcons⟩ := List.exists_cons_of_ne_nil (l := r.name)
      (by intro h; rw [h] at hname; exact absurd hname (by decide))
    rw [hcons] at hname ⊢
    have hlit : lit "HOST:" = 0x48 :: lit "OST:" := by decide
    have hc : toupper c = 0x48 := (List.cons.inj (hname.trans hlit)).1
    have hx : toupper c ≠ 0x58 := by
      rw [hc]
      decide
    exact takes_hostName (lineStart_first hq hx) hname
  | cons l headers =>
    have hall := r.headers_ok
    have hfirst := r.first_ok
    rw [hheaders] at hall hfirst
    obtain ⟨hne, hbytes, hno⟩ := hall l List.mem_cons_self
    obtain ⟨c, l, rfl⟩ := List.exists_cons_of_ne_nil hne
    have hline := takes_line (lineStart_first hq (hfirst _ rfl c rfl))
      (fun b hb => (hbytes b hb).2.1) hno
    have hrest := takes_moreHeaders q (fun k hk => hall k (List.mem_cons_of_mem _ hk)) r.name_eq
    have htakes := hline.append hrest
    simpa only [headerLines, List.flatMap_cons, List.append_assoc] using htakes

/-- The machine after the host of a request and its port, if it has one. -/
def afterHost (r : OriginForm) (q : ReqMachine) : ReqMachine :=
  (q.putHost 0 r.host).goto (r.port.elim (.host .header r.host.length)
    fun ds => .port .header r.host.length (some (Radix.dec.valueOf ds)))

/-- The host and its port are read and written. -/
theorem takes_host (r : OriginForm) (q : ReqMachine) :
    Takes (q.goto (.space .host)) (r.gap₃ ++ (r.host ++ r.portPart)) (afterHost r q)
      (SP :: (r.host ++ r.portPart)) := by
  have hlen := r.host_length
  have hne : r.host ≠ [] := List.ne_nil_of_length_pos hlen.1
  have hchars := takes_hostChars q (i := 0) r.host_ok (by rw [Nat.zero_add]; exact Nat.lt_of_le_of_lt hlen.2 (by decide))
  rw [Nat.zero_add] at hchars
  refine takes_afterSpaces r.gap₃_blank (List.append_ne_nil_of_left_ne_nil hne _) (fun c hc => ?_) ?_
  · obtain ⟨b, w, hw⟩ := List.exists_cons_of_ne_nil hne
    rw [hw] at hc
    obtain rfl := Option.some.inj hc
    have hhost := r.host_ok b (hw ▸ List.mem_cons_self)
    unfold isHostChar tolower at hhost
    unfold isBlank
    grind
  · unfold OriginForm.portPart afterHost
    cases hport : r.port with
    | none =>
      simp only [Option.elim_none, List.append_nil]
      exact hchars
    | some ds =>
      obtain ⟨hds, hdigits, hmax⟩ := r.port_ok ds hport
      exact hchars.append (takes_port _ hlen.2 hds hdigits (by omega))

/-- The CR that ends the value announces the origin. -/
theorem step_afterHost (r : OriginForm) (q : ReqMachine) :
    (afterHost r q).step (CR, false) =
      ((((q.putHost 0 r.host).setPort (r.port.elim q.d.port Radix.dec.valueOf)).accept).goto
        (.halt .accepted [(CR, false)]), []) := by
  obtain ⟨host, hhost⟩ := putHost_eq q 0 r.host
  unfold afterHost
  rw [hhost]
  cases r.port with
  | none => rfl
  | some ds => rfl

/-- The parser comes back from a cut behind the host. -/
theorem cutHere_afterHost (r : OriginForm) (q : ReqMachine) (x : Cell) :
    CutHere (afterHost r q) x := by
  have hlen := r.host_length
  unfold afterHost
  cases hport : r.port with
  | none => exact cutHere_host _ (Nat.le_trans hlen.2 (by decide)) x
  | some ds =>
    obtain ⟨-, hdigits, hmax⟩ := r.port_ok ds hport
    refine cutHere_port _ hlen.2 (fun v hv => ?_) nofun
    obtain rfl := Option.some.inj hv
    exact ⟨Radix.dec_lawful.le_valueFrom (Int.le_refl 0) hdigits, by omega⟩

end ReqMachine

namespace OriginForm

variable (r : OriginForm)

/-- The state the machine is in behind the start line. -/
def lineRead (c : UInt8) : ReqMachine := (ReqMachine.initial.setMethod r.type).setVersion c

/-- Everything in front of the last byte is read without an end of the request. -/
theorem takes_head : ∃ c, Takes .initial r.head (ReqMachine.afterHost r (r.lineRead c)) r.relayed := by
  obtain ⟨c, hc, hstart⟩ := ReqMachine.takes_startLine r .initial
  have hline : Takes .initial r.startLine ((r.lineRead c).goto .localHost) _ := hstart
  have hheaders := ReqMachine.takes_headers r (q := r.lineRead c) rfl
  have hhost := ReqMachine.takes_host r (r.lineRead c)
  refine ⟨c, ?_⟩
  have hall := (hline.append hheaders).append hhost
  simpa only [head, relayed, List.append_assoc, List.cons_append, List.nil_append,
    List.singleton_append] using hall

/-- What the machine ends with. -/
theorem accepted : ∃ c, reqMachine.run .initial (fresh r.bytes) =
      ((((r.lineRead c).putHost 0 r.host).setPort r.portNumber).accept.goto
        (.halt .accepted [(CR, false)]), r.relayed) ∧
      reqMachine.Along CutHere .initial (fresh r.bytes) := by
  obtain ⟨c, htakes⟩ := r.takes_head
  have hend : Takes (ReqMachine.afterHost r (r.lineRead c)) [CR] _ [] :=
    Takes.byte (ReqMachine.step_afterHost r (r.lineRead c)) (ReqMachine.cutHere_afterHost r _ _)
  have hall := htakes.append hend
  rw [List.append_nil] at hall
  exact ⟨c, hall.run_eq, hall.cuts⟩

/-- The host announced is the one of the request, in lower case. -/
theorem cString_host (c : UInt8) :
    cString ((r.lineRead c).putHost 0 r.host).d.host = r.host.map tolower := by
  have hlen := r.host_length
  rw [ReqMachine.cString_putHost _ (Nat.le_trans hlen.2 (by decide)) r.host_ok]
  have hzeros : (r.lineRead c).d.host.toList = List.replicate HOST_MAX_SIZE 0 := rfl
  have hnone : ∀ k, (List.replicate k (0 : UInt8)).takeWhile (· != 0) = [] := by
    rintro (_ | k) <;> rfl
  rw [hzeros, List.drop_replicate, hnone, List.append_nil]

theorem zero_not_mem_of_upper {w l : List UInt8} (h : w.map toupper = l) (hl : 0 ∉ l) : 0 ∉ w :=
  fun hmem => hl (h ▸ List.mem_map_of_mem hmem (f := toupper))

theorem zero_not_mem_blanks {w : List UInt8} (h : ∀ c ∈ w, isBlank c = true) : 0 ∉ w :=
  fun hmem => absurd (h 0 hmem) (by decide)

/-- A request in origin form has no zero byte. -/
theorem zero_not_mem_bytes : 0 ∉ r.bytes := by
  have hmethod : 0 ∉ r.method := by
    have hnames : ∀ o ∈ methodOption, 0 ∉ o.1 := by decide
    exact zero_not_mem_of_upper rfl (hnames _ r.method_eq)
  have hpath : 0 ∉ r.path := fun hmem => (r.path_ok 0 hmem).2 rfl
  have hversion : 0 ∉ r.version := by
    rcases r.version_eq with h | h
    · exact zero_not_mem_of_upper h (by decide)
    · exact zero_not_mem_of_upper h (by decide)
  have hheaders : 0 ∉ headerLines r.headers := by
    intro hmem
    obtain ⟨l, hl, hmem⟩ := List.mem_flatMap.mp hmem
    rcases List.mem_append.mp hmem with hmem | hmem
    · exact ((r.headers_ok l hl).2.1 0 hmem).1 rfl
    · exact absurd hmem (by decide)
  have hhost : 0 ∉ r.host := fun hmem => absurd (r.host_ok 0 hmem) (by decide)
  have hport : 0 ∉ r.portPart := by
    unfold portPart
    cases h : r.port with
    | none => exact List.not_mem_nil
    | some ds =>
      intro hmem
      rcases List.mem_cons.mp hmem with hmem | hmem
      · exact absurd hmem (by decide)
      · exact absurd ((r.port_ok ds h).2.1 0 hmem) (by decide)
  have hname := zero_not_mem_of_upper r.name_eq (by decide)
  have hend : 0 ∉ [CR, LF] := by decide
  have hcr : 0 ∉ [CR] := by decide
  have hslash : (0 : UInt8) ≠ 0x2f := by decide
  simp only [bytes, head, startLine, List.mem_append, List.mem_cons (a := (0 : UInt8)) (b := 0x2f),
    not_or]
  exact ⟨⟨⟨⟨⟨⟨⟨⟨⟨⟨⟨hmethod, zero_not_mem_blanks r.gap₁_blank⟩, hslash, hpath⟩,
    zero_not_mem_blanks r.gap₂_blank⟩, hversion⟩, hend⟩, hheaders⟩, hname⟩,
    zero_not_mem_blanks r.gap₃_blank⟩, hhost⟩, hport⟩, hcr⟩

/-- A request in origin form is passed on and its origin announced when its last byte has arrived,
however it is cut. -/
theorem relay {ws : List (List UInt8)} (hs : ws.flatten = r.bytes) (hne : ∀ w ∈ ws, w ≠ [])
    {n m : Nat} (hroom : RESERVED + r.bytes.length ≤ n) (hout : r.relayed.length ≤ m) :
    (∀ k < ws.length, ∃ f, feed (.start (bufferInitR RESERVED n) (bufferInit m)) (ws.take k) = some f ∧
      f.rData.state = .OK ∧ f.rData.parserState ≠ .FINISHED) ∧
    ∃ f, feed (.start (bufferInitR RESERVED n) (bufferInit m)) ws = some f ∧
      f.rData.state = .OK ∧ f.rData.parserState = .FINISHED ∧
      f.calls = [(r.host.map tolower, r.portNumber)] ∧ f.bOut.bytes = r.relayed := by
  obtain ⟨c, hrun, halong⟩ := r.accepted
  have hz := r.zero_not_mem_bytes
  have hcuts : ∀ {q : ReqMachine} {us : List (List UInt8)}, AtCuts SafeCut q us →
      AtCuts (fun q rest => SafeCut q rest ∧ (True ∨ q.KeepsVersion)) q us := by
    intro q us
    induction us generalizing q with
    | nil => exact id
    | cons u us ih => exact fun h => ⟨fun hus => ⟨h.1 hus, .inl trivial⟩, ih h.2⟩
  constructor
  · intro k hk
    have hsplit : r.bytes = (ws.take k).flatten ++ (ws.drop k).flatten := by
      rw [← List.flatten_append, List.take_append_drop, hs]
    rw [hsplit] at hz hroom
    rw [hsplit, fresh_append, Transducer.along_append] at halong
    rw [List.length_append] at hroom
    rw [List.mem_append, not_or] at hz
    have hne' : ∀ w ∈ ws.take k, w ≠ [] := fun w hw => hne w (List.mem_of_mem_take hw)
    obtain ⟨v, -, hfeed⟩ := feed_start (bufferInit m) hne' hz.1 (n := n) (by omega)
      (hcuts (atCuts_of_along hne' halong.1))
    -- What is still to come starts with a byte that is read in the state the parser rests in.
    have hhalt : ∀ why unread,
        (reqMachine.stateAfter .initial (fresh (ws.take k).flatten)).ctl ≠ .halt why unread := by
      have hdrop := List.drop_eq_getElem_cons hk
      obtain ⟨x, w, hw⟩ := List.exists_cons_of_ne_nil (hne ws[k] (List.getElem_mem hk))
      rw [hdrop, List.flatten_cons, hw] at halong
      exact halong.2.1.halt
    obtain ⟨f, hf, hwaits⟩ := Option.map_eq_some_iff.mp
      (hfeed.trans (ReqMachine.outcome_of_not_halt (q := ReqMachine.withVersion _ v) hhalt _))
    exact ⟨f, hf, Feed.waiting_of_outcome hwaits⟩
  · obtain ⟨v, -, hfeed⟩ := feed_start (bufferInit m) hne (n := n) (by rwa [hs]) (by rwa [hs])
      (hcuts (atCuts_of_along hne (by rwa [hs])))
    rw [hs, Transducer.stateAfter, Transducer.emitted, hrun] at hfeed
    obtain ⟨f, hf, haccepted⟩ := Option.map_eq_some_iff.mp hfeed
    obtain ⟨hstate, hp, hcalls, hbOut⟩ := Feed.accepted_of_outcome haccepted
    refine ⟨f, hf, hstate, hp, ?_, ?_⟩
    · rw [hcalls, ← r.cString_host c]
      obtain ⟨host, hhost⟩ := ReqMachine.putHost_eq (r.lineRead c) 0 r.host
      rw [hhost]
      rfl
    · rw [hbOut, Buffer.writeAll_of_le]
      · rfl
      · change 0 + 0 + r.relayed.length ≤ m
        omega

/-- `gEt`, two runs of blanks, a header in front of `HOST` and a port. -/
def sample : OriginForm where
  type := .GET
  method := lit "gEt"
  gap₁ := lit " \t"
  path := lit "a"
  gap₂ := lit "  "
  version := lit "http/1.0"
  headers := [lit "Accept: hos"]
  name := lit "HOST:"
  gap₃ := []
  host := lit "B.c"
  port := some (lit "8080")
  supported := by decide
  method_eq := by decide
  gap₁_ne := by decide
  gap₁_blank := by decide +kernel
  path_ok := by decide +kernel
  gap₂_ne := by decide
  gap₂_blank := by decide +kernel
  version_eq := by decide
  headers_ok := by decide +kernel
  first_ok := by decide +kernel
  name_eq := by decide
  gap₃_blank := by decide +kernel
  host_length := by decide
  host_ok := by decide +kernel
  port_ok := by decide +kernel

/-- The sample byte by byte. -/
theorem relay_sample :
    (∀ k < (sample.bytes.map fun c => [c]).length,
      ∃ f, feed (.start (bufferInitR RESERVED 1024) (bufferInit 1024))
          ((sample.bytes.map fun c => [c]).take k) = some f ∧
        f.rData.state = .OK ∧ f.rData.parserState ≠ .FINISHED) ∧
    ∃ f, feed (.start (bufferInitR RESERVED 1024) (bufferInit 1024)) (sample.bytes.map fun c => [c]) =
        some f ∧
      f.rData.state = .OK ∧ f.rData.parserState = .FINISHED ∧
      f.calls = [(sample.host.map tolower, sample.portNumber)] ∧ f.bOut.bytes = sample.relayed :=
  relay sample (by decide +kernel) (by decide +kernel) (by decide +kernel) (by decide +kernel)

end OriginForm

end HttpProxy
