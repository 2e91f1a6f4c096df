import HttpProxy.ResponseScan

/-!
# The response parser over the bytes of a head

`s.At rd v out` says where a call of `checkResponse` is: what it knows, what it has still to read and
what it has written. `Leads k rd u rd' v w` says that from `rd` the loop comes to `rd'` in at most `k`
iterations, having read `u` in front of `v` and written `w`, whatever comes after `v`. One lemma for
each state of the parser says what its iteration leads to, and they compose by `Leads.trans`.
-/

namespace HttpProxy

/-- A call that has `v` still to read, all of it for the first time, and has written `out`. -/
structure ResState.At (s : ResState) (rd : ResponseData) (v out : List UInt8) : Prop where
  rData : s.rData = rd
  shows_ : s.io.Shows (fresh v)
  out : s.io.out = out
  flag : s.io.isBufferEmpty = false
  transf : s.transf = []

/-- A function that reads leaves the parser in front of the rest, with new data. -/
theorem ResState.At.moved {s : ResState} {rd rd' : ResponseData} {v v' out w : List UInt8} {io : Io}
    (h : s.At rd v out) (hl : s.io.Leaves io v' w) :
    ({ s with rData := rd', io := io } : ResState).At rd' v' (out ++ w) :=
  ⟨rfl, hl.shows_, by rw [hl.out, h.out], hl.flag.trans h.flag, h.transf⟩

/-- From `rd` to `rd'` in at most `k` iterations, reading `u` in front of `v` and writing `w`. -/
def Leads (k : Nat) (rd : ResponseData) (u : List UInt8) (rd' : ResponseData) (v w : List UInt8) :
    Prop :=
  ∀ rest out s, s.At rd (u ++ (v ++ rest)) out → ∃ s', s'.At rd' (v ++ rest) (out ++ w) ∧
    ∃ n ≤ k, ∀ fuel, responseLoop (fuel + n) s = responseLoop fuel s'

section Leads

variable {k k' : Nat} {rd rd' rd'' : ResponseData} {u u' v w w' : List UInt8}

theorem Leads.refl (rd : ResponseData) (v : List UInt8) : Leads 0 rd [] rd v [] :=
  fun _ _ s hs => ⟨s, by rwa [List.append_nil], 0, Nat.le_refl 0, fun _ => rfl⟩

/-- Runs one after the other are one run, in as many iterations together. -/
theorem Leads.trans (h : Leads k rd u rd' (u' ++ v) w) (h' : Leads k' rd' u' rd'' v w') :
    Leads (k + k') rd (u ++ u') rd'' v (w ++ w') := by
  intro rest out s hs
  rw [List.append_assoc, ← List.append_assoc u'] at hs
  obtain ⟨s₁, hs₁, n, hn, hrun⟩ := h rest out s hs
  rw [List.append_assoc] at hs₁
  obtain ⟨s₂, hs₂, n', hn', hrun'⟩ := h' rest (out ++ w) s₁ hs₁
  rw [List.append_assoc] at hs₂
  refine ⟨s₂, hs₂, n + n', Nat.add_le_add hn hn', fun fuel => ?_⟩
  rw [← hrun', ← hrun, Nat.add_assoc, Nat.add_comm n']

/-- A run in fewer iterations is one in more. -/
theorem Leads.mono (h : Leads k rd u rd' v w) (hk : k ≤ k') : Leads k' rd u rd' v w := by
  intro rest out s hs
  obtain ⟨s', hs', n, hn, hrun⟩ := h rest out s hs
  exact ⟨s', hs', n, Nat.le_trans hn hk, hrun⟩

theorem Leads.writes (h : Leads k rd u rd' v w) (hw : w' = w) : Leads k rd u rd' v w' := hw ▸ h

/-- What holds in front of `v` holds in front of anything that begins with `v`. -/
theorem Leads.extend (h : Leads k rd u rd' v w) (v' : List UInt8) :
    Leads k rd u rd' (v ++ v') w := by
  intro rest out s hs
  rw [List.append_assoc] at hs ⊢
  exact h (v' ++ rest) out s hs

/-- An iteration that goes on. -/
theorem Leads.of_iteration
    (h : ∀ rest (s : ResState), s.rData = rd → s.io.isBufferEmpty = false →
      s.io.Shows (fresh (u ++ (v ++ rest))) → ∃ io, s.io.Leaves io (v ++ rest) w ∧
        resIteration s = ({}, { s with rData := rd', io := io })) : Leads 1 rd u rd' v w := by
  intro rest out s hs
  obtain ⟨io, hl, hit⟩ := h rest s hs.rData hs.flag hs.shows_
  refine ⟨_, hs.moved hl, 1, Nat.le_refl 1, fun fuel => Loop.run_succ_of_goes ?_ fuel⟩
  rw [Loop.Goes, resLoopBody, hit]
  rfl

end Leads

/-! ## One iteration from each state -/

section Iterations

variable {rd : ResponseData}

def ResponseData.goto (rd : ResponseData) (p : ResponseParserState) : ResponseData :=
  { rd with parserState := p }

/-- Behind a field name, in front of the blanks and the value. -/
def ResponseData.found (rd : ResponseData) (next : ResponseParserState) : ResponseData :=
  { rd with next := next, parserState := .RES_SPACE_TRANSITION }

/-- Behind the value of a `Connection` field. -/
def ResponseData.closes (rd : ResponseData) : ResponseData :=
  { rd with isClose := true, parserState := .RES_HEADERS }

/-- Blanks, any number of them, become one space. -/
theorem leads_spaces (hp : rd.parserState = .RES_SPACE_TRANSITION) {b v : List UInt8} {x : UInt8}
    (hb : ∀ c ∈ b, isBlank c = true) (hx : isBlank x = false) (hx0 : x ≠ 0) :
    Leads 1 rd b (rd.goto rd.next) (x :: v) [SP] := by
  apply Leads.of_iteration
  rintro rest s rfl _ hio
  obtain ⟨b', hmove, hl⟩ := moveThroughSpaces_fresh hb hx hio
  refine ⟨_, hl.write [SP], ?_⟩
  simp only [resIteration, hp, checkResSpaces, hmove, hx0, if_false, checkResCase, Bool.true_eq_false]
  rfl

/-- A state that reads a number into the response data. -/
theorem leads_number {rd' : ResponseData} {ds v : List UInt8} {x : UInt8}
    (hit : ∀ (s : ResState) (io : Io), s.rData = rd →
      getNumber [] s.io = (some (toInt32 (Radix.dec.valueOf ds)), io) →
      resIteration s = ({}, { s with rData := rd', io := io }))
    (hne : ds ≠ []) (hds : ∀ c ∈ ds, isdigit c = true) (hx : isdigit x = false) (hx0 : x ≠ 0) :
    Leads 1 rd ds rd' (x :: v) ds := by
  apply Leads.of_iteration
  intro rest s hrd _ hio
  obtain ⟨io', hget, hl⟩ := getNumber_fresh (r := .dec) true [] hne
    (fun c hc => ⟨hds c hc, ne_zero_of_isdigit (hds c hc)⟩) hx hx0 hio
  exact ⟨io', hl, hit s io' hrd hget⟩

/-- The digits of a status are read as its number. -/
theorem leads_status (hp : rd.parserState = .STATUS) {ds v : List UInt8} {x : UInt8} (hne : ds ≠ [])
    (hds : ∀ c ∈ ds, isdigit c = true) (hx : isdigit x = false) (hx0 : x ≠ 0) :
    Leads 1 rd ds { rd with status := toInt32 (Radix.dec.valueOf ds), parserState := .RES_HEADERS }
      (x :: v) ds := by
  apply leads_number _ hne hds hx hx0
  rintro s io rfl hget
  simp only [resIteration, hp, extractStatus, hget, checkResCase, Bool.true_eq_false, if_false]
  rfl

/-- The digits of a length are read as its number. -/
theorem leads_length (hp : rd.parserState = .LENGTH_CHECK) {ds v : List UInt8} {x : UInt8}
    (hne : ds ≠ []) (hds : ∀ c ∈ ds, isdigit c = true) (hx : isdigit x = false) (hx0 : x ≠ 0) :
    Leads 1 rd ds
      { rd with bodyLength := toInt32 (Radix.dec.valueOf ds), parserState := .RES_HEADERS }
      (x :: v) ds := by
  apply leads_number _ hne hds hx hx0
  rintro s io rfl hget
  simp only [resIteration, hp, checkLength, hget, valueCase, Bool.true_eq_false, false_and, if_false]
  rfl

/-- A byte that is no capital is the same in any case. -/
theorem eq_of_toupper {x y : UInt8} (h : toupper x = y) (hy : ¬ (0x41 ≤ y ∧ y ≤ 0x5a)) : x = y := by
  unfold toupper at h
  grind

/-- A version is read with its digit. -/
theorem leads_version (hp : rd.parserState = .RES_VERSION) {u : List UInt8} {d : UInt8}
    (hd : d = 0x30 ∨ d = 0x31) (hu : u.map toupper = lit "HTTP/1." ++ [d]) (v : List UInt8) :
    Leads 1 rd u
      (({ rd with version := if d = 0x30 then .v1_0 else .v1_1 } : ResponseData).found .STATUS) v u := by
  obtain ⟨n, l, rfl, hn, hl⟩ := List.map_eq_append_iff.mp hu
  obtain ⟨x, l, rfl, hx, hnil⟩ := List.map_eq_cons_iff.mp hl
  obtain rfl : l = [] := List.map_eq_nil_iff.mp hnil
  obtain rfl : x = d := eq_of_toupper hx (by rcases hd with rfl | rfl <;> decide)
  have hx0 : x ≠ 0 := by rcases hd with h | h <;> rw [h] <;> decide
  apply Leads.of_iteration
  rintro rest s rfl hflag hio
  rw [List.append_assoc] at hio
  have hreads : Reads (matchFormat (lit "HTTP/1.") []) true n ([x] ++ v) :=
    reads_matchFormat [] hn (zero_not_mem_of_map hn (by decide)) _
  obtain ⟨io₁, hmatch, hl₁⟩ := hreads rest s.io hflag hio
  obtain ⟨io₂, hread, hl₂⟩ := readAndWrite_fresh hx0 hl₁.shows_
  refine ⟨io₂, hl₁.trans hl₂, ?_⟩
  simp only [resIteration, hp, extractResVersion, hmatch, hread, hx0, ne_eq, not_false_eq_true, if_true]
  rcases hd with rfl | rfl <;> rfl

/-- A state that looks for a word at the start of a value. -/
def matchValue (format : List UInt8) (g : ResponseData → ResponseData) (s : ResState) :
    Bool × ResState :=
  let (ok, io) := matchFormat format [] s.io
  let s := { s with io := io }
  if ok then (true, { s with rData := g s.rData }) else (false, s)

/-- A value is matched as far as it goes, and the parser is in the headers again. -/
theorem leads_matchValue {format : List UInt8} {g : ResponseData → ResponseData}
    (hit : ∀ s : ResState, s.rData = rd → resIteration s = valueCase (matchValue format g s))
    (hcr : CR ∉ format) {t : List UInt8} (ht : 0 ∉ t) :
    ∃ u v, t = u ++ v ∧
      Leads 1 rd u ((if format.map toupper <+: t.map toupper then g rd else rd).goto .RES_HEADERS)
        (v ++ [CR]) u := by
  obtain ⟨u, v, rfl, hu, hread⟩ | ⟨hpre, u, v, rfl, hread⟩ := reads_matchFormat_text [] hcr ht
  · have hpre : format.map toupper <+: (u ++ v).map toupper := by
      rw [List.map_append, hu]
      exact List.prefix_append _ _
    refine ⟨u, v, rfl, Leads.of_iteration ?_⟩
    rintro rest s rfl hflag hio
    obtain ⟨io', heq, hl⟩ := hread rest s.io hflag hio
    refine ⟨io', hl, ?_⟩
    rw [hit s rfl, if_pos hpre]
    simp only [matchValue, heq, if_true, valueCase, Bool.true_eq_false, false_and, if_false]
    rfl
  · refine ⟨u, v, rfl, Leads.of_iteration ?_⟩
    rintro rest s rfl hflag hio
    obtain ⟨io', heq, hl⟩ := hread rest s.io hflag hio
    refine ⟨io', hl, ?_⟩
    rw [hit s rfl, if_neg hpre]
    simp only [matchValue, heq, valueCase, hl.flag, hflag, Bool.false_eq_true, and_false, if_false]
    rfl

/-- An encoding is matched as far as it goes, and the parser is in the headers again. -/
theorem leads_encoding (hp : rd.parserState = .ENCODING_CHECK) {t : List UInt8} (ht : 0 ∉ t) :
    ∃ u v e, t = u ++ v ∧
      Leads 1 rd u { rd with cEncoding := e, parserState := .RES_HEADERS } (v ++ [CR]) u := by
  have hcr : CR ∉ lit "GZIP" := by decide
  have hit : ∀ s : ResState, s.rData = rd → resIteration s =
      valueCase (matchValue (lit "GZIP") (fun d => { d with cEncoding := .GZIP }) s) := by
    rintro s rfl
    simp only [resIteration, hp]
    rfl
  obtain ⟨u, v, hsplit, hlead⟩ := leads_matchValue hit hcr ht
  split at hlead
  · exact ⟨u, v, .GZIP, hsplit, hlead⟩
  · exact ⟨u, v, rd.cEncoding, hsplit, hlead⟩

/-- The value of a `Transfer-Encoding` field is looked at for what it begins with only. -/
theorem leads_chunked (hp : rd.parserState = .CHUNKED_CHECK) {t : List UInt8} (ht : 0 ∉ t) :
    ∃ u v, t = u ++ v ∧
      Leads 1 rd u { rd with
        isChunked := rd.isChunked || decide (lit "CHUNKED" <+: t.map toupper)
        parserState := .RES_HEADERS } (v ++ [CR]) u := by
  have hcr : CR ∉ lit "CHUNKED" := by decide
  have hit : ∀ s : ResState, s.rData = rd → resIteration s =
      valueCase (matchValue (lit "CHUNKED") (fun d => { d with isChunked := true }) s) := by
    rintro s rfl
    simp only [resIteration, hp]
    rfl
  obtain ⟨u, v, hsplit, hlead⟩ := leads_matchValue hit hcr ht
  rw [show (lit "CHUNKED").map toupper = lit "CHUNKED" by decide] at hlead
  refine ⟨u, v, hsplit, ?_⟩
  split at hlead
  · next hpre =>
    rw [decide_eq_true hpre, Bool.or_true]
    exact hlead
  · next hpre =>
    rw [decide_eq_false hpre, Bool.or_false]
    exact hlead

/-- A type is not looked at. -/
theorem leads_type (hp : rd.parserState = .TYPE_CHECK) (v : List UInt8) :
    Leads 1 rd [] (rd.goto .RES_HEADERS) v [] := by
  apply Leads.of_iteration
  rintro rest s rfl _ hio
  refine ⟨s.io, Io.Leaves.refl hio, ?_⟩
  simp only [resIteration, hp, checkType, valueCase, Bool.true_eq_false, false_and, if_false]
  rfl

/-- The value of `Connection` is dropped up to its CR. -/
theorem checkConnectionLoop_fresh {t v : List UInt8} (ht : 0 ∉ t) (hcr : CR ∉ t) (k : Nat) {io : Io}
    (h : io.Shows (fresh (t ++ CR :: v))) :
    ∃ b', checkConnectionLoop (t.length + k) io.b = (CR, b') ∧
      io.Leaves { io with b := b' } (CR :: v) [] := by
  induction t generalizing io with
  | nil =>
    refine ⟨io.b, ?_, Io.Leaves.refl h⟩
    have hpeek : bufferPeek io.b = CR := h.peek
    rw [List.length_nil, Nat.zero_add]
    cases k with
    | zero => rw [checkConnectionLoop, hpeek]
    | succ k => simp only [checkConnectionLoop, hpeek, ne_eq, not_true, and_false, if_false]
  | cons c t ih =>
    obtain ⟨hc, ht⟩ := not_or.mp (mt List.mem_cons.mpr ht)
    obtain ⟨hc', hcr⟩ := not_or.mp (mt List.mem_cons.mpr hcr)
    have hread := leaves_bufferRead h
    obtain ⟨b', hloop, hl⟩ := ih ht hcr hread.shows_
    refine ⟨b', ?_, hl.shows_, hl.out, hl.flag⟩
    have hpeek : bufferPeek io.b = c := h.peek
    rw [List.length_cons, show t.length + 1 + k = t.length + k + 1 by omega, checkConnectionLoop,
      hpeek]
    simp only [ne_eq, Ne.symm hc, Ne.symm hc', not_false_eq_true, and_self, if_true]
    exact hloop

/-- The value of `Connection` is replaced by `close`. -/
theorem leads_connection (hp : rd.parserState = .CONNECTION_CHECK) {t : List UInt8} (ht : 0 ∉ t)
    (hcr : CR ∉ t) (v : List UInt8) :
    Leads 1 rd t rd.closes (CR :: v) (lit "close") := by
  apply Leads.of_iteration
  rintro rest s rfl _ hio
  have hlen : s.io.b.bytes.length = t.length + (v.length + 1 + rest.length) := by
    rw [hio.length, fresh, List.length_map]
    simp only [List.length_append, List.length_cons]
  obtain ⟨b', hloop, hl⟩ := checkConnectionLoop_fresh ht hcr (v.length + 1 + rest.length) hio
  refine ⟨_, hl.write (lit "close"), ?_⟩
  simp only [resIteration, hp, checkConnection, hlen, hloop, show ¬ CR = 0 by decide, if_false,
    valueCase, Bool.true_eq_false, false_and]
  rfl

/-! ### In the headers -/

/-- `checkHeaders` as its scan. -/
theorem checkHeaders_eq (s : ResState) :
    checkHeaders s =
      let r := scanHeaders s.rData.toResponseFields s.io
      let s := { s with io := r.2 }.setNext r.1
      if r.1 = .RES_HEADERS then (false, s.setEmpty) else (true, s) := rfl

/-- What the scan passes over costs no iteration. -/
theorem leads_skips (hp : rd.parserState = .RES_HEADERS) {w v : List UInt8} (h : Skips w v) :
    Leads 0 rd w rd v w := by
  rintro rest out s hs
  obtain rfl := hs.rData
  obtain ⟨io', hscan, hl⟩ := h s.rData.toResponseFields rest s.io hs.flag hs.shows_
  refine ⟨{ s with io := io' }, hs.moved hl, 0, Nat.le_refl 0, fun fuel => ?_⟩
  have hit : resIteration s = resIteration { s with io := io' } := by
    simp only [resIteration, hp, checkHeaders_eq, hscan]
  have hbody : resLoopBody s = resLoopBody { s with io := io' } := by
    rw [resLoopBody, resLoopBody, hit]
  rw [Nat.add_zero]
  cases fuel with
  | zero => rfl
  | succ fuel => rw [responseLoop, responseLoop, Loop.run, Loop.run, hbody]

/-- A name that the scan finds costs one iteration. -/
theorem leads_finds (hp : rd.parserState = .RES_HEADERS) {next : ResponseParserState}
    (hh : next ≠ .RES_HEADERS) (hf : next ≠ .RES_FINISHED) {w v : List UInt8}
    (h : Finds next w v) :
    Leads 1 rd w (rd.found next) v w := by
  apply Leads.of_iteration
  rintro rest s rfl hflag hio
  obtain ⟨io', hscan, hl⟩ := h s.rData.toResponseFields rest s.io hflag hio
  refine ⟨io', hl, ?_⟩
  have hcheck : checkHeaders s = (true, { s with io := io' }.setNext next) := by
    rw [checkHeaders_eq, hscan]
    simp only [hh, if_false]
  simp only [resIteration, hp, hcheck, checkResCase, Bool.true_eq_false, if_false, afterHeaders,
    ResState.setNext, hf]
  rfl

/-- Where the body begins. -/
def ResponseData.body (rd : ResponseData) : ResponseData :=
  { rd with
    next := .RES_FINISHED
    parserState := if rd.withTransf then .BODY_TRANSFORMATION else .BODY_NORMAL }

/-- The end of the head leads to the body, with the `Connection` field written that was not
there. -/
theorem leads_end (hp : rd.parserState = .RES_HEADERS) :
    Leads 1 rd [CR, LF, CR, LF] rd.body [] ([CR, LF] ++ headersEnd rd.toResponseFields) := by
  apply Leads.of_iteration
  rintro rest s rfl _ hio
  obtain ⟨io', hscan, hl⟩ := scanHeaders_end (d := s.rData.toResponseFields) hio
  refine ⟨io', hl, ?_⟩
  have hcheck : checkHeaders s = (true, { s with io := io' }.setNext .RES_FINISHED) := by
    rw [checkHeaders_eq, hscan]
    rfl
  simp only [resIteration, hp, hcheck, checkResCase, Bool.true_eq_false, if_false, afterHeaders,
    ResState.setNext, if_true]
  rfl

end Iterations

end HttpProxy
