import HttpProxy.ResponseRewriting

/-!
# Where the body of a response ends

What ends a body is a rule of the protocol: the status decides, then the last transfer coding, then
the length, and the closing of the connection otherwise (`ResponseHead.framing`). The parser asks
other questions: whether some `Transfer-Encoding` value begins with `chunked`, what an `int` makes
of the length, and whether the status is 200. `body_framed` says for which heads the answers agree.
-/

namespace HttpProxy

/-! ## The rules -/

/-- The elements of a list in a field value, which commas separate outside of quoted strings. -/
def elements (quoted escaped : Bool) : List UInt8 → List (List UInt8)
  | [] => [[]]
  | c :: t =>
    if c = 0x2c ∧ quoted = false then [] :: elements false false t
    else
      let quote := c = 0x22 ∧ escaped = false
      let rest := elements (if quote then !quoted else quoted)
        (quoted && !escaped && decide (c = 0x5c)) t
      (c :: rest.headD []) :: rest.tail

example : elements false false (lit "gzip;a=\",\", chunked") = [lit "gzip;a=\",\"", lit " chunked"] := by
  decide

def trim (t : List UInt8) : List UInt8 := ((t.dropWhile isBlank).reverse.dropWhile isBlank).reverse

/-- The transfer codings a line names, in capitals. -/
def HeaderLine.codings : HeaderLine → List (List UInt8)
  | .field l =>
    if l.field = .transferEncoding then
      ((elements false false l.value).map fun e => (trim e).map toupper).filter (· ≠ [])
    else []
  | .plain _ => []

/-- The status codes of responses that never have a body. -/
def noBodyStatus (status : Int) : Prop := 100 ≤ status ∧ status ≤ 199 ∨ status = 204 ∨ status = 304

instance (status : Int) : Decidable (noBodyStatus status) :=
  inferInstanceAs (Decidable (_ ∨ _ ∨ _))

namespace ResponseHead

/-- The last transfer coding is `chunked`. -/
def lastIsChunked (h : ResponseHead) : Bool :=
  (h.lines.flatMap HeaderLine.codings).getLast? = some (lit "CHUNKED")

/-- What ends the body of a response to a GET request. -/
def framing (h : ResponseHead) : Framing :=
  if noBodyStatus h.statusCode then .length 0
  else if h.lastIsChunked then .chunked
  else match h.contentLength with
    | some n => .length n.toNat
    | none => .untilClose

end ResponseHead

/-! ## Framings differ -/

/-- Some bytes behind a head are taken differently. -/
def Differ (f g : Framing) : Prop :=
  ∃ stream body content body' content', f.Takes false stream body content ∧
    g.Takes false stream body' content' ∧ body ≠ body' ∧ content ≠ content'

/-- The same bytes tell two framings apart either way. -/
theorem Differ.symm {f g : Framing} (h : Differ f g) : Differ g f := by
  obtain ⟨stream, b, c, b', c', hf, hg, hb, hc⟩ := h
  exact ⟨stream, b', c', b, c, hg, hf, Ne.symm hb, Ne.symm hc⟩

/-- A body of one chunk. -/
theorem chunkedBody_one {d : UInt8} {data : List UInt8} (hd : ChunkSize [d] data.length)
    (hne : data ≠ []) (hlen : data.length < 2 ^ 31) :
    ChunkedBody false (d :: CR :: LF :: (data ++ [CR, LF, 0x30, CR, LF, CR, LF])) data := by
  have hlast : ChunkedBody false ([0x30] ++ ([] ++ ([CR, LF] ++ ([] ++ [CR, LF])))) [] :=
    .last ⟨by decide +kernel, by decide +kernel, by decide +kernel⟩ (.inl rfl) (.inl rfl)
  have hchunk := ChunkedBody.chunk hne hd (.inr hlen) (.inl rfl) hlast
  rw [List.append_nil] at hchunk
  exact hchunk

/-- A chunk and a byte behind it tell chunks from a length. -/
theorem differ_chunked_length (n : Nat) : Differ .chunked (.length n) := by
  -- Two bodies, of which the length fits one at most.
  obtain ⟨d, data, hd, hhead, hlen⟩ : ∃ d data, ChunkSize [d] data.length ∧
      (∃ x rest, data = x :: rest ∧ x ≠ d ∧ rest.length ≤ 1) ∧ data.length + 10 ≠ n := by
    by_cases hn : n = 11
    · exact ⟨0x32, [0x7a, 0x7a], ⟨by decide +kernel, by decide +kernel, by decide +kernel⟩,
        ⟨_, _, rfl, by decide, by decide⟩, by rw [hn]; decide⟩
    · exact ⟨0x31, [0x7a], ⟨by decide +kernel, by decide +kernel, by decide +kernel⟩,
        ⟨_, _, rfl, by decide, by decide⟩, fun h => hn h.symm⟩
  obtain ⟨x, rest, rfl, hx, hrest⟩ := hhead
  have hbody := chunkedBody_one hd (List.cons_ne_nil x rest) (by rw [List.length_cons]; omega)
  refine ⟨_ ++ List.replicate n 0x7a, _, _, _, _, ⟨_, rfl, hbody⟩, ⟨rfl, rfl⟩, ?_, ?_⟩
  · intro heq
    have := congrArg List.length heq
    simp only [List.length_take, List.length_append, List.length_cons, List.length_replicate,
      List.length_nil] at this hlen
    omega
  · intro heq
    cases n with
    | zero => exact absurd heq (by simp)
    | succ n => exact hx (List.cons.inj heq).1

/-- A chunk and a byte behind it tell chunks from a body up to the end. -/
theorem differ_chunked_untilClose : Differ .chunked .untilClose := by
  have hbody := chunkedBody_one (d := 0x31) ⟨by decide +kernel, by decide +kernel, by decide +kernel⟩
    (List.cons_ne_nil 0x7a []) (by decide)
  exact ⟨_ ++ [0x7a], _, _, _, _, ⟨_, rfl, hbody⟩, ⟨rfl, rfl⟩, by decide, by decide⟩

/-- The longer body tells two lengths apart. -/
theorem differ_length {n m : Nat} (h : n < m) : Differ (.length n) (.length m) := by
  have hne : (List.replicate m (0x7a : UInt8)).take n ≠ (List.replicate m 0x7a).take m := by
    intro heq
    have := congrArg List.length heq
    simp only [List.length_take, List.length_replicate] at this
    omega
  exact ⟨List.replicate m 0x7a, _, _, _, _, ⟨rfl, rfl⟩, ⟨rfl, rfl⟩, hne, hne⟩

/-- One byte more tells a length from a body up to the end. -/
theorem differ_length_untilClose (n : Nat) : Differ (.length n) .untilClose := by
  have hne : (List.replicate (n + 1) (0x7a : UInt8)).take n ≠ List.replicate (n + 1) 0x7a := by
    intro heq
    have := congrArg List.length heq
    simp only [List.length_take, List.length_replicate] at this
    omega
  exact ⟨List.replicate (n + 1) 0x7a, _, _, _, _, ⟨rfl, rfl⟩, ⟨rfl, rfl⟩, hne, hne⟩

/-- Framings that differ are told apart by some bytes. -/
theorem differ_of_ne {f g : Framing} (h : f ≠ g) : Differ f g := by
  cases f with
  | chunked =>
    cases g with
    | chunked => exact absurd rfl h
    | length n => exact differ_chunked_length n
    | untilClose => exact differ_chunked_untilClose
  | length n =>
    cases g with
    | chunked => exact (differ_chunked_length n).symm
    | length m =>
      rcases Nat.lt_or_gt_of_ne (fun hnm => h (congrArg Framing.length hnm)) with hlt | hgt
      · exact differ_length hlt
      · exact (differ_length hgt).symm
    | untilClose => exact differ_length_untilClose n
  | untilClose =>
    cases g with
    | chunked => exact differ_chunked_untilClose.symm
    | length n => exact (differ_length_untilClose n).symm
    | untilClose => exact absurd rfl h

/-- An extension of a chunk is part of the body, and the parser stops at it. -/
theorem differ_ext (withTransf : Bool) :
    ∃ stream body content w, Framing.chunked.Takes true stream body content ∧
      (∀ d : ResponseFields, d.isChunked = true → d.withTransf = withTransf → d.Passes stream w) ∧
      forwarded (!withTransf) body content ≠ w := by
  have hlast : ChunkedBody true ([0x30] ++ ([] ++ ([CR, LF] ++ ([] ++ [CR, LF])))) [] :=
    .last ⟨by decide +kernel, by decide +kernel, by decide +kernel⟩ (.inl rfl) (.inl rfl)
  have hsize : ChunkSize [0x31] 1 := ⟨by decide +kernel, by decide +kernel, by decide +kernel⟩
  have hext : ChunkExt true [0x3b] := .inr ⟨rfl, rfl, by decide +kernel⟩
  have hbody := ChunkedBody.chunk (List.cons_ne_nil 0x7a []) hsize (.inl rfl) hext hlast
  refine ⟨_, _, _, written (!withTransf) [0x31], ⟨[], (List.append_nil _).symm, hbody⟩, ?_, ?_⟩
  · rintro d hc rfl
    exact passes_ext hc hsize (by decide)
  · cases withTransf <;> decide

/-! ## A call on a head -/

/-- A buffer that holds `l` and nothing else. -/
def bufferOf (l : List UInt8) : Buffer := { infLimit := 0, limit := l.length, read := 0, bytes := l }

/-- A buffer made of some bytes has them to read, none of them reserved. -/
theorem cells_bufferOf (l : List UInt8) : (bufferOf l).cells = fresh l := cellsFrom_zero l

theorem wf_bufferOf (l : List UInt8) : (bufferOf l).Wf :=
  ⟨Nat.zero_le _, by simp only [bufferOf, Buffer.write, Nat.zero_add, Nat.le_refl], fun _ => rfl⟩

namespace ResponseHead

/-- A call on the head alone. -/
def call (withTransf : Bool) (h : ResponseHead) : Option (Bool × ResState) :=
  checkResponseInner (responseStart withTransf) (bufferOf h.bytes)

/-- The parser has come to the end of the head. -/
def Parsed (withTransf : Bool) (h : ResponseHead) : Prop :=
  (h.call withTransf).any (fun r => r.2.rData.parserState.isPastHead) = true

instance (withTransf : Bool) (h : ResponseHead) : Decidable (h.Parsed withTransf) :=
  inferInstanceAs (Decidable (_ = true))

/-- What is passed on of the head. -/
def relayed (withTransf : Bool) (h : ResponseHead) : List UInt8 :=
  ((h.call withTransf).map fun r => r.2.io.out).getD []

/-- A head whose last CR was read with the text in front of it does not end where it should. -/
theorem not_parsed_of_swallowed {h : ResponseHead} {withTransf : Bool} {rd : ResponseData} {k : Nat}
    {w : List UInt8} (hp : rd.parserState = .RES_HEADERS) (hk : k ≤ 3 * h.bytes.length + 12)
    (hlead : Leads k (responseStart withTransf) (h.start ++ linesBytes h.lines ++ [CR]) rd [] w) :
    ¬ h.Parsed withTransf := by
  have hcr : Leads k (responseStart withTransf) (h.start ++ linesBytes h.lines ++ [CR]) rd
      ([LF] ++ [CR, LF]) w := hlead.extend ([LF] ++ [CR, LF])
  have hlf := hcr.trans (leads_skips hp (skips_lf [CR, LF]))
  have hbytes : h.bytes = h.start ++ linesBytes h.lines ++ [CR] ++ [LF] ++ ([CR, LF] ++ []) := by
    simp only [bytes, List.append_assoc]
    rfl
  have hstart : (resCallStart (responseStart withTransf) (bufferOf h.bytes)).At
      (responseStart withTransf) (h.start ++ linesBytes h.lines ++ [CR] ++ [LF] ++ ([CR, LF] ++ [])) [] :=
    ⟨rfl, ⟨wf_bufferOf _, by rw [← hbytes]; exact cells_bufferOf _⟩, rfl, rfl, rfl⟩
  obtain ⟨s, hs, n, hn, hrun⟩ := hlf [] [] _ hstart
  obtain ⟨fuel, hfuel⟩ : ∃ fuel, responseFuel (bufferOf h.bytes) = fuel + 1 + n :=
    ⟨responseFuel (bufferOf h.bytes) - 1 - n, by
      have : responseFuel (bufferOf h.bytes) = 3 * h.bytes.length + 14 := rfl
      omega⟩
  -- In front of the last line end the parser waits for more.
  have hstate : s.rData.parserState = .RES_HEADERS := by rw [hs.rData]; exact hp
  have hwaits := scanHeaders_waits (d := s.rData.toResponseFields) hs.shows_
  have hends : ∃ s', resLoopBody s = .inr (false, s') ∧ s'.rData.parserState = .RES_HEADERS := by
    refine ⟨(checkHeaders s).2, ?_, ?_⟩
    · simp only [resLoopBody, resIteration, hstate, checkHeaders_eq, hwaits, if_true, checkResCase]
      rfl
    · rw [checkHeaders_eq]
      simp only [hwaits, if_true]
      exact hstate
  obtain ⟨s', hs', hstate'⟩ := hends
  have hcall : h.call withTransf = some (reportResError (false, s')) := by
    rw [call, checkResponseInner, hfuel, hrun, responseLoop, Loop.run_succ_of_ends hs']
    rfl
  have hreport : (reportResError (false, s')).2.rData.parserState = .RES_HEADERS := by
    unfold reportResError
    split <;> exact hstate'
  rw [Parsed, hcall, Option.any_some, hreport]
  decide

/-- The run over a head the parser comes through. -/
theorem leads_parsed {h : ResponseHead} {withTransf : Bool} (hp : h.Parsed withTransf) :
    ∃ rd w, Knows withTransf h.statusCode h.lines rd ∧
      Leads (7 + 6 * h.lines.length) (responseStart withTransf) h.bytes rd.body [] w := by
  have hlen := h.length_lines
  obtain ⟨rd, hknows, ⟨w, hlead⟩ | ⟨w, hlead⟩⟩ := h.through_head withTransf
  · have hend : Leads (6 + 6 * h.lines.length) (responseStart withTransf)
        (h.start ++ linesBytes h.lines) rd ([CR, LF, CR, LF] ++ []) w := hlead.extend [LF, CR, LF]
    have hall := hend.trans (leads_end hknows.parserState)
    rw [List.append_assoc] at hall
    exact ⟨rd, _, hknows, hall.mono (by omega)⟩
  · exact absurd hp (not_parsed_of_swallowed hknows.parserState (by omega) hlead)

/-- The parser comes through well-formed heads. -/
theorem WellFormed.parsed {h : ResponseHead} (hw : h.WellFormed) : h.Parsed false := by
  have hlen := h.length_lines
  obtain ⟨rd, hknows, hlead⟩ := h.leads_rewritten hw
  obtain ⟨r, hr, -, -, hpast⟩ := checkResponseInner_body hlead hknows.withTransf (by omega)
    (wf_bufferOf _) (by rw [List.append_nil]; exact cells_bufferOf _) passes_nil
  rw [Parsed, call, hr]
  exact hpast

/-- What a call passes on, of a head and of what follows it. -/
theorem call_passes {h : ResponseHead} {withTransf : Bool} (hp : h.Parsed withTransf) :
    ∃ rd, Knows withTransf h.statusCode h.lines rd ∧
      ∀ stream w, rd.toResponseFields.Passes stream w → ∀ bIn : Buffer, bIn.Wf →
        bIn.cells = fresh (h.bytes ++ stream) →
        ∃ r, checkResponseInner (responseStart withTransf) bIn = some r ∧
          r.2.io.out = h.relayed withTransf ++ toOut withTransf w ∧
          r.2.transf = toTransf withTransf w := by
  have hlen := h.length_lines
  obtain ⟨rd, u, hknows, hlead⟩ := leads_parsed hp
  have hpasses : ∀ stream w, rd.toResponseFields.Passes stream w → ∀ bIn : Buffer, bIn.Wf →
      bIn.cells = fresh (h.bytes ++ stream) →
      ∃ r, checkResponseInner (responseStart withTransf) bIn = some r ∧
        r.2.io.out = u ++ toOut withTransf w ∧ r.2.transf = toTransf withTransf w :=
    fun stream w hw bIn hwf hcells => by
      obtain ⟨r, hr, hout, htransf, -⟩ :=
        checkResponseInner_body hlead hknows.withTransf (by omega) hwf hcells hw
      exact ⟨r, hr, hout, htransf⟩
  have hrelayed : h.relayed withTransf = u := by
    obtain ⟨r, hr, hout, -⟩ := hpasses [] [] passes_nil (bufferOf h.bytes) (wf_bufferOf _)
      (by rw [List.append_nil]; exact cells_bufferOf _)
    have hnil : toOut withTransf [] = [] := by cases withTransf <;> rfl
    rw [hnil, List.append_nil] at hout
    rw [relayed, call, hr]
    exact hout
  rw [hrelayed]
  exact ⟨rd, hknows, hpasses⟩

/-- How the parser takes a body that is not chunked. -/
def unchunked (withTransf : Bool) (status bodyLength : Int) : Framing :=
  if 0 ≤ bodyLength then .length bodyLength.toNat
  else if withTransf || status = 200 then .untilClose
  else .length 0

/-- How the parser takes the body. -/
def taken (withTransf : Bool) (h : ResponseHead) : Framing :=
  if h.lines.any HeaderLine.beginsChunked then .chunked
  else unchunked withTransf h.statusCode (h.contentLength.elim NO_BODY_LENGTH toInt32)

/-- What the parser knows behind a head is the framing it takes. -/
theorem framing_eq_taken {h : ResponseHead} {withTransf : Bool} {rd : ResponseData}
    (hk : Knows withTransf h.statusCode h.lines rd) :
    rd.toResponseFields.framing = h.taken withTransf := by
  have hlength : rd.bodyLength = h.contentLength.elim NO_BODY_LENGTH toInt32 := hk.bodyLength
  rw [ResponseFields.framing, hk.isChunked, hlength, hk.withTransf, hk.status]
  rfl

/-! ## When the body is forwarded -/

/-- Of whatever follows the head in a call, the body is passed on after what is passed on of the
head, and nothing else: as it is, or its content to the transformation. -/
def ForwardsBody (withTransf full : Bool) (h : ResponseHead) : Prop :=
  ∀ stream body content, h.framing.Takes full stream body content →
    ∀ bIn bOut bTransf : Buffer, bIn.Wf → bIn.cells = fresh (h.bytes ++ stream) →
      bOut.write + (h.relayed withTransf ++ toOut withTransf body).length ≤ bOut.limit →
      bTransf.write + (toTransf withTransf content).length ≤ bTransf.limit →
      ∃ r, checkResponse (responseStart withTransf) bIn bOut bTransf = some r ∧
        r.bOut.bytes = bOut.bytes ++ (h.relayed withTransf ++ toOut withTransf body) ∧
        r.bTransf.bytes = bTransf.bytes ++ toTransf withTransf content

/-- The answers of the parser are the ones the rules ask for. -/
def MeetsRules (withTransf full : Bool) (h : ResponseHead) : Prop :=
  if noBodyStatus h.statusCode then
    h.lines.any HeaderLine.beginsChunked = false ∧
      match h.contentLength with
      | some n => toInt32 n = 0 ∨ toInt32 n < 0 ∧ withTransf = false
      | none => withTransf = false
  else if h.lastIsChunked then
    h.lines.any HeaderLine.beginsChunked = true ∧ full = false
  else
    h.lines.any HeaderLine.beginsChunked = false ∧
      match h.contentLength with
      | some n => n < 2 ^ 31
      | none => h.statusCode = 200 ∨ withTransf = true

/-- A length that is announced is not negative. -/
theorem contentLength_nonneg {h : ResponseHead} {n : Int} (hn : h.contentLength = some n) : 0 ≤ n := by
  obtain ⟨l, -, hlength⟩ := List.mem_filterMap.mp (List.mem_of_getLast? hn)
  cases l with
  | field l =>
    by_cases hf : l.field = .contentLength
    · rw [HeaderLine.length?, if_pos hf] at hlength
      exact Option.some.inj hlength ▸ Radix.dec_lawful.le_valueFrom (Int.le_refl 0)
        fun c hc => List.mem_takeWhile_imp hc
    · rw [length?_of_ne hf] at hlength
      cases hlength
  | plain l => cases hlength

/-- A stored value is one of an `int`. -/
theorem toInt32_bounds (n : Int) : -2 ^ 31 ≤ toInt32 n ∧ toInt32 n < 2 ^ 31 :=
  ⟨Int.le_bmod (by decide), Int.bmod_lt (by decide)⟩

section Rules

variable {h : ResponseHead} {withTransf full : Bool}

/-- Without chunks, a response that has no body gets none when its length is 0, or when it has no
length and nothing is transformed. -/
theorem unchunked_noBody {status bodyLength : Int} (hno : noBodyStatus status) :
    unchunked withTransf status bodyLength = .length 0 ↔
      bodyLength = 0 ∨ bodyLength < 0 ∧ withTransf = false := by
  have h200 : status ≠ 200 := by
    unfold noBodyStatus at hno
    omega
  unfold unchunked
  by_cases hb : 0 ≤ bodyLength
  · rw [if_pos hb, Framing.length.injEq]
    omega
  · rw [if_neg hb]
    cases withTransf with
    | true => simp; omega
    | false => simp [h200]; omega

/-- Without chunks a length is taken as it is exactly when an `int` holds it. -/
theorem unchunked_length {status n : Int} (hn : 0 ≤ n) :
    unchunked withTransf status (toInt32 n) = .length n.toNat ↔ n < 2 ^ 31 := by
  obtain ⟨hle, hlt⟩ := toInt32_bounds n
  constructor
  · intro h
    unfold unchunked at h
    split at h
    · have := Framing.length.inj h
      omega
    split at h
    · cases h
    · have := Framing.length.inj h
      omega
  · intro h
    rw [toInt32_eq (by omega) h, unchunked, if_pos hn]

/-- Without chunks and a length the body goes up to the end for status 200, and with a transformation
for any. -/
theorem unchunked_untilClose {status : Int} :
    unchunked withTransf status NO_BODY_LENGTH = .untilClose ↔ status = 200 ∨ withTransf = true := by
  rw [unchunked, if_neg (by decide)]
  cases withTransf <;> simp

/-- Without chunks the body is not taken as chunks. -/
theorem unchunked_ne_chunked {status bodyLength : Int} :
    unchunked withTransf status bodyLength ≠ .chunked := by
  unfold unchunked
  split
  · exact Framing.noConfusion
  split <;> exact Framing.noConfusion

/-- The rules are met exactly where the framing taken is the right one, with no more in the chunks
than the parser takes. -/
theorem meetsRules_iff : h.MeetsRules withTransf full ↔
    h.taken withTransf = h.framing ∧ (h.framing = .chunked → full = false) := by
  unfold MeetsRules taken framing
  by_cases hno : noBodyStatus h.statusCode
  · rw [if_pos hno, if_pos hno]
    cases hc : h.lines.any HeaderLine.beginsChunked with
    | true => simp
    | false =>
      simp only [Bool.false_eq_true, if_false, true_and, reduceCtorEq, false_implies, and_true,
        unchunked_noBody hno]
      cases h.contentLength with
      | some n => exact Iff.rfl
      | none => simp
  rw [if_neg hno, if_neg hno]
  cases hl : h.lastIsChunked with
  | true =>
    cases hc : h.lines.any HeaderLine.beginsChunked with
    | true => simp
    | false => simp [unchunked_ne_chunked]
  | false =>
    cases hn : h.contentLength with
    | some n =>
      cases hc : h.lines.any HeaderLine.beginsChunked with
      | true => simp
      | false => simp [unchunked_length (contentLength_nonneg hn)]
    | none =>
      cases hc : h.lines.any HeaderLine.beginsChunked with
      | true => simp
      | false => simp [unchunked_untilClose]

end Rules

/-- A call with room for all it passes on. -/
theorem checkResponse_of_inner {rd : ResponseData} {bIn bOut bTransf : Buffer} {r : Bool × ResState}
    (hr : checkResponseInner rd bIn = some r) (hOut : bOut.write + r.2.io.out.length ≤ bOut.limit)
    (hTransf : bTransf.write + r.2.transf.length ≤ bTransf.limit) :
    ∃ r', checkResponse rd bIn bOut bTransf = some r' ∧ r'.bOut.bytes = bOut.bytes ++ r.2.io.out ∧
      r'.bTransf.bytes = bTransf.bytes ++ r.2.transf := by
  refine ⟨_, by rw [checkResponse, hr, Option.map_some], ?_, ?_⟩
  · exact congrArg Buffer.bytes (Buffer.writeAll_of_le hOut)
  · exact congrArg Buffer.bytes (Buffer.writeAll_of_le hTransf)

/-- To the client the chunks are passed on as they are, when nothing is transformed. -/
theorem toOut_forwarded (withTransf : Bool) (body content : List UInt8) :
    toOut withTransf (forwarded (!withTransf) body content) = toOut withTransf body := by
  cases withTransf <;> rfl

/-- To the transformation the content of the chunks is passed on. -/
theorem toTransf_forwarded (withTransf : Bool) (body content : List UInt8) :
    toTransf withTransf (forwarded (!withTransf) body content) = toTransf withTransf content := by
  cases withTransf <;> rfl

section Forwards

variable {h : ResponseHead} {withTransf full : Bool} {stream body content w : List UInt8}

/-- What a call passes on, in front of buffers with room for it. -/
theorem forwards_of_passes {bIn bOut bTransf : Buffer}
    (hcall : ∃ r, checkResponseInner (responseStart withTransf) bIn = some r ∧
      r.2.io.out = h.relayed withTransf ++ toOut withTransf w ∧ r.2.transf = toTransf withTransf w)
    (hOut : bOut.write + (h.relayed withTransf ++ toOut withTransf w).length ≤ bOut.limit)
    (hTransf : bTransf.write + (toTransf withTransf w).length ≤ bTransf.limit) :
    ∃ r, checkResponse (responseStart withTransf) bIn bOut bTransf = some r ∧
      r.bOut.bytes = bOut.bytes ++ (h.relayed withTransf ++ toOut withTransf w) ∧
      r.bTransf.bytes = bTransf.bytes ++ toTransf withTransf w := by
  obtain ⟨r, hr, hout, htransf⟩ := hcall
  rw [← hout] at hOut ⊢
  rw [← htransf] at hTransf ⊢
  exact checkResponse_of_inner hr hOut hTransf

/-- Where a body is forwarded, it is what the parser passes on. -/
theorem ForwardsBody.agrees (hf : h.ForwardsBody withTransf full)
    (htakes : h.framing.Takes full stream body content)
    (hcall : ∀ bIn : Buffer, bIn.Wf → bIn.cells = fresh (h.bytes ++ stream) →
      ∃ r, checkResponseInner (responseStart withTransf) bIn = some r ∧
        r.2.io.out = h.relayed withTransf ++ toOut withTransf w ∧
        r.2.transf = toTransf withTransf w) :
    forwarded (!withTransf) body content = w := by
  have hwf := wf_bufferOf (h.bytes ++ stream)
  have hcells := cells_bufferOf (h.bytes ++ stream)
  -- Room for either of the two.
  let room (u v : List UInt8) : Buffer := bufferInit (u.length + v.length)
  have hl : ∀ u v, (room u v).write + u.length ≤ (room u v).limit := fun u v => by
    simp only [room, bufferInit, bufferInitR, Buffer.write, List.length_nil]; omega
  have hr : ∀ u v, (room u v).write + v.length ≤ (room u v).limit := fun u v => by
    simp only [room, bufferInit, bufferInitR, Buffer.write, List.length_nil]; omega
  obtain ⟨r, hres, hout, htransf⟩ := hf stream body content htakes (bufferOf (h.bytes ++ stream))
    (room _ (h.relayed withTransf ++ toOut withTransf w)) (room _ (toTransf withTransf w))
    hwf hcells (hl _ _) (hl _ _)
  obtain ⟨r', hres', hout', htransf'⟩ := forwards_of_passes (hcall _ hwf hcells) (hr _ _) (hr _ _)
  obtain rfl : r = r' := Option.some.inj (hres.symm.trans hres')
  have hbody := List.append_cancel_left (List.append_cancel_left (hout.symm.trans hout'))
  have hcontent := List.append_cancel_left (htransf.symm.trans htransf')
  cases withTransf with
  | true => exact hcontent
  | false => exact hbody

end Forwards

/-- The parser passes on the body of every response with that head exactly when its questions have
the answers the rules ask for. -/
theorem body_framed (h : ResponseHead) (withTransf full : Bool) (hp : h.Parsed withTransf) :
    h.ForwardsBody withTransf full ↔ h.MeetsRules withTransf full := by
  obtain ⟨rd, hknows, hcall⟩ := call_passes hp
  have htaken := framing_eq_taken hknows
  rw [meetsRules_iff, ← htaken]
  constructor
  · intro hf
    have heq : rd.toResponseFields.framing = h.framing := by
      by_contra hne
      obtain ⟨stream, b, c, b', c', htakes, htakes', hb, hc⟩ := differ_of_ne (Ne.symm hne)
      have hpasses := passes_of_takes htakes'
      rw [hknows.withTransf] at hpasses
      have hagrees := hf.agrees htakes.full (hcall stream _ hpasses)
      cases withTransf with
      | true => exact hc hagrees
      | false => exact hb hagrees
    refine ⟨heq, fun hchunked => ?_⟩
    by_contra hfull
    obtain rfl : full = true := by simpa using hfull
    obtain ⟨stream, b, c, w, htakes, hpasses, hne⟩ := differ_ext withTransf
    have hc : rd.isChunked = true := by
      rw [hchunked] at heq
      rw [hknows.isChunked]
      by_contra hno
      rw [htaken, taken, if_neg hno] at heq
      exact unchunked_ne_chunked heq
    rw [← hchunked] at htakes
    exact hne (hf.agrees htakes (hcall stream w (hpasses _ hc hknows.withTransf)))
  · rintro ⟨heq, hfull⟩ stream body content htakes bIn bOut bTransf hwf hcells hOut hTransf
    have htakes' : h.framing.Takes false stream body content := by
      cases hframing : h.framing with
      | chunked => rwa [hframing, hfull hframing] at htakes
      | length n => rwa [hframing] at htakes
      | untilClose => rwa [hframing] at htakes
    rw [← heq] at htakes'
    have hpasses := passes_of_takes htakes'
    rw [hknows.withTransf] at hpasses
    have hcall' := hcall stream _ hpasses bIn hwf hcells
    rw [← toOut_forwarded withTransf body content] at hOut ⊢
    rw [← toTransf_forwarded withTransf body content] at hTransf ⊢
    exact forwards_of_passes hcall' hOut hTransf

theorem okHead_meetsRules : okHead.MeetsRules false true := by
  have hno : ¬ noBodyStatus okHead.statusCode := by decide
  have hlast : okHead.lastIsChunked = false := by decide
  have hlength : okHead.contentLength = some 2 := by decide
  rw [MeetsRules, if_neg hno, hlast, hlength]
  exact ⟨by decide, by decide⟩

theorem body_framed_ok : okHead.Parsed false ∧ okHead.ForwardsBody false true :=
  have hp := okHead_wellFormed.parsed
  ⟨hp, (body_framed okHead false true hp).mpr okHead_meetsRules⟩

/-- An error page without a length. -/
def notFoundHead : ResponseHead where
  version := lit "HTTP/1.0"
  blanks := [SP]
  status := lit "404"
  reason := lit " Not Found"
  lines := []
  version_eq := by decide
  blanks_ne_nil := by decide
  allBlank := by decide +kernel
  status_ne_nil := by decide
  allDigits := by decide +kernel
  status_lt := by decide
  reason_head := by decide +kernel
  isText := by decide +kernel
  nameless := by decide +kernel
  oneLength := by decide

/-- Its body, which the closing of the connection ends, is lost. -/
theorem not_forwardsBody_notFound :
    ¬ ∀ h : ResponseHead, h.Parsed false → h.ForwardsBody false false := by
  intro hall
  have hw : notFoundHead.WellFormed := ⟨by decide +kernel, fun l hl => absurd hl List.not_mem_nil⟩
  have hframing : notFoundHead.framing = .untilClose := by decide
  have htakes : notFoundHead.framing.Takes false (lit "x") (lit "x") (lit "x") := by
    rw [hframing]
    exact ⟨rfl, rfl⟩
  obtain ⟨rd, hknows, hcall⟩ := call_passes hw.parsed
  have hno : rd.noBody := by
    refine ⟨hknows.isChunked, ?_, ?_, hknows.withTransf⟩
    · rw [hknows.bodyLength]
      decide
    · rw [hknows.status]
      decide
  have hpasses : rd.toResponseFields.Passes (lit "x") [] := ⟨fun _ => rfl, fun h => absurd hno h⟩
  have hagrees := (hall notFoundHead hw.parsed).agrees htakes (hcall (lit "x") [] hpasses)
  exact absurd hagrees (by decide)

end ResponseHead

end HttpProxy
