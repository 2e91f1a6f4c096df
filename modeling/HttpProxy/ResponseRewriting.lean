import HttpProxy.ResponseBody

/-!
# What a response is rewritten to

A response is well formed (`ResponseHead.WellFormed`) when what the parser does not look at contains
neither `con` nor `transfer-encoding:`. It is passed on with one space for every run of blanks the
parser goes through, with `close` for the value of every `Connection` field, and with a
`Connection` field of its own in front of the empty line if there was none: `response_rewritten`.
-/

namespace HttpProxy

/-- Text in which nothing looks like the start of a field the parser knows. -/
def PlainText (t : List UInt8) : Prop :=
  ¬ Mentions (lit "CON") t ∧ ¬ Mentions (lit "TRANSFER-ENCODING:") t

instance (t : List UInt8) : Decidable (PlainText t) :=
  inferInstanceAs (Decidable (¬ Mentions (lit "CON") t ∧ ¬ Mentions (lit "TRANSFER-ENCODING:") t))

/-- Without `con` and `transfer-encoding:` a text has no field's name. -/
theorem PlainText.nameless {t : List UInt8} (h : PlainText t) : Nameless t := by
  intro k hk
  have hcon : lit "CON" <:+: k.name → False := fun hc => h.1 (hc.trans hk)
  cases k with
  | connection => exact hcon (by decide)
  | contentLength => exact hcon (by decide)
  | contentEncoding => exact hcon (by decide)
  | contentType => exact hcon (by decide)
  | transferEncoding => exact h.2 hk

theorem PlainText.right {u v : List UInt8} (h : PlainText (u ++ v)) : PlainText v :=
  ⟨fun hc => h.1 (hc.mono u), fun ht => h.2 (ht.mono u)⟩

/-- A plain text is passed over. -/
theorem skips_plain {t : List UInt8} (ht : IsText t) (h : PlainText t) : Skips t [CR] := by
  cases scan_text ht.zero ht.cr h.nameless with
  | skips scan => exact scan
  | swallows con _ => exact absurd con h.1
  | finds con _ _ => exact absurd con h.1

namespace HeaderLine

/-- Of the fields the parser knows, four can occur. A length is one an `int` holds. -/
def WellFormed : HeaderLine → Prop
  | field l => l.field ≠ .transferEncoding ∧ (l.field ≠ .connection → PlainText l.value) ∧
      (l.field = .contentLength →
        (∀ c ∈ l.value, isdigit c = true) ∧ Radix.dec.valueOf l.value < 2 ^ 31)
  | plain l => PlainText l.bytes

def isConnection : HeaderLine → Bool
  | field l => l.field = .connection
  | plain _ => false

def rewritten : HeaderLine → List UInt8
  | field l => l.name ++ ([SP] ++ if l.field = .connection then lit "close" else l.value)
  | plain l => l.bytes

end HeaderLine

namespace ResponseHead

structure WellFormed (h : ResponseHead) : Prop where
  reason : PlainText h.reason
  lines : ∀ l ∈ h.lines, l.WellFormed

def rewrittenLines (ls : List HeaderLine) : List UInt8 := ls.flatMap fun l => [CR, LF] ++ l.rewritten

/-- The head as it is passed on. -/
def rewritten (h : ResponseHead) : List UInt8 :=
  h.version ++ ([SP] ++ (h.status ++ (h.reason ++ (rewrittenLines h.lines ++ ([CR, LF] ++
    ((if h.lines.any HeaderLine.isConnection then [] else lit "Connection: close\r\n") ++
      [CR, LF]))))))

end ResponseHead

/-! ## Through a well-formed head -/

section WellFormed

variable {withTransf : Bool} {status : Int} {ls : List HeaderLine} {rd : ResponseData}

/-- A field of a well-formed head is passed on rewritten. -/
theorem leads_field_rewritten (h : Knows withTransf status ls rd) {l : FieldLine}
    (hl : (HeaderLine.field l).WellFormed) :
    ∃ rd', Knows withTransf status (ls ++ [.field l]) rd' ∧
      rd'.isClose = (rd.isClose || (HeaderLine.field l).isConnection) ∧
      Leads 3 rd (HeaderLine.field l).bytes rd' [CR] (HeaderLine.field l).rewritten := by
  obtain ⟨u, v, rd', hsplit, hnil, hknows, hclose, hcheck⟩ := h.check l
  refine ⟨rd', hknows, hclose, ?_⟩
  have hskip : Skips v [CR] := by
    by_cases hf : l.field = .connection
    · rw [hnil hf]
      exact Skips.nil _
    · exact skips_plain (IsText.right (hsplit ▸ l.isText)) (PlainText.right (hsplit ▸ hl.2.1 hf))
  have hvalue := hcheck.trans (leads_skips hknows.parserState hskip)
  have hwrites : l.checked u ++ v = if l.field = .connection then lit "close" else l.value := by
    unfold FieldLine.checked
    by_cases hf : l.field = .connection
    · rw [if_pos hf, if_pos hf, hnil hf, List.append_nil]
    · rw [if_neg hf, if_neg hf, hsplit]
  rw [← hsplit, hwrites] at hvalue
  have hline := (leads_field h.parserState l).trans hvalue
  rw [List.append_assoc, List.append_assoc] at hline
  exact hline.mono (by decide)

/-- A line of a well-formed head is passed on rewritten. -/
theorem leads_line_rewritten (h : Knows withTransf status ls rd) {l : HeaderLine}
    (hl : l.WellFormed) :
    ∃ rd', Knows withTransf status (ls ++ [l]) rd' ∧
      rd'.isClose = (rd.isClose || l.isConnection) ∧ Leads 3 rd l.bytes rd' [CR] l.rewritten := by
  cases l with
  | field l => exact leads_field_rewritten h hl
  | plain l =>
    refine ⟨rd, h.snoc_other rfl rfl h.parserState rfl rfl rfl rfl, (Bool.or_false _).symm, ?_⟩
    exact (leads_skips h.parserState (skips_plain l.isText hl)).mono (by decide)

/-- Lines begin with the CR that ends the one before them. -/
theorem Leads.inFrontOfLines {k : Nat} {rd rd' : ResponseData} {u t w : List UInt8}
    (h : Leads k rd u rd' (t ++ [CR]) w) (rest : List HeaderLine) (v : List UInt8) :
    Leads k rd u rd' (t ++ (ResponseHead.linesBytes rest ++ CR :: v)) w := by
  obtain ⟨v', hv⟩ : ∃ v', ResponseHead.linesBytes rest ++ CR :: v = CR :: v' := by
    cases rest with
    | nil => exact ⟨v, rfl⟩
    | cons l rest => exact ⟨_, rfl⟩
  rw [hv, ← List.singleton_append, ← List.append_assoc]
  exact h.extend v'

/-- The lines of a well-formed head are passed on rewritten. The induction is on those still to
come. -/
theorem leads_lines_rewritten (h : Knows withTransf status ls rd)
    (hclose : rd.isClose = ls.any HeaderLine.isConnection) (rest : List HeaderLine)
    (hrest : ∀ l ∈ rest, l.WellFormed) :
    ∃ rd', Knows withTransf status (ls ++ rest) rd' ∧
      rd'.isClose = (ls ++ rest).any HeaderLine.isConnection ∧
      Leads (3 * rest.length) rd (ResponseHead.linesBytes rest) rd' [CR]
        (ResponseHead.rewrittenLines rest) := by
  induction rest generalizing ls rd with
  | nil =>
    rw [List.append_nil]
    exact ⟨rd, h, hclose, Leads.refl rd [CR]⟩
  | cons l rest ih =>
    obtain ⟨rd₁, hknows, hclose₁, hline⟩ := leads_line_rewritten h (hrest l List.mem_cons_self)
    rw [hclose] at hclose₁
    obtain ⟨rd', hknows', hclose', hlines⟩ := ih hknows
      (by rw [hclose₁, List.any_append, List.any_cons, List.any_nil, Bool.or_false])
      fun l' hl' => hrest l' (List.mem_cons_of_mem l hl')
    rw [List.append_assoc] at hknows' hclose'
    refine ⟨rd', hknows', hclose', ?_⟩
    obtain ⟨x, u, hx, hx0, hcr⟩ := l.exists_cons
    have hskip := (leads_skips h.parserState (skips_crlf hx0 hcr)).extend
      (u ++ ResponseHead.linesBytes rest ++ [CR])
    have hhere : [x] ++ (u ++ ResponseHead.linesBytes rest ++ [CR]) =
        (l.bytes ++ ResponseHead.linesBytes rest) ++ [CR] := by rw [hx]; rfl
    rw [hhere] at hskip
    have hline' : Leads 3 rd l.bytes rd₁ (ResponseHead.linesBytes rest ++ [CR]) l.rewritten :=
      Leads.inFrontOfLines (t := []) hline rest []
    have hall := hskip.trans (hline'.trans hlines)
    rw [← List.append_assoc, ← List.append_assoc] at hall
    exact hall.mono (by rw [List.length_cons]; omega)

end WellFormed

namespace ResponseHead

/-- A well-formed head is passed on rewritten, up to its body. -/
theorem leads_rewritten (h : ResponseHead) (hw : h.WellFormed) :
    ∃ rd, Knows false h.statusCode h.lines rd ∧
      Leads (4 + 3 * h.lines.length) (responseStart false) h.bytes rd.body [] h.rewritten := by
  obtain ⟨version, hstart⟩ := h.leads_start false
  have hknows := h.knows_afterStatus false version
  obtain ⟨rd, hknows', hclose, hlines⟩ := leads_lines_rewritten hknows rfl h.lines hw.lines
  have hreason := leads_skips hknows.parserState (skips_plain h.isText hw.reason)
  have hend := leads_end hknows'.parserState
  have hlast : Leads (3 * h.lines.length) (h.afterStatus false version) (linesBytes h.lines) rd
      ([CR, LF, CR, LF] ++ []) (rewrittenLines h.lines) := hlines.extend [LF, CR, LF]
  have hmiddle : Leads 0 (h.afterStatus false version) h.reason (h.afterStatus false version)
      (linesBytes h.lines ++ [CR, LF, CR, LF]) h.reason :=
    Leads.inFrontOfLines (t := []) hreason h.lines [LF, CR, LF]
  have hbegin := hstart.inFrontOfLines h.lines [LF, CR, LF]
  rw [← List.append_nil (linesBytes h.lines ++ _)] at hmiddle
  rw [← List.append_nil (h.reason ++ _)] at hbegin
  have hall := hbegin.trans (hmiddle.trans (hlast.trans hend))
  have hbytes : h.bytes = (h.version ++ (h.blanks ++ h.status)) ++
      (h.reason ++ (linesBytes h.lines ++ [CR, LF, CR, LF])) := by
    simp only [bytes, start, List.append_assoc]
  have hfields : headersEnd rd.toResponseFields =
      (if h.lines.any HeaderLine.isConnection then [] else lit "Connection: close\r\n") ++
        [CR, LF] := by
    rw [List.nil_append] at hclose
    rw [headersEnd, hknows'.withTransf, hclose, Bool.and_false]
    cases h.lines.any HeaderLine.isConnection <;> rfl
  have hrewritten : h.rewritten = (h.version ++ ([SP] ++ h.status)) ++ (h.reason ++
      (rewrittenLines h.lines ++ ([CR, LF] ++ headersEnd rd.toResponseFields))) := by
    rw [hfields]
    simp only [rewritten, List.append_assoc]
  refine ⟨rd, hknows', ?_⟩
  rw [hbytes, hrewritten]
  exact hall.mono (by omega)

end ResponseHead

namespace ResponseHead

variable {h : ResponseHead}

/-- A well-formed head has no chunks. -/
theorem WellFormed.not_chunked (hw : h.WellFormed) : h.lines.any HeaderLine.beginsChunked = false := by
  rw [List.any_eq_false]
  intro l hl
  cases l with
  | field l =>
    have hfield := (hw.lines _ hl).1
    simp only [HeaderLine.beginsChunked, hfield, decide_false, Bool.false_and, Bool.false_eq_true,
      not_false_eq_true]
  | plain l => exact Bool.false_ne_true

/-- The length of a well-formed head is one that an `int` holds. -/
theorem WellFormed.contentLength_lt (hw : h.WellFormed) {n : Int} (hn : h.contentLength = some n) :
    n < 2 ^ 31 := by
  obtain ⟨l, hl, hlength⟩ := List.mem_filterMap.mp (List.mem_of_getLast? hn)
  cases l with
  | field l =>
    by_cases hf : l.field = .contentLength
    · obtain ⟨hdigits, hlt⟩ := (hw.lines _ hl).2.2 hf
      rw [HeaderLine.length?, if_pos hf, List.takeWhile_eq_self_iff.mpr hdigits] at hlength
      exact Option.some.inj hlength ▸ hlt
    · rw [length?_of_ne hf] at hlength
      cases hlength
  | plain l => cases hlength

/-- The body of a well-formed response is the one the parser takes. -/
theorem WellFormed.passes (hw : h.WellFormed) {body : List UInt8}
    (hbody : h.contentLength = some (body.length : Int) ∨
      h.contentLength = none ∧ h.statusCode = 200)
    {rd : ResponseData} (hknows : Knows false h.statusCode h.lines rd) :
    rd.toResponseFields.Passes body body := by
  have hchunked : rd.isChunked = false := hknows.isChunked.trans hw.not_chunked
  have htakes : rd.toResponseFields.framing.Takes false body body body := by
    have hlength : rd.bodyLength = h.contentLength.elim NO_BODY_LENGTH toInt32 := hknows.bodyLength
    unfold ResponseFields.framing
    rw [if_neg (by rw [hchunked]; exact Bool.false_ne_true), hlength]
    rcases hbody with hn | ⟨hn, hstatus⟩
    · have hlt := hw.contentLength_lt hn
      rw [hn, Option.elim_some, toInt32_eq (by omega) hlt, if_pos (by omega), Int.toNat_natCast]
      exact ⟨List.take_length.symm, rfl⟩
    · rw [hn, Option.elim_none, if_neg (by decide), if_pos]
      · exact ⟨rfl, rfl⟩
      · rw [hknows.status, hstatus]
        simp only [decide_true, Bool.or_true]
  have hpasses := passes_of_takes htakes
  rwa [hknows.withTransf] at hpasses

end ResponseHead

/-- A well-formed response, with its body, in one call. -/
theorem response_rewritten (h : ResponseHead) (hw : h.WellFormed) (body : List UInt8)
    (hbody : h.contentLength = some (body.length : Int) ∨
      h.contentLength = none ∧ h.statusCode = 200)
    (bIn bOut bTransf : Buffer) (hwf : bIn.Wf) (hcells : bIn.cells = fresh (h.bytes ++ body))
    (hroom : bOut.write + (h.rewritten ++ body).length ≤ bOut.limit) :
    ∃ r, checkResponse defaultResponseStruct bIn bOut bTransf = some r ∧
      r.bOut = { bOut with bytes := bOut.bytes ++ (h.rewritten ++ body) } := by
  obtain ⟨rd, hknows, hlead⟩ := h.leads_rewritten hw
  have hlen := h.length_lines
  obtain ⟨r, hr, hout, -, -⟩ := checkResponseInner_body hlead hknows.withTransf (by omega) hwf hcells
    (hw.passes hbody hknows)
  have hr' : checkResponseInner defaultResponseStruct bIn = some r := hr
  refine ⟨_, by rw [checkResponse, hr', Option.map_some], ?_⟩
  have hbytes : r.2.io.out = h.rewritten ++ body := hout
  rw [← hbytes] at hroom ⊢
  exact Buffer.writeAll_of_le hroom

/-- `Content-length: 2`, behind two spaces. -/
def lengthOfTwo : FieldLine where
  field := .contentLength
  name := lit "Content-length:"
  blanks := [SP, SP]
  value := lit "2"
  name_eq := by decide
  allBlank := by decide +kernel
  head := by decide +kernel
  isText := by decide +kernel
  isLength := by decide +kernel
  nameless := by decide

def keepAlive : FieldLine where
  field := .connection
  name := lit "Connection:"
  blanks := lit ""
  value := lit "keep-alive"
  name_eq := by decide
  allBlank := by decide +kernel
  head := by decide +kernel
  isText := by decide +kernel
  isLength := by decide +kernel
  nameless := by decide

/-- A response of two fields. -/
def okHead : ResponseHead where
  version := lit "HTTP/1.1"
  blanks := [SP, HT]
  status := lit "200"
  reason := lit " OK"
  lines := [.field keepAlive, .field lengthOfTwo]
  version_eq := by decide
  blanks_ne_nil := by decide
  allBlank := by decide +kernel
  status_ne_nil := by decide
  allDigits := by decide +kernel
  status_lt := by decide
  reason_head := by decide +kernel
  isText := by decide +kernel
  nameless := by decide
  oneLength := by decide

theorem okHead_wellFormed : okHead.WellFormed where
  reason := by decide
  lines := by
    intro l hl
    rcases List.mem_cons.mp hl with rfl | hl
    · exact ⟨by decide, by decide, by decide⟩
    · rw [List.mem_singleton.mp hl]
      exact ⟨by decide +kernel, by decide +kernel, by decide +kernel⟩

theorem response_rewritten_ok :
    ∃ r, checkResponse defaultResponseStruct
        { infLimit := 0, limit := 80, read := 0,
          bytes := lit "HTTP/1.1 \t200 OK\r\nConnection:keep-alive\r\nContent-length:  2\r\n\r\nhi" }
        (bufferInit 90) (bufferInit 1) = some r ∧
      r.bOut.bytes =
        lit "HTTP/1.1 200 OK\r\nConnection: close\r\nContent-length: 2\r\n\r\nhi" := by
  obtain ⟨r, hr, hout⟩ := response_rewritten okHead okHead_wellFormed (lit "hi") (.inl (by decide))
    { infLimit := 0, limit := 80, read := 0,
      bytes := lit "HTTP/1.1 \t200 OK\r\nConnection:keep-alive\r\nContent-length:  2\r\n\r\nhi" }
    (bufferInit 90) (bufferInit 1) ⟨by decide, by decide, by decide⟩ (by decide) (by decide)
  exact ⟨r, hr, by rw [hout]; decide⟩

end HttpProxy
