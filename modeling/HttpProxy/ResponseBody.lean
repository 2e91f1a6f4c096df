import HttpProxy.ResponseHead

/-!
# Response bodies

A body is chunked, of a known length, or it goes on until the connection is closed; having none is a
length of zero. `Framing.Takes` says what of the bytes behind a head is the body then, and what its
content is. `ResponseFields.framing` is how the parser takes a body with what it knows of the
head, and `body_run` is the rest of a call that has come to the body.

A chunked body can have extensions behind the sizes of its chunks and trailers behind the last one,
and a chunk can be of any size. The parser reads none of the two, and of the sizes only those an
`int` holds; `ChunkedBody false` are the bodies that keep to this.
-/

namespace HttpProxy

/-! ## What a body is -/

/-- What can stand behind the size of a chunk. -/
def ChunkExt (full : Bool) (ext : List UInt8) : Prop :=
  ext = [] ∨ full = true ∧ ext.head? = some 0x3b ∧ IsText ext

/-- What can stand behind the last chunk: header lines. -/
def Trailer (full : Bool) (trailer : List UInt8) : Prop :=
  trailer = [] ∨ full = true ∧ ∃ ls : List (List UInt8), (∀ l ∈ ls, l ≠ [] ∧ IsText l) ∧
    trailer = ls.flatMap (· ++ [CR, LF])

/-- The size of a chunk, in hexadecimal digits. -/
structure ChunkSize (size : List UInt8) (n : Nat) : Prop where
  ne_nil : size ≠ []
  digits : ∀ c ∈ size, isxdigit c = true
  value : Radix.hex.valueOf size = n

/-- A chunked body and the content of its chunks. -/
inductive ChunkedBody (full : Bool) : List UInt8 → List UInt8 → Prop
  | last {size ext trailer : List UInt8} (number : ChunkSize size 0) (extension : ChunkExt full ext)
      (behind : Trailer full trailer) :
      ChunkedBody full (size ++ (ext ++ ([CR, LF] ++ (trailer ++ [CR, LF])))) []
  | chunk {size ext data body content : List UInt8} (ne_nil : data ≠ [])
      (number : ChunkSize size data.length) (fits : full = true ∨ data.length < 2 ^ 31)
      (extension : ChunkExt full ext) (rest : ChunkedBody full body content) :
      ChunkedBody full (size ++ (ext ++ ([CR, LF] ++ (data ++ ([CR, LF] ++ body))))) (data ++ content)

/-- How the end of a body is known. -/
inductive Framing
  | chunked
  | length (n : Nat)
  | untilClose
deriving DecidableEq, Repr

/-- Of the bytes `stream` behind a head, `body` is the body, and `content` what it holds. -/
def Framing.Takes (full : Bool) : Framing → List UInt8 → List UInt8 → List UInt8 → Prop
  | .chunked, stream, body, content => ∃ rest, stream = body ++ rest ∧ ChunkedBody full body content
  | .length n, stream, body, content => body = stream.take n ∧ content = body
  | .untilClose, stream, body, content => body = stream ∧ content = body

theorem ChunkExt.full {full : Bool} {ext : List UInt8} (h : ChunkExt false ext) : ChunkExt full ext :=
  h.elim .inl fun h => absurd h.1 (by decide)

theorem Trailer.full {full : Bool} {trailer : List UInt8} (h : Trailer false trailer) :
    Trailer full trailer := h.elim .inl fun h => absurd h.1 (by decide)

/-- A chunked body without extensions is one with them. -/
theorem ChunkedBody.full {full : Bool} {body content : List UInt8}
    (h : ChunkedBody false body content) : ChunkedBody full body content := by
  induction h with
  | last number extension behind => exact .last number extension.full behind.full
  | chunk ne_nil number fits extension _ ih =>
    exact .chunk ne_nil number (.inr (fits.resolve_left (by decide))) extension.full ih

/-- A body without extensions is taken as one with them. -/
theorem Framing.Takes.full {full : Bool} {f : Framing} {stream body content : List UInt8}
    (h : f.Takes false stream body content) : f.Takes full stream body content := by
  cases f with
  | chunked => exact ⟨h.choose, h.choose_spec.1, h.choose_spec.2.full⟩
  | length => exact h
  | untilClose => exact h

/-! ## How the parser takes one -/

/-- How the body functions take the body, with what the parser knows. -/
def ResponseFields.framing (d : ResponseFields) : Framing :=
  if d.isChunked then .chunked
  else if 0 ≤ d.bodyLength then .length d.bodyLength.toNat
  else if d.withTransf || d.status = 200 then .untilClose
  else .length 0

section Chunks

/-- The line end of a chunk is read. -/
theorem reads_crlf (echo : Bool) {v : List UInt8} {io : Io} (h : io.Shows (fresh ([CR, LF] ++ v))) :
    ∃ io', matchFormatWith echo [CR, LF] [] io = (true, io') ∧
      io.Leaves io' v (written echo [CR, LF]) := matchFormat_full echo rfl (by decide) h

/-- The size of a chunk as the parser reads it. -/
theorem reads_chunkSize (echo : Bool) {size v : List UInt8} {x : UInt8} {n : Nat}
    (h : ChunkSize size n) (hn : n < 2 ^ 31) (hx : isxdigit x = false) (hx0 : x ≠ 0) {io : Io}
    (hio : io.Shows (fresh (size ++ x :: v))) :
    ∃ io', getNumberWith .hex echo [] io = (some (n : Int), io') ∧
      io.Leaves io' (x :: v) (written echo size) := by
  obtain ⟨io', heq, hl⟩ := getNumber_fresh (r := .hex) echo [] h.ne_nil
    (fun c hc => ⟨h.digits c hc, ne_zero_of_isxdigit (h.digits c hc)⟩) hx hx0 hio
  rw [h.value, toInt32_eq (by omega) (by omega)] at heq
  exact ⟨io', heq, hl⟩

/-- What is forwarded of a body. -/
def forwarded (echo : Bool) (body content : List UInt8) : List UInt8 := if echo then body else content

/-- A chunked body is read up to its end, and passed on whole or by its content. The induction is on
the chunks. -/
theorem chunksLoop_fresh (echo : Bool) {body content : List UInt8}
    (h : ChunkedBody false body content) {fuel : Nat} (hf : body.length < fuel) (bodyLength : Int)
    {rest : List UInt8} {io : Io} (hflag : io.isBufferEmpty = false)
    (hio : io.Shows (fresh (body ++ rest))) :
    ∃ io', chunksLoop echo fuel bodyLength io = (true, 0, io') ∧
      io.Leaves io' rest (forwarded echo body content) := by
  induction h generalizing fuel bodyLength io with
  | @last size ext trailer number extension behind =>
    obtain rfl : ext = [] := extension.resolve_right fun h => absurd h.1 (by decide)
    obtain rfl : trailer = [] := behind.resolve_right fun h => absurd h.1 (by decide)
    obtain ⟨fuel, rfl⟩ : ∃ k, fuel = k + 1 := ⟨fuel - 1, by omega⟩
    rw [List.append_assoc] at hio
    obtain ⟨io₁, heq₁, hl₁⟩ := reads_chunkSize echo number (by decide) (by decide) (by decide) hio
    obtain ⟨io₂, heq₂, hl₂⟩ := reads_crlf echo hl₁.shows_
    obtain ⟨io₃, heq₃, hl₃⟩ := writeToTransfBufWithZero_all (w := [])
      (hl₂.flag.trans (hl₁.flag.trans hflag)) hl₂.shows_
    obtain ⟨io₄, heq₄, hl₄⟩ := reads_crlf echo hl₃.shows_
    refine ⟨io₄, ?_, ?_⟩
    · simp only [List.length_nil, Int.natCast_zero] at heq₁ heq₃
      simp only [chunksLoop_succ, heq₁, heq₂, heq₃, heq₄, Bool.true_eq_false, if_false, gt_iff_lt,
        Int.lt_irrefl]
    · have hl := hl₁.trans (hl₂.trans (hl₃.trans hl₄))
      cases echo with
      | true => simpa only [forwarded, written_true, if_true, List.nil_append] using hl
      | false => exact hl
  | @chunk size ext data body content ne_nil number fits extension _ ih =>
    obtain rfl : ext = [] := extension.resolve_right fun h => absurd h.1 (by decide)
    have hfits := fits.resolve_left (by decide)
    have hpos := List.length_pos_iff.mpr ne_nil
    obtain ⟨fuel, rfl⟩ : ∃ k, fuel = k + 1 := ⟨fuel - 1, by omega⟩
    simp only [List.nil_append, List.length_append, List.append_assoc] at hf hio
    obtain ⟨io₁, heq₁, hl₁⟩ := reads_chunkSize echo number hfits (by decide) (by decide) hio
    obtain ⟨io₂, heq₂, hl₂⟩ := reads_crlf echo hl₁.shows_
    obtain ⟨io₃, heq₃, hl₃⟩ := writeToTransfBufWithZero_all (hl₂.flag.trans (hl₁.flag.trans hflag)) hl₂.shows_
    obtain ⟨io₄, heq₄, hl₄⟩ := reads_crlf echo hl₃.shows_
    have hl := hl₁.trans (hl₂.trans (hl₃.trans hl₄))
    have hfuel : body.length < fuel := by omega
    obtain ⟨io₅, heq₅, hl₅⟩ := ih hfuel 0 (hl.flag.trans hflag) hl₄.shows_
    refine ⟨io₅, ?_, ?_⟩
    · have hpos' : (data.length : Int) > 0 := by omega
      simp only [chunksLoop_succ, heq₁, heq₂, heq₃, heq₄, Bool.true_eq_false, if_false, hpos', if_true, heq₅]
    · have hall := hl.trans hl₅
      cases echo with
      | true => simpa only [forwarded, written_true, if_true, List.nil_append, List.append_assoc] using hall
      | false => simpa only [forwarded, written_false, Bool.false_eq_true, if_false, List.nil_append,
          List.append_nil] using hall

end Chunks

/-- A body up to the end is passed on whole. -/
theorem readAll_fresh {w : List UInt8} {io : Io} (h : io.Shows (fresh w)) :
    (readAll w.length io).out = io.out ++ w := by
  induction w generalizing io with
  | nil => rw [List.append_nil]; rfl
  | cons c w ih =>
    obtain ⟨io', hread, hl⟩ := readAndWriteWithZero_fresh h
    have hcan : bufferCanRead io.b = true := Buffer.canRead_cons h.cells
    rw [List.length_cons, readAll, hread]
    simp only [hcan, if_true]
    rw [ih hl.shows_, hl.out, List.append_assoc, List.singleton_append]

/-- A body of a length is passed on up to it. -/
theorem writeToTransfBufWithZero_take {n : Nat} {stream : List UInt8} {io : Io}
    (hflag : io.isBufferEmpty = false) (h : io.Shows (fresh stream)) :
    (writeToTransfBufWithZero n io).2.2.out = io.out ++ stream.take n := by
  by_cases hn : n ≤ stream.length
  · rw [← List.take_append_drop n stream] at h
    obtain ⟨io', heq, hl⟩ := writeToTransfBufWithZero_all hflag h
    rw [List.length_take, Nat.min_eq_left hn] at heq
    rw [heq, hl.out]
  · have hlt : (stream.length : Int) < n := by omega
    obtain ⟨io', heq, hout, -, -⟩ := writeToTransfBufWithZero_short hlt hflag h
    rw [heq, hout, List.take_of_length_le (by omega)]

/-- What the body functions pass on, where there is a body to pass on. -/
theorem extractBodyWith_out (echo : Bool) {d : ResponseFields} {f : Framing}
    (hf : f = if d.isChunked then .chunked else if 0 ≤ d.bodyLength then .length d.bodyLength.toNat
      else .untilClose)
    {stream body content : List UInt8} (htakes : f.Takes false stream body content) {io : Io}
    (hflag : io.isBufferEmpty = false) (hio : io.Shows (fresh stream)) :
    (extractBodyWith echo d io).2.2.out = io.out ++ forwarded echo body content := by
  unfold extractBodyWith
  split at hf
  · next hc =>
    subst hf
    obtain ⟨rest, rfl, hbody⟩ := htakes
    have hlen : io.b.bytes.length = (body ++ rest).length := by
      rw [hio.length, fresh, List.length_map]
    have hfuel : body.length < io.b.bytes.length + 1 := by
      rw [hlen, List.length_append]; omega
    obtain ⟨io', heq, hl⟩ := chunksLoop_fresh echo hbody hfuel d.bodyLength hflag hio
    rw [if_pos hc, extractChunked, heq, hl.out]
  split at hf
  · next hc hb =>
    subst hf
    obtain ⟨rfl, rfl⟩ := htakes
    rw [if_neg hc, if_pos hb, ← Int.toNat_of_nonneg hb, writeToTransfBufWithZero_take hflag hio]
    cases echo <;> rfl
  · next hc hb =>
    subst hf
    obtain ⟨rfl, rfl⟩ := htakes
    rw [if_neg hc, if_neg hb]
    have hlen : io.b.bytes.length = content.length := by rw [hio.length, fresh, List.length_map]
    simp only [hlen, readAll_fresh hio]
    cases echo <;> rfl

/-- In front of nothing nothing is passed on. -/
theorem extractBodyWith_nil (echo : Bool) (d : ResponseFields) {io : Io}
    (hflag : io.isBufferEmpty = false) (hio : io.Shows (fresh [])) :
    (extractBodyWith echo d io).2.2.out = io.out := by
  by_cases hc : d.isChunked = true
  · have hlen : io.b.bytes.length = 0 := hio.length
    have hpeek : bufferPeek io.b = 0 := hio.peek_nil
    simp only [extractBodyWith, hc, if_true, extractChunked, hlen, chunksLoop_succ,
      getNumberWith, hpeek, ne_eq, not_true, false_and, if_false, numberLoop]
  · have htakes : (if d.isChunked then Framing.chunked else if 0 ≤ d.bodyLength then
        .length d.bodyLength.toNat else .untilClose).Takes false [] [] [] := by
      rw [if_neg hc]
      split
      · exact ⟨List.take_nil.symm, rfl⟩
      · exact ⟨rfl, rfl⟩
    rw [extractBodyWith_out echo rfl htakes hflag hio]
    cases echo <;> exact List.append_nil _

/-- The parser stops at an extension. -/
theorem chunksLoop_ext (echo : Bool) {size v : List UInt8} {n : Nat} (h : ChunkSize size n)
    (hn : n < 2 ^ 31) (fuel : Nat) (bodyLength : Int) {io : Io}
    (hio : io.Shows (fresh (size ++ 0x3b :: v))) :
    (chunksLoop echo (fuel + 1) bodyLength io).2.2.out = io.out ++ written echo size := by
  obtain ⟨io₁, heq₁, hl₁⟩ := reads_chunkSize echo h hn (by decide) (by decide) hio
  have hmiss : ∃ io', matchFormatWith echo [CR, LF] [] io₁ = (false, io') ∧
      io₁.Leaves io' (0x3b :: v) (written echo []) :=
    matchFormat_miss echo (f := []) (y := CR) (g := [LF]) rfl rfl List.not_mem_nil (by decide)
      (by decide) hl₁.shows_
  obtain ⟨io₂, heq₂, hl₂⟩ := hmiss
  have hout : io₂.out = io.out ++ written echo size := by
    rw [hl₂.out, hl₁.out, written_nil, List.append_nil]
  rw [← hout]
  simp only [chunksLoop_succ, heq₁, heq₂, if_true]
  split <;> rfl

/-! ## The rest of a call -/

/-- The parser takes the response to have no body, and stops. -/
def ResponseFields.noBody (d : ResponseFields) : Prop :=
  d.isChunked = false ∧ d.bodyLength < 0 ∧ d.status ≠ 200 ∧ d.withTransf = false

/-- Of the bytes `stream` behind the head, a call passes on `w`. -/
def ResponseFields.Passes (d : ResponseFields) (stream w : List UInt8) : Prop :=
  (d.noBody → w = []) ∧ (¬ d.noBody → ∀ io : Io, io.isBufferEmpty = false → io.Shows (fresh stream) →
    (extractBodyWith (!d.withTransf) d io).2.2.out = io.out ++ w)

section Passes

variable {d : ResponseFields} {stream body content : List UInt8}

/-- What the framing takes is passed on. -/
theorem passes_of_takes (h : d.framing.Takes false stream body content) :
    d.Passes stream (forwarded (!d.withTransf) body content) := by
  refine ⟨fun hno => ?_, fun hno io hflag hio => extractBodyWith_out _ ?_ h hflag hio⟩
  · obtain ⟨hc, hb, hs, ht⟩ := hno
    have hf : d.framing = .length 0 := by
      simp only [ResponseFields.framing, hc, Bool.false_eq_true, if_false, Int.not_le.mpr hb, ht, hs,
        decide_false, Bool.or_self]
    rw [hf] at h
    obtain ⟨rfl, rfl⟩ := h
    rw [List.take_zero]
    cases d.withTransf <;> rfl
  · unfold ResponseFields.framing
    unfold ResponseFields.noBody at hno
    split
    · rfl
    split
    · rfl
    · next hc hb =>
      rw [if_pos]
      by_contra hcon
      simp only [Bool.or_eq_true, decide_eq_true_eq, not_or, Bool.not_eq_true] at hcon hc
      exact hno ⟨hc, Int.not_le.mp hb, hcon.2, hcon.1⟩

/-- Nothing is passed on of nothing. -/
theorem passes_nil : d.Passes [] [] :=
  ⟨fun _ => rfl, fun _ io hflag hio => by rw [extractBodyWith_nil _ d hflag hio, List.append_nil]⟩

/-- Of a chunk with an extension no more than its size is passed on. -/
theorem passes_ext (hc : d.isChunked = true) {size v : List UInt8} {n : Nat} (h : ChunkSize size n)
    (hn : n < 2 ^ 31) : d.Passes (size ++ 0x3b :: v) (written (!d.withTransf) size) := by
  refine ⟨fun hno => ?_, fun _ io _ hio => ?_⟩
  · rw [hno.1] at hc
    exact absurd hc (by decide)
  · rw [extractBodyWith, if_pos hc]
    exact chunksLoop_ext _ h hn _ _ hio

end Passes

/-- The headers are behind the parser. -/
def ResponseParserState.isPastHead : ResponseParserState → Bool
  | .BODY_NORMAL | .BODY_TRANSFORMATION | .RES_FINISHED => true
  | .RES_SPACE_TRANSITION | .RES_VERSION | .STATUS | .RES_HEADERS | .LENGTH_CHECK | .ENCODING_CHECK
  | .CHUNKED_CHECK | .CONNECTION_CHECK | .TYPE_CHECK => false

/-- A body that is over ends the loop. -/
theorem loop_of_body {s : ResState} {r : Bool × ResState}
    (h : resIteration s = checkResCase r (·.goto .RES_FINISHED))
    (hp : r.2.rData.parserState.isPastHead = true) (fuel : Nat) :
    ∃ x, responseLoop (fuel + 2) s = some x ∧ x.2.io = r.2.io ∧ x.2.transf = r.2.transf ∧
      x.2.rData.parserState.isPastHead = true := by
  cases hr : r.1 with
  | false =>
    have hends : resLoopBody s = .inr (false, r.2) := by
      simp only [resLoopBody, h, checkResCase, hr, if_true]
      rfl
    exact ⟨_, Loop.run_succ_of_ends hends _, rfl, rfl, hp⟩
  | true =>
    have hgoes : Loop.Goes resLoopBody s (r.2.goto .RES_FINISHED) := by
      simp only [Loop.Goes, resLoopBody, h, checkResCase, hr, Bool.true_eq_false, if_false]
      rfl
    refine ⟨(true, r.2.goto .RES_FINISHED), ?_, rfl, rfl, rfl⟩
    rw [responseLoop, Loop.run_succ_of_goes hgoes]
    exact Loop.run_succ_of_ends rfl fuel

/-- Behind the head the parser does not go back to it. -/
theorem extractBody_isPastHead {s : ResState} (h : s.rData.parserState.isPastHead = true) :
    (extractBody s).2.rData.parserState.isPastHead = true := by
  unfold extractBody
  split
  · rfl
  · exact h

/-- To which of the two output buffers a body goes. -/
def toOut (withTransf : Bool) (w : List UInt8) : List UInt8 := if withTransf then [] else w

def toTransf (withTransf : Bool) (w : List UInt8) : List UInt8 := if withTransf then w else []

/-- `extractBody` passes on what the body passes. -/
theorem extractBody_passes {s : ResState} {stream w : List UInt8}
    (ht : s.rData.withTransf = false) (hflag : s.io.isBufferEmpty = false)
    (hio : s.io.Shows (fresh stream)) (hw : s.rData.toResponseFields.Passes stream w) :
    (extractBody s).2.io.out = s.io.out ++ w ∧ (extractBody s).2.transf = s.transf := by
  unfold extractBody
  split
  · next hc =>
    rw [hw.1 ⟨hc.1, hc.2.1, hc.2.2, ht⟩]
    exact ⟨(List.append_nil _).symm, rfl⟩
  · next hc =>
    have hout := hw.2 (fun hno => hc ⟨hno.1, hno.2.1, hno.2.2.1⟩) s.io hflag hio
    rw [ht] at hout
    exact ⟨hout, rfl⟩

/-- `extractBodyTransf` passes on what the body passes, to the transformation. -/
theorem extractBodyTransf_passes {s : ResState} {stream w : List UInt8}
    (ht : s.rData.withTransf = true) (hflag : s.io.isBufferEmpty = false)
    (hio : s.io.Shows (fresh stream)) (hw : s.rData.toResponseFields.Passes stream w) :
    (extractBodyTransf s).2.io.out = s.io.out ∧
      (extractBodyTransf s).2.transf = s.transf ++ w := by
  have hno : ¬ s.rData.noBody := fun hno => by
    rw [hno.2.2.2] at ht
    exact absurd ht (by decide)
  have hout := hw.2 hno { s.io with out := [] } hflag ⟨hio.wf, hio.cells⟩
  rw [ht] at hout
  exact ⟨rfl, congrArg (s.transf ++ ·) hout⟩

/-- The rest of a call that has come to the body. -/
theorem body_run {s : ResState} {rd : ResponseData} {stream out w : List UInt8}
    (hs : s.At rd.body stream out) (hw : rd.toResponseFields.Passes stream w) (fuel : Nat) :
    ∃ x, responseLoop (fuel + 2) s = some x ∧ x.2.io.out = out ++ toOut rd.withTransf w ∧
      x.2.transf = toTransf rd.withTransf w ∧ x.2.rData.parserState.isPastHead = true := by
  have hfields : s.rData.toResponseFields = rd.toResponseFields := by rw [hs.rData]; rfl
  have hstate : s.rData.parserState = if rd.withTransf then .BODY_TRANSFORMATION else .BODY_NORMAL := by
    rw [hs.rData]; rfl
  have htransf : s.rData.withTransf = rd.withTransf := by rw [hs.rData]; rfl
  rw [← hfields] at hw
  cases ht : rd.withTransf with
  | true =>
    have hit : resIteration s = checkResCase (extractBodyTransf s) (·.goto .RES_FINISHED) := by
      rw [ht] at hstate
      simp only [resIteration, hstate, if_true]
    obtain ⟨hout, htr⟩ := extractBodyTransf_passes (htransf.trans ht) hs.flag hs.shows_ hw
    have hpast : (extractBodyTransf s).2.rData.parserState.isPastHead = true := by
      change s.rData.parserState.isPastHead = true
      rw [hstate, ht]
      rfl
    obtain ⟨x, hx, hxio, hxtr, hxpast⟩ := loop_of_body hit hpast fuel
    refine ⟨x, hx, ?_, ?_, hxpast⟩
    · rw [hxio, hout, hs.out]
      exact (List.append_nil out).symm
    · rw [hxtr, htr, hs.transf]
      rfl
  | false =>
    have hit : resIteration s = checkResCase (extractBody s) (·.goto .RES_FINISHED) := by
      rw [ht] at hstate
      simp only [resIteration, hstate, Bool.false_eq_true, if_false]
    obtain ⟨hout, htr⟩ := extractBody_passes (htransf.trans ht) hs.flag hs.shows_ hw
    have hpast := extractBody_isPastHead (s := s) (by rw [hstate, ht]; rfl)
    obtain ⟨x, hx, hxio, hxtr, hxpast⟩ := loop_of_body hit hpast fuel
    refine ⟨x, hx, ?_, ?_, hxpast⟩
    · rw [hxio, hout, hs.out]
      rfl
    · rw [hxtr, htr, hs.transf]
      rfl

/-! ## A call on a head and what follows it -/

/-- A call that comes through all of a head. -/
theorem checkResponseInner_body {rd : ResponseData} {t : Bool} {k : Nat} {head stream w u : List UInt8}
    {bIn : Buffer} (hlead : Leads k (responseStart t) head rd.body [] u) (ht : rd.withTransf = t)
    (hk : k ≤ 3 * head.length + 12) (hwf : bIn.Wf) (hcells : bIn.cells = fresh (head ++ stream))
    (hw : rd.toResponseFields.Passes stream w) :
    ∃ r, checkResponseInner (responseStart t) bIn = some r ∧ r.2.io.out = u ++ toOut t w ∧
      r.2.transf = toTransf t w ∧ r.2.rData.parserState.isPastHead = true := by
  have hstart : (resCallStart (responseStart t) bIn).At (responseStart t) (head ++ ([] ++ stream)) [] :=
    ⟨rfl, ⟨hwf, hcells⟩, rfl, rfl, rfl⟩
  obtain ⟨s', hs', n, hn, hrun⟩ := hlead stream [] _ hstart
  have hlen : bIn.bytes.length = head.length + stream.length := by
    rw [← Buffer.length_cells, hcells, fresh, List.length_map, List.length_append]
  obtain ⟨fuel, hfuel⟩ : ∃ fuel, responseFuel bIn = fuel + 2 + n :=
    ⟨responseFuel bIn - 2 - n, by rw [responseFuel, hlen]; omega⟩
  obtain ⟨x, hx, hout, htr, hpast⟩ := body_run hs' hw fuel
  refine ⟨reportResError x, ?_, ?_, ?_, ?_⟩
  · rw [checkResponseInner, hfuel, hrun, hx]
    rfl
  · rw [← ht, ← List.nil_append u, ← hout, reportResError]
    split <;> rfl
  · rw [← ht, ← htr, reportResError]
    split <;> rfl
  · rw [← hpast, reportResError]
    split <;> rfl

end HttpProxy
