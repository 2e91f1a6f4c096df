import HttpProxy.ChunkedLockstep
import HttpProxy.ResponseScan

/-!
# The response parser returns

Whatever the input holds, each loop a call of `checkResponse` goes into ends: the loops of the
utilities and of the functions of a state, which the model runs on fuel, end with what the model has
them end with (`LoopsEnd`), and so does the loop of `checkResponseInner`.

Each of the former reads a byte in every iteration, except those that push a number back, which divide
it. The latter goes round: the states of the field values lead back to `RES_HEADERS` and may read
nothing at all. But `checkHeaders` has read a byte whenever it finds something, and nothing is pushed
back by a call that goes on; so unread bytes, and behind them the state, go down.
-/

namespace HttpProxy

/-! ## The loops without fuel -/

/-- The loop of `moveThroughSpaces`. -/
def spacesBody (b : Buffer) : Buffer ⊕ (UInt8 × Buffer) :=
  let c := bufferPeek b
  if isBlank c then .inl (bufferRead b).2 else .inr (c, b)

/-- The loop of `checkConnection`. -/
def connectionBody (b : Buffer) : Buffer ⊕ (UInt8 × Buffer) :=
  let c := bufferPeek b
  if c ≠ 0 ∧ c ≠ CR then .inl (bufferRead b).2 else .inr (c, b)

/-- The loop of `getNumber`. -/
def numberBody (r : Radix) (echo : Bool) (t : Int × Io) : (Int × Io) ⊕ (Int × Io) :=
  let c := bufferPeek t.2.b
  if r.isDigit c then .inl (toInt32 (r.base * t.1 + r.value c), readByte echo t.2) else .inr t

/-- The loop of `writeToTransfBufWithZero`. -/
def quantityBody (t : Int × Io) : (Int × Io) ⊕ (Int × Io) :=
  if t.1 > 0 then
    let io := (readAndWriteWithZero t.2).2
    if io.isBufferEmpty then .inr (t.1, io) else .inl (t.1 - 1, io)
  else .inr t

/-- The loop of `writeDecToBufReverse` and `writeHexToBufReverse`, with the digits pushed so far. -/
def digitsBody (r : Radix) (t : Nat × List UInt8) : (Nat × List UInt8) ⊕ List UInt8 :=
  if t.1 > 0 then .inl (t.1 / r.base, r.char (t.1 % r.base) :: t.2) else .inr t.2

/-- The loop of `checkHeaders`. -/
def headersBody (d : ResponseFields) (io : Io) : Io ⊕ (ResponseParserState × Io) :=
  let (c, io) := readAndWrite io
  let c := toupper c
  if c = 0 then .inr (.RES_HEADERS, io)
  else
    match checkHeadersPass d c io with
    | (some next, io) => .inr (next, io)
    | (none, io) => .inl io

/-- The loop of `extractBody` on a body that the end of the connection ends. -/
def readAllBody (io : Io) : Io ⊕ Io :=
  if bufferCanRead io.b then .inl (readAndWriteWithZero io).2 else .inr io

/-- The loop of `extractChunkedBody` and `extractChunkedBodyTransf`. -/
def chunksBody (echo : Bool) (t : Int × Io) : (Int × Io) ⊕ (Bool × Int × Io) :=
  match getNumberWith .hex echo [] t.2 with
  | (none, io) => .inr (false, t.1, io)
  | (some chunkLength, io) =>
    let (ok, io) := matchFormatWith echo [CR, LF] [] io
    if ok = false then
      .inr (false, chunkLength,
        if io.isBufferEmpty then { io with b := writeHexToBufReverse chunkLength io.b } else io)
    else
      let (all, missing, io) := writeToTransfBufWithZero chunkLength io
      if all = false then
        .inr (false, missing,
          { io with b := writeHexToBufReverse missing (writePrefix io.b [CR, LF]) })
      else
        let (ok, io) := matchFormatWith echo [CR, LF] [] io
        if ok = false then
          .inr (false, missing,
            { io with b := writePrefix io.b (if chunkLength > 0 then lit "1\r\n1" else lit "0\r\n") })
        else if chunkLength > 0 then .inl (missing, io)
        else .inr (true, missing, io)

/-- Every loop of the utilities and of the functions of a state ends, with what the model of the function
has it end with. -/
structure LoopsEnd : Prop where
  spaces : ∀ b, Loop.Ends spacesBody b (moveThroughSpaces b)
  connection : ∀ b, Loop.Ends connectionBody b (checkConnectionLoop b.bytes.length b)
  number : ∀ r echo n io, r = .dec ∨ r = .hex →
    Loop.Ends (numberBody r echo) (n, io) (numberLoop r echo io.b.bytes.length n io)
  quantity : ∀ n io, Loop.Ends quantityBody (n, io)
    (writeToTransfBufWithZeroLoop (io.b.bytes.length + 1) n io)
  digits : ∀ r n, r = .dec ∨ r = .hex → Loop.Ends (digitsBody r) (n, []) (digitsLoop r n n)
  headers : ∀ d io, Loop.Ends (headersBody d) io (checkHeadersLoop d (io.b.bytes.length + 1) io)
  chunks : ∀ echo n io, Loop.Ends (chunksBody echo) (n, io) (extractChunked echo n io)
  all : ∀ io, Loop.Ends readAllBody io (readAll io.b.bytes.length io)

/-! ## Each of them ends -/

/-- Reading takes a byte from a buffer that is not empty. -/
theorem length_bufferRead_lt {b : Buffer} (h : b.bytes ≠ []) :
    (bufferRead b).2.bytes.length < b.bytes.length := by
  rw [Buffer.bytes_read, List.length_tail]
  exact Nat.sub_lt (List.length_pos_iff.mpr h) Nat.zero_lt_one

/-- A byte that is seen is there. -/
theorem bytes_ne_nil_of_peek {b : Buffer} (h : bufferPeek b ≠ 0) : b.bytes ≠ [] := by
  intro hnil
  rw [bufferPeek, hnil, List.headD_nil] at h
  exact h rfl

/-- Reading takes a byte from a buffer that is not empty, written or not. -/
theorem length_readByte_lt (echo : Bool) {io : Io} (h : io.b.bytes ≠ []) :
    (readByte echo io).b.bytes.length < io.b.bytes.length := by
  cases echo <;> exact length_bufferRead_lt h

theorem peek_of_length_zero {b : Buffer} (h : b.bytes.length = 0) : bufferPeek b = 0 := by
  rw [bufferPeek, List.length_eq_zero_iff.mp h, List.headD_nil]

/-- The loop over blanks ends: each blank is read. -/
theorem spaces_ends (b : Buffer) : Loop.Ends spacesBody b (moveThroughSpaces b) := by
  refine Loop.ends_of_fuel (f := moveThroughSpacesLoop) (μ := fun b => b.bytes.length) ?_ ?_ ?_
    (Nat.le_refl _)
  · intro b hb
    have hblank : isBlank (bufferPeek b) = false := by rw [peek_of_length_zero hb]; rfl
    rw [spacesBody, hblank]
    rfl
  · intro fuel b
    rw [moveThroughSpacesLoop, spacesBody]
    cases isBlank (bufferPeek b) <;> rfl
  · intro b b' hgo
    rw [Loop.Goes, spacesBody] at hgo
    split at hgo
    · next hblank =>
      cases hgo
      refine length_bufferRead_lt (bytes_ne_nil_of_peek fun h0 => ?_)
      rw [h0] at hblank
      cases hblank
    · cases hgo

/-- The loop over the value of `Connection` ends: each byte is read. -/
theorem connection_ends (b : Buffer) :
    Loop.Ends connectionBody b (checkConnectionLoop b.bytes.length b) := by
  refine Loop.ends_of_fuel (f := checkConnectionLoop) (μ := fun b => b.bytes.length) ?_ ?_ ?_
    (Nat.le_refl _)
  · intro b hb
    rw [connectionBody, if_neg fun hc => hc.1 (peek_of_length_zero hb)]
    rfl
  · intro fuel b
    rw [checkConnectionLoop, connectionBody]
    by_cases hc : bufferPeek b ≠ 0 ∧ bufferPeek b ≠ CR
    · rw [if_pos hc, if_pos hc]
    · rw [if_neg hc, if_neg hc]
  · intro b b' hgo
    rw [Loop.Goes, connectionBody] at hgo
    split at hgo
    · next hc =>
      cases hgo
      exact length_bufferRead_lt (bytes_ne_nil_of_peek hc.1)
    · cases hgo

/-- The loop over the digits of a number ends. Out of input it sees a zero, which is no digit. -/
theorem number_ends {r : Radix} (hr : r.isDigit 0 = false) (echo : Bool) (n : Int) (io : Io) :
    Loop.Ends (numberBody r echo) (n, io) (numberLoop r echo io.b.bytes.length n io) := by
  refine Loop.ends_of_fuel (f := fun fuel (t : Int × Io) => numberLoop r echo fuel t.1 t.2)
    (μ := fun t => t.2.b.bytes.length) ?_ ?_ ?_ (Nat.le_refl _)
  · intro t ht
    have hdigit : ¬r.isDigit (bufferPeek t.2.b) = true := by
      rw [peek_of_length_zero ht, hr]
      exact Bool.false_ne_true
    rw [numberBody, if_neg hdigit]
    rfl
  · intro fuel t
    by_cases hdigit : r.isDigit (bufferPeek t.2.b) = true
    · simp only [numberLoop, numberBody, hdigit, if_true]
    · simp only [numberLoop, numberBody, hdigit, Bool.false_eq_true, if_false]
  · intro t t' hgo
    rw [Loop.Goes, numberBody] at hgo
    split at hgo
    · next hdigit =>
      cases hgo
      refine length_readByte_lt echo (bytes_ne_nil_of_peek fun h0 => ?_)
      rw [h0, hr] at hdigit
      cases hdigit
    · cases hgo

/-- A byte read, or the flag set. -/
theorem length_readAndWriteWithZero {io : Io} (h : (readAndWriteWithZero io).2.isBufferEmpty = false) :
    (readAndWriteWithZero io).2.b.bytes.length < io.b.bytes.length := by
  by_cases hnil : io.b.bytes = []
  · unfold readAndWriteWithZero at h
    rw [Buffer.canRead_nil (Buffer.cells_eq_nil.mpr hnil)] at h
    cases h
  · have hcan : bufferCanRead io.b = true := by
      rw [bufferCanRead, List.isEmpty_eq_false_iff.mpr hnil]
      rfl
    unfold readAndWriteWithZero
    rw [if_pos hcan]
    exact length_bufferRead_lt hnil

/-- The loop over a quantity ends: it counts down, or the input does. -/
theorem quantity_ends (n : Int) (io : Io) : Loop.Ends quantityBody (n, io)
    (writeToTransfBufWithZeroLoop (io.b.bytes.length + 1) n io) := by
  refine Loop.ends_of_fuel (f := fun fuel (t : Int × Io) => writeToTransfBufWithZeroLoop fuel t.1 t.2)
    (μ := fun t => t.2.b.bytes.length + 1) ?_ ?_ ?_ (Nat.le_refl _)
  · intro t ht
    cases ht
  · intro fuel t
    rw [writeToTransfBufWithZeroLoop, quantityBody]
    by_cases hpos : t.1 > 0
    · simp only [hpos, if_true]
      split <;> rfl
    · rw [if_neg hpos, if_neg hpos]
  · intro t t' hgo
    rw [Loop.Goes, quantityBody] at hgo
    split at hgo
    · dsimp only at hgo
      split at hgo
      · cases hgo
      · next hflag =>
        cases hgo
        exact Nat.succ_lt_succ (length_readAndWriteWithZero (Bool.eq_false_iff.mpr hflag))
    · cases hgo

/-- The loop over the digits that are pushed back ends: it divides by the base. -/
theorem digits_ends {r : Radix} (hr : 2 ≤ r.base) (n : Nat) :
    Loop.Ends (digitsBody r) (n, []) (digitsLoop r n n) := by
  suffices hends : Loop.Ends (digitsBody r) (n, []) (digitsLoop r n n ++ []) by
    rwa [List.append_nil] at hends
  refine Loop.ends_of_fuel (f := fun fuel (t : Nat × List UInt8) => digitsLoop r fuel t.1 ++ t.2)
    (μ := fun t => t.1) ?_ ?_ ?_ (Nat.le_refl n)
  · rintro ⟨n, l⟩ (rfl : n = 0)
    rfl
  · rintro fuel ⟨n, l⟩
    by_cases hpos : n > 0
    · simp only [digitsLoop, digitsBody, hpos, if_true, List.append_assoc, List.singleton_append]
    · simp only [digitsLoop, digitsBody, hpos, if_false, List.nil_append]
  · rintro ⟨n, l⟩ t' hgo
    rw [Loop.Goes, digitsBody] at hgo
    split at hgo
    · next hpos =>
      cases hgo
      exact Nat.div_lt_self hpos hr
    · cases hgo

/-- The loop over the headers ends: each pass begins with reading a byte. -/
theorem headers_ends (d : ResponseFields) (io : Io) :
    Loop.Ends (headersBody d) io (checkHeadersLoop d (io.b.bytes.length + 1) io) := by
  refine Loop.ends_of_fuel (f := checkHeadersLoop d) (μ := fun io => io.b.bytes.length + 1) ?_ ?_ ?_
    (Nat.le_refl _)
  · intro io hio
    cases hio
  · intro fuel io
    rw [checkHeadersLoop, headersBody]
    rcases readAndWrite io with ⟨c, io₁⟩
    by_cases hc : toupper c = 0
    · simp only [hc, if_true]
    · simp only [hc, if_false]
      rcases checkHeadersPass d (toupper c) io₁ with ⟨_ | next, io₂⟩ <;> rfl
  · intro io io' hgo
    rw [Loop.Goes, headersBody] at hgo
    simp only at hgo
    split at hgo
    · cases hgo
    · next hc =>
      have hlt := length_readAndWrite_lt fun h0 => hc (toupper_eq_zero.mpr h0)
      rcases hpass : checkHeadersPass d (toupper (readAndWrite io).1) (readAndWrite io).2 with
        ⟨_ | next, io₂⟩
      · rw [hpass] at hgo
        cases hgo
        exact Nat.succ_lt_succ (Nat.lt_of_le_of_lt (checkHeadersPass_consumes hpass).length_le hlt)
      · rw [hpass] at hgo
        cases hgo

/-- The loop to the end of the connection ends: it reads all there is. -/
theorem readAll_ends (io : Io) : Loop.Ends readAllBody io (readAll io.b.bytes.length io) := by
  refine Loop.ends_of_fuel (f := readAll) (μ := fun io => io.b.bytes.length) ?_ ?_ ?_ (Nat.le_refl _)
  · intro io hio
    rw [readAllBody, Buffer.canRead_nil (Buffer.cells_eq_nil.mpr (List.length_eq_zero_iff.mp hio))]
    rfl
  · intro fuel io
    rw [readAll, readAllBody]
    cases bufferCanRead io.b <;> rfl
  · intro io io' hgo
    rw [Loop.Goes, readAllBody] at hgo
    split at hgo
    · next hcan =>
      cases hgo
      have hne : io.b.bytes ≠ [] := by
        intro hnil
        rw [bufferCanRead, hnil] at hcan
        cases hcan
      unfold readAndWriteWithZero
      rw [if_pos hcan]
      exact length_bufferRead_lt hne
    · cases hgo

/-- The loop over the chunks ends: each reads the digits of its size, or the input is over. -/
theorem chunks_ends (echo : Bool) (n : Int) (io : Io) :
    Loop.Ends (chunksBody echo) (n, io) (extractChunked echo n io) := by
  refine Loop.ends_of_fuel (f := fun fuel (t : Int × Io) => chunksLoop echo fuel t.1 t.2)
    (μ := fun t => t.2.b.bytes.length + 1) ?_ ?_ ?_ (Nat.le_refl _)
  · intro t ht
    cases ht
  · rintro fuel ⟨n, io⟩
    rw [chunksLoop_succ, chunksBody]
    dsimp only
    rcases getNumberWith .hex echo [] io with ⟨_ | chunkLength, io₁⟩
    · rfl
    · dsimp only
      split
      · rfl
      · split
        · rfl
        · split
          · rfl
          · split <;> rfl
  · rintro ⟨n, io⟩ t' hgo
    rw [Loop.Goes, chunksBody] at hgo
    dsimp only at hgo
    rcases hnumber : getNumberWith .hex echo [] io with ⟨_ | chunkLength, io₁⟩
    · rw [hnumber] at hgo
      cases hgo
    · rw [hnumber] at hgo
      dsimp only at hgo
      have hlt₁ := getNumber_shrinks (by decide) hnumber
      split at hgo
      · cases hgo
      next hline =>
      have hle₁ := (matchFormatWith_consumes echo [CR, LF] [] io₁
        (.inl (Bool.not_eq_false _ ▸ hline))).length_le
      split at hgo
      · cases hgo
      have hle₂ := writeToTransfBufWithZeroLoop_length_le
        ((matchFormatWith echo [CR, LF] [] io₁).2.b.bytes.length + 1) chunkLength
        (matchFormatWith echo [CR, LF] [] io₁).2
      split at hgo
      · cases hgo
      next hend =>
      have hle₃ := (matchFormatWith_consumes echo [CR, LF] [] _
        (.inl (Bool.not_eq_false _ ▸ hend))).length_le
      split at hgo
      · cases hgo
        exact Nat.succ_lt_succ
          (Nat.lt_of_le_of_lt (Nat.le_trans hle₃ (Nat.le_trans hle₂ hle₁)) hlt₁)
      · cases hgo

/-- All the inner loops end with what the model has them end with. -/
theorem loopsEnd : LoopsEnd where
  spaces := spaces_ends
  connection := connection_ends
  number r echo n io hr := number_ends (by rcases hr with rfl | rfl <;> rfl) echo n io
  quantity := quantity_ends
  digits r n hr := digits_ends (by rcases hr with rfl | rfl <;> decide) n
  headers := headers_ends
  chunks := chunks_ends
  all := readAll_ends

/-! ## What a state leaves to read -/

/-- Pushing back makes no more unread than was pushed back. -/
theorem length_pushBack_le (b : Buffer) (p : List UInt8) :
    (b.pushBack p).bytes.length ≤ b.bytes.length + p.length := by
  induction p with
  | nil => exact Nat.le_refl _
  | cons c p ih =>
    rw [show b.pushBack (c :: p) = bufferWriteReverse (b.pushBack p) c from rfl, List.length_cons]
    unfold bufferWriteReverse
    split
    · rw [List.length_cons]
      omega
    · omega

/-- Every character that was matched was read. -/
theorem matchFormatLoop_length (echo : Bool) {format : List UInt8} (hf : 0 ∉ format) (i : Nat) (c : UInt8)
    (io : Io) :
    let r := matchFormatLoop echo format i c io
    r.2.2.2.b.bytes.length + r.2.1 = io.b.bytes.length + i ∧ r.2.1 + r.1.length = i + format.length := by
  induction format generalizing i c io with
  | nil => exact ⟨rfl, rfl⟩
  | cons f format ih =>
    obtain ⟨hf0, hf⟩ := not_or.mp (mt List.mem_cons.mpr hf)
    rw [matchFormatLoop]
    by_cases hc : peekUpChar io.b = toupper f
    · have hne : io.b.bytes ≠ [] := by
        apply bytes_ne_nil_of_peek
        intro h0
        rw [peekUpChar, h0, toupper_zero] at hc
        exact hf0 (toupper_eq_zero.mp hc.symm).symm
      have hread : (readByte echo io).b.bytes.length + 1 = io.b.bytes.length := by
        rw [show (readByte echo io).b = (bufferRead io.b).2 by cases echo <;> rfl, Buffer.bytes_read,
          List.length_tail]
        exact Nat.sub_add_cancel (List.length_pos_iff.mpr hne)
      obtain ⟨hlen, hi⟩ := ih hf (i + 1) (peekUpChar io.b) (readByte echo io)
      rw [if_neg (not_not.mpr hc)]
      dsimp only at hlen hi ⊢
      rw [List.length_cons]
      omega
    · rw [if_pos hc]
      exact ⟨rfl, rfl⟩

/-- A format that is there was read; otherwise no more can be to read than there was and the prefix that
is pushed back. -/
theorem matchFormat_length {format : List UInt8} (hf : 0 ∉ format) (pre : List UInt8) (io : Io) :
    ((matchFormat format pre io).1 = true →
      (matchFormat format pre io).2.b.bytes.length + format.length = io.b.bytes.length) ∧
    (matchFormat format pre io).2.b.bytes.length ≤ io.b.bytes.length + pre.length := by
  obtain ⟨hlen, hi⟩ := matchFormatLoop_length true hf 0 0 io
  unfold matchFormat matchFormatWith
  dsimp only at hlen hi ⊢
  generalize matchFormatLoop true format 0 0 io = r at hlen hi ⊢
  obtain ⟨rest, i, c, io'⟩ := r
  dsimp only at hlen hi ⊢
  split
  · refine ⟨fun h => (Bool.false_ne_true h).elim, ?_⟩
    have hback := length_pushBack_le io'.b (format.take i)
    have hprefix := length_pushBack_le (io'.b.pushBack (format.take i)) (pre.take pre.length)
    rw [List.length_take] at hback hprefix
    unfold writePrefix writeToBufReverse
    dsimp only
    omega
  · dsimp only
    refine ⟨fun h => ?_, by omega⟩
    have hnil : rest.length = 0 := by rw [List.isEmpty_iff.mp h, List.length_nil]
    omega

/-- `io'` has no more left to read than `io`, when something was found. -/
def Found (io : Io) (r : Option ResponseParserState × Io) : Prop :=
  ∀ next, r.1 = some next → next ≠ .RES_HEADERS → r.2.b.bytes.length ≤ io.b.bytes.length

/-- The name of a field was read where it is found: its bytes outweigh what a miss pushes back. -/
theorem checkName_found {format pre : List UInt8} (hf : 0 ∉ format) (next : ResponseParserState)
    (io : Io) : Found io (checkName format pre next io) ∧
      ∀ p, (checkName format pre next io).1 = some p → p ≠ .RES_HEADERS →
        p = next ∧ (checkName format pre next io).2.b.bytes.length + format.length = io.b.bytes.length := by
  suffices h : ∀ p, (checkName format pre next io).1 = some p → p ≠ .RES_HEADERS →
      p = next ∧ (checkName format pre next io).2.b.bytes.length + format.length = io.b.bytes.length from
    ⟨fun p hp hne => by have := (h p hp hne).2; omega, h⟩
  obtain ⟨hok, -⟩ := matchFormat_length hf pre io
  unfold checkName
  rcases hmatch : matchFormat format pre io with ⟨ok, io'⟩
  rw [hmatch] at hok
  cases ok with
  | true =>
    rintro p ⟨⟩ -
    exact ⟨rfl, hok rfl⟩
  | false =>
    dsimp only
    intro p hp hne
    split at hp
    · next h => cases h
    · split at hp
      · exact absurd (Option.some.inj hp).symm hne
      · cases hp

/-- Reading makes no more unread. -/
theorem length_bufferRead_le (b : Buffer) : (bufferRead b).2.bytes.length ≤ b.bytes.length := by
  rw [Buffer.bytes_read, List.length_tail]
  exact Nat.sub_le _ _

/-- What was read in front makes it even less. -/
theorem Found.after {io io' : Io} {r : Option ResponseParserState × Io}
    (hle : io'.b.bytes.length ≤ io.b.bytes.length) (h : Found io' r) : Found io r :=
  fun next hnext hne => Nat.le_trans (h next hnext hne) hle

/-- The input ran out. -/
theorem Found.waiting (io io' : Io) : Found io (some .RES_HEADERS, io') := by
  rintro next ⟨⟩ hne
  exact absurd rfl hne

/-- Where nothing was found there is nothing to show. -/
theorem Found.nothing (io io' : Io) : Found io (none, io') := by
  rintro next ⟨⟩

/-- One of the three names behind `Content-` was read where it is found. -/
theorem checkContent_found (io : Io) : Found io (checkContent io) := by
  apply Found.after (readAndWrite_consumes io).length_le
  unfold checkContent
  dsimp only
  split
  · exact (checkName_found (by decide) _ _).1
  split
  · exact (checkName_found (by decide) _ _).1
  split
  · exact (checkName_found (by decide) _ _).1
  split
  · exact Found.waiting _ _
  · exact Found.nothing _ _

/-- The names behind `C` were read where they are found. -/
theorem checkCon_found (io : Io) : Found io (checkCon io) := by
  obtain ⟨hon, -⟩ := matchFormat_length (show 0 ∉ lit "ON" by decide) (lit "C") io
  unfold checkCon
  rcases hmatch : matchFormat (lit "ON") (lit "C") io with ⟨ok, io₁⟩
  rw [hmatch] at hon
  cases ok with
  | false =>
    dsimp only
    split
    · next h => cases h
    split
    · exact Found.waiting _ _
    · exact Found.nothing _ _
  | true =>
    have hlen₁ : io₁.b.bytes.length + 2 = io.b.bytes.length := hon rfl
    obtain ⟨htent, hle₂⟩ := matchFormat_length (show 0 ∉ lit "TENT-" by decide) (lit "CON") io₁
    dsimp only
    rcases hmatch₂ : matchFormat (lit "TENT-") (lit "CON") io₁ with ⟨ok₂, io₂⟩
    rw [hmatch₂] at htent hle₂
    cases ok₂ with
    | true =>
      have hlen₂ : io₂.b.bytes.length + 5 = io₁.b.bytes.length := htent rfl
      exact (checkContent_found io₂).after (by omega)
    | false =>
      -- What is pushed back is less than the name that is tried on it.
      have hlen₂ : io₂.b.bytes.length ≤ io₁.b.bytes.length + 3 := hle₂
      rintro next hnext hne
      obtain ⟨-, hlen⟩ := (checkName_found (by decide) .CONNECTION_CHECK io₂).2 next hnext hne
      have hname : (lit "NECTION:").length = 8 := rfl
      rw [hname] at hlen
      change (checkName (lit "NECTION:") (lit "CON") .CONNECTION_CHECK io₂).2.b.bytes.length ≤ _
      omega

/-- The end of the headers was read where it is found. -/
theorem checkResHeadersEnd_found (d : ResponseFields) (io : Io) : Found io (checkResHeadersEnd d io) := by
  obtain ⟨hlf, -⟩ := matchFormat_length (show 0 ∉ [LF] by decide) [CR] io
  unfold checkResHeadersEnd checkLF
  rcases hmatch : matchFormat [LF] [CR] io with ⟨ok, io₁⟩
  rw [hmatch] at hlf
  cases ok with
  | false =>
    dsimp only
    split
    · next h => cases h
    split
    · exact Found.waiting _ _
    · exact Found.nothing _ _
  | true =>
    have hlen₁ : io₁.b.bytes.length + 1 = io.b.bytes.length := hlf rfl
    have hcr := length_bufferRead_le io₁.b
    have hcrlf := length_bufferRead_le (bufferRead io₁.b).2
    dsimp only
    split
    · split
      · split
        · rintro next ⟨⟩ -
          dsimp only [writeToBuf]
          omega
        split
        · exact Found.waiting _ _
        · exact Found.nothing _ _
      split
      · exact Found.waiting _ _
      · exact Found.nothing _ _
    · next h => exact absurd rfl h

/-- What a pass of `checkHeaders` finds was read. -/
theorem checkHeadersPass_found (d : ResponseFields) (c : UInt8) (io : Io) :
    Found io (checkHeadersPass d c io) := by
  unfold checkHeadersPass
  split
  · exact checkCon_found io
  split
  · exact (checkName_found (by decide) _ _).1
  split
  · exact checkResHeadersEnd_found d io
  · exact Found.nothing _ _

/-- `checkHeaders` has read a byte whenever it finds something. -/
theorem checkHeadersLoop_found (d : ResponseFields) (fuel : Nat) (io : Io)
    (h : (checkHeadersLoop d fuel io).1 ≠ .RES_HEADERS) :
    (checkHeadersLoop d fuel io).2.b.bytes.length < io.b.bytes.length := by
  induction fuel generalizing io with
  | zero => exact absurd rfl h
  | succ fuel ih =>
    rw [checkHeadersLoop] at h ⊢
    dsimp only at h ⊢
    split at h
    · exact absurd rfl h
    · next hc =>
      rw [if_neg hc]
      have hlt := length_readAndWrite_lt fun h0 => hc (toupper_eq_zero.mpr h0)
      have hfound := checkHeadersPass_found d (toupper (readAndWrite io).1) (readAndWrite io).2
      rcases hpass : checkHeadersPass d (toupper (readAndWrite io).1) (readAndWrite io).2 with
        ⟨_ | next, io₂⟩
      · rw [hpass] at h
        have hle := (checkHeadersPass_consumes hpass).length_le
        exact Nat.lt_trans (ih io₂ h) (Nat.lt_of_le_of_lt hle hlt)
      · rw [hpass] at h hfound
        exact Nat.lt_of_le_of_lt (hfound next rfl h) hlt

/-! ## Progress -/

/-- The order of the states; the values lead back to `RES_HEADERS`, and the blanks stand in front of
them. -/
def ResponseParserState.rank : ResponseParserState → Nat
  | .RES_FINISHED => 0
  | .BODY_NORMAL | .BODY_TRANSFORMATION => 1
  | .RES_HEADERS => 2
  | .STATUS | .LENGTH_CHECK | .ENCODING_CHECK | .CHUNKED_CHECK | .CONNECTION_CHECK | .TYPE_CHECK => 3
  | .RES_SPACE_TRANSITION => 4
  | .RES_VERSION => 5

/-- What holds of the response data between the iterations, and so between calls: blanks stand in front of
a value. -/
def ResponseData.Wf (rd : ResponseData) : Prop :=
  rd.parserState = .RES_SPACE_TRANSITION → rd.next.rank = 3

/-- The bytes to read, and behind them the state; a byte outweighs the way round by the states of a
value. -/
def ResState.measure (s : ResState) : Nat :=
  if s.rData.parserState = .RES_FINISHED then 0
  else 3 * s.io.b.bytes.length + s.rData.parserState.rank

/-- What `checkHeaders` comes to. -/
theorem checkHeadersPass_next {d : ResponseFields} {c : UInt8} {io : Io} {next : ResponseParserState}
    (h : (checkHeadersPass d c io).1 = some next) :
    next = .RES_HEADERS ∨ next = .RES_FINISHED ∨ next.rank = 3 := by
  have hname : ∀ format pre p io, (checkName format pre p io).1 = some next → p.rank = 3 →
      next = .RES_HEADERS ∨ next = .RES_FINISHED ∨ next.rank = 3 := by
    intro format pre p io hp hrank
    unfold checkName at hp
    dsimp only at hp
    split at hp
    · cases hp
      exact .inr (.inr hrank)
    split at hp
    · cases hp
      exact .inl rfl
    · cases hp
  unfold checkHeadersPass at h
  split at h
  · unfold checkCon at h
    dsimp only at h
    split at h
    · split at h
      · unfold checkContent at h
        dsimp only at h
        split at h
        · exact hname _ _ _ _ h rfl
        split at h
        · exact hname _ _ _ _ h rfl
        split at h
        · exact hname _ _ _ _ h rfl
        split at h <;> cases h
        exact .inl rfl
      · exact hname _ _ _ _ h rfl
    · dsimp only at h
      split at h <;> cases h
      exact .inl rfl
  split at h
  · exact hname _ _ _ _ h rfl
  split at h
  · unfold checkResHeadersEnd at h
    dsimp only at h
    split at h
    · split at h
      · split at h
        · cases h
          exact .inr (.inl rfl)
        split at h <;> cases h
        exact .inl rfl
      split at h <;> cases h
      exact .inl rfl
    · dsimp only at h
      split at h <;> cases h
      exact .inl rfl
  · cases h

/-- What `checkHeaders` finds is the state of a value, or the end. -/
theorem checkHeadersLoop_next (d : ResponseFields) (fuel : Nat) (io : Io) :
    let next := (checkHeadersLoop d fuel io).1
    next = .RES_HEADERS ∨ next = .RES_FINISHED ∨ next.rank = 3 := by
  induction fuel generalizing io with
  | zero => exact .inl rfl
  | succ fuel ih =>
    rw [checkHeadersLoop]
    dsimp only
    split
    · exact .inl rfl
    · rcases hpass : checkHeadersPass d (toupper (readAndWrite io).1) (readAndWrite io).2 with
        ⟨_ | next, io₂⟩
      · exact ih io₂
      · exact checkHeadersPass_next (congrArg Prod.fst hpass)

/-- An iteration that goes on keeps what holds of the response data and lowers the measure. -/
structure ResState.Progress (s s' : ResState) : Prop where
  wf : s'.rData.Wf
  lower : s'.measure < s.measure

/-- Outside the blanks there is nothing to hold. -/
theorem ResponseData.wf_of_ne {rd : ResponseData} (h : rd.parserState ≠ .RES_SPACE_TRANSITION) : rd.Wf :=
  fun hp => absurd hp h

/-- Before its end the parser measures its unread bytes and its state. -/
theorem ResState.measure_of_ne {s : ResState} (h : s.rData.parserState ≠ .RES_FINISHED) :
    s.measure = 3 * s.io.b.bytes.length + s.rData.parserState.rank := if_neg h

/-- Going on to a state that is behind this one, with no more to read than there was. -/
theorem ResState.progress_goto {s s' : ResState} {p : ResponseParserState}
    (hp : p ≠ .RES_SPACE_TRANSITION) (hrank : p.rank < s.rData.parserState.rank)
    (hle : s'.io.b.bytes.length ≤ s.io.b.bytes.length) : s.Progress (s'.goto p) := by
  refine ⟨ResponseData.wf_of_ne hp, ?_⟩
  have hs : s.rData.parserState ≠ .RES_FINISHED := by
    intro h0
    rw [h0] at hrank
    exact Nat.not_lt_zero _ hrank
  rw [ResState.measure_of_ne hs, ResState.measure]
  split
  · omega
  · change 3 * s'.io.b.bytes.length + p.rank < _
    omega

/-- Going on to the blanks in front of a value. -/
theorem ResState.progress_spaces {s s' : ResState} (hnext : s'.rData.next.rank = 3)
    (hp : s.rData.parserState ≠ .RES_FINISHED)
    (hlt : 3 * s'.io.b.bytes.length + 4 < 3 * s.io.b.bytes.length + s.rData.parserState.rank) :
    s.Progress (s'.goto .RES_SPACE_TRANSITION) := by
  refine ⟨fun _ => hnext, ?_⟩
  rw [ResState.measure_of_ne hp]
  exact hlt

/-- Behind the body there is nothing to do. -/
theorem ResState.progress_finished {s : ResState} (s' : ResState) (hp : s.rData.parserState.rank = 1) :
    s.Progress (s'.goto .RES_FINISHED) := by
  refine ⟨ResponseData.wf_of_ne ResponseParserState.noConfusion, ?_⟩
  have hne : s.rData.parserState ≠ .RES_FINISHED := by
    intro h0
    rw [h0] at hp
    cases hp
  rw [ResState.measure_of_ne hne, hp]
  exact Nat.succ_pos _

/-- A case goes on when its function succeeded. -/
theorem checkResCase_goes {r : Bool × ResState} {next : ResState → ResState}
    (hgo : (checkResCase r next).1 = {}) : r.1 = true ∧ (checkResCase r next).2 = next r.2 := by
  unfold checkResCase at hgo ⊢
  cases hok : r.1 with
  | true => exact ⟨rfl, rfl⟩
  | false =>
    rw [hok] at hgo
    cases hgo

/-- The case of a value goes on whether the value is one the parser knows or not. -/
theorem valueCase_goes {r : Bool × ResState} (hgo : (valueCase r).1 = {}) :
    (r.1 = true ∨ r.2.io.isBufferEmpty = false) ∧ (valueCase r).2 = r.2.goto .RES_HEADERS := by
  unfold valueCase at hgo ⊢
  split at hgo
  · cases hgo
  · next h =>
    rw [if_neg h]
    refine ⟨?_, rfl⟩
    cases hok : r.1 with
    | true => exact .inl rfl
    | false => exact .inr (Bool.eq_false_iff.mpr fun hflag => h ⟨hok, hflag⟩)

/-- A value is behind `RES_HEADERS`, and what was read of it, or nothing, is read. -/
theorem valueCase_progress {s : ResState} {r : Bool × ResState} (hrank : s.rData.parserState.rank = 3)
    (hle : r.1 = true ∨ r.2.io.isBufferEmpty = false →
      r.2.io.b.bytes.length ≤ s.io.b.bytes.length) (hgo : (valueCase r).1 = {}) :
    s.Progress (valueCase r).2 := by
  obtain ⟨hfin, heq⟩ := valueCase_goes hgo
  rw [heq]
  exact ResState.progress_goto (by decide) (by rw [hrank]; decide) (hle hfin)

section States

variable {s : ResState}

/-- The blanks change nothing of the data. -/
theorem checkResSpaces_rData : (checkResSpaces s).2.rData = s.rData := by
  unfold checkResSpaces
  dsimp only
  split <;> rfl

/-- The blanks make no more unread. -/
theorem checkResSpaces_length :
    (checkResSpaces s).2.io.b.bytes.length ≤ s.io.b.bytes.length := by
  unfold checkResSpaces
  dsimp only
  split <;> exact moveThroughSpacesLoop_length_le _ _

/-- A version that is found makes no more unread. -/
theorem extractResVersion_length (h : (extractResVersion s).1 = true) :
    (extractResVersion s).2.io.b.bytes.length ≤ s.io.b.bytes.length := by
  have hmatch := matchFormat_consumes (lit "HTTP/1.") [] s.io
  unfold extractResVersion at h ⊢
  generalize matchFormat (lit "HTTP/1.") [] s.io = r at h hmatch ⊢
  rcases r with ⟨_ | _, io⟩
  · by_cases he : io.isBufferEmpty = true
    · simp only [he, Bool.false_eq_true, if_false, if_true] at h
    · simp only [he, Bool.false_eq_true, if_false]
      exact (hmatch (.inr (Bool.eq_false_iff.mpr he))).length_le
  · dsimp only at h ⊢
    rw [if_pos rfl] at h ⊢
    split at h
    · next hc =>
      rw [if_pos hc]
      exact Nat.le_trans (readAndWrite_consumes io).length_le (hmatch (.inl rfl)).length_le
    · cases h

/-- A status that is found makes no more unread. -/
theorem extractStatus_length (h : (extractStatus s).1 = true) :
    (extractStatus s).2.io.b.bytes.length ≤ s.io.b.bytes.length := by
  have hnumber := @getNumber_consumes .dec true [] s.io
  unfold extractStatus getNumber at h ⊢
  generalize getNumberWith .dec true [] s.io = r at h hnumber ⊢
  rcases r with ⟨_ | status, io⟩
  · cases h
  · exact (hnumber (.inl (Option.some_ne_none status))).length_le

/-- A length that does not run out makes no more unread. -/
theorem checkLength_length (h : (checkLength s).1 = true ∨ (checkLength s).2.io.isBufferEmpty = false) :
    (checkLength s).2.io.b.bytes.length ≤ s.io.b.bytes.length := by
  have hnumber := @getNumber_consumes .dec true [] s.io
  unfold checkLength getNumber at h ⊢
  generalize getNumberWith .dec true [] s.io = r at h hnumber ⊢
  rcases r with ⟨_ | n, io⟩
  · exact (hnumber (.inr (h.resolve_left Bool.false_ne_true))).length_le
  · exact (hnumber (.inl (Option.some_ne_none n))).length_le

/-- A check that keeps the result of `matchFormat` reads no more than there is. -/
theorem length_of_matchFormat (format pre : List UInt8) {r : Bool × ResState}
    (hok : r.1 = (matchFormat format pre s.io).1) (hio : r.2.io = (matchFormat format pre s.io).2)
    (h : r.1 = true ∨ r.2.io.isBufferEmpty = false) :
    r.2.io.b.bytes.length ≤ s.io.b.bytes.length := by
  rw [hok, hio] at h
  rw [hio]
  exact (matchFormat_consumes format pre s.io h).length_le

/-- An encoding that does not run out makes no more unread. -/
theorem checkEncoding_length
    (h : (checkEncoding s).1 = true ∨ (checkEncoding s).2.io.isBufferEmpty = false) :
    (checkEncoding s).2.io.b.bytes.length ≤ s.io.b.bytes.length := by
  apply length_of_matchFormat (lit "GZIP") [] _ _ h
  all_goals
    unfold checkEncoding
    rcases matchFormat (lit "GZIP") [] s.io with ⟨_ | _, io⟩ <;> rfl

/-- A transfer encoding that does not run out makes no more unread. -/
theorem checkChunked_length
    (h : (checkChunked s).1 = true ∨ (checkChunked s).2.io.isBufferEmpty = false) :
    (checkChunked s).2.io.b.bytes.length ≤ s.io.b.bytes.length := by
  apply length_of_matchFormat (lit "CHUNKED") [] _ _ h
  all_goals
    unfold checkChunked
    rcases matchFormat (lit "CHUNKED") [] s.io with ⟨_ | _, io⟩ <;> rfl

/-- Dropping the value of `Connection` makes no more unread. -/
theorem checkConnectionLoop_length_le (fuel : Nat) (b : Buffer) :
    (checkConnectionLoop fuel b).2.bytes.length ≤ b.bytes.length := by
  induction fuel generalizing b with
  | zero => exact Nat.le_refl _
  | succ fuel ih =>
    rw [checkConnectionLoop]
    split
    · exact Nat.le_trans (ih _) (length_bufferRead_le b)
    · exact Nat.le_refl _

/-- `checkConnection` makes no more unread. -/
theorem checkConnection_length :
    (checkConnection s).2.io.b.bytes.length ≤ s.io.b.bytes.length := by
  unfold checkConnection
  dsimp only
  split <;> exact checkConnectionLoop_length_le _ _

/-- `checkHeaders` has found the end of the headers or a field, and has read a byte. -/
theorem checkHeaders_found (h : (checkHeaders s).1 = true) :
    ((checkHeaders s).2.rData.next = .RES_FINISHED ∨ (checkHeaders s).2.rData.next.rank = 3) ∧
      (checkHeaders s).2.io.b.bytes.length < s.io.b.bytes.length := by
  have hnext := checkHeadersLoop_next s.rData.toResponseFields (s.io.b.bytes.length + 1) s.io
  have hfound := checkHeadersLoop_found s.rData.toResponseFields (s.io.b.bytes.length + 1) s.io
  unfold checkHeaders at h ⊢
  generalize checkHeadersLoop s.rData.toResponseFields (s.io.b.bytes.length + 1) s.io = r at *
  obtain ⟨next, io⟩ := r
  dsimp only at h hnext hfound ⊢
  by_cases hne : next = .RES_HEADERS
  · rw [if_pos hne] at h
    cases h
  · rw [if_neg hne]
    exact ⟨hnext.resolve_left hne, hfound hne⟩

/-- Behind the headers the measure went down: a byte was read, which outweighs the way round. -/
theorem afterHeaders_progress (hp : s.rData.parserState = .RES_HEADERS) (h : (checkHeaders s).1 = true) :
    s.Progress (afterHeaders (checkHeaders s).2) := by
  obtain ⟨hnext, hlt⟩ := checkHeaders_found h
  unfold afterHeaders
  split
  · apply ResState.progress_goto
    · split <;> decide
    · rw [hp]
      split <;> decide
    · exact Nat.le_of_lt hlt
  · next hne =>
    apply ResState.progress_spaces (hnext.resolve_left hne)
    · rw [hp]
      exact ResponseParserState.noConfusion
    · rw [hp]
      change _ < 3 * s.io.b.bytes.length + 2
      omega

end States

/-- An iteration that goes on makes progress. -/
theorem resIteration_progress {s : ResState} (hw : s.rData.Wf) (hgo : (resIteration s).1 = {}) :
    s.Progress (resIteration s).2 := by
  unfold resIteration at hgo ⊢
  cases hp : s.rData.parserState with
  | RES_SPACE_TRANSITION =>
    simp only [hp] at hgo ⊢
    obtain ⟨-, heq⟩ := checkResCase_goes hgo
    have hrank := hw hp
    rw [heq, checkResSpaces_rData]
    apply ResState.progress_goto
    · intro h0
      rw [h0] at hrank
      cases hrank
    · rw [hrank, hp]
      decide
    · exact checkResSpaces_length
  | RES_VERSION =>
    simp only [hp] at hgo ⊢
    obtain ⟨hok, heq⟩ := checkResCase_goes hgo
    have hle := extractResVersion_length hok
    rw [heq]
    change s.Progress (((extractResVersion s).2.setNext .STATUS).goto .RES_SPACE_TRANSITION)
    apply ResState.progress_spaces rfl
    · rw [hp]
      exact ResponseParserState.noConfusion
    · rw [hp]
      change 3 * (extractResVersion s).2.io.b.bytes.length + 4 < 3 * s.io.b.bytes.length + 5
      omega
  | STATUS =>
    simp only [hp] at hgo ⊢
    obtain ⟨hok, heq⟩ := checkResCase_goes hgo
    rw [heq]
    exact ResState.progress_goto (by decide) (by rw [hp]; decide) (extractStatus_length hok)
  | RES_HEADERS =>
    simp only [hp] at hgo ⊢
    obtain ⟨hok, heq⟩ := checkResCase_goes hgo
    rw [heq]
    exact afterHeaders_progress hp hok
  | LENGTH_CHECK =>
    simp only [hp] at hgo ⊢
    exact valueCase_progress (by rw [hp]; rfl) checkLength_length hgo
  | ENCODING_CHECK =>
    simp only [hp] at hgo ⊢
    exact valueCase_progress (by rw [hp]; rfl) checkEncoding_length hgo
  | CHUNKED_CHECK =>
    simp only [hp] at hgo ⊢
    exact valueCase_progress (by rw [hp]; rfl) checkChunked_length hgo
  | CONNECTION_CHECK =>
    simp only [hp] at hgo ⊢
    exact valueCase_progress (by rw [hp]; rfl) (fun _ => checkConnection_length) hgo
  | TYPE_CHECK =>
    simp only [hp] at hgo ⊢
    exact valueCase_progress (by rw [hp]; rfl) (fun _ => Nat.le_refl _) hgo
  | BODY_NORMAL =>
    simp only [hp] at hgo ⊢
    obtain ⟨-, heq⟩ := checkResCase_goes hgo
    rw [heq]
    exact ResState.progress_finished _ (by rw [hp]; rfl)
  | BODY_TRANSFORMATION =>
    simp only [hp] at hgo ⊢
    obtain ⟨-, heq⟩ := checkResCase_goes hgo
    rw [heq]
    exact ResState.progress_finished _ (by rw [hp]; rfl)
  | RES_FINISHED =>
    simp only [hp] at hgo
    cases hgo

/-! ## Calls -/

/-- The body of the loop goes on exactly when the flags are as at the start of an iteration. -/
theorem resLoopBody_eq_inl {s s' : ResState} :
    resLoopBody s = .inl s' ↔ (resIteration s).1 = {} ∧ (resIteration s).2 = s' := by
  unfold resLoopBody
  obtain ⟨⟨success, active⟩, s''⟩ := resIteration s
  cases success <;> cases active <;> simp

section Stops

variable {s : ResState}

/-- A function of a state leaves the state to the loop, or the response is over. -/
def LeavesState (s : ResState) (r : Bool × ResState) : Prop :=
  r.2.rData.parserState = s.rData.parserState ∨ r.2.rData.parserState = .RES_FINISHED

/-- The functions of the states do not move the parser on; the loop does. -/
theorem extractResVersion_leaves : LeavesState s (extractResVersion s) := by
  unfold LeavesState extractResVersion
  rcases matchFormat (lit "HTTP/1.") [] s.io with ⟨ok, io⟩
  dsimp only
  split
  · split <;> exact .inl rfl
  · split <;> exact .inl rfl

theorem extractStatus_leaves : LeavesState s (extractStatus s) := by
  unfold LeavesState extractStatus
  rcases getNumber [] s.io with ⟨_ | n, io⟩ <;> exact .inl rfl

theorem checkHeaders_leaves : LeavesState s (checkHeaders s) := by
  unfold LeavesState checkHeaders
  dsimp only
  split <;> exact .inl rfl

theorem checkLength_leaves : LeavesState s (checkLength s) := by
  unfold LeavesState checkLength
  rcases getNumber [] s.io with ⟨_ | n, io⟩ <;> exact .inl rfl

theorem checkEncoding_leaves : LeavesState s (checkEncoding s) := by
  unfold LeavesState checkEncoding
  dsimp only
  split <;> exact .inl rfl

theorem checkChunked_leaves : LeavesState s (checkChunked s) := by
  unfold LeavesState checkChunked
  dsimp only
  split <;> exact .inl rfl

theorem checkConnection_leaves : LeavesState s (checkConnection s) := by
  unfold LeavesState checkConnection
  dsimp only
  split <;> exact .inl rfl

theorem extractBody_leaves : LeavesState s (extractBody s) := by
  unfold LeavesState extractBody
  split
  · exact .inr rfl
  · exact .inl rfl

theorem extractBodyTransf_leaves : LeavesState s (extractBodyTransf s) := .inl rfl

/-- What leaves the state to the loop keeps the data well formed. -/
theorem LeavesState.wf {r : Bool × ResState} (h : LeavesState s r)
    (hp : s.rData.parserState ≠ .RES_SPACE_TRANSITION) : r.2.rData.Wf := by
  apply ResponseData.wf_of_ne
  intro h0
  rcases h with h | h
  · exact hp (h.symm.trans h0)
  · rw [h] at h0
    cases h0

/-- A case that stops leaves what its function leaves. -/
theorem checkResCase_wf {r : Bool × ResState} {next : ResState → ResState}
    (hgo : ¬(checkResCase r next).1 = {}) (hr : r.2.rData.Wf) : (checkResCase r next).2.rData.Wf := by
  unfold checkResCase at hgo ⊢
  split
  · exact hr
  · next hok =>
    rw [if_neg hok] at hgo
    exact absurd rfl hgo

/-- The case of a value keeps the data well formed. -/
theorem valueCase_wf {r : Bool × ResState} (hr : r.2.rData.Wf) : (valueCase r).2.rData.Wf := by
  unfold valueCase
  split
  · exact hr
  · exact ResponseData.wf_of_ne ResponseParserState.noConfusion

/-- Every iteration keeps what holds of the response data. -/
theorem resIteration_wf (hw : s.rData.Wf) : (resIteration s).2.rData.Wf := by
  by_cases hgo : (resIteration s).1 = {}
  · exact (resIteration_progress hw hgo).wf
  unfold resIteration at hgo ⊢
  have hother : ∀ {p}, s.rData.parserState = p → p ≠ .RES_SPACE_TRANSITION →
      s.rData.parserState ≠ .RES_SPACE_TRANSITION := fun hp hne => hp ▸ hne
  cases hp : s.rData.parserState with
  | RES_SPACE_TRANSITION =>
    simp only [hp] at hgo ⊢
    apply checkResCase_wf hgo
    rwa [checkResSpaces_rData]
  | RES_VERSION =>
    simp only [hp] at hgo ⊢
    exact checkResCase_wf hgo (extractResVersion_leaves.wf (hother hp (by decide)))
  | STATUS =>
    simp only [hp] at hgo ⊢
    exact checkResCase_wf hgo (extractStatus_leaves.wf (hother hp (by decide)))
  | RES_HEADERS =>
    simp only [hp] at hgo ⊢
    exact checkResCase_wf hgo (checkHeaders_leaves.wf (hother hp (by decide)))
  | LENGTH_CHECK => exact valueCase_wf (checkLength_leaves.wf (hother hp (by decide)))
  | ENCODING_CHECK => exact valueCase_wf (checkEncoding_leaves.wf (hother hp (by decide)))
  | CHUNKED_CHECK => exact valueCase_wf (checkChunked_leaves.wf (hother hp (by decide)))
  | CONNECTION_CHECK => exact valueCase_wf (checkConnection_leaves.wf (hother hp (by decide)))
  | TYPE_CHECK => exact valueCase_wf hw
  | BODY_NORMAL =>
    simp only [hp] at hgo ⊢
    exact checkResCase_wf hgo (extractBody_leaves.wf (hother hp (by decide)))
  | BODY_TRANSFORMATION =>
    simp only [hp] at hgo ⊢
    exact checkResCase_wf hgo (extractBodyTransf_leaves.wf (hother hp (by decide)))
  | RES_FINISHED => exact hw

end Stops

/-- The loop of `checkResponseInner` ends, in no more iterations than `responseFuel` allows. -/
theorem responseLoop_returns {rd : ResponseData} (hw : rd.Wf) (bIn : Buffer) :
    ∃ r, responseLoop (responseFuel bIn) (resCallStart rd bIn) = some r := by
  refine Loop.run_of_measure (I := fun s => s.rData.Wf) (μ := ResState.measure) ?_ hw ?_
  · intro s s' hs hgo
    obtain ⟨hgoes, rfl⟩ := resLoopBody_eq_inl.mp hgo
    have hprogress := resIteration_progress hs hgoes
    exact ⟨hprogress.wf, hprogress.lower⟩
  · have hrank : rd.parserState.rank ≤ 5 := by cases rd.parserState <;> decide
    by_cases hp : rd.parserState = .RES_FINISHED
    · rw [show (resCallStart rd bIn).measure = 0 from if_pos hp]
      exact Nat.succ_pos _
    · rw [ResState.measure_of_ne hp]
      change 3 * bIn.bytes.length + rd.parserState.rank < 3 * bIn.bytes.length + 14
      omega

/-- The loop keeps the data well formed, however often it goes round. The induction is on the
fuel. -/
theorem responseLoop_wf {fuel : Nat} {s : ResState} {r : Bool × ResState}
    (h : responseLoop fuel s = some r) (hw : s.rData.Wf) : r.2.rData.Wf := by
  refine Loop.run_induction (P := fun s r => s.rData.Wf → r.2.rData.Wf) ?_ ?_ h hw
  · intro s r hend hs
    have hr : (resIteration s).2 = r.2 := by
      unfold resLoopBody at hend
      dsimp only at hend
      split at hend
      · cases hend
      · cases hend
        rfl
    rw [← hr]
    exact resIteration_wf hs
  · intro s s' r hgo ih hs
    obtain ⟨-, rfl⟩ := resLoopBody_eq_inl.mp hgo
    exact ih (resIteration_wf hs)

/-- Reporting an error writes the error alone. -/
theorem reportResError_wf {r : Bool × ResState} (h : r.2.rData.Wf) : (reportResError r).2.rData.Wf := by
  unfold reportResError
  split <;> exact h

/-- The response data a client can have: that of a new one, whatever stands in the field that is left
unset; with a transformation asked for or not; and what a call leaves of it. -/
inductive ResponseData.Reachable : ResponseData → Prop
  | default (next : ResponseParserState) : Reachable { defaultResponseStruct with next := next }
  | transforms {rd : ResponseData} (h : Reachable rd) (withTransf : Bool) :
    Reachable { rd with withTransf := withTransf }
  | call {rd : ResponseData} {bIn bOut bTransf : Buffer} {r : ResponseResult} (h : Reachable rd)
      (hr : checkResponse rd bIn bOut bTransf = some r) : Reachable r.rData

/-- The data a client can have are well formed: every call keeps them so. -/
theorem ResponseData.Reachable.wf {rd : ResponseData} (h : rd.Reachable) : rd.Wf := by
  induction h with
  | default next => exact ResponseData.wf_of_ne ResponseParserState.noConfusion
  | transforms _ _ ih => exact ih
  | call _ hr ih =>
    obtain ⟨r', hinner, rfl⟩ := Option.map_eq_some_iff.mp hr
    obtain ⟨r, hloop, rfl⟩ := Option.map_eq_some_iff.mp hinner
    exact reportResError_wf (responseLoop_wf hloop ih)

/-- A call of `checkResponse` returns, and every loop in it ends. -/
theorem checkResponse_returns {rd : ResponseData} (h : rd.Reachable) (bIn bOut bTransf : Buffer) :
    Loop.Halts resLoopBody (resCallStart rd bIn) ∧
      (∃ r, checkResponse rd bIn bOut bTransf = some r) ∧ LoopsEnd := by
  obtain ⟨r, hr⟩ := responseLoop_returns h.wf bIn
  refine ⟨⟨responseFuel bIn, r, hr⟩, ?_, loopsEnd⟩
  unfold checkResponse checkResponseInner
  rw [hr]
  exact ⟨_, rfl⟩

/-- A call on bytes that are no response, zero bytes among them. -/
theorem checkResponse_returns_zero :
    let rd : ResponseData := { defaultResponseStruct with next := .RES_SPACE_TRANSITION }
    let b := bufferWriteAll (bufferInit 64) (lit "HTTP/1.1 \x00C\x00")
    Loop.Halts resLoopBody (resCallStart rd b) ∧
      (∃ r, checkResponse rd b (bufferInit 0) (bufferInit 0) = some r) ∧ LoopsEnd :=
  checkResponse_returns (.default _) _ _ _

end HttpProxy
