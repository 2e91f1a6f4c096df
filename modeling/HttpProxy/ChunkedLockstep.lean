import HttpProxy.Consumption
import HttpProxy.ResponseParser

/-!
# The two chunk parsers in lockstep

A chunked body is read by `extractChunkedBody` when it is passed on and by
`extractChunkedBodyTransf` when it is transformed. They pass on different bytes, and to different
buffers; what they return, what they leave in the response data and what they leave of the input
is the same at every call.

What a utility writes never decides what it reads next, so two calls that start from the same
input (`Io.SameInput`) stay on the same input. The law goes through every utility up to the loop
over the chunks.
-/

namespace HttpProxy

def extractChunkedBody (s : ResState) : Bool × ResState :=
  let (ok, n, io) := extractChunked true s.rData.bodyLength s.io
  (ok, { s with io := io }.setBodyLength n)

def extractChunkedBodyTransf (s : ResState) : Bool × ResState :=
  let (ok, n, io) := extractChunked false s.rData.bodyLength { s.io with out := [] }
  (ok, { s with io := { io with out := s.io.out }, transf := s.transf ++ io.out }.setBodyLength n)

/-- A chunked body is extracted by `extractChunkedBody`. -/
theorem extractBody_chunked {s : ResState} (h : s.rData.isChunked = true) :
    extractBody s = extractChunkedBody s := by
  simp only [extractBody, extractBodyWith, extractChunkedBody, h, Bool.true_eq_false, false_and,
    if_false, if_true]

/-- A chunked body on its way to the transformation is extracted by `extractChunkedBodyTransf`. -/
theorem extractBodyTransf_chunked {s : ResState} (h : s.rData.isChunked = true) :
    extractBodyTransf s = extractChunkedBodyTransf s := by
  simp only [extractBodyTransf, extractBodyWith, extractChunkedBodyTransf, h, if_true]

/-! ## The loop over the chunks ends by itself -/

theorem readAndWriteWithZero_length_le (io : Io) :
    (readAndWriteWithZero io).2.b.bytes.length ≤ io.b.bytes.length := by
  unfold readAndWriteWithZero
  dsimp only
  split
  · rw [Buffer.bytes_read, List.length_tail]
    exact Nat.sub_le _ _
  · exact Nat.le_refl _

theorem writeToTransfBufWithZeroLoop_length_le (fuel : Nat) (quantity : Int) (io : Io) :
    (writeToTransfBufWithZeroLoop fuel quantity io).2.b.bytes.length ≤ io.b.bytes.length := by
  induction fuel generalizing quantity io with
  | zero => exact Nat.le_refl _
  | succ fuel ih =>
    rw [writeToTransfBufWithZeroLoop]
    split
    · dsimp only
      split
      · exact readAndWriteWithZero_length_le io
      · exact Nat.le_trans (ih _ _) (readAndWriteWithZero_length_le io)
    · exact Nat.le_refl _

/-- A number that was read has a digit. -/
theorem getNumber_shrinks {r : Radix} (hr : r.isDigit 0 = false) {echo : Bool} {pre : List UInt8}
    {io io' : Io} {n : Int} (h : getNumberWith r echo pre io = (some n, io')) :
    io'.b.bytes.length < io.b.bytes.length := by
  have hdigit : r.isDigit (bufferPeek io.b) = true := by
    unfold getNumberWith at h
    by_contra hd
    rw [Bool.not_eq_true] at hd
    have hloop : numberLoop r echo io.b.bytes.length 0 io = (0, io) := by
      cases io.b.bytes.length with
      | zero => rfl
      | succ k => simp only [numberLoop, hd, Bool.false_eq_true, if_false]
    by_cases hc : bufferPeek io.b = 0
    · simp [hc, hloop] at h
    · simp [hc, hd] at h
  obtain ⟨c, l, hb⟩ : ∃ c l, io.b.bytes = c :: l := List.exists_cons_of_ne_nil fun hn => by
    rw [bufferPeek, hn, List.headD_nil, hr] at hdigit
    cases hdigit
  have hlen : io.b.bytes.length = l.length + 1 := by rw [hb, List.length_cons]
  have hread : (readByte echo io).b.bytes = l := by
    rw [show (readByte echo io).b = (bufferRead io.b).2 by cases echo <;> rfl, Buffer.bytes_read, hb,
      List.tail_cons]
  have hrest := numberLoop_consumes r echo l.length (toInt32 (r.base * 0 + r.value (bufferPeek io.b)))
    (readByte echo io)
  have hio : io' = (getNumberWith r echo pre io).2 := by rw [h]
  have hne : (getNumberWith r echo pre io).1 ≠ none := by rw [h]; exact Option.some_ne_none n
  unfold getNumberWith at hio hne
  simp only [hlen, numberLoop, hdigit, if_true, Bool.true_eq_false, and_false, if_false] at hio hne
  split at hio
  · next hz => exact absurd (by rw [if_pos hz]) hne
  · rw [hio, hlen]
    exact Nat.lt_succ_of_le (hread ▸ hrest.length_le)

/-- The loop over the chunks has fuel to spare. -/
theorem chunksLoop_fuel (echo : Bool) (fuel fuel' : Nat) (bodyLength : Int) (io : Io)
    (h : io.b.bytes.length < fuel) (h' : io.b.bytes.length < fuel') :
    chunksLoop echo fuel bodyLength io = chunksLoop echo fuel' bodyLength io := by
  induction fuel generalizing fuel' bodyLength io with
  | zero => exact absurd h (Nat.not_lt_zero _)
  | succ fuel ih =>
    obtain ⟨fuel', rfl⟩ := Nat.exists_eq_succ_of_ne_zero (Nat.ne_zero_of_lt h')
    rw [chunksLoop_succ, chunksLoop_succ]
    rcases hnumber : getNumberWith .hex echo [] io with ⟨number, io₁⟩
    cases number with
    | none => rfl
    | some chunkLength =>
      have hlt₁ := getNumber_shrinks (by decide) hnumber
      dsimp only
      split
      · rfl
      · next hcrlf₁ =>
        have hle₁ := (matchFormatWith_consumes echo [CR, LF] [] io₁
          (.inl (Bool.not_eq_false _ ▸ hcrlf₁))).length_le
        split
        · rfl
        · have hle₂ := writeToTransfBufWithZeroLoop_length_le
            ((matchFormatWith echo [CR, LF] [] io₁).2.b.bytes.length + 1) chunkLength
            (matchFormatWith echo [CR, LF] [] io₁).2
          split
          · rfl
          · next hcrlf₂ =>
            have hle₃ := (matchFormatWith_consumes echo [CR, LF] [] _
              (.inl (Bool.not_eq_false _ ▸ hcrlf₂))).length_le
            split
            · -- Another chunk, behind the digit of this one at least.
              have hlt := Nat.lt_of_le_of_lt (Nat.le_trans hle₃ (Nat.le_trans hle₂ hle₁)) hlt₁
              exact ih _ _ _ (by omega) (by omega)
            · rfl

/-! ## Two calls on the same input -/

/-- The same bytes to read, and the same flag; what was written may differ. -/
structure Io.SameInput (io io' : Io) : Prop where
  b : io'.b = io.b
  isBufferEmpty : io'.isBufferEmpty = io.isBufferEmpty

/-- The same result on the same input. -/
def SameTurn {α : Type} (r r' : α × Io) : Prop := r'.1 = r.1 ∧ r.2.SameInput r'.2

section Utilities

variable {io io' : Io}

/-- Reading a byte keeps the inputs the same, written or not. -/
theorem sameInput_readByte (echo echo' : Bool) (h : io.SameInput io') :
    (readByte echo io).SameInput (readByte echo' io') := by
  obtain ⟨hb, hflag⟩ := h
  constructor
  · cases echo <;> cases echo' <;> exact congrArg (fun b => (bufferRead b).2) hb
  · cases echo <;> cases echo' <;> exact hflag

/-- Reading a byte of a chunk keeps the inputs the same. -/
theorem sameInput_readAndWriteWithZero (h : io.SameInput io') :
    (readAndWriteWithZero io).2.SameInput (readAndWriteWithZero io').2 := by
  obtain ⟨hb, hflag⟩ := h
  unfold readAndWriteWithZero
  rw [hb]
  dsimp only
  split
  · exact ⟨rfl, hflag⟩
  · exact ⟨rfl, rfl⟩

/-- The data of a chunk are gone through alike. The induction is on the fuel. -/
theorem sameTurn_writeToTransfBufWithZeroLoop (fuel : Nat) (quantity : Int) (h : io.SameInput io') :
    SameTurn (writeToTransfBufWithZeroLoop fuel quantity io)
      (writeToTransfBufWithZeroLoop fuel quantity io') := by
  induction fuel generalizing quantity io io' with
  | zero => exact ⟨rfl, h⟩
  | succ fuel ih =>
    have hread := sameInput_readAndWriteWithZero h
    rw [writeToTransfBufWithZeroLoop, writeToTransfBufWithZeroLoop]
    dsimp only
    rw [hread.isBufferEmpty]
    split
    · split
      · exact ⟨rfl, hread⟩
      · exact ih (quantity - 1) hread
    · exact ⟨rfl, h⟩

/-- The digits of a size are gone through alike. The induction is on the fuel. -/
theorem sameTurn_numberLoop (r : Radix) (echo echo' : Bool) (fuel : Nat) (currentNum : Int)
    (h : io.SameInput io') :
    SameTurn (numberLoop r echo fuel currentNum io) (numberLoop r echo' fuel currentNum io') := by
  induction fuel generalizing currentNum io io' with
  | zero => exact ⟨rfl, h⟩
  | succ fuel ih =>
    rw [numberLoop, numberLoop, h.b]
    split
    · exact ih _ (sameInput_readByte echo echo' h)
    · exact ⟨rfl, h⟩

/-- A size is read alike, or both run out and push back the same digits. -/
theorem sameTurn_getNumberWith (r : Radix) (echo echo' : Bool) (pre : List UInt8)
    (h : io.SameInput io') :
    SameTurn (getNumberWith r echo pre io) (getNumberWith r echo' pre io') := by
  unfold getNumberWith
  rw [h.b]
  dsimp only
  split
  · exact ⟨rfl, h⟩
  · obtain ⟨hnum, hloop⟩ := sameTurn_numberLoop r echo echo' io.b.bytes.length 0 h
    rw [hnum, hloop.b]
    split
    · exact ⟨rfl, ⟨rfl, rfl⟩⟩
    · exact ⟨rfl, hloop⟩

/-- A line end is compared alike. The induction is on the format. -/
theorem sameInput_matchFormatLoop (echo echo' : Bool) (format : List UInt8) (i : Nat) (c : UInt8)
    (h : io.SameInput io') :
    ∃ rest j d io₁ io₁', matchFormatLoop echo format i c io = (rest, j, d, io₁) ∧
      matchFormatLoop echo' format i c io' = (rest, j, d, io₁') ∧ io₁.SameInput io₁' := by
  induction format generalizing i c io io' with
  | nil => exact ⟨[], i, c, io, io', rfl, rfl, h⟩
  | cons f format ih =>
    rw [matchFormatLoop, matchFormatLoop, h.b]
    split
    · exact ⟨f :: format, i, peekUpChar io.b, io, io', rfl, rfl, h⟩
    · exact ih _ _ (sameInput_readByte echo echo' h)

/-- A line end is found, missed or waited for alike. -/
theorem sameTurn_matchFormatWith (echo echo' : Bool) (format pre : List UInt8)
    (h : io.SameInput io') :
    SameTurn (matchFormatWith echo format pre io) (matchFormatWith echo' format pre io') := by
  obtain ⟨rest, j, d, io₁, io₁', hloop, hloop', hsame⟩ :=
    sameInput_matchFormatLoop echo echo' format 0 0 h
  unfold matchFormatWith
  rw [hloop, hloop']
  dsimp only
  rw [hsame.b]
  split
  · exact ⟨rfl, ⟨rfl, rfl⟩⟩
  · exact ⟨rfl, hsame⟩

end Utilities

/-- The same return value, and the same count of what is missing, on the same input. -/
structure SameChunks (r r' : Bool × Int × Io) : Prop where
  success : r'.1 = r.1
  bodyLength : r'.2.1 = r.2.1
  input : r.2.2.SameInput r'.2.2

/-- The data of a chunk end or run out alike. -/
theorem sameChunks_writeToTransfBufWithZero (quantity : Int) {io io' : Io}
    (h : io.SameInput io') :
    SameChunks (writeToTransfBufWithZero quantity io) (writeToTransfBufWithZero quantity io') := by
  unfold writeToTransfBufWithZero
  rw [h.b]
  obtain ⟨hmissing, hinput⟩ :=
    sameTurn_writeToTransfBufWithZeroLoop (io.b.bytes.length + 1) quantity h
  exact ⟨congrArg (fun n : Int => decide (n ≤ 0)) hmissing, hmissing, hinput⟩

/-- The loop over the chunks goes alike. The induction is on the fuel. -/
theorem sameChunks_chunksLoop (echo echo' : Bool) (fuel : Nat) (bodyLength : Int) {io io' : Io}
    (h : io.SameInput io') :
    SameChunks (chunksLoop echo fuel bodyLength io) (chunksLoop echo' fuel bodyLength io') := by
  induction fuel generalizing bodyLength io io' with
  | zero =>
    rw [chunksLoop_zero, chunksLoop_zero]
    exact ⟨rfl, rfl, h⟩
  | succ fuel ih =>
    obtain ⟨hnumber, hio₁⟩ := sameTurn_getNumberWith .hex echo echo' [] h
    rw [chunksLoop_succ, chunksLoop_succ]
    revert hnumber hio₁
    rcases getNumberWith .hex echo [] io with ⟨number, io₁⟩
    rcases getNumberWith .hex echo' [] io' with ⟨number', io₁'⟩
    rintro ⟨⟩ hio₁
    cases number with
    | none => exact ⟨rfl, rfl, hio₁⟩
    | some chunkLength =>
      dsimp only at hio₁ ⊢
      obtain ⟨hcrlf, hio₂⟩ := sameTurn_matchFormatWith echo echo' [CR, LF] [] hio₁
      rw [hcrlf]
      split
      · refine ⟨rfl, rfl, ?_⟩
        dsimp only
        rw [hio₂.isBufferEmpty]
        split
        · exact ⟨congrArg (writeHexToBufReverse chunkLength) hio₂.b, rfl⟩
        · exact hio₂
      · obtain ⟨hall, hmissing, hio₃⟩ := sameChunks_writeToTransfBufWithZero chunkLength hio₂
        rw [hall, hmissing]
        split
        · exact ⟨rfl, rfl, by dsimp only; rw [hio₃.b], hio₃.isBufferEmpty⟩
        · obtain ⟨hcrlf', hio₄⟩ := sameTurn_matchFormatWith echo echo' [CR, LF] [] hio₃
          rw [hcrlf']
          split
          · exact ⟨rfl, rfl, by dsimp only; rw [hio₄.b], hio₄.isBufferEmpty⟩
          · split
            · exact ih _ hio₄
            · exact ⟨rfl, rfl, hio₄⟩

/-! ## Runs -/

/-- What two responses read in lockstep share: all but what was written. -/
structure ResState.SameInput (s s' : ResState) : Prop where
  rData : s'.rData = s.rData
  io : s.io.SameInput s'.io

/-- What can be seen of a call, but for what it wrote: the return value, the flag, the response data
and the input buffer with its pointers. -/
def decisions (r : Bool × ResState) : Bool × Bool × ResponseData × Buffer :=
  (r.1, r.2.io.isBufferEmpty, r.2.rData, r.2.io.b)

/-- The two functions decide alike, and leave the same input. -/
theorem extractChunked_lockstep {s s' : ResState} (h : s.SameInput s') :
    decisions (extractChunkedBodyTransf s') = decisions (extractChunkedBody s) ∧
      (extractChunkedBody s).2.SameInput (extractChunkedBodyTransf s').2 := by
  obtain ⟨hdata, hb, hflag⟩ := h
  have hinput : s.io.SameInput { s'.io with out := [] } := ⟨hb, hflag⟩
  have hcalls :=
    sameChunks_chunksLoop true false (s.io.b.bytes.length + 1) s.rData.bodyLength hinput
  obtain ⟨hok, hn, hb', hflag'⟩ := hcalls
  have hstate : (extractChunkedBody s).2.SameInput (extractChunkedBodyTransf s').2 := by
    unfold extractChunkedBody extractChunkedBodyTransf extractChunked
    rw [hdata, hb]
    exact ⟨congrArg (fun n => { s.rData with bodyLength := n }) hn, hb', hflag'⟩
  refine ⟨?_, hstate⟩
  have hsuccess : (extractChunkedBodyTransf s').1 = (extractChunkedBody s).1 := by
    unfold extractChunkedBody extractChunkedBodyTransf extractChunked
    rw [hdata, hb]
    exact hok
  rw [decisions, decisions, hsuccess, hstate.rData, hstate.io.b, hstate.io.isBufferEmpty]

/-- Bytes that arrive in front of a call; `checkResponseInner` takes the flag back when the call is
its first of the body. -/
structure Fragment where
  bytes : List UInt8
  restarts : Bool
deriving DecidableEq, Repr

def ResState.arrives (s : ResState) (f : Fragment) : ResState :=
  { s with io := { s.io with
    b := bufferWriteAll s.io.b f.bytes
    isBufferEmpty := if f.restarts then false else s.io.isBufferEmpty } }

/-- A call on what is there and one after each fragment, with what each of them leaves. -/
def chunkedCalls (extract : ResState → Bool × ResState) (s : ResState) :
    List Fragment → List (Bool × ResState)
  | [] => [extract s]
  | f :: fs => extract s :: chunkedCalls extract ((extract s).2.arrives f) fs

/-- A fragment arrives alike in front of both. -/
theorem sameInput_arrives {s s' : ResState} (h : s.SameInput s') (f : Fragment) :
    (s.arrives f).SameInput (s'.arrives f) := by
  obtain ⟨hdata, hb, hflag⟩ := h
  refine ⟨hdata, ?_, ?_⟩
  · exact congrArg (bufferWriteAll · f.bytes) hb
  · exact congrArg (fun e => if f.restarts then false else e) hflag

/-- Over any fragments the two functions decide alike. The induction is on the fragments. -/
theorem chunkedCalls_lockstep {s s' : ResState} (h : s.SameInput s') (fs : List Fragment) :
    (chunkedCalls extractChunkedBodyTransf s' fs).map decisions =
      (chunkedCalls extractChunkedBody s fs).map decisions := by
  induction fs generalizing s s' with
  | nil => exact congrArg (fun d => [d]) (extractChunked_lockstep h).1
  | cons f fs ih =>
    obtain ⟨hseen, hstate⟩ := extractChunked_lockstep h
    rw [chunkedCalls, chunkedCalls, List.map_cons, List.map_cons, hseen,
      ih (sameInput_arrives hstate f)]

/-- From the same response data and the same input, the two functions return the same, leave the same
flag and response data, and the same input with the same pointers, at every call and whatever
arrives between the calls. -/
theorem chunkParsers_agree (rd : ResponseData) (b : Buffer) (isBufferEmpty : Bool)
    (out out' transf transf' : List UInt8) (fs : List Fragment) :
    (chunkedCalls extractChunkedBody ⟨rd, ⟨b, out, isBufferEmpty⟩, transf⟩ fs).map decisions =
      (chunkedCalls extractChunkedBodyTransf ⟨rd, ⟨b, out', isBufferEmpty⟩, transf'⟩ fs).map
        decisions := by
  symm
  apply chunkedCalls_lockstep
  exact ⟨rfl, rfl, rfl⟩

end HttpProxy
