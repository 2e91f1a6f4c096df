import HttpProxy.Library.Loop
import HttpProxy.MyParserUtils

/-!
# The response parser

`responseParser.c`: a state machine that passes a response on, drops the headers it replaces, and
knows from the others where the body ends. A body that is to be transformed goes to a buffer of its
own, without its chunk framing.

The parser works on `ResState`: the response data, the input with what was written to the output
buffer (`io`) and what was written to the transformation's buffer (`transf`).

Every pass of the loop of `checkResponseInner` that goes on reads a byte or comes from one that
did; `responseFuel` counts the passes that allows.
-/

namespace HttpProxy

inductive ResponseParserState
  | RES_SPACE_TRANSITION
  | RES_VERSION
  | STATUS
  | RES_HEADERS
  | LENGTH_CHECK
  | ENCODING_CHECK
  | CHUNKED_CHECK
  | CONNECTION_CHECK
  | TYPE_CHECK
  | BODY_NORMAL
  | BODY_TRANSFORMATION
  | RES_FINISHED
deriving DecidableEq, Repr

inductive ContentEncoding
  | IDENTITY
  | GZIP
deriving DecidableEq, Repr

inductive ResponseErr
  | RES_OK
  | RES_GENERAL_ERROR
  | START_LINE_FORMAT_ERROR
  | RES_VERSION_ERROR
  | STATUS_ERROR
  | HEADERS_END_ERROR
  | CHUNKS_ERROR
  | RES_ALLOCATION_ERROR
deriving DecidableEq, Repr

abbrev NO_BODY_LENGTH : Int := -1

/-- What the parser knows of the response, without its control state. -/
structure ResponseFields where
  state : ResponseErr := .RES_OK
  version : HttpVersion := .undefined
  status : Int := 0
  isClose : Bool := false
  /-- In a chunked body, what is missing of the chunk. -/
  bodyLength : Int := NO_BODY_LENGTH
  cEncoding : ContentEncoding := .IDENTITY
  isChunked : Bool := false
  withTransf : Bool := false
deriving DecidableEq, Repr

structure ResponseData extends ResponseFields where
  parserState : ResponseParserState := .RES_VERSION
  /-- `defaultResponseStruct` leaves it unset, and `RES_VERSION` sets it before it is read. -/
  next : ResponseParserState := .RES_VERSION
deriving DecidableEq, Repr

def defaultResponseStruct : ResponseData := {}

structure ResState where
  rData : ResponseData
  io : Io
  /-- The bytes written to the transformation's buffer so far. -/
  transf : List UInt8 := []
deriving DecidableEq, Repr

namespace ResState

def goto (s : ResState) (p : ResponseParserState) : ResState :=
  { s with rData := { s.rData with parserState := p } }

def setNext (s : ResState) (p : ResponseParserState) : ResState :=
  { s with rData := { s.rData with next := p } }

def setEmpty (s : ResState) : ResState := { s with io := { s.io with isBufferEmpty := true } }

end ResState

def checkResSpaces (s : ResState) : Bool × ResState :=
  let r := moveThroughSpaces s.io.b
  let s := { s with io := { s.io with b := r.2 } }
  if r.1 = 0 then (false, s.setEmpty)
  else (true, { s with io := writeToBuf [SP] s.io })

/-! ## Start line -/

def extractResVersion (s : ResState) : Bool × ResState :=
  let (ok, io) := matchFormat (lit "HTTP/1.") [] s.io
  let s := { s with io := io }
  if ok then
    let (c, io) := readAndWrite s.io
    let s := { s with io := io }
    if c ≠ 0 then
      let version :=
        if c = 0x30 then .v1_0 else if c = 0x31 then .v1_1 else s.rData.version
      (version ≠ .undefined, { s with rData := { s.rData with version := version } })
    else
      (false, { s with io := { s.io with
        b := writePrefix s.io.b (lit "HTTP/1."), isBufferEmpty := true } })
  else if s.io.isBufferEmpty then (false, s)
  else (s.rData.version ≠ .undefined, s)

def extractStatus (s : ResState) : Bool × ResState :=
  match getNumber [] s.io with
  | (some status, io) => (true, { s with io := io, rData := { s.rData with status := status } })
  | (none, io) => (false, { s with io := io })

/-! ## Headers

A pass of the loop of `checkHeaders` either goes on or leaves it. `some next` stands for a `break`
with `next` set; when the input ran out `next` is still `RES_HEADERS`. -/

/-- The rest of a name whose start `pre` was read. -/
def checkName (format pre : List UInt8) (next : ResponseParserState) (io : Io) :
    Option ResponseParserState × Io :=
  let (ok, io) := matchFormat format pre io
  (if ok then some next else if io.isBufferEmpty then some .RES_HEADERS else none, io)

/-- After `CONTENT-`. -/
def checkContent (io : Io) : Option ResponseParserState × Io :=
  let (c, io) := readAndWrite io
  let aux := toupper c
  if aux = 0x4c then checkName (lit "ENGTH:") (lit "CONTENT-L") .LENGTH_CHECK io
  else if aux = 0x45 then checkName (lit "NCODING:") (lit "CONTENT-E") .ENCODING_CHECK io
  else if aux = 0x54 then checkName (lit "YPE:") (lit "CONTENT-T") .TYPE_CHECK io
  else if aux = 0 then
    (some .RES_HEADERS, { io with b := writePrefix io.b (lit "CONTENT-"), isBufferEmpty := true })
  else (none, io)

/-- After a `C`. -/
def checkCon (io : Io) : Option ResponseParserState × Io :=
  let (ok, io) := matchFormat (lit "ON") (lit "C") io
  if ok then
    let (ok, io) := matchFormat (lit "TENT-") (lit "CON") io
    if ok then checkContent io
    -- Also tried when the input ran out in `TENT-`, on what was pushed back.
    else checkName (lit "NECTION:") (lit "CON") .CONNECTION_CHECK io
  else (if io.isBufferEmpty then some .RES_HEADERS else none, io)

/-- What is written in front of the empty line that ends the headers, and that line. -/
def headersEnd (d : ResponseFields) : List UInt8 :=
  (if !d.isChunked && d.withTransf then lit "Transfer-Encoding: chunked\r\n" else []) ++
    (if !d.isClose then lit "Connection: close\r\n" else []) ++ [CR, LF]

/-- After a CR. -/
def checkResHeadersEnd (d : ResponseFields) (io : Io) : Option ResponseParserState × Io :=
  let (lf, io) := checkLF [CR] io
  if lf then
    let aux := bufferPeek io.b
    if aux = CR then
      let io := { io with b := (bufferRead io.b).2 }
      let aux := bufferPeek io.b
      if aux = LF then
        (some .RES_FINISHED, writeToBuf (headersEnd d) { io with b := (bufferRead io.b).2 })
      else if aux = 0 then
        (some .RES_HEADERS, { io with b := writePrefix io.b [CR, LF, CR], isBufferEmpty := true })
      else (none, io)
    else if aux = 0 then
      (some .RES_HEADERS, { io with b := writePrefix io.b [CR, LF], isBufferEmpty := true })
    else (none, io)
  else (if io.isBufferEmpty then some .RES_HEADERS else none, io)

/-- The body of the loop, on the byte `c` read in capitals. -/
def checkHeadersPass (d : ResponseFields) (c : UInt8) (io : Io) : Option ResponseParserState × Io :=
  if c = 0x43 then checkCon io
  else if c = 0x54 then checkName (lit "RANSFER-ENCODING:") (lit "T") .CHUNKED_CHECK io
  else if c = CR then checkResHeadersEnd d io
  else (none, io)

def checkHeadersLoop (d : ResponseFields) : Nat → Io → ResponseParserState × Io
  | 0, io => (.RES_HEADERS, io)
  | fuel + 1, io =>
    let (c, io) := readAndWrite io
    let c := toupper c
    if c = 0 then (.RES_HEADERS, io)
    else
      match checkHeadersPass d c io with
      | (some next, io) => (next, io)
      | (none, io) => checkHeadersLoop d fuel io

def checkHeaders (s : ResState) : Bool × ResState :=
  let (next, io) :=
    checkHeadersLoop s.rData.toResponseFields (s.io.b.bytes.length + 1) s.io
  let s := { s with io := io }.setNext next
  if next = .RES_HEADERS then (false, s.setEmpty) else (true, s)

def checkLength (s : ResState) : Bool × ResState :=
  match getNumber [] s.io with
  | (some n, io) => (true, { s with io := io, rData := { s.rData with bodyLength := n } })
  | (none, io) => (false, { s with io := io })

def checkEncoding (s : ResState) : Bool × ResState :=
  let (ok, io) := matchFormat (lit "GZIP") [] s.io
  let s := { s with io := io }
  if ok then (true, { s with rData := { s.rData with cEncoding := .GZIP } }) else (false, s)

def checkChunked (s : ResState) : Bool × ResState :=
  let (ok, io) := matchFormat (lit "CHUNKED") [] s.io
  let s := { s with io := io }
  if ok then (true, { s with rData := { s.rData with isChunked := true } }) else (false, s)

def checkConnectionLoop : Nat → Buffer → UInt8 × Buffer
  | 0, b => (bufferPeek b, b)
  | fuel + 1, b =>
    let c := bufferPeek b
    if c ≠ 0 ∧ c ≠ CR then checkConnectionLoop fuel (bufferRead b).2 else (c, b)

def checkConnection (s : ResState) : Bool × ResState :=
  let (c, b) := checkConnectionLoop s.io.b.bytes.length s.io.b
  let s := { s with io := { s.io with b := b } }
  if c = 0 then (false, s.setEmpty)
  else
    (true,
      { s with
        io := writeToBuf (lit "close") s.io
        rData := { s.rData with isClose := true } })

def checkType (s : ResState) : Bool × ResState := (true, s)

/-! ## Body

`extractBody` and `extractBodyTransf` differ in where the data goes and in whether the framing of
the chunks is passed on with it. -/

/-- The loop over the chunks; what is missing of the chunk goes to `bodyLength`. Its two copies call other
functions for the size of a chunk and for the ends of its lines. -/
def chunksLoopWith (getHexNumber : List UInt8 → Io → Option Int × Io)
    (checkCRLF : List UInt8 → Io → Bool × Io) : Nat → Int → Io → Bool × Int × Io
  | 0, bodyLength, io => (false, bodyLength, io)
  | fuel + 1, bodyLength, io =>
    match getHexNumber [] io with
    | (none, io) => (false, bodyLength, io)
    | (some chunkLength, io) =>
      let (ok, io) := checkCRLF [] io
      if ok = false then
        (false, chunkLength,
          if io.isBufferEmpty then { io with b := writeHexToBufReverse chunkLength io.b } else io)
      else
        let (all, missing, io) := writeToTransfBufWithZero chunkLength io
        if all = false then
          -- What is missing goes back as the length of a chunk.
          (false, missing,
            { io with b := writeHexToBufReverse missing (writePrefix io.b [CR, LF]) })
        else
          let (ok, io) := checkCRLF [] io
          if ok = false then
            -- A chunk of one byte, all of it read, stands for the one whose end is missing.
            (false, missing,
              { io with b := writePrefix io.b (if chunkLength > 0 then lit "1\r\n1" else lit "0\r\n") })
          else if chunkLength > 0 then chunksLoopWith getHexNumber checkCRLF fuel missing io
          else (true, missing, io)

/-- The loop of `extractChunkedBody`, and that of `extractChunkedBodyTransf`. -/
def chunksLoop (echo : Bool) : Nat → Int → Io → Bool × Int × Io :=
  if echo then chunksLoopWith getHexNumber checkCRLF
  else chunksLoopWith simpleGetHexNumber simpleCheckCRLF

/-- Both loops in terms of the functions that the pairs have in common. -/
theorem chunksLoop_eq (echo : Bool) :
    chunksLoop echo = chunksLoopWith (getNumberWith .hex echo) (matchFormatWith echo [CR, LF]) := by
  cases echo <;> rfl

theorem chunksLoop_zero (echo : Bool) (bodyLength : Int) (io : Io) :
    chunksLoop echo 0 bodyLength io = (false, bodyLength, io) := by
  rw [chunksLoop_eq, chunksLoopWith]

/-- A pass of either loop. -/
theorem chunksLoop_succ (echo : Bool) (fuel : Nat) (bodyLength : Int) (io : Io) :
    chunksLoop echo (fuel + 1) bodyLength io =
    match getNumberWith .hex echo [] io with
    | (none, io) => (false, bodyLength, io)
    | (some chunkLength, io) =>
      let (ok, io) := matchFormatWith echo [CR, LF] [] io
      if ok = false then
        (false, chunkLength,
          if io.isBufferEmpty then { io with b := writeHexToBufReverse chunkLength io.b } else io)
      else
        let (all, missing, io) := writeToTransfBufWithZero chunkLength io
        if all = false then
          (false, missing,
            { io with b := writeHexToBufReverse missing (writePrefix io.b [CR, LF]) })
        else
          let (ok, io) := matchFormatWith echo [CR, LF] [] io
          if ok = false then
            (false, missing,
              { io with b := writePrefix io.b (if chunkLength > 0 then lit "1\r\n1" else lit "0\r\n") })
          else if chunkLength > 0 then chunksLoop echo fuel missing io
          else (true, missing, io) := by
  rw [chunksLoop_eq, chunksLoopWith]

/-- `extractChunkedBody` and `extractChunkedBodyTransf`. -/
def extractChunked (echo : Bool) (bodyLength : Int) (io : Io) : Bool × Int × Io :=
  chunksLoop echo (io.b.bytes.length + 1) bodyLength io

/-- A body that the end of the connection ends. -/
def readAll : Nat → Io → Io
  | 0, io => io
  | fuel + 1, io => if bufferCanRead io.b then readAll fuel (readAndWriteWithZero io).2 else io

/-- A body passed on by `io.out`, whichever way its end is known. -/
def extractBodyWith (echo : Bool) (d : ResponseFields) (io : Io) : Bool × Int × Io :=
  if d.isChunked then extractChunked echo d.bodyLength io
  else if d.bodyLength ≥ 0 then writeToTransfBufWithZero d.bodyLength io
  else (false, d.bodyLength, readAll io.b.bytes.length io)

def ResState.setBodyLength (s : ResState) (n : Int) : ResState :=
  { s with rData := { s.rData with bodyLength := n } }

def extractBody (s : ResState) : Bool × ResState :=
  if s.rData.isChunked = false ∧ s.rData.bodyLength < 0 ∧ s.rData.status ≠ 200 then
    (false, s.setEmpty.goto .RES_FINISHED)
  else
    let (ok, n, io) := extractBodyWith true s.rData.toResponseFields s.io
    (ok, { s with io := io }.setBodyLength n)

def extractBodyTransf (s : ResState) : Bool × ResState :=
  let (ok, n, io) := extractBodyWith false s.rData.toResponseFields { s.io with out := [] }
  (ok, { s with io := { io with out := s.io.out }, transf := s.transf ++ io.out }.setBodyLength n)

/-! ## The loop -/

/-- The two flags the loop of `checkResponseInner` runs on. -/
structure ResFlags where
  success : Bool := true
  active : Bool := true
deriving DecidableEq, Repr

/-- A case that goes on with `next` when what it checks is there. -/
def checkResCase (r : Bool × ResState) (next : ResState → ResState) : ResFlags × ResState :=
  if r.1 = false then ({ success := false }, r.2) else ({}, next r.2)

/-- The cases of the header values: only running out of input stops them. -/
def valueCase (r : Bool × ResState) : ResFlags × ResState :=
  if r.1 = false ∧ r.2.io.isBufferEmpty = true then ({ success := false }, r.2)
  else ({}, r.2.goto .RES_HEADERS)

/-- Where the parser goes on when `checkHeaders` found something. -/
def afterHeaders (s : ResState) : ResState :=
  if s.rData.next = .RES_FINISHED then
    s.goto (if s.rData.withTransf then .BODY_TRANSFORMATION else .BODY_NORMAL)
  else s.goto .RES_SPACE_TRANSITION

/-- One iteration of the loop of `checkResponseInner`. -/
def resIteration (s : ResState) : ResFlags × ResState :=
  match s.rData.parserState with
  | .RES_SPACE_TRANSITION => checkResCase (checkResSpaces s) fun s => s.goto s.rData.next
  | .RES_VERSION =>
    checkResCase (extractResVersion s) fun s => (s.goto .RES_SPACE_TRANSITION).setNext .STATUS
  | .STATUS => checkResCase (extractStatus s) (·.goto .RES_HEADERS)
  | .RES_HEADERS => checkResCase (checkHeaders s) afterHeaders
  | .LENGTH_CHECK => valueCase (checkLength s)
  | .ENCODING_CHECK => valueCase (checkEncoding s)
  | .CHUNKED_CHECK => valueCase (checkChunked s)
  | .CONNECTION_CHECK => valueCase (checkConnection s)
  | .TYPE_CHECK => valueCase (checkType s)
  | .BODY_NORMAL => checkResCase (extractBody s) (·.goto .RES_FINISHED)
  | .BODY_TRANSFORMATION => checkResCase (extractBodyTransf s) (·.goto .RES_FINISHED)
  | .RES_FINISHED => ({ active := false }, s)

def resLoopBody (s : ResState) : ResState ⊕ (Bool × ResState) :=
  let (f, s) := resIteration s
  if f.success && f.active then .inl s else .inr (f.success, s)

/-- `while (success && active)`, of at most `fuel` iterations. -/
def responseLoop (fuel : Nat) (s : ResState) : Option (Bool × ResState) :=
  Loop.run resLoopBody fuel s

/-- The error reported for a loop that failed in a parser state with input left. -/
def resErrorOf (s : ResState) : ResponseErr :=
  match s.rData.parserState with
  | .RES_VERSION => .RES_VERSION_ERROR
  | .STATUS => .STATUS_ERROR
  | .BODY_NORMAL | .BODY_TRANSFORMATION =>
    if s.rData.isChunked then .CHUNKS_ERROR else s.rData.state
  | .RES_SPACE_TRANSITION | .RES_HEADERS | .LENGTH_CHECK | .ENCODING_CHECK | .CHUNKED_CHECK
  | .CONNECTION_CHECK | .TYPE_CHECK | .RES_FINISHED => s.rData.state

def reportResError (r : Bool × ResState) : Bool × ResState :=
  if r.1 = false ∧ r.2.io.isBufferEmpty = false then
    (r.1, { r.2 with rData := { r.2.rData with state := resErrorOf r.2 } })
  else r

/-- What one call of `checkResponse` leaves. -/
structure ResponseResult where
  success : Bool
  rData : ResponseData
  bIn : Buffer
  bOut : Buffer
  bTransf : Buffer
  isBufferEmpty : Bool
deriving DecidableEq, Repr

/-- More iterations than a call makes on `b`. -/
def responseFuel (b : Buffer) : Nat := 3 * b.bytes.length + 14

/-- The state the loop of a call of `checkResponse` starts in. -/
def resCallStart (rd : ResponseData) (bIn : Buffer) : ResState where
  rData := rd
  io := { b := bIn, out := [], isBufferEmpty := false }

def checkResponseInner (rd : ResponseData) (bIn : Buffer) : Option (Bool × ResState) :=
  (responseLoop (responseFuel bIn) (resCallStart rd bIn)).map reportResError

/-- `checkResponse`; `none` would be a call that does not return. -/
def checkResponse (rd : ResponseData) (bIn bOut bTransf : Buffer) : Option ResponseResult :=
  (checkResponseInner rd bIn).map fun r =>
    { success := r.1
      rData := r.2.rData
      bIn := r.2.io.b
      bOut := bufferWriteAll bOut r.2.io.out
      bTransf := bufferWriteAll bTransf r.2.transf
      isBufferEmpty := r.2.io.isBufferEmpty }

end HttpProxy
