import HttpProxy.Library.Loop
import HttpProxy.MyParserUtils

/-!
# The request parser

`requestParser.c`: a state machine that reads a request head from the input buffer, passes it on to
the output buffer, and calls `hostCallback` when it knows the origin's host and port.

The parser works on `ReqState`: the request data, the buffers and the list of the calls made to
`hostCallback`. `isBufferEmpty` is the field the parser sets both itself and through the utilities'
`bEmpty` pointer, so it lives in `Io`.

The loop of `checkRequestInner` can run for ever. `requestLoop` takes the number of iterations it
is allowed as fuel and returns `none` when they do not suffice; `requestFuel` is a number that
suffices whenever any does (`checkRequest_isSome_iff`).
-/

namespace HttpProxy

/-- RFC 1123. -/
abbrev HOST_MAX_SIZE : Nat := 255

theorem host_max_size_pos : 0 < HOST_MAX_SIZE := by decide

abbrev DEFAULT_PORT : Int := 80

inductive RequestParserState
  | SPACE_TRANSITION
  | METHOD
  | URI
  | RELATIVE_URI
  | URI_HOST
  | VERSION
  | START_LINE_END
  | LOCALHOST_HEADER_CHECK
  | HEADERS
  | HOST
  | FINISHED
deriving DecidableEq, Repr

inductive HttpMethod
  | UNDEFINED_M
  | GET
  | HEAD
  | POST
  | PUT
  | DELETE
  | CONNECT
  | OPTIONS
  | TRACE
deriving DecidableEq, Repr

inductive RequestErr
  | OK
  | GENERAL_ERROR
  | VERSION_ERROR
  | START_LINE_END_ERROR
  | GENERAL_METHOD_ERROR
  | UNSUPPORTED_METHOD_ERROR
  | HOST_ERROR
  | ALLOCATION_ERROR
deriving DecidableEq, Repr

/-- What the parser knows of the request, without its control state. -/
structure RequestFields where
  state : RequestErr := .OK
  version : HttpVersion := .undefined
  method : HttpMethod := .UNDEFINED_M
  host : Vector UInt8 HOST_MAX_SIZE := Vector.replicate HOST_MAX_SIZE 0
  port : Int := DEFAULT_PORT
  isLocalHost : Bool := false
deriving DecidableEq, Repr

structure RequestData extends RequestFields where
  parserState : RequestParserState := .METHOD
  /-- Used by the transition over spaces; `defaultRequestStruct` leaves it unset, and `METHOD`
  sets it before it is read. -/
  next : RequestParserState := .METHOD
deriving DecidableEq, Repr

def defaultRequestStruct : RequestData := {}

structure ReqState where
  rData : RequestData
  io : Io
  /-- The host and port of each call made to `hostCallback`, oldest first. -/
  calls : List (List UInt8 × Int) := []
deriving DecidableEq, Repr

/-- The string at the start of the host array. -/
def cString (host : Vector UInt8 HOST_MAX_SIZE) : List UInt8 := host.toList.takeWhile (· != 0)

/-- `rData->hostCallback(rData->host, rData->port, rData->callbackData)`. -/
def hostCallback (s : ReqState) : ReqState :=
  { s with calls := s.calls ++ [(cString s.rData.host, s.rData.port)] }

def ReqState.goto (s : ReqState) (p : RequestParserState) : ReqState :=
  { s with rData := { s.rData with parserState := p } }

def ReqState.gotoSpaces (s : ReqState) (next : RequestParserState) : ReqState :=
  { s with rData := { s.rData with parserState := .SPACE_TRANSITION, next := next } }

def ReqState.setEmpty (s : ReqState) : ReqState :=
  { s with io := { s.io with isBufferEmpty := true } }

def checkSpaces (s : ReqState) : Bool × ReqState :=
  let r := moveThroughSpaces s.io.b
  let s := { s with io := { s.io with b := r.2 } }
  if r.1 = 0 then (false, s.setEmpty)
  else (true, { s with io := writeToBuf [SP] s.io })

/-! ## Start line -/

def methodOption : List (List UInt8 × HttpMethod) :=
  [(lit "CONNECT", .CONNECT), (lit "DELETE", .DELETE), (lit "GET", .GET), (lit "HEAD", .HEAD),
    (lit "OPTIONS", .OPTIONS), (lit "POST", .POST), (lit "PUT", .PUT), (lit "TRACE", .TRACE)]

def extractHttpMethodLoop (c : UInt8) :
    List (List UInt8 × HttpMethod) → HttpMethod → Io → HttpMethod × Io
  | [], method, io => (method, io)
  | (name, type) :: rest, method, io =>
    if name.headD 0 = c then
      let (ok, io) := matchFormat name.tail [c] io
      if ok then (type, io)
      else if io.isBufferEmpty then (method, io)
      else extractHttpMethodLoop c rest method io
    else extractHttpMethodLoop c rest method io

def isSupported (m : HttpMethod) : Bool := m = .GET || m = .HEAD || m = .POST

def extractHttpMethod (s : ReqState) : Bool × ReqState :=
  let r := readAndWrite s.io
  let c := toupper r.1
  let s := { s with io := r.2 }
  if c = 0 then (false, s.setEmpty)
  else
    let (method, io) := extractHttpMethodLoop c methodOption s.rData.method s.io
    (isSupported method, { s with io := io, rData := { s.rData with method := method } })

def cleanRelativeUriLoop : Nat → Io → UInt8 × Io
  | 0, io => (bufferPeek io.b, io)
  | fuel + 1, io =>
    let c := bufferPeek io.b
    if c ≠ 0 ∧ isBlank c = false then cleanRelativeUriLoop fuel (readAndWrite io).2 else (c, io)

def cleanRelativeUri (s : ReqState) : Bool × ReqState :=
  let (c, io) := cleanRelativeUriLoop s.io.b.bytes.length s.io
  let s := { s with io := io }
  if c = 0 then (false, s.setEmpty) else (true, s)

def isHostChar (c : UInt8) : Bool :=
  (0x61 ≤ c && c ≤ 0x7a) || (0x30 ≤ c && c ≤ 0x39) || c == 0x2d || c == 0x2e

/-- The state of the loops that copy a host: the index, the last character peeked and the host. -/
structure HostLoop where
  i : Nat
  c : UInt8
  host : Vector UInt8 HOST_MAX_SIZE
  io : Io
deriving DecidableEq, Repr

/-- The loop of `checkUriForHost` and, without user information, that of `extractHost`. -/
def hostLoop (userinfo : Bool) : Nat → HostLoop → HostLoop
  | 0, t => t
  | fuel + 1, t =>
    if h : t.i < HOST_MAX_SIZE then
      let c := peekDownChar t.io.b
      if c = 0 then { t with c := c }
      else if isHostChar c then
        hostLoop userinfo fuel ⟨t.i + 1, c, t.host.set t.i c h, (readAndWrite t.io).2⟩
      else if userinfo ∧ c = 0x40 then
        -- What was copied so far was the user information.
        hostLoop userinfo fuel ⟨0, c, t.host.set 0 0, (readAndWrite t.io).2⟩
      else { t with c := c }
    else t

/-- What the loop leaves, in the parser's state. -/
def ReqState.withHost (s : ReqState) (t : HostLoop) : ReqState :=
  { s with io := t.io, rData := { s.rData with host := t.host } }

@[simp] theorem ReqState.io_withHost (s : ReqState) (t : HostLoop) : (s.withHost t).io = t.io := rfl

/-- The port after a host that `c` ended; whether what follows a `:` is one. -/
def readPort (c : UInt8) (s : ReqState) : Bool × ReqState :=
  if c = 0x3a then
    match getNumber (lit ":") (readAndWrite s.io).2 with
    | (some port, io) => (true, { s with io := io, rData := { s.rData with port := port } })
    | (none, io) => (false, { s with io := io })
  else (true, s)

/-- What `checkUriForHost` and `extractHost` have in common: the host and, after a `:`, the port.
The result is `none` when the input ran out, and else the length of the host and whether the port
was valid. -/
def readHost (userinfo : Bool) (s : ReqState) : Option (Nat × Bool) × ReqState :=
  let t := hostLoop userinfo (s.io.b.bytes.length + 1) ⟨0, 0, s.rData.host, s.io⟩
  let (validHost, s) := readPort t.c (s.withHost t)
  if t.c = 0 ∨ (validHost = false ∧ s.io.isBufferEmpty = true) then
    (none,
      { s with
        io := { s.io with
          b := writeToBufReverse s.rData.host.toList s.io.b t.i
          isBufferEmpty := true } })
  else (some (t.i, validHost), s)

def checkUriForHost (s : ReqState) : Bool × ReqState :=
  match readHost true s with
  | (none, s) => (false, s)
  | (some (i, validHost), s) => (i < HOST_MAX_SIZE && validHost, s)

/-- The end of `checkUri`: what follows is passed over as a relative URI. -/
def checkUriRelative (s : ReqState) : Bool × ReqState :=
  (false, (cleanRelativeUri (s.goto .RELATIVE_URI)).2)

def checkUri (s : ReqState) : Bool × ReqState :=
  let (http, io) := matchFormat (lit "HTTP") [] s.io
  let s := { s with io := io }
  if http then
    let (sep, io) := matchFormat (lit "://") (lit "HTTP") s.io
    let s := { s with io := io }
    if sep then
      let (ok, s) := checkUriForHost (s.goto .URI_HOST)
      if ok then (true, s)
      else if s.io.isBufferEmpty then (false, s)
      else checkUriRelative s
    else if s.io.isBufferEmpty then (false, s)
    else checkUriRelative s
  else if s.io.isBufferEmpty then (false, s)
  else checkUriRelative s

def extractHttpVersion (s : ReqState) : Bool × ReqState :=
  let (ok, io) := matchFormat (lit "HTTP/1.") [] s.io
  let s := { s with io := io }
  if ok then
    let (c, io) := readAndWrite s.io
    let s := { s with io := io }
    if c ≠ 0 then
      let version :=
        if c = 0x30 then .v1_0 else if c = 0x31 then .v1_1 else s.rData.version
      (version ≠ .undefined, { s with rData := { s.rData with version := version } })
    else
      (false, { s with io := { s.io with
        b := writePrefix s.io.b (lit "HTTP/1."), isBufferEmpty := true } })
  else if s.io.isBufferEmpty then (false, s)
  else (s.rData.version ≠ .undefined, s)

def checkStartLineEnd (s : ReqState) : Bool × ReqState :=
  let (ok, io) := checkCRLF [] s.io
  (ok, { s with io := io })

/-! ## Headers -/

def checkLocalHost (s : ReqState) : Bool × ReqState :=
  let c := peekUpChar s.io.b
  if c = 0 then (false, s.setEmpty)
  else if c ≠ 0x58 then
    -- No header was put here by an earlier pass through the proxy.
    (s.rData.isLocalHost, { s with io := writeToBuf (lit "X-LOCALHOST: TRUE\r\n") s.io })
  else
    let (ok, io) := matchFormat (lit "X-LOCALHOST:") [] s.io
    let s := { s with io := io }
    if ok then (true, { s with rData := { s.rData with isLocalHost := true } })
    else if s.io.isBufferEmpty then (false, s)
    else (s.rData.isLocalHost, s)

/-- How the loop of `checkHostHeader` ends. -/
inductive HostHeaderEnd
  | hostHeader
  | headersEnd
  | bufferEmpty
deriving DecidableEq, Repr

/-- `checkLF(…, "\r", …) && checkCRLF(…, "\r\n", …)`. -/
def checkHeadersEnd (io : Io) : Bool × Io :=
  let (lf, io) := checkLF [CR] io
  if lf then checkCRLF [CR, LF] io else (false, io)

def checkHostHeaderLoop : Nat → Io → HostHeaderEnd × Io
  | 0, io => (.bufferEmpty, io)
  | fuel + 1, io =>
    let (c, io) := readAndWrite io
    let c := toupper c
    if c = 0 then (.bufferEmpty, io)
    else if c = 0x48 then
      let (ok, io) := matchFormat (lit "OST:") (lit "H") io
      if ok then (.hostHeader, io)
      else if io.isBufferEmpty then (.bufferEmpty, io)
      else checkHostHeaderLoop fuel io
    else if c = CR then
      let (ok, io) := checkHeadersEnd io
      if ok then (.headersEnd, io)
      else if io.isBufferEmpty then (.bufferEmpty, io)
      else checkHostHeaderLoop fuel io
    else checkHostHeaderLoop fuel io

def checkHostHeader (s : ReqState) : Bool × ReqState :=
  let (fin, io) := checkHostHeaderLoop (s.io.b.bytes.length + 1) s.io
  let s := { s with io := io }
  match fin with
  | .hostHeader => (true, s)
  | .headersEnd => (false, s)
  | .bufferEmpty => (false, s.setEmpty)

def extractHost (s : ReqState) : Bool × ReqState :=
  match readHost false s with
  | (none, s) => (false, s)
  | (some (i, validHost), s) =>
    let c := bufferPeek s.io.b
    (i < HOST_MAX_SIZE && validHost && (isBlank c || c == CR), s)

/-! ## The loop -/

/-- The two flags the loop of `checkRequestInner` runs on. -/
structure LoopFlags where
  success : Bool := true
  active : Bool := true
deriving DecidableEq, Repr

/-- A case of the loop that goes on with `next` when what it checks is there. -/
def checkCase (r : Bool × ReqState) (next : ReqState → ReqState) : LoopFlags × ReqState :=
  if r.1 = false then ({ success := false }, r.2) else ({}, next r.2)

/-- The `URI`, `URI_HOST` and `HOST` cases of the loop: they differ in what is done when no host
was found and none was copied. -/
def hostCase (r : Bool × ReqState) (otherwise : ReqState → ReqState) : LoopFlags × ReqState :=
  if r.1 = false ∧ (r.2.rData.host[0] ≠ 0 ∨ r.2.io.isBufferEmpty = true) then
    ({ success := false }, r.2)
  else if r.1 then ({}, (hostCallback r.2).goto .FINISHED)
  else ({}, otherwise r.2)

/-- The `LOCALHOST_HEADER_CHECK` case. -/
def localHostCase (r : Bool × ReqState) : LoopFlags × ReqState :=
  if r.1 then ({}, (hostCallback r.2).goto .FINISHED)
  else if r.2.io.isBufferEmpty then ({ success := false }, r.2)
  else ({}, r.2.goto .HEADERS)

/-- One iteration of the loop of `checkRequestInner`. -/
def iteration (s : ReqState) : LoopFlags × ReqState :=
  match s.rData.parserState with
  | .SPACE_TRANSITION => checkCase (checkSpaces s) fun s => s.goto s.rData.next
  | .METHOD => checkCase (extractHttpMethod s) (·.gotoSpaces .URI)
  | .URI => hostCase (checkUri s) (·.gotoSpaces .VERSION)
  | .URI_HOST => hostCase (checkUriForHost s) (·.gotoSpaces .VERSION)
  | .RELATIVE_URI => checkCase (cleanRelativeUri s) (·.gotoSpaces .VERSION)
  | .VERSION => checkCase (extractHttpVersion s) (·.goto .START_LINE_END)
  | .START_LINE_END => checkCase (checkStartLineEnd s) (·.goto .LOCALHOST_HEADER_CHECK)
  | .LOCALHOST_HEADER_CHECK => localHostCase (checkLocalHost s)
  | .HEADERS => checkCase (checkHostHeader s) (·.gotoSpaces .HOST)
  | .HOST => hostCase (extractHost s) id
  | .FINISHED => ({ active := false }, s)

/-- The body of the loop: on as long as `success && active`, and else the loop ends with
`success`. -/
def loopBody (s : ReqState) : ReqState ⊕ (Bool × ReqState) :=
  let (f, s) := iteration s
  if f.success && f.active then .inl s else .inr (f.success, s)

/-- `while (success && active)`, of at most `fuel` iterations. -/
def requestLoop (fuel : Nat) (s : ReqState) : Option (Bool × ReqState) := Loop.run loopBody fuel s

/-- The error reported for a loop that failed in a parser state with input left. -/
def errorOf (s : ReqState) : RequestErr :=
  match s.rData.parserState with
  | .METHOD =>
    if s.rData.method = .UNDEFINED_M then .GENERAL_METHOD_ERROR else .UNSUPPORTED_METHOD_ERROR
  | .URI | .URI_HOST | .HEADERS | .HOST => .HOST_ERROR
  | .VERSION => .VERSION_ERROR
  | .START_LINE_END => .START_LINE_END_ERROR
  | .SPACE_TRANSITION | .RELATIVE_URI | .LOCALHOST_HEADER_CHECK | .FINISHED => s.rData.state

def reportError (r : Bool × ReqState) : Bool × ReqState :=
  if r.1 = false ∧ r.2.io.isBufferEmpty = false then
    (r.1, { r.2 with rData := { r.2.rData with state := errorOf r.2 } })
  else r

/-- Reporting an error does not change what is returned. -/
@[simp] theorem reportError_fst (r : Bool × ReqState) : (reportError r).1 = r.1 := by
  unfold reportError
  split <;> rfl

/-- Reporting an error leaves the parser's state. -/
@[simp] theorem reportError_parserState (r : Bool × ReqState) :
    (reportError r).2.rData.parserState = r.2.rData.parserState := by
  unfold reportError
  split <;> rfl

/-- Reporting an error announces nothing. -/
@[simp] theorem reportError_calls (r : Bool × ReqState) : (reportError r).2.calls = r.2.calls := by
  unfold reportError
  split <;> rfl

/-- A call that succeeded has no error to report. -/
theorem reportError_of_success {r : Bool × ReqState} (h : r.1 = true) : reportError r = r :=
  if_neg fun hc => Bool.noConfusion (h.symm.trans hc.1)

def checkRequestInner (fuel : Nat) (s : ReqState) : Option (Bool × ReqState) :=
  (requestLoop fuel { s with io := { s.io with isBufferEmpty := false } }).map reportError

/-- What one call of `checkRequest` leaves. -/
structure RequestResult where
  success : Bool
  rData : RequestData
  bIn : Buffer
  bOut : Buffer
  isBufferEmpty : Bool
  calls : List (List UInt8 × Int)
deriving DecidableEq, Repr

/-- More iterations than a call that returns makes on `b`. -/
def requestFuel (b : Buffer) : Nat := b.bytes.length + 13

/-- The state the loop of a call of `checkRequest` starts in. -/
def callStart (rd : RequestData) (bIn : Buffer) : ReqState where
  rData := { rd with version := .v1_1 }
  io := { b := bIn, out := [], isBufferEmpty := false }

/-- `checkRequest`; `none` is a call that does not return. -/
def checkRequest (rd : RequestData) (bIn bOut : Buffer) : Option RequestResult :=
  (checkRequestInner (requestFuel bIn) (callStart rd bIn)).map fun r =>
    { success := r.1
      rData := r.2.rData
      bIn := r.2.io.b
      bOut := bufferWriteAll bOut r.2.io.out
      isBufferEmpty := r.2.io.isBufferEmpty
      calls := r.2.calls }

/-- A call that returns leaves what its loop does, with the error of a loop that failed. -/
theorem checkRequest_eq_some_iff {rd : RequestData} {bIn bOut : Buffer} {r : RequestResult} :
    checkRequest rd bIn bOut = some r ↔
      ∃ x, requestLoop (requestFuel bIn) (callStart rd bIn) = some x ∧
        { success := (reportError x).1
          rData := (reportError x).2.rData
          bIn := (reportError x).2.io.b
          bOut := bufferWriteAll bOut (reportError x).2.io.out
          isBufferEmpty := (reportError x).2.io.isBufferEmpty
          calls := (reportError x).2.calls } = r := by
  change ((requestLoop (requestFuel bIn) (callStart rd bIn)).map reportError).map _ = some r ↔ _
  rw [Option.map_map, Option.map_eq_some_iff]
  rfl

end HttpProxy
