import HttpProxy.MyParserUtilsSpec
import HttpProxy.ResponseScan

/-!
# The response parser, one byte at a time

The abstract model of the response parser: a machine over cells like that of the request parser. Its
state says how far into the response it is; in a body, `bodyLength` counts what is missing of it or of
the chunk. That the code computes it is proved in `ResponseRefinement`.

A zero byte is data in a body and the end of the input elsewhere: there the machine halts (`nul`).
-/

namespace HttpProxy

/-- A byte the parser passes on: to the client or to the transformation. -/
inductive Passed
  | out (c : UInt8)
  | transf (c : UInt8)
deriving DecidableEq, Repr

namespace Passed

def toOut : Passed → Option UInt8
  | out c => some c
  | transf _ => none

def toTransf : Passed → Option UInt8
  | out _ => none
  | transf c => some c

end Passed

/-- What goes to the client. -/
def outs (e : List Passed) : List UInt8 := e.filterMap Passed.toOut

/-- What goes to the transformation. -/
def transfs (e : List Passed) : List UInt8 := e.filterMap Passed.toTransf

/-- What goes to the client on two parts of a run. -/
@[simp] theorem outs_append (e e' : List Passed) : outs (e ++ e') = outs e ++ outs e' :=
  List.filterMap_append

/-- What goes to the transformation on two parts of a run. -/
@[simp] theorem transfs_append (e e' : List Passed) : transfs (e ++ e') = transfs e ++ transfs e' :=
  List.filterMap_append

/-- What is passed on to the client goes to it. -/
theorem outs_map_out (l : List UInt8) : outs (l.map .out) = l := by
  unfold outs
  rw [List.filterMap_map]
  exact List.filterMap_some

/-- Nothing that is passed on to the client goes to the transformation. -/
theorem transfs_map_out (l : List UInt8) : transfs (l.map .out) = [] := by
  unfold transfs
  rw [List.filterMap_map]
  exact List.filterMap_eq_nil_iff.mpr fun _ _ => rfl

/-- Nothing that is passed on to the transformation goes to the client. -/
theorem outs_map_transf (l : List UInt8) : outs (l.map .transf) = [] := by
  unfold outs
  rw [List.filterMap_map]
  exact List.filterMap_eq_nil_iff.mpr fun _ _ => rfl

/-- What is passed on to the transformation goes to it. -/
theorem transfs_map_transf (l : List UInt8) : transfs (l.map .transf) = l := by
  unfold transfs
  rw [List.filterMap_map]
  exact List.filterMap_some

namespace HeaderField

/-- What was read of the name when the rest of it is matched. -/
def known : HeaderField → List UInt8
  | connection => lit "CON"
  | contentLength => lit "CONTENT-L"
  | contentEncoding => lit "CONTENT-E"
  | contentType => lit "CONTENT-T"
  | transferEncoding => lit "T"

/-- The rest of the name. -/
def format : HeaderField → List UInt8
  | connection => lit "NECTION:"
  | contentLength => lit "ENGTH:"
  | contentEncoding => lit "NCODING:"
  | contentType => lit "YPE:"
  | transferEncoding => lit "RANSFER-ENCODING:"

/-- A name is what is known when it is looked for, and the format behind that. -/
theorem known_append_format (f : HeaderField) : f.known ++ f.format = f.name := by
  cases f <;> rfl

end HeaderField

/-- What follows a run of blanks. -/
inductive ResAfterSpaces
  | status
  | value (f : HeaderField)
deriving DecidableEq, Repr

/-- Why a call stopped with the rest of its input unread. -/
inductive ResHalt
  | finished
  | rejected
  | nul
deriving DecidableEq, Repr

/-- Control states. A number counts the bytes matched of the keyword the state is in, an optional one
is the value of the digits read so far. -/
inductive ResCtl
  | version (i : Nat)
  | versionDigit
  | space (next : ResAfterSpaces)
  | status (n : Option Int)
  | headers
  /-- After a `C` and `i` bytes of `ON`. -/
  | con (i : Nat)
  /-- After `CON` and `i` bytes of `TENT-`. -/
  | tent (i : Nat)
  /-- After `CONTENT-`. -/
  | content
  /-- After `i` bytes of the rest of a name. -/
  | name (f : HeaderField) (i : Nat)
  /-- After a CR. -/
  | cr
  | crlf
  | crlfcr
  | length (n : Option Int)
  | encoding (i : Nat)
  | chunked (i : Nat)
  | connection
  | data
  | untilClose
  | chunkSize (n : Option Int)
  | chunkSizeEnd (i : Nat)
  | chunkData
  /-- After the data of a chunk, the last one or another. -/
  | chunkEnd (last : Bool) (i : Nat)
  | halt (why : ResHalt) (unread : List Cell)
deriving DecidableEq, Repr

structure ResMachine where
  ctl : ResCtl
  d : ResponseFields
deriving DecidableEq, Repr

/-- A zero byte is nothing special in the state. -/
def ResCtl.takesZero : ResCtl → Bool
  | .data | .untilClose | .chunkData | .halt _ _ => true
  | _ => false

namespace ResMachine

abbrev Out := ResMachine × List Passed

def goto (q : ResMachine) (ctl : ResCtl) : ResMachine := { q with ctl := ctl }

/-- The call stops here; what is still to read stays unread. -/
def halt (q : ResMachine) (why : ResHalt) : ResMachine := q.goto (.halt why [])

def reject (q : ResMachine) (e : ResponseErr) : ResMachine :=
  ⟨.halt .rejected [], { q.d with state := e }⟩

/-- A halted machine leaves `x` unread. -/
def stepHalt (q : ResMachine) (x : Cell) : Out :=
  match q.ctl with
  | .halt why unread => (q.goto (.halt why (unread ++ [x])), [])
  | _ => (q, [])

/-- What is emitted when a cell of the head is read. -/
def passes (x : Cell) : List Passed := (echoed true x).map .out

def stepMatch (q : ResMachine) (format : List UInt8) (i : Nat) (inside : Nat → ResCtl)
    (done : ResMachine) (miss : Cell → Out) (x : Cell) : Out :=
  HttpProxy.stepMatch format i (fun i => q.goto (inside i)) done miss passes x

/-! ## Body -/

/-- Where a byte of the body goes. -/
def bodyByte (d : ResponseFields) (c : UInt8) : Passed := if d.withTransf then .transf c else .out c

/-- What goes to the client of bytes of the body. -/
theorem outs_bodyByte (d : ResponseFields) (w : List UInt8) :
    outs (w.map (bodyByte d)) = if d.withTransf then [] else w := by
  unfold bodyByte
  cases d.withTransf
  · exact outs_map_out w
  · exact outs_map_transf w

/-- What goes to the transformation of bytes of the body. -/
theorem transfs_bodyByte (d : ResponseFields) (w : List UInt8) :
    transfs (w.map (bodyByte d)) = if d.withTransf then w else [] := by
  unfold bodyByte
  cases d.withTransf
  · exact transfs_map_out w
  · exact transfs_map_transf w

/-- What is emitted when a cell of the data is read. -/
def passesData (d : ResponseFields) (x : Cell) : List Passed := (echoed true x).map (bodyByte d)

/-- What is emitted when a cell of the framing of the chunks is read. -/
def passesFraming (d : ResponseFields) (x : Cell) : List Passed :=
  (echoed (!d.withTransf) x).map (bodyByte d)

def setBodyLength (q : ResMachine) (n : Int) : ResMachine :=
  { q with d := { q.d with bodyLength := n } }

/-- Where a body starts. -/
def bodyCtl (d : ResponseFields) : ResCtl :=
  if d.isChunked then .chunkSize none
  else if d.bodyLength > 0 then .data
  else if d.bodyLength = 0 ∨ d.withTransf = false ∧ d.status ≠ 200 then .halt .finished []
  else .untilClose

def stepData (q : ResMachine) (x : Cell) : Out :=
  let n := q.d.bodyLength - 1
  ((q.setBodyLength n).goto (if n > 0 then .data else .halt .finished []), passesData q.d x)

def stepFraming (q : ResMachine) (i : Nat) (inside : Nat → ResCtl) (done : ResMachine) (x : Cell) :
    Out :=
  HttpProxy.stepMatch [CR, LF] i (fun i => q.goto (inside i)) done
    (stepHalt (q.reject .CHUNKS_ERROR)) (passesFraming q.d) x

/-- Behind the line of the size. -/
def chunkCtl (d : ResponseFields) : ResCtl :=
  if d.bodyLength > 0 then .chunkData else .chunkEnd true 0

def stepChunkSizeEnd (q : ResMachine) (i : Nat) : Cell → Out :=
  q.stepFraming i .chunkSizeEnd (q.goto (chunkCtl q.d))

def stepChunkSize (q : ResMachine) (n : Option Int) : Cell → Out :=
  stepNumber .hex n (fun n => q.goto (.chunkSize n)) (fun v => (q.setBodyLength v).stepChunkSizeEnd 0)
    (stepHalt (q.reject .CHUNKS_ERROR)) (passesFraming q.d)

def stepChunkData (q : ResMachine) (x : Cell) : Out :=
  let n := q.d.bodyLength - 1
  ((q.setBodyLength n).goto (if n > 0 then .chunkData else .chunkEnd false 0), passesData q.d x)

def stepChunkEnd (q : ResMachine) (last : Bool) (i : Nat) : Cell → Out :=
  q.stepFraming i (.chunkEnd last) (q.goto (if last then .halt .finished [] else .chunkSize none))

/-! ## Headers -/

def stepHeaders (q : ResMachine) (x : Cell) : Out :=
  let c := toupper x.1
  (q.goto (if c = 0x43 then .con 0 else if c = 0x54 then .name .transferEncoding 0
    else if c = CR then .cr else .headers), passes x)

def stepName (q : ResMachine) (f : HeaderField) (i : Nat) : Cell → Out :=
  q.stepMatch f.format i (.name f) (q.goto (.space (.value f))) q.stepHeaders

def stepContent (q : ResMachine) (x : Cell) : Out :=
  let c := toupper x.1
  (q.goto (if c = 0x4c then .name .contentLength 0 else if c = 0x45 then .name .contentEncoding 0
    else if c = 0x54 then .name .contentType 0 else .headers), passes x)

def stepTent (q : ResMachine) (i : Nat) : Cell → Out :=
  q.stepMatch (lit "TENT-") i .tent (q.goto .content) (q.stepName .connection 0)

def stepCon (q : ResMachine) (i : Nat) : Cell → Out :=
  q.stepMatch (lit "ON") i .con (q.goto (.tent 0)) q.stepHeaders

/-- The second CR is not passed on, whether it ends the headers or not. -/
def stepCrlf (q : ResMachine) (x : Cell) : Out :=
  if x.1 = CR then (q.goto .crlfcr, []) else q.stepHeaders x

def stepCr (q : ResMachine) : Cell → Out :=
  q.stepMatch [LF] 0 (fun _ => .cr) (q.goto .crlf) q.stepHeaders

def stepCrlfcr (q : ResMachine) (x : Cell) : Out :=
  if x.1 = LF then (q.goto (bodyCtl q.d), (headersEnd q.d).map .out) else q.stepHeaders x

/-! ## Values -/

def stepLength (q : ResMachine) (n : Option Int) : Cell → Out :=
  stepNumber .dec n (fun n => q.goto (.length n)) (fun v => (q.setBodyLength v).stepHeaders)
    q.stepHeaders passes

def setEncoding (q : ResMachine) : ResMachine := { q with d := { q.d with cEncoding := .GZIP } }

def stepEncoding (q : ResMachine) (i : Nat) : Cell → Out :=
  q.stepMatch (lit "GZIP") i .encoding (q.setEncoding.goto .headers) q.stepHeaders

def setChunked (q : ResMachine) : ResMachine := { q with d := { q.d with isChunked := true } }

def stepChunked (q : ResMachine) (i : Nat) : Cell → Out :=
  q.stepMatch (lit "CHUNKED") i .chunked (q.setChunked.goto .headers) q.stepHeaders

def setClose (q : ResMachine) : ResMachine := { q with d := { q.d with isClose := true } }

/-- The value of a `Connection` field is replaced. -/
def stepConnection (q : ResMachine) (x : Cell) : Out :=
  if x.1 = CR then ((q.setClose.stepHeaders x).1, (lit "close").map .out ++ (q.setClose.stepHeaders x).2)
  else (q.goto .connection, [])

def stepValue (q : ResMachine) : HeaderField → Cell → Out
  | .connection => q.stepConnection
  | .contentLength => q.stepLength none
  | .contentEncoding => q.stepEncoding 0
  | .contentType => q.stepHeaders
  | .transferEncoding => q.stepChunked 0

/-! ## Start line -/

def setStatus (q : ResMachine) (n : Int) : ResMachine := { q with d := { q.d with status := n } }

def stepStatus (q : ResMachine) (n : Option Int) : Cell → Out :=
  stepNumber .dec n (fun n => q.goto (.status n)) (fun v => (q.setStatus v).stepHeaders)
    (stepHalt (q.reject .STATUS_ERROR)) passes

def stepAfterSpaces (q : ResMachine) : ResAfterSpaces → Cell → Out
  | .status => q.stepStatus none
  | .value f => q.stepValue f

/-- A blank is dropped; before anything else one space is written. -/
def stepSpace (q : ResMachine) (next : ResAfterSpaces) (x : Cell) : Out :=
  if isBlank x.1 then (q.goto (.space next), [])
  else ((q.stepAfterSpaces next x).1, .out SP :: (q.stepAfterSpaces next x).2)

def setVersion (q : ResMachine) (c : UInt8) : ResMachine :=
  { q with d := { q.d with
      version := if c = 0x30 then .v1_0 else if c = 0x31 then .v1_1 else q.d.version } }

def afterVersion (q : ResMachine) : ResMachine :=
  if q.d.version = .undefined then q.reject .RES_VERSION_ERROR else q.goto (.space .status)

def stepVersionDigit (q : ResMachine) (x : Cell) : Out := ((q.setVersion x.1).afterVersion, passes x)

def stepVersion (q : ResMachine) (i : Nat) : Cell → Out :=
  q.stepMatch (lit "HTTP/1.") i .version (q.goto .versionDigit)
    (stepHalt (q.reject .RES_VERSION_ERROR))

/-! ## The machine -/

/-- The step on a byte that is not zero, or that the state takes as any other. -/
def stepByte (q : ResMachine) : Cell → Out :=
  match q.ctl with
  | .version i => q.stepVersion i
  | .versionDigit => q.stepVersionDigit
  | .space next => q.stepSpace next
  | .status n => q.stepStatus n
  | .headers => q.stepHeaders
  | .con i => q.stepCon i
  | .tent i => q.stepTent i
  | .content => q.stepContent
  | .name f i => q.stepName f i
  | .cr => q.stepCr
  | .crlf => q.stepCrlf
  | .crlfcr => q.stepCrlfcr
  | .length n => q.stepLength n
  | .encoding i => q.stepEncoding i
  | .chunked i => q.stepChunked i
  | .connection => q.stepConnection
  | .data => q.stepData
  | .untilClose => fun x => (q, passesData q.d x)
  | .chunkSize n => q.stepChunkSize n
  | .chunkSizeEnd i => q.stepChunkSizeEnd i
  | .chunkData => q.stepChunkData
  | .chunkEnd last i => q.stepChunkEnd last i
  | .halt _ _ => q.stepHalt

def step (q : ResMachine) (x : Cell) : Out :=
  if x.1 = 0 ∧ q.ctl.takesZero = false then (q.halt .nul).stepHalt x else q.stepByte x

/-- A byte that is not zero is read by the step of its state. -/
theorem step_of_ne {q : ResMachine} {x : Cell} (hx : x.1 ≠ 0) : q.step x = q.stepByte x :=
  if_neg fun h => hx h.1

/-- In a body a zero is read like any byte. -/
theorem step_of_takesZero {q : ResMachine} (h : q.ctl.takesZero = true) (x : Cell) :
    q.step x = q.stepByte x :=
  if_neg fun hz => Bool.false_ne_true (hz.2.symm.trans h)

end ResMachine

/-- The response machine. -/
def resMachine : Transducer ResMachine Cell Passed := ⟨ResMachine.step⟩

/-! ## Rest states -/

def ResAfterSpaces.parserState : ResAfterSpaces → ResponseParserState
  | .status => .STATUS
  | .value f => f.check

/-- The state of the code's parser a control state belongs to. -/
def ResMachine.parserState (q : ResMachine) : ResponseParserState :=
  match q.ctl with
  | .version _ | .versionDigit => .RES_VERSION
  | .space _ => .RES_SPACE_TRANSITION
  | .status _ => .STATUS
  | .headers | .con _ | .tent _ | .content | .name _ _ | .cr | .crlf | .crlfcr => .RES_HEADERS
  | .length _ => .LENGTH_CHECK
  | .encoding _ => .ENCODING_CHECK
  | .chunked _ => .CHUNKED_CHECK
  | .connection => .CONNECTION_CHECK
  | .data | .untilClose | .chunkSize _ | .chunkSizeEnd _ | .chunkData | .chunkEnd _ _ =>
    if q.d.withTransf then .BODY_TRANSFORMATION else .BODY_NORMAL
  | .halt _ _ => .RES_FINISHED

/-- The bytes the code keeps in its input buffer when it runs out of input in a state: those that lead
back to the state from the start of its parser state. -/
def ResMachine.pushBack (q : ResMachine) : List UInt8 :=
  match q.ctl with
  | .version i => (lit "HTTP/1.").take i
  | .versionDigit => lit "HTTP/1."
  | .status n => digitsOf .dec (n.getD 0)
  | .con i => lit "C" ++ (lit "ON").take i
  | .tent i => lit "CON" ++ (lit "TENT-").take i
  | .content => lit "CONTENT-"
  | .name f i => f.known ++ f.format.take i
  | .cr => [CR]
  | .crlf => [CR, LF]
  | .crlfcr => [CR, LF, CR]
  | .length n => digitsOf .dec (n.getD 0)
  | .encoding i => (lit "GZIP").take i
  | .chunked i => (lit "CHUNKED").take i
  | .chunkSize n => digitsOf .hex (n.getD 0)
  | .chunkSizeEnd i => digitsOf .hex q.d.bodyLength ++ [CR, LF].take i
  | .chunkData => digitsOf .hex q.d.bodyLength ++ [CR, LF]
  -- The data of a chunk that was read stands for one byte.
  | .chunkEnd last i => (if last then lit "0\r\n" else lit "1\r\n1") ++ [CR, LF].take i
  | .space _ | .headers | .connection | .data | .untilClose | .halt _ _ => []

/-- What the run over spaces leads to, for the values of `next` the parser sets. -/
def resAfterSpaces : ResponseParserState → ResAfterSpaces
  | .LENGTH_CHECK => .value .contentLength
  | .ENCODING_CHECK => .value .contentEncoding
  | .CHUNKED_CHECK => .value .transferEncoding
  | .CONNECTION_CHECK => .value .connection
  | .TYPE_CHECK => .value .contentType
  | _ => .status

/-- The control state a call starts in. -/
def ResponseData.startCtl (rd : ResponseData) : ResCtl :=
  match rd.parserState with
  | .RES_SPACE_TRANSITION => .space (resAfterSpaces rd.next)
  | .RES_VERSION => .version 0
  | .STATUS => .status none
  | .RES_HEADERS | .TYPE_CHECK => .headers
  | .LENGTH_CHECK => .length none
  | .ENCODING_CHECK => .encoding 0
  | .CHUNKED_CHECK => .chunked 0
  | .CONNECTION_CHECK => .connection
  | .BODY_NORMAL | .BODY_TRANSFORMATION => ResMachine.bodyCtl rd.toResponseFields
  | .RES_FINISHED => .halt .finished []

/-- The state the machine is in when an iteration of the code's loop starts with what it knows. -/
def ResponseData.machine (rd : ResponseData) : ResMachine := ⟨rd.startCtl, rd.toResponseFields⟩

end HttpProxy
