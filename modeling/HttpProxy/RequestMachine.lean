import HttpProxy.RequestParser
import HttpProxy.MyParserUtilsSpec

/-!
# The request parser, one byte at a time

The abstract model of the request parser: a machine whose state says how far into the request it
is, down to the number of bytes of a keyword already matched, and which reads cells. It has no
buffer, no pushing back and no loop; that the code computes it is proved in `RequestRefinement`.

A state that stops a call (`halt`) takes the rest of the input as unread. Two of them are no
outcome the code intends: `stalled`, a call that gives up with input left and reports no error,
and `spin`, a call that does not return.
-/

namespace HttpProxy

/-- What follows a run of blanks. -/
inductive AfterSpaces
  | uri
  | version
  | host
deriving DecidableEq, Repr

/-- Where a host is being read: in the target, by the call that read `http://` or by a later one,
or in the `Host` header. -/
inductive HostPlace
  | uri
  | uriHost
  | header
deriving DecidableEq, Repr

/-- Why a call stopped with the rest of its input unread. -/
inductive Halt
  | accepted
  | rejected
  | stalled
  | spin
deriving DecidableEq, Repr

/-- Control states. A number counts the bytes matched of the keyword the state is in. -/
inductive ReqCtl
  | method
  /-- After the first byte `c` of a method, in the first of the options `opts`. -/
  | methodIn (c : UInt8) (opts : List (List UInt8 × HttpMethod)) (i : Nat)
  | space (next : AfterSpaces)
  | uri (i : Nat)
  | uriSep (i : Nat)
  /-- After `i` bytes of a host. -/
  | host (place : HostPlace) (i : Nat)
  /-- After `i` bytes of a host, a `:` and the digits of `n`. -/
  | port (place : HostPlace) (i : Nat) (n : Option Int)
  /-- After the port of a `Host` header. -/
  | portEnd
  | relative
  /-- Past an authority that was refused, in the call that read `http://`. -/
  | refused
  | version (i : Nat)
  | versionDigit
  | startLineEnd (i : Nat)
  | localHost
  | localName (i : Nat)
  | headers
  /-- After an `H` and `i` bytes of `OST:`. -/
  | hostName (i : Nat)
  /-- After a CR and `i` bytes of LF. -/
  | cr (i : Nat)
  /-- After CR LF and `i` bytes of another. -/
  | crlf (i : Nat)
  | halt (why : Halt) (unread : List Cell)
deriving DecidableEq, Repr

structure ReqMachine where
  ctl : ReqCtl
  d : RequestFields
  calls : List (List UInt8 × Int) := []
deriving DecidableEq, Repr

namespace ReqMachine

abbrev Out := ReqMachine × List UInt8

def goto (q : ReqMachine) (ctl : ReqCtl) : ReqMachine := { q with ctl := ctl }

/-- The call stops here; what is still to read stays unread. -/
def halt (q : ReqMachine) (why : Halt) : ReqMachine := q.goto (.halt why [])

def reject (q : ReqMachine) (e : RequestErr) : ReqMachine :=
  { q with ctl := .halt .rejected [], d := { q.d with state := e } }

/-- The origin is announced and the call stops. -/
def accept (q : ReqMachine) : ReqMachine :=
  { q with ctl := .halt .accepted [], calls := q.calls ++ [(cString q.d.host, q.d.port)] }

/-- A halted machine leaves `x` unread. -/
def stepHalt (q : ReqMachine) (x : Cell) : Out :=
  match q.ctl with
  | .halt why unread => (q.goto (.halt why (unread ++ [x])), [])
  | _ => (q, [])

def stepMatch (q : ReqMachine) (format : List UInt8) (i : Nat) (inside : Nat → ReqCtl)
    (done : ReqMachine) (miss : Cell → Out) (x : Cell) : Out :=
  HttpProxy.stepMatch format i (fun i => q.goto (inside i)) done miss (echoed true) x

/-- A blank is dropped; before anything else one space is written. -/
def stepSpace (q : ReqMachine) (next : AfterSpaces) (step : Cell → Out) (x : Cell) : Out :=
  if isBlank x.1 then (q.goto (.space next), []) else ((step x).1, SP :: (step x).2)

/-! ## End of the start line -/

def stepStartLineEnd (q : ReqMachine) (i : Nat) : Cell → Out :=
  q.stepMatch [CR, LF] i .startLineEnd (q.goto .localHost)
    (stepHalt (q.reject .START_LINE_END_ERROR))

/-- A start line whose version was read, or was not there and is the preset one. -/
def afterVersion (q : ReqMachine) : ReqMachine :=
  if q.d.version = .undefined then q.reject .VERSION_ERROR else q.goto (.startLineEnd 0)

def stepAfterVersion (q : ReqMachine) (x : Cell) : Out :=
  if q.d.version = .undefined then stepHalt (q.reject .VERSION_ERROR) x
  else q.stepStartLineEnd 0 x

def setVersion (q : ReqMachine) (c : UInt8) : ReqMachine :=
  { q with d := { q.d with
      version := if c = 0x30 then .v1_0 else if c = 0x31 then .v1_1 else q.d.version } }

def stepVersionDigit (q : ReqMachine) (x : Cell) : Out :=
  ((q.setVersion x.1).afterVersion, echoed true x)

def stepVersion (q : ReqMachine) (i : Nat) : Cell → Out :=
  q.stepMatch (lit "HTTP/1.") i .version (q.goto .versionDigit) q.stepAfterVersion

def stepSpaceVersion (q : ReqMachine) : Cell → Out := q.stepSpace .version (q.stepVersion 0)

/-! ## The target -/

def stepRelative (q : ReqMachine) (x : Cell) : Out :=
  if isBlank x.1 then q.stepSpaceVersion x else (q.goto .relative, echoed true x)

def stepRefused (q : ReqMachine) (x : Cell) : Out :=
  if isBlank x.1 then stepHalt (q.halt .stalled) x else (q.goto .refused, echoed true x)

/-- Where the parser goes on when it read no valid host. It tells a host that was copied from
none by the first byte of the host array. -/
def noHost (q : ReqMachine) (place : HostPlace) : ReqMachine :=
  match place with
  | .uri => if getElem q.d.host 0 host_max_size_pos ≠ 0 then q.goto .refused else q.goto .relative
  | .uriHost => if getElem q.d.host 0 host_max_size_pos ≠ 0 then q.reject .HOST_ERROR else q.goto (.space .version)
  | .header => if getElem q.d.host 0 host_max_size_pos ≠ 0 then q.reject .HOST_ERROR else q.goto (.host .header 0)

def setHost (q : ReqMachine) (i : Nat) (c : UInt8) : ReqMachine :=
  { q with d := { q.d with host := q.d.host.setIfInBounds i c } }

/-- The byte after a host and no port. In the `Host` header it has to end the value. -/
def stepHostEnd (q : ReqMachine) (place : HostPlace) (x : Cell) : Out :=
  match place with
  | .uri | .uriHost => stepHalt q.accept x
  | .header =>
    if isBlank x.1 || x.1 == CR then stepHalt q.accept x
    else if getElem q.d.host 0 host_max_size_pos ≠ 0 then stepHalt (q.reject .HOST_ERROR) x
    else stepHalt (q.halt .spin) x

def stepHost (q : ReqMachine) (place : HostPlace) (i : Nat) (x : Cell) : Out :=
  let c := tolower x.1
  if isHostChar c then
    let q := q.setHost i c
    (if i + 1 < HOST_MAX_SIZE then q.goto (.host place (i + 1)) else q.noHost place, echoed true x)
  else if place ≠ .header ∧ c = 0x40 then ((q.setHost 0 0).goto (.host place 0), echoed true x)
  else if c = 0x3a then (q.goto (.port place i none), echoed true x)
  else q.stepHostEnd place x

def stepNoHost (q : ReqMachine) (place : HostPlace) (x : Cell) : Out :=
  match place with
  | .uri => if getElem q.d.host 0 host_max_size_pos ≠ 0 then q.stepRefused x else q.stepRelative x
  | .uriHost =>
    if getElem q.d.host 0 host_max_size_pos ≠ 0 then stepHalt (q.reject .HOST_ERROR) x else q.stepSpaceVersion x
  | .header =>
    if getElem q.d.host 0 host_max_size_pos ≠ 0 then stepHalt (q.reject .HOST_ERROR) x else q.stepHost .header 0 x

def setPort (q : ReqMachine) (n : Int) : ReqMachine := { q with d := { q.d with port := n } }

def stepPortEnd (q : ReqMachine) (x : Cell) : Out :=
  if isBlank x.1 || x.1 == CR then stepHalt q.accept x else q.stepNoHost .header x

def stepPort (q : ReqMachine) (place : HostPlace) (i : Nat) (n : Option Int) : Cell → Out :=
  stepNumber .dec n (fun n => q.goto (.port place i n))
    (fun v x => if place = .header then (q.setPort v).stepPortEnd x
      else stepHalt (q.setPort v).accept x)
    (q.stepNoHost place) (echoed true)

def stepUriSep (q : ReqMachine) (i : Nat) : Cell → Out :=
  q.stepMatch (lit "://") i .uriSep (q.goto (.host .uri 0)) q.stepRelative

def stepUri (q : ReqMachine) (i : Nat) : Cell → Out :=
  q.stepMatch (lit "HTTP") i .uri (q.goto (.uriSep 0)) q.stepRelative

/-! ## Headers -/

def stepHeaders (q : ReqMachine) (x : Cell) : Out :=
  let c := toupper x.1
  (q.goto (if c = 0x48 then .hostName 0 else if c = CR then .cr 0 else .headers), echoed true x)

def stepHostName (q : ReqMachine) (i : Nat) : Cell → Out :=
  q.stepMatch (lit "OST:") i .hostName (q.goto (.space .host)) q.stepHeaders

def stepCr (q : ReqMachine) (i : Nat) : Cell → Out :=
  q.stepMatch [LF] i .cr (q.goto (.crlf 0)) q.stepHeaders

def stepCrlf (q : ReqMachine) (i : Nat) : Cell → Out :=
  q.stepMatch [CR, LF] i .crlf (q.reject .HOST_ERROR) q.stepHeaders

/-- After the local host check: with the mark found the request is the proxy's own. -/
def stepChecked (q : ReqMachine) (x : Cell) : Out :=
  if q.d.isLocalHost then stepHalt q.accept x else q.stepHeaders x

def stepLocalName (q : ReqMachine) (i : Nat) : Cell → Out :=
  q.stepMatch (lit "X-LOCALHOST:") i .localName
    (accept { q with d := { q.d with isLocalHost := true } }) q.stepChecked

def stepLocalHost (q : ReqMachine) (x : Cell) : Out :=
  if toupper x.1 ≠ 0x58 then
    ((q.stepChecked x).1, lit "X-LOCALHOST: TRUE\r\n" ++ (q.stepChecked x).2)
  else q.stepLocalName 0 x

/-! ## The method -/

/-- The options for a method that starts with `c`. -/
def optionsFor (c : UInt8) (opts : List (List UInt8 × HttpMethod)) :
    List (List UInt8 × HttpMethod) := opts.dropWhile fun o => o.1.headD 0 != c

def afterMethod (q : ReqMachine) (m : HttpMethod) : ReqMachine :=
  let q := { q with d := { q.d with method := m } }
  if isSupported m then q.goto (.space .uri)
  else q.reject (if m = .UNDEFINED_M then .GENERAL_METHOD_ERROR else .UNSUPPORTED_METHOD_ERROR)

def stepSpaceUri (q : ReqMachine) : Cell → Out := q.stepSpace .uri (q.stepUri 0)

def stepAfterMethod (q : ReqMachine) (m : HttpMethod) (x : Cell) : Out :=
  if isSupported m then stepSpaceUri { q with d := { q.d with method := m } } x
  else stepHalt (q.afterMethod m) x

/-- A byte inside a method: the option being matched, and when it misses the next ones. -/
def stepMethodIn (q : ReqMachine) (c : UInt8) :
    List (List UInt8 × HttpMethod) → Nat → Cell → Out
  | [], _, x => q.stepAfterMethod q.d.method x
  | (name, m) :: rest, i, x =>
    if name.headD 0 = c then
      q.stepMatch name.tail i (.methodIn c ((name, m) :: rest)) (q.afterMethod m)
        (q.stepMethodIn c rest 0) x
    else q.stepMethodIn c rest 0 x

def stepMethod (q : ReqMachine) (x : Cell) : Out :=
  let c := toupper x.1
  let opts := optionsFor c methodOption
  (if opts = [] then q.afterMethod q.d.method else q.goto (.methodIn c opts 0), echoed true x)

/-! ## The machine -/

def stepSpaceTo (q : ReqMachine) : AfterSpaces → Cell → Out
  | .uri => q.stepSpaceUri
  | .version => q.stepSpaceVersion
  | .host => q.stepSpace .host (q.stepHost .header 0)

def step (q : ReqMachine) : Cell → Out :=
  match q.ctl with
  | .method => q.stepMethod
  | .methodIn c opts i => q.stepMethodIn c opts i
  | .space next => q.stepSpaceTo next
  | .uri i => q.stepUri i
  | .uriSep i => q.stepUriSep i
  | .host place i => q.stepHost place i
  | .port place i n => q.stepPort place i n
  | .portEnd => q.stepPortEnd
  | .relative => q.stepRelative
  | .refused => q.stepRefused
  | .version i => q.stepVersion i
  | .versionDigit => q.stepVersionDigit
  | .startLineEnd i => q.stepStartLineEnd i
  | .localHost => q.stepLocalHost
  | .localName i => q.stepLocalName i
  | .headers => q.stepHeaders
  | .hostName i => q.stepHostName i
  | .cr i => q.stepCr i
  | .crlf i => q.stepCrlf i
  | .halt _ _ => q.stepHalt

end ReqMachine

/-- The request machine. -/
def reqMachine : Transducer ReqMachine Cell UInt8 := ⟨ReqMachine.step⟩

/-! ## Rest states -/

/-- The state of the code's parser a control state belongs to. -/
def ReqCtl.parserState : ReqCtl → RequestParserState
  | .method | .methodIn _ _ _ => .METHOD
  | .space _ => .SPACE_TRANSITION
  | .uri _ | .uriSep _ => .URI
  | .host .header _ | .port .header _ _ | .portEnd => .HOST
  | .host _ _ | .port _ _ _ => .URI_HOST
  | .relative | .refused => .RELATIVE_URI
  | .version _ | .versionDigit => .VERSION
  | .startLineEnd _ => .START_LINE_END
  | .localHost | .localName _ => .LOCALHOST_HEADER_CHECK
  | .headers | .hostName _ | .cr _ | .crlf _ => .HEADERS
  | .halt _ _ => .FINISHED

/-- The bytes the code keeps in its input buffer when it runs out of input in a state: those that
lead back to the state from the start of its parser state. -/
def ReqMachine.pushBack (q : ReqMachine) : List UInt8 :=
  match q.ctl with
  | .methodIn c opts i => c :: (opts.headD ([], .UNDEFINED_M)).1.tail.take i
  | .uri i => (lit "HTTP").take i
  | .uriSep i => lit "HTTP" ++ (lit "://").take i
  | .host _ i => q.d.host.toList.take i
  | .port _ i n => q.d.host.toList.take i ++ lit ":" ++ digitsOf .dec (n.getD 0)
  | .version i => (lit "HTTP/1.").take i
  | .versionDigit => lit "HTTP/1."
  | .startLineEnd i => [CR, LF].take i
  | .localName i => (lit "X-LOCALHOST:").take i
  | .hostName i => lit "H" ++ (lit "OST:").take i
  | .cr i => [CR] ++ [LF].take i
  | .crlf i => [CR, LF] ++ [CR, LF].take i
  | .method | .space _ | .portEnd | .relative | .refused | .localHost | .headers
  | .halt _ _ => []

def AfterSpaces.parserState : AfterSpaces → RequestParserState
  | .uri => .URI
  | .version => .VERSION
  | .host => .HOST

/-- What the run over spaces leads to, for the values of `next` the parser sets. -/
def afterSpaces : RequestParserState → AfterSpaces
  | .URI => .uri
  | .HOST => .host
  | _ => .version

/-- The control state a call starts in. -/
def RequestData.startCtl (rd : RequestData) : ReqCtl :=
  match rd.parserState with
  | .SPACE_TRANSITION => .space (afterSpaces rd.next)
  | .METHOD => .method
  | .URI => .uri 0
  | .URI_HOST => .host .uriHost 0
  | .RELATIVE_URI => .relative
  | .VERSION => .version 0
  | .START_LINE_END => .startLineEnd 0
  | .LOCALHOST_HEADER_CHECK => .localHost
  | .HEADERS => .headers
  | .HOST => .host .header 0
  | .FINISHED => .halt .accepted []

/-- The state the machine is in when an iteration of the code's loop starts in `s`. -/
def ReqState.machine (s : ReqState) : ReqMachine :=
  ⟨s.rData.startCtl, s.rData.toRequestFields, s.calls⟩

end HttpProxy
