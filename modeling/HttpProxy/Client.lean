import HttpProxy.Config
import HttpProxy.RequestParser
import HttpProxy.ResponseParser

/-!
# A client

`client_private.h` and the parts of `client.c` that work on one client alone: its state, its
buffers, the choice of its origin, and the loop by which `client_read` passes on what the request
parser left.
-/

namespace HttpProxy

abbrev MAX_DOMAIN_NAME_LENGTH : Nat := 255

/-- `client_state_t`. A value cast to it need not be one of its enumerators. -/
inductive ClientState
  | NO_ORIGIN
  | SEND_REQ
  | READ_RESP
  | CLI_ERROR
  | other (value : Nat)
deriving DecidableEq, Repr

inductive ClientError
  | NO_ERROR
  | KEEPALIVE_HOST_NO_MATCH
  | INVALID_HOST
deriving DecidableEq, Repr

/-- The position of an error among the enumerators of `requestState`. -/
def RequestErr.value : RequestErr → Nat
  | .OK => 0
  | .GENERAL_ERROR => 1
  | .VERSION_ERROR => 2
  | .START_LINE_END_ERROR => 3
  | .GENERAL_METHOD_ERROR => 4
  | .UNSUPPORTED_METHOD_ERROR => 5
  | .HOST_ERROR => 6
  | .ALLOCATION_ERROR => 7

/-- The conversion of a number to `client_state_t`. -/
def ClientState.ofValue : Nat → ClientState
  | 0 => .NO_ORIGIN
  | 1 => .SEND_REQ
  | 2 => .READ_RESP
  | 3 => .CLI_ERROR
  | n => .other n

structure HostDetails where
  port : Int := 0
  fqdn : List UInt8 := []
  /-- Whether `getaddrinfo` left an address in `resolved`. -/
  resolved : Bool := false
deriving DecidableEq, Repr

/-- The size of the reserved zone of the client's buffers. -/
abbrev RESERVED_SPACE : Nat := 255

/-- `client_cdt`; the defaults are what `client_new` assigns. A buffer's memory is the number of
bytes `malloc` gave for it. -/
structure Client where
  state : ClientState := .NO_ORIGIN
  err : ClientError := .NO_ERROR
  preReqParseBufMem : Nat := 0
  preReqParseBuf : Buffer := bufferInitR RESERVED_SPACE 0
  postReqParseBufMem : Nat := 0
  postReqParseBuf : Buffer := bufferInitR RESERVED_SPACE 0
  preResParseBufMem : Nat := 0
  preResParseBuf : Buffer := bufferInitR RESERVED_SPACE 0
  postResParseBufMem : Nat := 0
  postResParseBuf : Buffer := bufferInitR RESERVED_SPACE 0
  preTransfBufMem : Nat := 0
  preTransfBuf : Buffer := bufferInitR RESERVED_SPACE 0
  clientFd : Int := -1
  originFd : Int := -1
  /-- The ends of the transformation's pipes, unset unless `transformations_new` succeeds. -/
  transfInFd : Int := -1
  transfOutFd : Int := -1
  reqData : RequestData := defaultRequestStruct
  resData : ResponseData := defaultResponseStruct
  /-- Unset until `client_read` sets it, before anything reads it. -/
  requestComplete : Bool := false
  shouldTransform : Bool := false
  host : HostDetails := {}
  /-- The time `metric_new_connection` took down. -/
  initTime : Int := 0
deriving DecidableEq, Repr

/-- The buffer size `client_new` takes from the configuration. -/
def buffersSize (conf : Config) : Nat :=
  toSize (atoi ((configGet (cLit "buffers_size") conf).getD []))

/-- The memory and the buffers `client_new` makes; `malloc` says which sizes there is memory for. -/
def Client.withBuffers (malloc : Nat → Bool) (bufferSize : Nat) (c : Client) : Client :=
  let mem := if malloc bufferSize then bufferSize else 0
  let buf := bufferInitR RESERVED_SPACE bufferSize
  { c with
    preReqParseBufMem := mem, preReqParseBuf := buf
    postReqParseBufMem := mem, postReqParseBuf := buf
    preResParseBufMem := mem, preResParseBuf := buf
    postResParseBufMem := mem, postResParseBuf := buf
    preTransfBufMem := mem, preTransfBuf := buf }

/-- The client `client_new` makes, but for the descriptors and the time. -/
def Client.fresh (malloc : Nat → Bool) (conf : Config) : Client :=
  ({} : Client).withBuffers malloc (buffersSize conf)

/-- `client_set_host`, and whether it starts the resolver's thread. -/
def Client.setHost (c : Client) (host : List UInt8) (port : Int) : Bool × Client :=
  if c.host.fqdn ≠ [] then
    if host.take MAX_DOMAIN_NAME_LENGTH ≠ c.host.fqdn.take MAX_DOMAIN_NAME_LENGTH ∨
        c.host.port ≠ port then
      (false, { c with err := .KEEPALIVE_HOST_NO_MATCH, state := .CLI_ERROR })
    else (false, { c with state := .SEND_REQ })
  else if host.length ≤ MAX_DOMAIN_NAME_LENGTH then
    (true, { c with host := { c.host with fqdn := host, port := port } })
  else (false, { c with err := .INVALID_HOST, state := .CLI_ERROR })

/-! ## What the request parser left -/

/-- `while (readAndWrite(…));` -/
def drainLoop : Nat → Io → Io
  | 0, io => io
  | fuel + 1, io =>
    let (c, io) := readAndWrite io
    if c = 0 then io else drainLoop fuel io

/-- The loop behind the calls of `checkRequest`, on the two buffers it moves bytes between. -/
def drain (pre post : Buffer) : Buffer × Buffer :=
  let io := drainLoop (pre.bytes.length + 1) ⟨pre, [], false⟩
  (io.b, bufferWriteAll post io.out)

end HttpProxy
