import HttpProxy.Config
import HttpProxy.Library.LinkedQueue

/-!
# The administration of the proxy

`protocol.h`, `serializer.c`, `msg_queue.c`, `admin_actions.c` and `admin_handlers.c`. A handler of
the server is a function of the server's state; `none` is a run of the C code that is undefined: it
reads behind what was received or writes behind the buffer a message is built in.

Messages and the nodes of their queue are small blocks, for which there is memory; whether there is
memory for a value or a text is a parameter.
-/

namespace HttpProxy

abbrev MAX_READ : Nat := 1024

abbrev MAX_MSG_SIZE : Nat := 1024

/-- `enum type`. -/
inductive MsgType
  | SEND_CRED
  | LIST_METRICS
  | LIST_CONFIGS
  | GET_METRIC
  | GET_CONFIG
  | SET_CONFIG
  | ERROR
deriving DecidableEq, Repr

def MsgType.all : List MsgType :=
  [.SEND_CRED, .LIST_METRICS, .LIST_CONFIGS, .GET_METRIC, .GET_CONFIG, .SET_CONFIG, .ERROR]

/-- The byte a type is sent as. -/
def MsgType.code (t : MsgType) : UInt8 := UInt8.ofNat (MsgType.all.idxOf t)

def MsgType.ofCode (c : UInt8) : Option MsgType := MsgType.all[c.toNat]?

theorem MsgType.ofCode_code (t : MsgType) : MsgType.ofCode t.code = some t := by cases t <;> rfl

/-- `enum error_type`. -/
inductive AdminError
  | CONFIG_NOT_FOUND
  | METRIC_NOT_FOUND
  | CONFIG_NOT_SET
  | INVALID_LENGTH
  | UNEXPECTED_ERROR
deriving DecidableEq, Repr

def AdminError.all : List AdminError :=
  [.CONFIG_NOT_FOUND, .METRIC_NOT_FOUND, .CONFIG_NOT_SET, .INVALID_LENGTH, .UNEXPECTED_ERROR]

def AdminError.code (e : AdminError) : UInt8 := UInt8.ofNat (AdminError.all.idxOf e)

/-- `msg_t`; the buffer is read up to its terminator, and only when its size is positive. -/
structure Msg where
  type : UInt8
  param : UInt8
  bufferSize : Int
  buffer : List UInt8 := []
deriving DecidableEq, Repr

/-! ## Serializers -/

/-- `(unsigned char)(value >> shift & 0xFF)`. -/
def byteAt (value : Int) (shift : Nat) : UInt8 := UInt8.ofNat (value / 2 ^ shift % 256).toNat

def serializeInt (value : Int) : List UInt8 :=
  [byteAt value 24, byteAt value 16, byteAt value 8, byteAt value 0]

def serializeString : List UInt8 → Option (List UInt8)
  | [] => none
  | c :: str => if c = 0 then some [0] else (serializeString str).map (c :: ·)

def serializeMsg (msg : Msg) : Option (List UInt8) :=
  let header := msg.type :: msg.param :: serializeInt msg.bufferSize
  if msg.bufferSize > 0 then (serializeString msg.buffer).map (header ++ ·) else some header

def deserializeChar : List UInt8 → Option (UInt8 × List UInt8)
  | [] => none
  | c :: buffer => some (c, buffer)

/-- `read` is how the type of the field reads its 32 bits. -/
def deserializeInt (read : Int → Int) : List UInt8 → Option (Int × List UInt8)
  | a :: b :: c :: d :: buffer =>
    some (read (a.toNat * 2 ^ 24 + b.toNat * 2 ^ 16 + c.toNat * 2 ^ 8 + d.toNat : Nat), buffer)
  | _ => none

/-- The string with its terminator, and what follows it. -/
def deserializeString : List UInt8 → Option (List UInt8 × List UInt8)
  | [] => none
  | c :: buffer =>
    if c = 0 then some ([0], buffer)
    else (deserializeString buffer).map fun r => (c :: r.1, r.2)

def deserializeMsg (read : Int → Int) (buffer : List UInt8) : Option Msg := do
  let (type, buffer) ← deserializeChar buffer
  let (param, buffer) ← deserializeChar buffer
  let (bufferSize, buffer) ← deserializeInt read buffer
  if bufferSize > 0 then
    let (str, _) ← deserializeString buffer
    return { type := type, param := param, bufferSize := bufferSize, buffer := str }
  else return { type := type, param := param, bufferSize := bufferSize }

/-! ## The queue -/

abbrev MsgQueue := LinkedQueue Msg

def qIsEmpty (q : MsgQueue) : Bool := q.isEmpty

def qPoll (q : MsgQueue) : Option (Msg × MsgQueue) := q.poll

def qOffer (msg : Msg) (q : MsgQueue) : Option MsgQueue := q.offer msg

/-! ## Actions -/

/-- What the actions find in the process they run in. -/
structure AdminEnv where
  /-- The sizes of values and texts there is memory for. -/
  malloc : Nat → Bool
  /-- What the memory of the n-th message held where its `param` is: most messages leave it unset. -/
  unset : Nat → UInt8
  /-- What `metric_get_value_string` writes. -/
  metricGetValueString : Nat → List UInt8

structure Admin where
  conf : Config
  queue : MsgQueue := {}
  /-- The messages made so far. -/
  made : Nat := 0
deriving DecidableEq, Repr

namespace Admin

variable (env : AdminEnv)

/-- Makes a message of `type` and offers it. -/
def sendMsg (type : MsgType) (param : UInt8) (buffer : List UInt8) (s : Admin) : Option Admin :=
  (qOffer { type := type.code, param := param, bufferSize := buffer.length, buffer := buffer }
    s.queue).map fun q => { s with queue := q, made := s.made + 1 }

def sendEndOfList (type : MsgType) (s : Admin) : Option Admin := s.sendMsg type (env.unset s.made) []

def sendError (e : AdminError) (s : Admin) : Option Admin := s.sendMsg .ERROR e.code []

/-- `"(%d)%s: %s"` with its terminator. -/
def entryText (number : UInt8) (name value : List UInt8) : List UInt8 :=
  lit "(" ++ lit (toString number.toNat) ++ lit ")" ++ name ++ lit ": " ++ value ++ [0]

/-- A message with the name and the value of an entry. -/
def sendEntry (type : MsgType) (number : UInt8) (name value : List UInt8) (s : Admin) :
    Option Admin :=
  if env.malloc (name.length + value.length + 15) then
    s.sendMsg type (env.unset s.made) (entryText number name value)
  else s.sendError .UNEXPECTED_ERROR

/-- The names of `enum metrics`. -/
def metricNames : List (List UInt8) :=
  [lit "inst_concurrent_conections", lit "max_concurrent_connections", lit "acceses",
    lit "transfered_bytes", lit "avg_connection_time"]

def metricGetName (number : UInt8) : Option (List UInt8) := metricNames[number.toNat]?

def metricGetSize : Nat := metricNames.length

def checkCredentials (s : Admin) : Admin := s

def sendMetric (metric : UInt8) (s : Admin) : Option Admin :=
  match metricGetName metric with
  | none => s.sendError .METRIC_NOT_FOUND
  | some name =>
    let value := stringAt (env.metricGetValueString metric.toNat)
    if value = [] then s.sendError .UNEXPECTED_ERROR
    else s.sendEntry env .GET_METRIC metric name value

def sendConfig (config : UInt8) (s : Admin) : Option Admin :=
  match configGetName config.toNat s.conf with
  | none => s.sendError .CONFIG_NOT_FOUND
  | some name =>
    match configGetFromIndex config.toNat s.conf with
    | none => s.sendError .UNEXPECTED_ERROR
    | some value => s.sendEntry env .GET_CONFIG config (stringAt name) (stringAt value)

/-- `send` for every number below `size`, one after the other. -/
def sendEach (send : UInt8 → Admin → Option Admin) (size : Nat) (s : Admin) : Option Admin :=
  (List.range size).foldlM (fun s i => send (UInt8.ofNat i) s) s

def sendListMetrics (s : Admin) : Option Admin := do
  sendEndOfList env .LIST_METRICS (← sendEach (sendMetric env) metricGetSize s)

def sendListConfigs (s : Admin) : Option Admin := do
  sendEndOfList env .LIST_CONFIGS (← sendEach (sendConfig env) (configGetSize s.conf) s)

def checkSetConfig (config : UInt8) (value : List UInt8) (valueLen : Int) (s : Admin) :
    Option Admin :=
  if config.toNat ≥ configGetSize s.conf then s.sendError .CONFIG_NOT_FOUND
  else if valueLen ≤ 0 then s.sendError .INVALID_LENGTH
  else if ¬env.malloc valueLen.toNat then s.sendError .UNEXPECTED_ERROR
  else
    let (returnValue, conf) := configSetFromIndex config.toNat (value.take valueLen.toNat) s.conf
    let s := { s with conf := conf }
    if returnValue < 0 then s.sendError .CONFIG_NOT_SET
    else s.sendMsg .SET_CONFIG (env.unset s.made) []

/-! ## Handlers -/

/-- `admin_read_handler`, when `received` is the message it receives. -/
def adminReadHandler (received : List UInt8) (s : Admin) : Option Admin := do
  let msg ← deserializeMsg toInt32 (received.take MAX_READ)
  match MsgType.ofCode msg.type with
  | some .SEND_CRED => return s.checkCredentials
  | some .LIST_METRICS => s.sendListMetrics env
  | some .LIST_CONFIGS => s.sendListConfigs env
  | some .GET_METRIC => s.sendMetric env msg.param
  | some .GET_CONFIG => s.sendConfig env msg.param
  | some .SET_CONFIG => s.checkSetConfig env msg.param msg.buffer msg.bufferSize
  | some .ERROR | none => return s

/-- `admin_write_handler`, and the message it sends. -/
def adminWriteHandler (s : Admin) : Option (List (List UInt8) × Admin) :=
  if qIsEmpty s.queue then some ([], s)
  else do
    let (msg, queue) ← qPoll s.queue
    let bytes ← serializeMsg msg
    if bytes.length ≤ MAX_MSG_SIZE then return ([bytes], { s with queue := queue }) else none

end Admin

end HttpProxy
