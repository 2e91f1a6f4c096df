import HttpProxy.Client
import HttpProxy.Metric
import HttpProxy.Selector

/-!
# The proxy

The handlers of the selector's events (`client_handlers.c`, `remote_handlers.c`, `client.c`,
`transformations.c`, `main.c`) on the state they share: the clients, the selector, the open
descriptors of the process, the resolver's threads and the metrics.

What a system call returns comes with the event (`Event`): the run chooses it. `sysRead` and
`sysWrite` give -1 for a descriptor that is not open. The transformation's handlers are left out:
`client_new` registers them only when `shouldTransform`, which it has just set to `false`.

`Proxy.trace` is what was done, newest first. No handler reads it.
-/

namespace HttpProxy

abbrev ClientId := Nat

/-- The handlers a descriptor is registered with and the client they are given. -/
inductive Handlers
  | client (i : ClientId)
  | remote (i : ClientId)
  /-- The listening socket, the administration's socket and the log's pipe. -/
  | other
deriving DecidableEq, Repr

inductive Status
  | running
  | exited (code : Nat)
  /-- In a call of a parser that does not return. -/
  | spins
  /-- Through a handler that is `NULL`. -/
  | crashed
deriving DecidableEq, Repr

inductive Action
  | opened (i : ClientId) (fd : Int)
  | closed (i : ClientId) (fd : Int)
  /-- `client_new` is over. -/
  | made (i : ClientId)
  /-- Something is done with a buffer, a parser or the host callback of the client. -/
  | used (i : ClientId)
  /-- Read from the client. -/
  | received (i : ClientId) (bytes : List UInt8)
  /-- Written to the origin. -/
  | sent (i : ClientId) (bytes : List UInt8)
  /-- Read from the origin. -/
  | fetched (i : ClientId) (bytes : List UInt8)
  /-- Written to the client. -/
  | delivered (i : ClientId) (bytes : List UInt8)
  /-- `client_set_host` starts the resolver's thread. -/
  | asked (i : ClientId)
  /-- A job of `i`'s resolution called `client_block` of `j`. -/
  | resumed (i j : ClientId)
  /-- `client_close` is over, this many seconds after `client_new`. -/
  | ended (i : ClientId) (seconds : Int)
deriving DecidableEq, Repr

/-- `struct blocking_job`, and whose resolution it is of. -/
structure Job where
  fd : Int
  owner : ClientId
deriving DecidableEq, Repr

structure Proxy where
  status : Status := .running
  config : Config := mainConfigurations
  sel : Selector Handlers := {}
  clients : ClientId → Client := fun _ => {}
  /-- How many clients were made; they are numbered in order. -/
  made : Nat := 0
  /-- The open descriptors. -/
  fds : List Int := []
  /-- Clients whose resolver's thread is in `getaddrinfo`. -/
  resolving : List ClientId := []
  /-- Clients whose resolver's thread is past `getaddrinfo`. -/
  notifying : List ClientId := []
  /-- `resolution_jobs`, newest first. -/
  jobs : List Job := []
  metrics : Metrics := {}
  /-- What `time` returns. -/
  now : Int := 0
  trace : List Action := []

/-! ## What the system calls of an event return -/

/-- In `transformations_new`; `none` is -1. -/
structure TransfCalls where
  /-- The read and the write end of `pipe_in`. -/
  pipeIn : Option (Int × Int)
  pipeOut : Option (Int × Int)
  errorFd : Option Int
  /-- Whether `fork` makes a process. -/
  fork : Bool
deriving DecidableEq, Repr

structure AcceptCalls where
  accept : Option Int
  transf : TransfCalls
deriving DecidableEq, Repr

inductive ConnectResult
  | success
  | inProgress
  | failed
deriving DecidableEq, Repr

/-- In `client_block`. -/
structure BlockCalls where
  socket : Option Int
  connect : ConnectResult
deriving DecidableEq, Repr

namespace Proxy

/-! ## Parts of the state -/

def act (s : Proxy) (a : Action) : Proxy := { s with trace := a :: s.trace }

def use (s : Proxy) (i : ClientId) : Proxy := s.act (.used i)

def modify (s : Proxy) (i : ClientId) (f : Client → Client) : Proxy :=
  { s with clients := Function.update s.clients i (f (s.clients i)) }

/-- Something done with the buffers or the parsers of a client. -/
def onBuffers (s : Proxy) (i : ClientId) (f : Client → Client) : Proxy := (s.use i).modify i f

/-- A descriptor the system returned to a handler of a client. -/
def openFd (s : Proxy) (i : ClientId) (fd : Int) : Proxy :=
  { s with fds := fd :: s.fds }.act (.opened i fd)

/-- `close` by a handler of a client. -/
def closeFd (s : Proxy) (i : ClientId) (fd : Int) : Proxy :=
  { s with fds := s.fds.filter (· ≠ fd) }.act (.closed i fd)

/-- `read` of at most `space` bytes. -/
def sysRead (s : Proxy) (fd : Int) (r : Option (List UInt8)) (space : Nat) :
    Option (List UInt8) :=
  if fd ∈ s.fds then r.map (·.take space) else none

/-- `write` of `bytes`, of which the system takes some. -/
def sysWrite (s : Proxy) (fd : Int) (r : Option Nat) (bytes : List UInt8) :
    Option (List UInt8) :=
  if fd ∈ s.fds then r.map fun n => bytes.take n else none

def setInterest (s : Proxy) (fd : Int) (i : FdInterest) : Proxy :=
  { s with sel := (s.sel.setInterest fd i).2 }

/-- The process ends or hangs. -/
def stop (s : Proxy) (status : Status) : Proxy := { s with status := status }

/-- `metric_add_transfered_bytes`. -/
def count (s : Proxy) (n : Nat) : Proxy :=
  { s with metrics := metricAddTransferedBytes n s.metrics }

/-! ## Closing -/

def remoteClose (s : Proxy) (i : ClientId) : Proxy :=
  (s.closeFd i (s.clients i).originFd).modify i fun c => { c with originFd := -1 }

def clientFreeResources (unregister : Proxy → Int → Proxy) (s : Proxy) (i : ClientId) : Proxy :=
  let s :=
    if (s.clients i).originFd ≠ -1 then
      (unregister (s.closeFd i (s.clients i).originFd) (s.clients i).originFd).modify i
        fun c => { c with originFd := -1 }
    else s
  s.closeFd i (s.clients i).clientFd

def clientClose (unregister : Proxy → Int → Proxy) (s : Proxy) (i : ClientId) : Proxy :=
  let initTime := (s.clients i).initTime
  let s := { s with metrics := metricCloseConnection initTime s.now s.metrics }
  (clientFreeResources unregister s i).act (.ended i (s.now - initTime))

def handleClose (unregister : Proxy → Int → Proxy) (s : Proxy) : Handlers → Proxy
  | .client i => clientClose unregister s i
  | .remote i => s.remoteClose i
  | .other => s

/-- `selector_unregister_fd`, with as many calls of itself inside `handle_close` as `depth`. -/
def unregisterAt : Nat → Proxy → Int → Proxy
  | 0, s, _ => s
  | depth + 1, s, fd =>
    if invalidFd fd then s
    else
      match s.sel.handlerAt fd with
      | none => s
      | some h =>
        let s := handleClose (unregisterAt depth) s h
        { s with sel := s.sel.clear fd }

/-- `selector_unregister_fd`: the close of a client calls it for the origin, whose close does not
call it. -/
def unregister (s : Proxy) (fd : Int) : Proxy := unregisterAt 2 s fd

/-! ## The client's handlers -/

def clientSetHost (s : Proxy) (i : ClientId) (host : List UInt8) (port : Int) : Proxy :=
  let r := (s.clients i).setHost host port
  let s := (s.use i).modify i fun _ => r.2
  if r.1 then { s with resolving := i :: s.resolving }.act (.asked i) else s

/-- `client->request_complete = checkRequest(…)`. -/
def parseRequest (s : Proxy) (i : ClientId) : Proxy :=
  let c := s.clients i
  match checkRequest c.reqData c.preReqParseBuf c.postReqParseBuf with
  | none => (s.use i).stop .spins
  | some r =>
    let s := s.onBuffers i fun c =>
      { c with reqData := r.rData, preReqParseBuf := r.bIn, postReqParseBuf := r.bOut }
    let s := r.calls.foldl (fun s call => s.clientSetHost i call.1 call.2) s
    s.modify i fun c => { c with requestComplete := r.success }

/-- The loop of `readAndWrite` behind `checkRequest`. -/
def drainRequest (s : Proxy) (i : ClientId) : Proxy :=
  s.onBuffers i fun c =>
    let (pre, post) := drain c.preReqParseBuf c.postReqParseBuf
    { c with preReqParseBuf := pre, postReqParseBuf := post }

/-- `buffer_write_adv` over what was read from the client. -/
def receive (s : Proxy) (i : ClientId) : Option (List UInt8) → Proxy
  | none => s.use i
  | some bytes =>
    (s.onBuffers i fun c =>
      { c with preReqParseBuf := bufferWriteAdv c.preReqParseBuf bytes }).act (.received i bytes)

def clientRead (s : Proxy) (i : ClientId) (r : Option (List UInt8)) : Proxy :=
  let c := s.clients i
  match c.state with
  | .NO_ORIGIN =>
    let s := s.use i
    if bufferCanWrite c.preReqParseBuf then
      let readBytes := s.sysRead c.clientFd r (bufferWriteSpace c.preReqParseBuf)
      -- The connection is closed, and the handler goes on.
      let s := if readBytes = none then s.unregister c.clientFd else s
      let s := s.receive i readBytes
      let s := if c.reqData.parserState ≠ .FINISHED then s.parseRequest i else s
      if s.status ≠ .running then s
      else if (s.clients i).reqData.state ≠ .OK then s.unregister c.clientFd
      else s.drainRequest i
    else s.setInterest c.clientFd OP_NOOP
  | .SEND_REQ =>
    let s := s.use i
    if bufferCanWrite c.preReqParseBuf then
      let readBytes := s.sysRead c.clientFd r (bufferWriteSpace c.preReqParseBuf)
      let s := (s.receive i readBytes).parseRequest i
      if s.status ≠ .running then s
      else
        let s := (s.drainRequest i).modify i fun c =>
          { c with state := .ofValue c.reqData.state.value }
        s.setInterest (s.clients i).originFd OP_WRITE
    else s.setInterest c.clientFd OP_NOOP
  | _ => s

def clientWrite (s : Proxy) (i : ClientId) (r : Option Nat) : Proxy :=
  let c := s.clients i
  match c.state with
  | .READ_RESP =>
    let s := s.use i
    if bufferCanRead c.postResParseBuf then
      match s.sysWrite c.clientFd r c.postResParseBuf.bytes with
      | none => s.unregister c.clientFd
      | some bytes =>
        let s := (s.count bytes.length).onBuffers i fun c =>
          { c with postResParseBuf := bufferReadAdv c.postResParseBuf bytes.length }
        (s.act (.delivered i bytes)).setInterest (if c.shouldTransform then c.transfOutFd else c.originFd)
          OP_READ
    else if c.originFd = -1 ∧ c.shouldTransform = false then s.unregister c.clientFd
    else if c.shouldTransform = true ∧ c.transfOutFd = -1 then s.unregister c.clientFd
    else s
  | _ => s

/-- `fd` is the descriptor the handler was called for. -/
def clientBlock (s : Proxy) (fd : Int) (i : ClientId) (o : BlockCalls) : Proxy :=
  let c := s.clients i
  if c.host.resolved = false then s.unregister c.clientFd
  else
    match o.socket with
    | none => s.modify i fun c => { c with state := .CLI_ERROR }
    | some originSocket =>
      let s := (s.openFd i originSocket).modify i fun c =>
        { c with state := .SEND_REQ, originFd := originSocket }
      match o.connect with
      | .success | .failed => s
      | .inProgress =>
        let r := s.sel.setInterest fd OP_NOOP
        let s := { s with sel := r.2 }
        if r.1 ≠ .SELECTOR_SUCCESS then s.stop (.exited 13)
        else
          let r := s.sel.register originSocket (.remote i) OP_WRITE
          let s := { s with sel := r.2 }
          if r.1 ≠ .SELECTOR_SUCCESS then s.stop (.exited 13) else s

/-! ## The origin's handlers -/

/-- What `remote_read` asks for when the response was parsed. -/
def responseInterests (s : Proxy) (i : ClientId) : Proxy :=
  let c := s.clients i
  let s :=
    if c.shouldTransform = true ∧ bufferCanRead c.preTransfBuf = true then
      s.setInterest c.transfInFd OP_WRITE
    else s
  if c.shouldTransform = false then s.setInterest c.clientFd OP_WRITE else s

/-- The end of a response: the origin is closed and the client can be written to. -/
def responseFinished (s : Proxy) (i : ClientId) : Proxy :=
  let s := s.unregister (s.clients i).originFd
  s.setInterest (s.clients i).clientFd OP_WRITE

/-- What `remote_read` does with the bytes it read. -/
def parseResponse (s : Proxy) (i : ClientId) (bytes : List UInt8) : Proxy :=
  let s := (s.onBuffers i fun c =>
    { c with preResParseBuf := bufferWriteAdv c.preResParseBuf bytes }).act (.fetched i bytes)
  let c := s.clients i
  match checkResponse c.resData c.preResParseBuf c.postResParseBuf c.preTransfBuf with
  | none => (s.use i).stop .spins
  | some r =>
    let s := s.onBuffers i fun c =>
      { c with
        resData := r.rData
        preResParseBuf := r.bIn
        postResParseBuf := r.bOut
        preTransfBuf := r.bTransf }
    if r.rData.state ≠ .RES_OK then s.stop (.exited 42)
    else if r.rData.parserState = .RES_FINISHED then (s.responseFinished i).responseInterests i
    else s.responseInterests i

def remoteRead (s : Proxy) (i : ClientId) (r : Option (List UInt8)) : Proxy :=
  let c := s.clients i
  match c.state with
  | .READ_RESP =>
    let s := s.use i
    if bufferCanWrite c.preResParseBuf then
      match s.sysRead c.originFd r (bufferWriteSpace c.preResParseBuf) with
      | none => (s.setInterest c.clientFd OP_WRITE).unregister c.originFd
      | some [] => s
      | some bytes => s.parseResponse i bytes
    else s.setInterest c.originFd OP_NOOP
  | _ => s

def remoteWrite (s : Proxy) (i : ClientId) (r : Option Nat) : Proxy :=
  let c := s.clients i
  match c.state with
  | .SEND_REQ =>
    let s := s.use i
    if bufferCanRead c.postReqParseBuf then
      match s.sysWrite c.originFd r c.postReqParseBuf.bytes with
      | none => (s.setInterest c.clientFd OP_WRITE).unregister c.originFd
      | some bytes =>
        let s := (s.count bytes.length).onBuffers i fun c =>
          { c with postReqParseBuf := bufferReadAdv c.postReqParseBuf bytes.length }
        (s.act (.sent i bytes)).setInterest c.clientFd OP_READ
    else if c.requestComplete then
      (s.setInterest c.originFd OP_READ).modify i fun c => { c with state := .READ_RESP }
    else s.setInterest c.originFd OP_NOOP
  | _ => s

/-! ## New clients -/

/-- `transformations_new` in the proxy's process; the ends it returns, unless it fails. -/
def transformationsNew (s : Proxy) (i : ClientId) (t : TransfCalls) :
    Option (Int × Int) × Proxy :=
  match t.pipeIn with
  | none => (none, s)
  | some (in₀, in₁) =>
    let s := (s.openFd i in₀).openFd i in₁
    match t.pipeOut with
    | none => (none, (s.closeFd i in₀).closeFd i in₁)
    | some (out₀, out₁) =>
      let s := (s.openFd i out₀).openFd i out₁
      if configGet (cLit "error_file") s.config = none then (none, s)
      else
        match t.errorFd with
        | none => (none, s)
        | some errorFd =>
          let s := s.openFd i errorFd
          if t.fork then (some (in₁, out₀), (s.closeFd i in₀).closeFd i out₁)
          else
            (none,
              ((((s.closeFd i out₀).closeFd i out₁).closeFd i in₀).closeFd i in₁).closeFd i errorFd)

def clientNew (s : Proxy) (i : ClientId) (fd : Int) (t : TransfCalls) : Proxy :=
  let (ends, s) := s.transformationsNew i t
  let c := Client.fresh (fun _ => true) s.config
  let s := s.modify i fun _ =>
    { c with
      clientFd := fd
      transfInFd := (ends.getD (-1, -1)).1
      transfOutFd := (ends.getD (-1, -1)).2
      initTime := s.now }
  { s with metrics := metricNewConnection s.metrics }.act (.made i)

def listenReadHandler (s : Proxy) (o : AcceptCalls) : Proxy :=
  match o.accept with
  | none => s
  | some clientSocket =>
    let i := s.made
    let s := { s with made := i + 1 }.openFd i clientSocket
    let s := s.clientNew i clientSocket o.transf
    -- Whether the registration succeeds is not looked at.
    { s with sel := (s.sel.register clientSocket (.client i) OP_READ).2 }

/-! ## The resolver's threads and the selector's queue -/

/-- `getaddrinfo` returns in the thread of a client. -/
def resolve (s : Proxy) (i : ClientId) (found : Bool) : Proxy :=
  if i ∈ s.resolving then
    { s with resolving := s.resolving.erase i, notifying := i :: s.notifying }.modify i
      fun c => { c with host := { c.host with resolved := found } }
  else s

/-- `selector_notify_block`, the end of the thread. -/
def notify (s : Proxy) (i : ClientId) : Proxy :=
  if i ∈ s.notifying then
    { s with
      notifying := s.notifying.erase i
      jobs := ⟨(s.clients i).clientFd, i⟩ :: s.jobs }
  else s

/-- `handle_block` of the handlers registered for a descriptor. -/
def handleBlock (s : Proxy) (fd : Int) (o : BlockCalls) : Proxy :=
  match s.sel.handlerAt fd with
  | none | some (.remote _) => s
  | some .other => s.stop .crashed
  | some (.client i) => s.clientBlock fd i o

/-- One job of `handle_block_notifications`. -/
def handleJob (s : Proxy) (j : Job) (o : BlockCalls) : Proxy :=
  match s.sel.handlerAt j.fd with
  | some (.client i) => (s.handleBlock j.fd o).act (.resumed j.owner i)
  | _ => s.handleBlock j.fd o

def handleJobs (s : Proxy) : List Job → List BlockCalls → Proxy
  | [], _ => { s with jobs := [] }
  | j :: jobs, os =>
    let s := s.handleJob j (os.headD ⟨none, .failed⟩)
    if s.status ≠ .running then s else handleJobs s jobs os.tail

def handleBlockNotifications (s : Proxy) (os : List BlockCalls) : Proxy := s.handleJobs s.jobs os

end Proxy

end HttpProxy
