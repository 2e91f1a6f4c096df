import HttpProxy.AdminDatagrams
import HttpProxy.Library.PartialRun

/-!
# Replies and the buffer they are sent from

Whatever the server is asked, it puts messages behind those in its queue, and each of them is one of
a few: an empty one, the text of a metric, or the text of a configuration that was asked for. The
text of a configuration is longer than its value, and `admin_write_handler` has a buffer of
`MAX_MSG_SIZE` bytes for it, which is also what a value may be received in.

`replies_fit`: no reply is longer than that buffer, in any run in which no configuration is asked for
whose text is.
-/

namespace HttpProxy

namespace Admin

variable {env : AdminEnv} {s : Admin} {msg : Msg} {P : Msg → Prop} {conf conf' : Config}
  {r : Option Admin}

/-! ## What is put into the queue -/

/-- An action from `s` puts messages for which `P` holds behind those in the queue, and leaves the
configurations `conf`. -/
def Offers (s : Admin) (P : Msg → Prop) (conf : Config) (r : Option Admin) : Prop :=
  ∀ msgs, s.queue.Holds msgs → ∃ s' ms, r = some s' ∧ s'.conf = conf ∧
    s'.queue.Holds (msgs ++ ms) ∧ s'.queue.values = s.queue.values ++ ms ∧ ∀ m ∈ ms, P m

theorem offers_nothing (s : Admin) (P : Msg → Prop) : s.Offers P s.conf (some s) := by
  intro msgs h
  refine ⟨s, [], rfl, rfl, ?_, ?_, nofun⟩
  · rwa [List.append_nil]
  · rw [List.append_nil]

/-- What two steps offer one after the other is offered by both. -/
theorem Offers.bind {f : Admin → Option Admin} (h : s.Offers P conf r)
    (hf : ∀ s' : Admin, s'.conf = conf → s'.Offers P conf' (f s')) : s.Offers P conf' (r.bind f) := by
  intro msgs hmsgs
  obtain ⟨s', ms, rfl, hconf, hq, hvalues, hms⟩ := h msgs hmsgs
  obtain ⟨s'', ms', hf', hconf', hq', hvalues', hms'⟩ := hf s' hconf _ hq
  refine ⟨s'', ms ++ ms', hf', hconf', ?_, ?_, ?_⟩
  · rwa [List.append_assoc] at hq'
  · rw [hvalues', hvalues, List.append_assoc]
  · intro m hm
    rcases List.mem_append.mp hm with hm | hm
    · exact hms m hm
    · exact hms' m hm

/-- The messages go into the queue of `s`, whatever its configurations. -/
theorem Offers.of_conf {c : Config} (h : Offers { s with conf := c } P conf r) : s.Offers P conf r :=
  fun msgs hmsgs => h msgs hmsgs

/-- A message is offered behind what is there. -/
theorem offers_sendMsg (s : Admin) {type : MsgType} {param : UInt8} {buffer : List UInt8}
    (h : P ⟨type.code, param, buffer.length, buffer⟩) :
    s.Offers P s.conf (s.sendMsg type param buffer) := by
  intro msgs hmsgs
  obtain ⟨q, hq, hholds⟩ := hmsgs.offer ⟨type.code, param, buffer.length, buffer⟩
  refine ⟨{ s with queue := q, made := s.made + 1 }, _, ?_, rfl, hholds,
    LinkedQueue.values_offer hq, ?_⟩
  · unfold sendMsg qOffer
    rw [hq]
    rfl
  · intro m hm
    obtain rfl := List.mem_singleton.mp hm
    exact h

/-- A message with the text of an entry. -/
def entryMsg (type : MsgType) (param number : UInt8) (name value : List UInt8) : Msg :=
  { type := type.code, param := param, bufferSize := (entryText number name value).length
    buffer := entryText number name value }

/-- A list that is asked for, or an entry of it. -/
def Asks (msg : Msg) (list entry : MsgType) (number : UInt8) : Prop :=
  MsgType.ofCode msg.type = some list ∨ MsgType.ofCode msg.type = some entry ∧ msg.param = number

/-- A message that the server can make of `msg`, when its configurations are `conf`. -/
inductive Answers (env : AdminEnv) (conf : Config) (msg : Msg) : Msg → Prop
  /-- The end of a list, an error, or that a configuration is set. -/
  | empty (type : MsgType) (param : UInt8) : Answers env conf msg ⟨type.code, param, 0, []⟩
  | metric (param number : UInt8) {name : List UInt8} (hname : metricGetName number = some name) :
    Answers env conf msg (entryMsg .GET_METRIC param number name
      (stringAt (env.metricGetValueString number.toNat)))
  | config (param number : UInt8) {e : ConfigEntry} (asked : Asks msg .LIST_CONFIGS .GET_CONFIG number)
    (he : conf[number.toNat]? = some e)
    (memory : env.malloc ((stringAt e.name).length + (stringAt e.value).length + 15) = true) :
    Answers env conf msg (entryMsg .GET_CONFIG param number (stringAt e.name) (stringAt e.value))

/-- An error is an answer to any message. -/
theorem offers_sendError (s : Admin) (e : AdminError) :
    s.Offers (Answers env conf msg) s.conf (s.sendError e) := offers_sendMsg s (.empty .ERROR e.code)

/-- The end of a list is an answer to any message. -/
theorem offers_sendEndOfList (s : Admin) (type : MsgType) :
    s.Offers (Answers env conf msg) s.conf (s.sendEndOfList env type) :=
  offers_sendMsg s (.empty type (env.unset s.made))

/-- An entry is an answer, when the memory for it is there. -/
theorem offers_sendEntry (s : Admin) {type : MsgType} {number : UInt8} {name value : List UInt8}
    (h : ∀ param, env.malloc (name.length + value.length + 15) = true →
      Answers env conf msg (entryMsg type param number name value)) :
    s.Offers (Answers env conf msg) s.conf (s.sendEntry env type number name value) := by
  unfold sendEntry
  split
  · next hmalloc => exact offers_sendMsg s (h _ hmalloc)
  · exact offers_sendError s .UNEXPECTED_ERROR

/-- A metric is an answer by its entry, or by an error where there is none. -/
theorem offers_sendMetric (s : Admin) (metric : UInt8) :
    s.Offers (Answers env conf msg) s.conf (s.sendMetric env metric) := by
  unfold sendMetric
  cases hname : metricGetName metric with
  | none => exact offers_sendError s .METRIC_NOT_FOUND
  | some name =>
    simp only
    split
    · exact offers_sendError s .UNEXPECTED_ERROR
    · exact offers_sendEntry s fun param _ => .metric param metric hname

/-- A setting is an answer to who asks for it, or an error where there is none. -/
theorem offers_sendConfig (s : Admin) {config : UInt8}
    (hasks : Asks msg .LIST_CONFIGS .GET_CONFIG config) :
    s.Offers (Answers env s.conf msg) s.conf (s.sendConfig env config) := by
  unfold sendConfig configGetName configGetFromIndex
  cases he : s.conf[config.toNat]? with
  | none => exact offers_sendError s .CONFIG_NOT_FOUND
  | some e => exact offers_sendEntry s fun param hmalloc => .config param config hasks he hmalloc

/-- The entries of a list are answers, one after the other. The induction is on how many are still to
send. -/
theorem offers_sendEach {send : UInt8 → Admin → Option Admin}
    (h : ∀ (s' : Admin) i, s'.conf = s.conf → s'.Offers P s.conf (send i s')) (size : Nat) :
    s.Offers P s.conf (s.sendEach send size) := by
  unfold sendEach
  generalize List.range size = l
  suffices hl : ∀ s' : Admin, s'.conf = s.conf →
      s'.Offers P s.conf (l.foldlM (fun s i => send (UInt8.ofNat i) s) s') from hl s rfl
  induction l with
  | nil =>
    intro s' hs'
    rw [← hs']
    exact offers_nothing s' P
  | cons i l ih =>
    intro s' hs'
    rw [List.foldlM_cons]
    exact (h s' _ hs').bind ih

/-- The list of metrics is an answer. -/
theorem offers_sendListMetrics (s : Admin) :
    s.Offers (Answers env conf msg) s.conf (s.sendListMetrics env) := by
  have heach : s.Offers (Answers env conf msg) s.conf (s.sendEach (sendMetric env) metricGetSize) :=
    offers_sendEach (fun s' i hs' => hs' ▸ offers_sendMetric s' i) metricGetSize
  apply heach.bind
  intro s' hs'
  rw [← hs']
  exact offers_sendEndOfList s' .LIST_METRICS

/-- The list of settings is an answer to who asks for it. -/
theorem offers_sendListConfigs (s : Admin) (htype : MsgType.ofCode msg.type = some .LIST_CONFIGS) :
    s.Offers (Answers env s.conf msg) s.conf (s.sendListConfigs env) := by
  have heach : s.Offers (Answers env s.conf msg) s.conf
      (s.sendEach (sendConfig env) (configGetSize s.conf)) := by
    apply offers_sendEach
    intro s' i hs'
    rw [← hs']
    exact offers_sendConfig s' (.inl htype)
  apply heach.bind
  intro s' hs'
  have hend : s'.Offers (Answers env s.conf msg) s'.conf (s'.sendEndOfList env .LIST_CONFIGS) :=
    offers_sendEndOfList s' .LIST_CONFIGS
  rwa [hs'] at hend

/-- Setting a setting is answered, whatever becomes of it. -/
theorem offers_checkSetConfig (s : Admin) (config : UInt8) (value : List UInt8) (valueLen : Int) :
    ∃ conf', s.Offers (Answers env conf msg) conf' (s.checkSetConfig env config value valueLen) := by
  unfold checkSetConfig
  split
  · exact ⟨s.conf, offers_sendError s .CONFIG_NOT_FOUND⟩
  split
  · exact ⟨s.conf, offers_sendError s .INVALID_LENGTH⟩
  split
  · exact ⟨s.conf, offers_sendError s .UNEXPECTED_ERROR⟩
  simp only
  refine ⟨(configSetFromIndex config.toNat (value.take valueLen.toNat) s.conf).2, ?_⟩
  split
  · exact (offers_sendError { s with conf := _ } .CONFIG_NOT_SET).of_conf
  · exact (offers_sendEndOfList { s with conf := _ } .SET_CONFIG).of_conf

/-- Whatever it is sent, the server only puts answers behind the messages in its queue. -/
theorem offers_dispatch (env : AdminEnv) (msg : Msg) (s : Admin) :
    ∃ conf', s.Offers (Answers env s.conf msg) conf' (s.dispatch env msg) := by
  unfold dispatch
  cases htype : MsgType.ofCode msg.type with
  | none => exact ⟨s.conf, offers_nothing s _⟩
  | some type =>
    cases type with
    | SEND_CRED => exact ⟨s.conf, offers_nothing s _⟩
    | LIST_METRICS => exact ⟨s.conf, offers_sendListMetrics s⟩
    | LIST_CONFIGS => exact ⟨s.conf, offers_sendListConfigs s htype⟩
    | GET_METRIC => exact ⟨s.conf, offers_sendMetric s msg.param⟩
    | GET_CONFIG => exact ⟨s.conf, offers_sendConfig s (.inr ⟨htype, rfl⟩)⟩
    | SET_CONFIG => exact offers_checkSetConfig s msg.param msg.buffer msg.bufferSize
    | ERROR => exact ⟨s.conf, offers_nothing s _⟩

end Admin

/-! ## Runs of requests and replies -/

/-- `%f` and `%.0f` print no `double` in more characters. -/
def AdminEnv.PrintsDoubles (env : AdminEnv) : Prop :=
  ∀ i, (stringAt (env.metricGetValueString i)).length ≤ 317

inductive AdminEvent
  /-- `admin_read_handler` receives a message, in the process as it then is. -/
  | read (env : AdminEnv) (request : Msg)
  /-- `admin_write_handler` is called. -/
  | write

/-- The requests are messages as they may be on the wire. -/
def AdminEvent.WellFormed : AdminEvent → Prop
  | .read env request => request.Wire ∧ env.PrintsDoubles
  | .write => True

/-- No text that is asked for is longer than what a message has room for. -/
def AdminEvent.AsksShort (conf : Config) : AdminEvent → Prop
  | .read env request => ∀ number e, Admin.Asks request .LIST_CONFIGS .GET_CONFIG number →
    conf[number.toNat]? = some e →
    env.malloc ((stringAt e.name).length + (stringAt e.value).length + 15) = true →
    11 + (lit (toString number.toNat)).length + (stringAt e.name).length + (stringAt e.value).length ≤
      MAX_MSG_SIZE
  | .write => True

/-- A request is read, if not always its payload. -/
theorem Msg.Wire.read {m : Msg} (h : m.Wire) (malloc : Nat → Bool) :
    ∃ d, ProxyHttp.deserializeMsg malloc m.bytes = some d ∧ d.msg.type = m.type ∧
      d.msg.param = m.param := by
  have hfits := h.fits
  have hsmall : m.buffer.length < 2 ^ 31 := Nat.lt_of_le_of_lt (Nat.le_of_add_left_le hfits) (by decide)
  have hread : readInt (m.bufferSize % 2 ^ 32) = m.bufferSize :=
    Program.proxyHttp.readSize_emod (by rw [h.size]; omega) (by rw [h.size]; omega)
  have hheader := deserializeMsgWith_header (deserializeInt_serializeInt _ hread m.buffer) malloc m.type
    m.param
  refine (?_ : ∃ d, deserializeMsgWith readInt malloc
    (m.type :: m.param :: (serializeInt m.bufferSize ++ m.buffer)) = some d ∧ _)
  rw [hheader]
  split
  · split
    · next hpos _ =>
      rcases h.text with htext | ⟨str, hstr, htext⟩
      · rw [h.size, htext] at hpos
        exact absurd hpos (Int.lt_irrefl 0)
      · rw [htext, deserializeString_append hstr []]
        exact ⟨_, rfl, rfl, rfl⟩
    · exact ⟨_, rfl, rfl, rfl⟩
  · exact ⟨_, rfl, rfl, rfl⟩

namespace Admin

variable {env : AdminEnv} {s : Admin} {msg : Msg} {conf : Config}

/-! ### The messages in the queue -/

/-- The text of an entry is its number, its name, its value and five more bytes. -/
theorem length_entryText (number : UInt8) (name value : List UInt8) :
    (entryText number name value).length =
      5 + (lit (toString number.toNat)).length + name.length + value.length := by
  have hopen : (lit "(").length = 1 := rfl
  have hclose : (lit ")").length = 1 := rfl
  have hcolon : (lit ": ").length = 2 := rfl
  unfold entryText
  simp only [List.length_append, List.length_singleton, hopen, hclose, hcolon]
  omega

/-- An entry that fits can go over the wire. -/
theorem wire_entryMsg {type : MsgType} {param number : UInt8} {name value : List UInt8}
    (hname : 0 ∉ name) (hvalue : 0 ∉ value)
    (hfits : 11 + (lit (toString number.toNat)).length + name.length + value.length ≤ MAX_MSG_SIZE) :
    (entryMsg type param number name value).Wire := by
  have hshows : (Reply.entry type number name value).Shows (entryMsg type param number name value) :=
    ⟨rfl, rfl, rfl⟩
  apply hshows.wire ⟨hname, hvalue⟩
  change 6 + (entryText number name value).length ≤ MAX_MSG_SIZE
  rw [length_entryText]
  omega

/-- The name of a metric is short, so that its entry fits. -/
theorem length_metricName {number : UInt8} {name : List UInt8}
    (h : metricGetName number = some name) :
    0 ∉ name ∧ (lit (toString number.toNat)).length + name.length ≤ 27 := by
  have hlt : number.toNat < metricGetSize := (List.getElem?_eq_some_iff.mp h).1
  have hall : ∀ i < metricGetSize, ∀ name ∈ metricNames[i]?,
      0 ∉ name ∧ (lit (toString i)).length + name.length ≤ 27 := by decide
  exact hall number.toNat hlt name h

/-- Every answer to a request is a message as it may be on the wire. -/
theorem Answers.wire {m : Msg} (h : Answers env conf msg m) (hprints : env.PrintsDoubles)
    (hasks : (AdminEvent.read env msg).AsksShort conf) : m.Wire := by
  cases h with
  | empty type param => exact ⟨rfl, .inl rfl, Nat.le_of_ble_eq_true rfl⟩
  | metric param number hname =>
    obtain ⟨hzero, hlen⟩ := length_metricName hname
    apply wire_entryMsg hzero (zero_not_mem_stringAt _)
    have hvalue := hprints number.toNat
    unfold MAX_MSG_SIZE
    omega
  | config param number asked he memory =>
    exact wire_entryMsg (zero_not_mem_stringAt _) (zero_not_mem_stringAt _)
      (hasks number _ asked he memory)

/-- What happens at an event; `none` if it is undefined. -/
def event (s : Admin) : AdminEvent → Option Admin
  | .read env request => s.handleDatagram env request.bytes
  | .write => s.adminWriteHandler.map Prod.snd

def events (s : Admin) (es : List AdminEvent) : Option Admin := PartialRun.run event s es

/-- No step of the run asks for a longer text. -/
def AsksShort (s : Admin) (es : List AdminEvent) : Prop :=
  PartialRun.Along event (fun s e => e.AsksShort s.conf) s es

/-- The queue holds messages that may be sent. -/
def Ready (s : Admin) : Prop := ∃ msgs, s.queue.Holds msgs ∧ ∀ m ∈ msgs, m.Wire

/-- Who asks is read off the head of the message. -/
theorem Asks.of_head {m m' : Msg} {list entry : MsgType} {number : UInt8} (htype : m'.type = m.type)
    (hparam : m'.param = m.param) (h : Asks m' list entry number) : Asks m list entry number := by
  unfold Asks at h ⊢
  rwa [htype, hparam] at h

/-- An event leaves the server ready, when the message is well formed and asks for what is short. -/
theorem ready_event (h : s.Ready) {e : AdminEvent} (hwf : e.WellFormed) (hasks : e.AsksShort s.conf) :
    ∃ s', s.event e = some s' ∧ s'.Ready := by
  obtain ⟨msgs, hq, hmsgs⟩ := h
  cases e with
  | read env request =>
    obtain ⟨hwire, hprints⟩ := hwf
    obtain ⟨d, hd, htype, hparam⟩ := hwire.read env.malloc
    obtain ⟨conf', hoffers⟩ := offers_dispatch env d.msg s
    obtain ⟨s', ms, hs', -, hq', -, hms⟩ := hoffers msgs hq
    refine ⟨s', ?_, msgs ++ ms, hq', fun m hm => ?_⟩
    · change s.handleDatagram env request.bytes = some s'
      unfold handleDatagram
      rw [hwire.take, hd]
      exact hs'
    · rcases List.mem_append.mp hm with hm | hm
      · exact hmsgs m hm
      · exact (hms m hm).wire hprints fun number e hask =>
          hasks number e (hask.of_head htype hparam)
  | write =>
    unfold event
    cases msgs with
    | nil =>
      rw [adminWriteHandler_nil hq]
      exact ⟨s, rfl, [], hq, nofun⟩
    | cons m ms =>
      obtain ⟨q, hwrite, hq'⟩ := adminWriteHandler_cons hq (hmsgs m List.mem_cons_self)
      rw [hwrite]
      exact ⟨_, rfl, ms, hq', fun x hx => hmsgs x (List.mem_cons_of_mem m hx)⟩

/-- What a ready server sends fits in a message. -/
theorem Ready.fits (h : s.Ready) {m : Msg} {q : MsgQueue} (hpoll : qPoll s.queue = some (m, q)) :
    ∃ bytes, serializeMsg m = some bytes ∧ bytes.length ≤ MAX_MSG_SIZE := by
  obtain ⟨msgs, hq, hmsgs⟩ := h
  cases msgs with
  | nil =>
    have hempty : s.queue.first = none := of_decide_eq_true (hq.isEmpty_iff.mpr rfl)
    unfold qPoll LinkedQueue.poll at hpoll
    rw [hempty] at hpoll
    cases hpoll
  | cons m' ms =>
    obtain ⟨q', hpoll', -⟩ := hq.poll
    cases hpoll.symm.trans hpoll'
    have hwire := hmsgs m List.mem_cons_self
    refine ⟨m.bytes, hwire.serialize, ?_⟩
    rw [m.length_bytes]
    exact hwire.fits

/-- In every run of such events the server stays ready. -/
theorem ready_events (h : s.Ready) {es : List AdminEvent} (hwf : ∀ e ∈ es, e.WellFormed)
    (hasks : PartialRun.Along event (fun s e => e.AsksShort s.conf) s es) {pre : List AdminEvent} (hpre : pre <+: es) :
    ∃ s', s.events pre = some s' ∧ s'.Ready := by
  have hboth := hasks.and_forall hwf
  exact (hboth.initial hpre).defined (fun s e hs he => ready_event hs he.1 he.2) h

/-- In a run of requests that ask for no longer texts than a message has room for, every message that
is taken from the queue fits the buffer it is sent from. -/
theorem replies_fit (conf : Config) {es : List AdminEvent} (hwf : ∀ e ∈ es, e.WellFormed)
    (hasks : AsksShort { conf := conf } es) {pre : List AdminEvent} (hpre : pre <+: es) :
    ∃ s, events { conf := conf } pre = some s ∧ ∀ m q, qPoll s.queue = some (m, q) →
      ∃ bytes, serializeMsg m = some bytes ∧ bytes.length ≤ MAX_MSG_SIZE := by
  have hready : Ready { conf := conf } := ⟨[], LinkedQueue.holds_empty, nofun⟩
  obtain ⟨s, hs, hfits⟩ := ready_events hready hwf hasks hpre
  exact ⟨s, hs, fun m q hpoll => hfits.fits hpoll⟩

/-- The plain environment prints doubles as `sprintf` does. -/
theorem printsDoubles_plain : AdminEnv.plain.PrintsDoubles := by
  intro i
  change (stringAt (cLit "0")).length ≤ 317
  decide

/-- The administrator asks for the media types, and is answered. -/
theorem replies_fit_media_types :
    ∃ s, events { conf := mainConfigurations } [.read .plain ⟨4, 0, 0, []⟩] = some s ∧
      ∀ m q, qPoll s.queue = some (m, q) →
        ∃ bytes, serializeMsg m = some bytes ∧ bytes.length ≤ MAX_MSG_SIZE := by
  have hwire : Msg.Wire ⟨4, 0, 0, []⟩ := ⟨rfl, .inl rfl, by decide⟩
  have hpre : [.read .plain ⟨4, 0, 0, []⟩] <+: [AdminEvent.read .plain ⟨4, 0, 0, []⟩, .write] :=
    ⟨[.write], rfl⟩
  apply replies_fit mainConfigurations ?_ ?_ hpre
  · intro e he
    rcases List.mem_pair.mp he with rfl | rfl
    · exact ⟨hwire, printsDoubles_plain⟩
    · trivial
  · refine ⟨fun number e hask he _ => ?_, fun _ _ => ⟨trivial, fun _ _ => trivial⟩⟩
    rcases hask with hlist | ⟨-, hnumber⟩
    · cases hlist
    · cases hnumber
      cases he
      decide

/-- A value that is received in as many bytes as the server receives, and the reply that has it. -/
def longest : List AdminEvent :=
  [.read .plain (stringMsg .SET_CONFIG 0 (List.replicate 1017 0x61)), .write,
    .read .plain ⟨4, 0, 0, []⟩]

theorem longest_overflows : (∀ e ∈ longest, e.WellFormed) ∧
    ∃ s m q, events { conf := mainConfigurations } longest = some s ∧ qPoll s.queue = some (m, q) ∧
      ∃ bytes, serializeMsg m = some bytes ∧ MAX_MSG_SIZE < bytes.length := by
  constructor
  · intro e he
    unfold longest at he
    simp only [List.mem_cons, List.not_mem_nil, or_false] at he
    rcases he with rfl | rfl | rfl
    · exact ⟨wire_stringMsg (by decide +kernel), printsDoubles_plain⟩
    · trivial
    · exact ⟨⟨rfl, .inl rfl, by decide⟩, printsDoubles_plain⟩
  · have hrun : ((events { conf := mainConfigurations } longest).bind fun s =>
        (qPoll s.queue).bind fun r => (serializeMsg r.1).map List.length) = some 1040 := by
      decide +kernel
    obtain ⟨s, hs, hpoll⟩ := Option.bind_eq_some_iff.mp hrun
    obtain ⟨⟨m, q⟩, hq, hbytes⟩ := Option.bind_eq_some_iff.mp hpoll
    obtain ⟨bytes, hbytes, hlen⟩ := Option.map_eq_some_iff.mp hbytes
    refine ⟨s, m, q, hs, hq, bytes, hbytes, ?_⟩
    rw [hlen]
    decide

end Admin

end HttpProxy
