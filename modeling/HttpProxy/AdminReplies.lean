import HttpProxy.Admin
import Mathlib.Data.List.Forall2
import Mathlib.Data.List.TakeWhile

/-!
# What the administration answers

The messages that come through the serializers as they went in, and, for each action of the server,
the replies it puts into the queue.
-/

namespace HttpProxy

/-! ## Messages on the wire -/

/-- A message with no text, or with one that is terminated and of the size it says, and no longer
than a message may be. -/
structure Msg.Wire (m : Msg) : Prop where
  size : m.bufferSize = m.buffer.length
  text : m.buffer = [] ∨ ∃ str, 0 ∉ str ∧ m.buffer = str ++ [0]
  fits : 6 + m.buffer.length ≤ MAX_MSG_SIZE

/-- What a message is sent as. -/
def Msg.bytes (m : Msg) : List UInt8 := m.type :: m.param :: serializeInt m.bufferSize ++ m.buffer

/-- A datagram is its six bytes of header and its buffer. -/
theorem Msg.length_bytes (m : Msg) : m.bytes.length = 6 + m.buffer.length := by
  unfold Msg.bytes serializeInt
  simp only [List.cons_append, List.nil_append, List.length_cons]
  omega

/-- A byte of the size field, as a number. -/
theorem byteAt_toNat (value : Int) (shift : Nat) :
    ((byteAt value shift).toNat : Int) = value / 2 ^ shift % 256 := by
  have hlt := Int.emod_lt_of_pos (value / 2 ^ shift) (by decide : (0 : Int) < 256)
  have hle := Int.emod_nonneg (value / 2 ^ shift) (by decide : (256 : Int) ≠ 0)
  unfold byteAt
  rw [UInt8.toNat_ofNat']
  omega

/-- Any way to read a number of 31 bits gets it back. -/
theorem deserializeInt_serializeInt {read : Int → Int} (value : Int)
    (hread : read (value % 2 ^ 32) = value) (l : List UInt8) :
    deserializeInt read (serializeInt value ++ l) = some (value, l) := by
  unfold serializeInt
  simp only [List.cons_append, List.nil_append, deserializeInt, Option.some.injEq, Prod.mk.injEq,
    and_true]
  rw [← hread]
  congr 1
  have h₀ := byteAt_toNat value 0
  have h₁ := byteAt_toNat value 8
  have h₂ := byteAt_toNat value 16
  have h₃ := byteAt_toNat value 24
  rw [hread]
  omega

/-- A string is sent up to its zero, with it. -/
theorem serializeString_append {str : List UInt8} (h : 0 ∉ str) (l : List UInt8) :
    serializeString (str ++ 0 :: l) = some (str ++ [0]) := by
  induction str with
  | nil => rfl
  | cons c str ih =>
    rw [List.mem_cons, not_or] at h
    rw [List.cons_append, serializeString, if_neg (Ne.symm h.1), ih h.2]
    rfl

/-- A string is received up to its zero, with it; what stands behind is left. -/
theorem deserializeString_append {str : List UInt8} (h : 0 ∉ str) (l : List UInt8) :
    deserializeString (str ++ 0 :: l) = some (str ++ [0], l) := by
  induction str with
  | nil => rfl
  | cons c str ih =>
    rw [List.mem_cons, not_or] at h
    rw [List.cons_append, deserializeString, if_neg (Ne.symm h.1), ih h.2]
    rfl

/-- A message on the wire is serialized as its header and its buffer. -/
theorem Msg.Wire.serialize {m : Msg} (h : m.Wire) : serializeMsg m = some m.bytes := by
  unfold serializeMsg Msg.bytes
  rcases h.text with htext | ⟨str, hstr, htext⟩
  · rw [if_neg (by rw [h.size, htext]; decide), htext, List.append_nil]
  · have hpos : m.bufferSize > 0 := by
      rw [h.size, htext, List.length_append, List.length_singleton]
      omega
    rw [if_pos hpos, htext, serializeString_append hstr]
    rfl

/-- A message on the wire is received as it was sent, when the size field is read as the number it
shows. -/
theorem Msg.Wire.deserialize {m : Msg} (h : m.Wire) {read : Int → Int}
    (hread : ∀ n : Int, 0 ≤ n → n < 2 ^ 31 → read n = n) :
    deserializeMsg read m.bytes = some m := by
  have hfits := h.fits
  have hvalue : read (m.bufferSize % 2 ^ 32) = m.bufferSize := by
    have hlt : m.buffer.length < 2 ^ 31 := Nat.lt_of_le_of_lt (Nat.le_of_add_left_le hfits) (by decide)
    rw [h.size, Int.emod_eq_of_lt (by omega) (by omega)]
    exact hread _ (by omega) (by omega)
  unfold deserializeMsg Msg.bytes
  simp only [List.cons_append, deserializeChar, Option.bind_eq_bind, Option.bind_some,
    deserializeInt_serializeInt _ hvalue]
  rcases h.text with htext | ⟨str, hstr, htext⟩
  · rw [if_neg (by rw [h.size, htext]; decide), ← htext]
    rfl
  · have hpos : m.bufferSize > 0 := by
      rw [h.size, htext, List.length_append, List.length_singleton]
      omega
    rw [if_pos hpos, htext, deserializeString_append hstr, Option.bind_some, ← htext]
    rfl

/-- A message on the wire fits in one `recvfrom`. -/
theorem Msg.Wire.take {m : Msg} (h : m.Wire) : m.bytes.take MAX_READ = m.bytes :=
  List.take_of_length_le (by rw [m.length_bytes]; exact h.fits)

/-! ## Replies -/

/-- What a message says to the administrator. -/
inductive Reply
  /-- An entry of a list. -/
  | entry (type : MsgType) (number : UInt8) (name value : List UInt8)
  /-- The end of a list, or that a configuration is set. -/
  | empty (type : MsgType)
  | error (e : AdminError)
deriving DecidableEq, Repr

/-- The message says so. -/
def Reply.Shows : Reply → Msg → Prop
  | .entry type number name value, m =>
    m.type = type.code ∧ m.bufferSize = m.buffer.length ∧ m.buffer = Admin.entryText number name value
  | .empty type, m => m.type = type.code ∧ m.bufferSize = 0 ∧ m.buffer = []
  | .error e, m => m.type = MsgType.ERROR.code ∧ m.param = e.code ∧ m.bufferSize = 0 ∧ m.buffer = []

def Reply.isEntry : Reply → Bool
  | .entry .. => true
  | .empty _ | .error _ => false

/-- The message of the reply is no longer than a message may be. -/
def Reply.Fits : Reply → Prop
  | .entry _ number name value => 6 + (Admin.entryText number name value).length ≤ MAX_MSG_SIZE
  | .empty _ | .error _ => True

instance : DecidablePred Reply.Fits
  | .entry _ number name value =>
    inferInstanceAs (Decidable (6 + (Admin.entryText number name value).length ≤ MAX_MSG_SIZE))
  | .empty _ | .error _ => inferInstanceAs (Decidable True)

/-- The name and the value are strings. -/
def Reply.Strings : Reply → Prop
  | .entry _ _ name value => 0 ∉ name ∧ 0 ∉ value
  | .empty _ | .error _ => True

/-- The digits of a number are a string. -/
theorem zero_not_mem_number (number : UInt8) : 0 ∉ lit (toString number.toNat) := by
  intro h
  obtain ⟨c, hc, h0⟩ := List.mem_map.mp h
  have hdigit : c.isDigit := Nat.isDigit_of_mem_toDigits (b := 10) (by decide) (by decide) (by
    rwa [Nat.toString_eq_repr, Nat.toList_repr] at hc)
  have hc' : 48 ≤ c.toNat ∧ c.toNat ≤ 57 := Char.isDigit_iff_toNat.mp hdigit
  have hcode := congrArg UInt8.toNat h0
  rw [UInt8.toNat_ofNat'] at hcode
  simp only [UInt8.toNat_zero] at hcode
  omega

/-- A reply that shows strings that fit is a message on the wire. -/
theorem Reply.Shows.wire {r : Reply} {m : Msg} (h : r.Shows m) (hstrings : r.Strings)
    (hfits : r.Fits) : m.Wire := by
  have hempty : m.bufferSize = 0 → m.buffer = [] → m.Wire := fun hsize hbuf =>
    ⟨by rw [hsize, hbuf]; rfl, .inl hbuf, by rw [hbuf]; decide⟩
  cases r with
  | entry type number name value =>
    obtain ⟨-, hsize, hbuf⟩ := h
    obtain ⟨hname, hvalue⟩ := hstrings
    refine ⟨hsize, .inr ⟨_, ?_, hbuf⟩, by rwa [hbuf]⟩
    simp only [List.mem_append, not_or]
    exact ⟨⟨⟨⟨⟨by decide, zero_not_mem_number number⟩, by decide⟩, hname⟩, by decide⟩, hvalue⟩
  | empty type => exact hempty h.2.1 h.2.2
  | error e => exact hempty h.2.2.1 h.2.2.2

/-- Only an entry has a buffer. -/
theorem Reply.Shows.pos_iff {r : Reply} {m : Msg} (h : r.Shows m) :
    0 < m.bufferSize ↔ r.isEntry = true := by
  cases r with
  | entry type number name value =>
    refine iff_of_true ?_ rfl
    rw [h.2.1, h.2.2]
    unfold Admin.entryText
    rw [List.length_append, List.length_singleton]
    omega
  | empty type => exact iff_of_false (by rw [h.2.1]; decide) Bool.false_ne_true
  | error e => exact iff_of_false (by rw [h.2.2.1]; decide) Bool.false_ne_true

namespace Admin

variable {env : AdminEnv} {s : Admin} {r : Option Admin} {conf : Config} {rs : List Reply}

/-! ## The replies of the actions -/

/-- A run of an action from `s` puts messages behind those in the queue that say `rs`, and leaves
the configurations `conf`. -/
def Sends (s : Admin) (rs : List Reply) (conf : Config) (r : Option Admin) : Prop :=
  ∀ msgs, s.queue.Holds msgs → ∃ s' ms, r = some s' ∧ s'.conf = conf ∧
    s'.queue.Holds (msgs ++ ms) ∧ List.Forall₂ Reply.Shows rs ms

theorem sends_nothing (s : Admin) : s.Sends [] s.conf (some s) := fun msgs h =>
  ⟨s, [], rfl, rfl, by rwa [List.append_nil], .nil⟩

/-- What two steps send one after the other is sent by both. -/
theorem Sends.bind {rs' : List Reply} {conf' : Config} {f : Admin → Option Admin}
    (h : s.Sends rs conf r) (hf : ∀ s' : Admin, s'.conf = conf → s'.Sends rs' conf' (f s')) :
    s.Sends (rs ++ rs') conf' (r.bind f) := by
  intro msgs hmsgs
  obtain ⟨s', ms, rfl, hconf, hq, hms⟩ := h msgs hmsgs
  obtain ⟨s'', ms', hf', hconf', hq', hms'⟩ := hf s' hconf _ hq
  rw [List.append_assoc] at hq'
  exact ⟨s'', ms ++ ms', hf', hconf', hq', List.rel_append hms hms'⟩

/-- A message is queued behind what is there. -/
theorem sends_sendMsg (s : Admin) {reply : Reply} {type : MsgType} {param : UInt8}
    {buffer : List UInt8} (h : reply.Shows ⟨type.code, param, buffer.length, buffer⟩) :
    s.Sends [reply] s.conf (s.sendMsg type param buffer) := by
  intro msgs hmsgs
  obtain ⟨q, hq, hholds⟩ := hmsgs.offer ⟨type.code, param, buffer.length, buffer⟩
  refine ⟨{ s with queue := q, made := s.made + 1 }, _, ?_, rfl, hholds, .cons h .nil⟩
  unfold sendMsg qOffer
  rw [hq]
  rfl

/-- An error is answered by its code alone. -/
theorem sends_sendError (s : Admin) (e : AdminError) :
    s.Sends [.error e] s.conf (s.sendError e) := sends_sendMsg s ⟨rfl, rfl, rfl, rfl⟩

/-- A list ends with an empty entry. -/
theorem sends_sendEndOfList (env : AdminEnv) (s : Admin) (type : MsgType) :
    s.Sends [.empty type] s.conf (s.sendEndOfList env type) := sends_sendMsg s ⟨rfl, rfl, rfl⟩

/-- An entry is answered by its name and its value, when the memory for it is there. -/
theorem sends_sendEntry (hmalloc : ∀ n, env.malloc n = true) (s : Admin) (type : MsgType)
    (number : UInt8) (name value : List UInt8) :
    s.Sends [.entry type number name value] s.conf (s.sendEntry env type number name value) := by
  unfold sendEntry
  rw [if_pos (hmalloc _)]
  exact sends_sendMsg s ⟨rfl, rfl, rfl⟩

/-- What a `GET_METRIC` of the metric is answered. -/
def metricReply (env : AdminEnv) (metric : UInt8) : Reply :=
  match metricGetName metric with
  | none => .error .METRIC_NOT_FOUND
  | some name => .entry .GET_METRIC metric name (stringAt (env.metricGetValueString metric.toNat))

/-- What a `GET_CONFIG` of the configuration is answered. -/
def configReply (conf : Config) (config : UInt8) : Reply :=
  match conf[config.toNat]? with
  | none => .error .CONFIG_NOT_FOUND
  | some e => .entry .GET_CONFIG config (stringAt e.name) (stringAt e.value)

/-- A metric is answered by its entry, or by an error where there is none. -/
theorem sends_sendMetric (hmalloc : ∀ n, env.malloc n = true)
    (hvalue : ∀ i < metricGetSize, stringAt (env.metricGetValueString i) ≠ []) (s : Admin) (metric : UInt8) :
    s.Sends [metricReply env metric] s.conf (s.sendMetric env metric) := by
  unfold sendMetric metricReply
  cases h : metricGetName metric with
  | none => exact sends_sendError s _
  | some name =>
    have hlt : metric.toNat < metricGetSize := (List.getElem?_eq_some_iff.mp h).1
    simp only
    rw [if_neg (hvalue metric.toNat hlt)]
    exact sends_sendEntry hmalloc s _ _ _ _

/-- A setting is answered by its entry, or by an error where there is none. -/
theorem sends_sendConfig (hmalloc : ∀ n, env.malloc n = true) (s : Admin) (config : UInt8) :
    s.Sends [configReply s.conf config] s.conf (s.sendConfig env config) := by
  unfold sendConfig configReply configGetName configGetFromIndex
  cases s.conf[config.toNat]? with
  | none => exact sends_sendError s _
  | some e => exact sends_sendEntry hmalloc s _ _ _ _

/-- A list is answered by its entries in order. The induction is on how many are still to send. -/
theorem sends_sendEach {send : UInt8 → Admin → Option Admin} (reply : UInt8 → Reply)
    (h : ∀ (s' : Admin) i, s'.conf = s.conf → s'.Sends [reply i] s.conf (send i s')) (size : Nat) :
    s.Sends ((List.range size).map fun i => reply (UInt8.ofNat i)) s.conf
      (s.sendEach send size) := by
  unfold sendEach
  generalize List.range size = l
  suffices hl : ∀ s' : Admin, s'.conf = s.conf → s'.Sends (l.map fun i => reply (UInt8.ofNat i)) s.conf
      (l.foldlM (fun s i => send (UInt8.ofNat i) s) s') from hl s rfl
  induction l with
  | nil =>
    intro s' hs'
    rw [← hs']
    exact sends_nothing s'
  | cons i l ih =>
    intro s' hs'
    rw [List.map_cons, List.foldlM_cons]
    exact (h s' _ hs').bind ih

/-- The list of metrics is answered by all of them and the end of the list. -/
theorem sends_sendListMetrics (hmalloc : ∀ n, env.malloc n = true)
    (hvalue : ∀ i < metricGetSize, stringAt (env.metricGetValueString i) ≠ []) (s : Admin) :
    s.Sends ((List.range metricGetSize).map (fun i => metricReply env (UInt8.ofNat i)) ++
      [.empty .LIST_METRICS]) s.conf (s.sendListMetrics env) := by
  have heach : s.Sends _ s.conf (s.sendEach (sendMetric env) metricGetSize) :=
    sends_sendEach (metricReply env)
      (fun s' i hs' => hs' ▸ sends_sendMetric hmalloc hvalue s' i) metricGetSize
  refine heach.bind fun s' hs' => ?_
  rw [← hs']
  exact sends_sendEndOfList env s' _

/-- The list of settings is answered by all of them and the end of the list. -/
theorem sends_sendListConfigs (hmalloc : ∀ n, env.malloc n = true) (s : Admin) :
    s.Sends ((List.range s.conf.length).map (fun i => configReply s.conf (UInt8.ofNat i)) ++
      [.empty .LIST_CONFIGS]) s.conf (s.sendListConfigs env) := by
  have heach : s.Sends _ s.conf (s.sendEach (sendConfig env) (configGetSize s.conf)) :=
    sends_sendEach (configReply s.conf) (fun s' i hs' => by
      rw [← hs']
      exact sends_sendConfig hmalloc s' i) _
  refine heach.bind fun s' hs' => ?_
  rw [← hs']
  exact sends_sendEndOfList env s' _

/-- A value of a positive length is set if the index is that of a configuration. -/
theorem sends_checkSetConfig (hmalloc : ∀ n, env.malloc n = true) (s : Admin) (config : UInt8)
    (value : List UInt8) {valueLen : Int} (hlen : 0 < valueLen) :
    s.Sends [if config.toNat < s.conf.length then .empty .SET_CONFIG else .error .CONFIG_NOT_FOUND]
      (configSetFromIndex config.toNat (value.take valueLen.toNat) s.conf).2
      (s.checkSetConfig env config value valueLen) := by
  unfold checkSetConfig configGetSize configSetFromIndex
  by_cases hindex : config.toNat < s.conf.length
  · have hnot : ¬config.toNat ≥ s.conf.length := Nat.not_le.mpr hindex
    simp only [hnot, if_false, if_pos hindex, hmalloc, not_true_eq_false]
    rw [if_neg (Int.not_le.mpr hlen), if_neg (by decide)]
    have hshows : (Reply.empty .SET_CONFIG).Shows
        ⟨MsgType.SET_CONFIG.code, env.unset s.made, ([] : List UInt8).length, []⟩ := ⟨rfl, rfl, rfl⟩
    intro msgs hmsgs
    exact sends_sendMsg { s with conf := _ } hshows msgs hmsgs
  · have hge : config.toNat ≥ s.conf.length := Nat.not_lt.mp hindex
    simp only [hge, if_true, if_neg hindex]
    exact sends_sendError s _

/-! ## The write handler -/

/-- Where nothing waits, nothing is sent. -/
theorem adminWriteHandler_nil (h : s.queue.Holds []) : s.adminWriteHandler = some ([], s) := by
  unfold adminWriteHandler qIsEmpty
  rw [if_pos (h.isEmpty_iff.mpr rfl)]

/-- Where messages wait, the first is sent and the others keep their order. -/
theorem adminWriteHandler_cons {m : Msg} {ms : List Msg} (h : s.queue.Holds (m :: ms))
    (hw : m.Wire) :
    ∃ q, s.adminWriteHandler = some ([m.bytes], { s with queue := q }) ∧ q.Holds ms := by
  obtain ⟨q, hpoll, hq⟩ := h.poll
  refine ⟨q, ?_, hq⟩
  have hne : ¬s.queue.isEmpty = true := fun hempty => List.cons_ne_nil m ms (h.isEmpty_iff.mp hempty)
  have hlen : m.bytes.length ≤ MAX_MSG_SIZE := by
    rw [m.length_bytes]
    exact hw.fits
  unfold adminWriteHandler qIsEmpty qPoll
  rw [if_neg hne, hpoll]
  simp only [Option.bind_eq_bind, Option.bind_some, hw.serialize, if_pos hlen]
  rfl

end Admin

end HttpProxy
