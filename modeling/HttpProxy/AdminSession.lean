import HttpProxy.AdminReplies

/-!
# A session of the administrator

The server's handlers and one `admin_client` (`actions.c`, `messages.c`) on a transport that keeps
messages whole and in order. The client sends the commands it is given and, but for credentials,
waits for replies before the next one; the server may read and write whenever it likes.

`session_refines`: the replies the client takes for its commands are those of a store that executes
the commands one after the other (`sequential`), and whenever it stops waiting none is left over.
-/

namespace HttpProxy

/-! ## The client -/

/-- A choice of the client's menu, with the strings it was given. -/
inductive Command
  | sendCredentials (pass : List UInt8)
  | reqListMetrics
  | reqListConfigs
  | reqGetMetric (metric : UInt8)
  | reqGetConfig (config : UInt8)
  | reqSetConfig (config : UInt8) (value : List UInt8)
deriving DecidableEq, Repr

/-- A message with a string, the length of which is `strlen(str) + 1`. -/
def stringMsg (type : MsgType) (param : UInt8) (str : List UInt8) : Msg :=
  { type := type.code, param := param, bufferSize := (stringAt str ++ [0]).length
    buffer := stringAt str ++ [0] }

/-- The message the client sends for a command. -/
def Command.request : Command → Msg
  | .sendCredentials pass => stringMsg .SEND_CRED 0 pass
  | .reqListMetrics => { type := MsgType.LIST_METRICS.code, param := 0, bufferSize := 0 }
  | .reqListConfigs => { type := MsgType.LIST_CONFIGS.code, param := 0, bufferSize := 0 }
  | .reqGetMetric metric => { type := MsgType.GET_METRIC.code, param := metric, bufferSize := 0 }
  | .reqGetConfig config => { type := MsgType.GET_CONFIG.code, param := config, bufferSize := 0 }
  | .reqSetConfig config value => stringMsg .SET_CONFIG config value

/-- The `is_list` of the `get_and_show_response` that follows the request, if one does. -/
def Command.isList : Command → Option Bool
  | .sendCredentials _ => none
  | .reqListMetrics | .reqListConfigs => some true
  | .reqGetMetric _ | .reqGetConfig _ | .reqSetConfig _ _ => some false

/-! ## The session -/

structure Session where
  server : Admin
  toServer : List (List UInt8) := []
  toClient : List (List UInt8) := []
  /-- The commands not sent yet. -/
  commands : List Command
  /-- The `is_list` of the loop the client is in, if it waits. -/
  waiting : Option Bool := none
  /-- The messages received for each command sent. -/
  consumed : List (List Msg) := []
deriving DecidableEq, Repr

inductive SessionEvent
  /-- The client sends its next command. -/
  | send
  /-- The client receives. -/
  | receive
  /-- The server's `admin_read_handler` is called. -/
  | read
  /-- The server's `admin_write_handler` is called. -/
  | write
deriving DecidableEq, Repr

namespace Session

/-- The client sends when it does not wait; who receives has something to receive. -/
def Enabled (s : Session) : SessionEvent → Prop
  | .send => s.waiting = none ∧ s.commands ≠ []
  | .receive => s.waiting ≠ none ∧ s.toClient ≠ []
  | .read => s.toServer ≠ []
  | .write => True

def send (s : Session) : Option Session :=
  match s.commands with
  | [] => none
  | c :: commands =>
    (serializeMsg c.request).bind fun bytes =>
      if bytes.length ≤ MAX_MSG_SIZE + 1 then
        some { s with
          toServer := s.toServer ++ [bytes]
          commands := commands
          waiting := c.isList
          consumed := s.consumed ++ [[]] }
      else none

/-- An iteration of `get_and_show_response`. -/
def receive (s : Session) : Option Session :=
  match s.waiting, s.toClient with
  | some isList, bytes :: toClient =>
    (deserializeMsg (· % 2 ^ 32) (bytes.take MAX_READ)).map fun response =>
      { s with
        toClient := toClient
        waiting := if isList ∧ response.bufferSize > 0 then some isList else none
        consumed := s.consumed.dropLast ++ [s.consumed.getLastD [] ++ [response]] }
  | _, _ => none

def read (env : AdminEnv) (s : Session) : Option Session :=
  match s.toServer with
  | [] => none
  | bytes :: toServer =>
    (s.server.adminReadHandler env bytes).map fun server =>
      { s with server := server, toServer := toServer }

def write (s : Session) : Option Session :=
  s.server.adminWriteHandler.map fun r =>
    { s with server := r.2, toClient := s.toClient ++ r.1 }

/-- What happens at an event; `none` if it cannot happen or is undefined. -/
def step (env : AdminEnv) (s : Session) : SessionEvent → Option Session
  | .send => s.send
  | .receive => s.receive
  | .read => s.read env
  | .write => s.write

/-- A run of the session, every event of which can happen. -/
inductive Run (env : AdminEnv) : Session → List SessionEvent → Session → Prop
  | nil (s : Session) : Run env s [] s
  | cons {s s' t : Session} {e : SessionEvent} {es : List SessionEvent} (enabled : s.Enabled e)
      (step : s.step env e = some s') (rest : Run env s' es t) : Run env s (e :: es) t

instance (s : Session) : DecidablePred s.Enabled := fun
  | .send => inferInstanceAs (Decidable (s.waiting = none ∧ s.commands ≠ []))
  | .receive => inferInstanceAs (Decidable (s.waiting ≠ none ∧ s.toClient ≠ []))
  | .read => inferInstanceAs (Decidable (s.toServer ≠ []))
  | .write => inferInstanceAs (Decidable True)

/-- Where a run with these events ends. -/
def runs (env : AdminEnv) : Session → List SessionEvent → Option Session
  | s, [] => some s
  | s, e :: es => if s.Enabled e then (s.step env e).bind fun s' => runs env s' es else none

/-- The events of a run lead to where they can. -/
theorem run_of_runs {env : AdminEnv} {es : List SessionEvent} {s t : Session}
    (h : s.runs env es = some t) : Run env s es t := by
  induction es generalizing s with
  | nil =>
    cases h
    exact .nil _
  | cons e es ih =>
    unfold runs at h
    split at h
    · next hen =>
      obtain ⟨s', hstep, hrest⟩ := Option.bind_eq_some_iff.mp h
      exact .cons hen hstep (ih hrest)
    · cases h

end Session

/-! ## The sequential store -/

/-- The string the command sets configuration `i` to. -/
def Command.sets (i : UInt8) : Command → Option (List UInt8)
  | .reqSetConfig config value => if config = i then some (stringAt value) else none
  | _ => none

/-- The string configuration `i` was set to last, or else its first one. -/
def valueAfter (first : List UInt8) (i : UInt8) (earlier : List Command) : List UInt8 :=
  (earlier.filterMap (Command.sets i)).getLast?.getD first

/-- What `reqGetConfig` of the configuration is answered after the commands `earlier`. -/
def configReplyAfter (conf : Config) (earlier : List Command) (config : UInt8) : Reply :=
  match conf[config.toNat]? with
  | none => .error .CONFIG_NOT_FOUND
  | some e =>
    .entry .GET_CONFIG config (stringAt e.name) (valueAfter (stringAt e.value) config earlier)

/-- What a command is answered after the commands `earlier`. -/
def replies (env : AdminEnv) (conf : Config) (earlier : List Command) : Command → List Reply
  | .sendCredentials _ => []
  | .reqListMetrics =>
    (List.range Admin.metricGetSize).map (fun i => Admin.metricReply env (UInt8.ofNat i)) ++
      [.empty .LIST_METRICS]
  | .reqListConfigs =>
    (List.range conf.length).map (fun i => configReplyAfter conf earlier (UInt8.ofNat i)) ++
      [.empty .LIST_CONFIGS]
  | .reqGetMetric metric => [Admin.metricReply env metric]
  | .reqGetConfig config => [configReplyAfter conf earlier config]
  | .reqSetConfig config _ =>
    [if config.toNat < conf.length then .empty .SET_CONFIG else .error .CONFIG_NOT_FOUND]

/-- What commands are answered, one after the other. -/
def sequential (env : AdminEnv) (conf : Config) (earlier : List Command) :
    List Command → List (List Reply)
  | [] => []
  | c :: commands =>
    replies env conf earlier c :: sequential env conf (earlier ++ [c]) commands

/-- The replies to two runs of commands are those to both, one after the other. -/
theorem sequential_append (env : AdminEnv) (conf : Config) (earlier cs ds : List Command) :
    sequential env conf earlier (cs ++ ds) =
      sequential env conf earlier cs ++ sequential env conf (earlier ++ cs) ds := by
  induction cs generalizing earlier with
  | nil => rw [List.append_nil]; rfl
  | cons c cs ih => rw [List.cons_append, sequential, ih, List.append_assoc]; rfl

/-! ### The store of the server -/

/-- The configurations after a command. -/
def confAfter (conf : Config) : Command → Config
  | .reqSetConfig config value =>
    (configSetFromIndex config.toNat (stringAt value ++ [0]) conf).2
  | _ => conf

/-- A command keeps the number of settings. -/
theorem length_confAfter (conf : Config) (c : Command) :
    (confAfter conf c).length = conf.length := by
  cases c with
  | reqSetConfig config value =>
    simp only [confAfter, configSetFromIndex_snd, List.length_modify]
  | _ => rfl

/-- Commands keep the number of settings. -/
theorem length_foldl_confAfter (conf : Config) (cs : List Command) :
    (cs.foldl confAfter conf).length = conf.length := by
  induction cs generalizing conf with
  | nil => rfl
  | cons c cs ih => rw [List.foldl_cons, ih, length_confAfter]

/-- A setting is what the last command that set it wrote. -/
theorem valueAfter_cons (first : List UInt8) (i : UInt8) (c : Command) (cs : List Command) :
    valueAfter first i (c :: cs) = valueAfter ((c.sets i).getD first) i cs := by
  unfold valueAfter
  rw [List.filterMap_cons]
  cases c.sets i with
  | none => rfl
  | some v =>
    rw [List.getLast?_cons]
    cases (cs.filterMap (Command.sets i)).getLast? <;> rfl

/-- What a setting is answered with behind a command is what it is answered with behind the rest. -/
theorem configReplyAfter_cons (conf : Config) (c : Command) (cs : List Command) (i : UInt8) :
    configReplyAfter conf (c :: cs) i = configReplyAfter (confAfter conf c) cs i := by
  unfold configReplyAfter
  simp only [valueAfter_cons]
  cases c with
  | reqSetConfig config value =>
    simp only [confAfter, Command.sets, configSetFromIndex_snd]
    by_cases hi : config = i
    · rw [hi, if_pos rfl, List.getElem?_modify_eq]
      cases conf[i.toNat]? with
      | none => rfl
      | some e =>
        have hvalue := stringAt_terminated (zero_not_mem_stringAt value) []
        simp only [Option.map_eq_map, Option.map_some, Option.getD_some, hvalue]
    · rw [if_neg hi, List.getElem?_modify_ne _ _ fun h => hi (UInt8.toNat_inj.mp h)]
      rfl
  | _ => rfl

/-- What a setting is answered with behind the commands is read off the first value and the
commands. -/
theorem configReply_foldl (conf : Config) (cs : List Command) (i : UInt8) :
    Admin.configReply (cs.foldl confAfter conf) i = configReplyAfter conf cs i := by
  induction cs generalizing conf with
  | nil => rfl
  | cons c cs ih => rw [List.foldl_cons, ih, configReplyAfter_cons]

/-! ### The requests at the server -/

/-- A message with a string that fits can go over the wire. -/
theorem wire_stringMsg {type : MsgType} {param : UInt8} {str : List UInt8}
    (h : 6 + (stringMsg type param str).buffer.length ≤ MAX_MSG_SIZE) :
    (stringMsg type param str).Wire :=
  ⟨rfl, .inr ⟨stringAt str, zero_not_mem_stringAt str, rfl⟩, h⟩

/-- The request of a command that fits can go over the wire. -/
theorem wire_request {c : Command} (h : 6 + c.request.buffer.length ≤ MAX_MSG_SIZE) :
    c.request.Wire := by
  cases c with
  | sendCredentials pass => exact wire_stringMsg h
  | reqSetConfig config value => exact wire_stringMsg h
  | _ => exact ⟨rfl, .inl rfl, h⟩

/-- The server's `int` reads a size as it is. -/
theorem read_int {n : Int} (h₀ : 0 ≤ n) (h₁ : n < 2 ^ 31) : toInt32 n = n :=
  toInt32_eq (by omega) h₁

/-- The client's `unsigned int` reads a size as it is. -/
theorem read_unsigned {n : Int} (h₀ : 0 ≤ n) (h₁ : n < 2 ^ 31) : n % 2 ^ 32 = n :=
  Int.emod_eq_of_lt h₀ (by omega)

/-- The server answers a request as the store does. -/
theorem sends_adminReadHandler {env : AdminEnv} {conf : Config} {earlier : List Command} {s : Admin}
    (hmalloc : ∀ n, env.malloc n = true)
    (hvalue : ∀ i < Admin.metricGetSize, stringAt (env.metricGetValueString i) ≠ [])
    (hconf : s.conf = earlier.foldl confAfter conf) {c : Command} (hw : c.request.Wire) :
    s.Sends (replies env conf earlier c) (confAfter s.conf c)
      (s.adminReadHandler env c.request.bytes) := by
  unfold Admin.adminReadHandler
  rw [hw.take, hw.deserialize fun _ => read_int]
  simp only [Option.bind_eq_bind, Option.bind_some]
  have hlen : s.conf.length = conf.length := by rw [hconf, length_foldl_confAfter]
  have hreply : ∀ i, Admin.configReply s.conf i = configReplyAfter conf earlier i := by
    intro i
    rw [hconf, configReply_foldl]
  cases c with
  | sendCredentials pass => exact Admin.sends_nothing s
  | reqListMetrics => exact Admin.sends_sendListMetrics hmalloc hvalue s
  | reqListConfigs =>
    have h := Admin.sends_sendListConfigs hmalloc s
    simp only [hreply, hlen] at h
    exact h
  | reqGetMetric metric => exact Admin.sends_sendMetric hmalloc hvalue s metric
  | reqGetConfig config =>
    have h := Admin.sends_sendConfig hmalloc s config
    rw [hreply] at h
    exact h
  | reqSetConfig config value =>
    have hlt : (0 : Int) < ((stringAt value ++ [0]).length : Nat) := by
      rw [List.length_append, List.length_singleton]
      omega
    have h := Admin.sends_checkSetConfig hmalloc s config (stringAt value ++ [0]) hlt
    rw [hlen, Int.toNat_natCast, List.take_length] at h
    exact h

/-! ## Where a session is -/

/-- The replies of a command as the client takes them: entries of a list, and one that ends it. -/
inductive Ends : Bool → List Reply → Prop
  | last {isList : Bool} {r : Reply} (stops : ¬(isList = true ∧ r.isEntry = true)) : Ends isList [r]
  | entry {r : Reply} {rs : List Reply} (goesOn : r.isEntry = true) (rest : Ends true rs) :
    Ends true (r :: rs)

theorem Ends.ne_nil {isList : Bool} {rs : List Reply} (h : Ends isList rs) : rs ≠ [] := by
  cases h <;> exact List.cons_ne_nil _ _

/-- The entries in front of the end of a list. -/
theorem Ends.entries {rs es : List Reply} (h : Ends true rs) (hes : ∀ r ∈ es, r.isEntry = true) :
    Ends true (es ++ rs) := by
  induction es with
  | nil => exact h
  | cons r es ih =>
    exact .entry (hes r List.mem_cons_self) (ih fun x hx => hes x (List.mem_cons_of_mem r hx))

/-- What a command is answered with is what the client waits for, and nothing behind it. -/
theorem ends_replies (env : AdminEnv) (conf : Config) (earlier : List Command) {c : Command}
    {isList : Bool} (h : c.isList = some isList) (hsize : conf.length ≤ MAX_CONFIG) :
    Ends isList (replies env conf earlier c) := by
  have hend : ∀ type, Ends true [.empty type] := fun type =>
    .last fun h => Bool.false_ne_true h.2
  have hone : ∀ r, Ends false [r] := fun r => .last fun h => Bool.false_ne_true h.1
  cases c with
  | sendCredentials pass => cases h
  | reqListMetrics =>
    cases h
    refine (hend _).entries fun r hr => ?_
    obtain ⟨i, hi, rfl⟩ := List.mem_map.mp hr
    have hname : ∀ i < Admin.metricGetSize,
        (Admin.metricGetName (UInt8.ofNat i)).isSome = true := by decide
    obtain ⟨name, hsome⟩ := Option.isSome_iff_exists.mp (hname i (List.mem_range.mp hi))
    unfold Admin.metricReply
    rw [hsome]
    rfl
  | reqListConfigs =>
    cases h
    refine (hend _).entries fun r hr => ?_
    obtain ⟨i, hi, rfl⟩ := List.mem_map.mp hr
    have hlt := List.mem_range.mp hi
    have hi' : (UInt8.ofNat i).toNat = i := by
      unfold MAX_CONFIG at hsize
      rw [UInt8.toNat_ofNat', Nat.mod_eq_of_lt (by omega)]
    unfold configReplyAfter
    rw [hi', List.getElem?_eq_getElem hlt]
    rfl
  | reqGetMetric metric => cases h; exact hone _
  | reqGetConfig config => cases h; exact hone _
  | reqSetConfig config value => cases h; exact hone _

/-- A setting is a string. -/
theorem zero_not_mem_valueAfter {first : List UInt8} (h : 0 ∉ first) (i : UInt8)
    (earlier : List Command) : 0 ∉ valueAfter first i earlier := by
  induction earlier generalizing first with
  | nil => exact h
  | cons c cs ih =>
    rw [valueAfter_cons]
    apply ih
    cases c with
    | reqSetConfig config value =>
      simp only [Command.sets]
      split
      · exact zero_not_mem_stringAt value
      · exact h
    | _ => exact h

/-- A metric is answered with strings. -/
theorem strings_metricReply (env : AdminEnv) (metric : UInt8) :
    (Admin.metricReply env metric).Strings := by
  have hnames : ∀ name ∈ Admin.metricNames, 0 ∉ name := by decide
  unfold Admin.metricReply
  cases h : Admin.metricGetName metric with
  | none => trivial
  | some name => exact ⟨hnames name (List.mem_of_getElem? h), zero_not_mem_stringAt _⟩

/-- A setting is answered with strings. -/
theorem strings_configReplyAfter (conf : Config) (earlier : List Command) (config : UInt8) :
    (configReplyAfter conf earlier config).Strings := by
  unfold configReplyAfter
  cases conf[config.toNat]? with
  | none => trivial
  | some e =>
    exact ⟨zero_not_mem_stringAt _, zero_not_mem_valueAfter (zero_not_mem_stringAt _) _ _⟩

/-- Every command is answered with strings. -/
theorem strings_replies (env : AdminEnv) (conf : Config) (earlier : List Command) (c : Command) :
    ∀ r ∈ replies env conf earlier c, r.Strings := by
  intro r hr
  cases c with
  | sendCredentials pass => cases hr
  | reqListMetrics =>
    rcases List.mem_append.mp hr with hr | hr
    · obtain ⟨i, -, rfl⟩ := List.mem_map.mp hr
      exact strings_metricReply env _
    · rw [List.mem_singleton.mp hr]
      trivial
  | reqListConfigs =>
    rcases List.mem_append.mp hr with hr | hr
    · obtain ⟨i, -, rfl⟩ := List.mem_map.mp hr
      exact strings_configReplyAfter conf earlier _
    · rw [List.mem_singleton.mp hr]
      trivial
  | reqGetMetric metric =>
    rw [List.mem_singleton.mp hr]
    exact strings_metricReply env metric
  | reqGetConfig config =>
    rw [List.mem_singleton.mp hr]
    exact strings_configReplyAfter conf earlier config
  | reqSetConfig config value =>
    rw [List.mem_singleton.mp hr]
    split <;> trivial

/-- The messages received for commands say what they are answered. -/
def Answered (env : AdminEnv) (conf : Config) (cs : List Command) (got : List (List Msg)) : Prop :=
  List.Forall₂ (List.Forall₂ Reply.Shows) (sequential env conf [] cs) got

/-- One more command is answered. -/
theorem Answered.snoc {env : AdminEnv} {conf : Config} {cs : List Command} {got : List (List Msg)}
    (h : Answered env conf cs got) {c : Command} {ms : List Msg}
    (hms : List.Forall₂ Reply.Shows (replies env conf cs c) ms) :
    Answered env conf (cs ++ [c]) (got ++ [ms]) := by
  unfold Answered
  rw [sequential_append]
  exact List.rel_append h (.cons hms .nil)

/-- Where a session is that has sent the commands `cs`. -/
inductive Session.At (env : AdminEnv) (conf : Config) : List Command → Session → Prop
  /-- The client does not wait; only credentials are on the way. -/
  | idle {s : Session} {served pending : List Command} (waiting : s.waiting = none)
    (credentials : ∀ c ∈ pending, c.isList = none)
    (toServer : s.toServer = pending.map fun c => c.request.bytes)
    (queue : s.server.queue.Holds []) (toClient : s.toClient = [])
    (store : s.server.conf = served.foldl confAfter conf)
    (answered : Answered env conf (served ++ pending) s.consumed) :
    Session.At env conf (served ++ pending) s
  /-- The request the client waits for is on the way. -/
  | asked {s : Session} {served pending : List Command} {c : Command} {isList : Bool}
    {got : List (List Msg)} (asks : c.isList = some isList) (waiting : s.waiting = some isList)
    (credentials : ∀ c ∈ pending, c.isList = none)
    (toServer : s.toServer = (pending ++ [c]).map fun c => c.request.bytes)
    (queue : s.server.queue.Holds []) (toClient : s.toClient = [])
    (store : s.server.conf = served.foldl confAfter conf) (consumed : s.consumed = got ++ [[]])
    (answered : Answered env conf (served ++ pending) got) :
    Session.At env conf (served ++ pending ++ [c]) s
  /-- The replies to it are on the way. -/
  | answering {s : Session} {served : List Command} {c : Command} {isList : Bool}
    {got : List (List Msg)} {ms transit queued : List Msg} {taken left : List Reply}
    (waiting : s.waiting = some isList) (toServer : s.toServer = [])
    (queue : s.server.queue.Holds queued) (toClient : s.toClient = transit.map Msg.bytes)
    (store : s.server.conf = (served ++ [c]).foldl confAfter conf)
    (consumed : s.consumed = got ++ [ms]) (answered : Answered env conf served got)
    (replies : replies env conf served c = taken ++ left)
    (shown : List.Forall₂ Reply.Shows taken ms)
    (coming : List.Forall₂ Reply.Shows left (transit ++ queued)) (ends : Ends isList left) :
    Session.At env conf (served ++ [c]) s

/-- What the transport and the process are promised to do. -/
structure AdminEnv.Sound (env : AdminEnv) : Prop where
  malloc : ∀ n, env.malloc n = true
  /-- `sprintf` of a number writes something. -/
  metricGetValueString : ∀ i < Admin.metricGetSize, stringAt (env.metricGetValueString i) ≠ []

/-- Every message of the session is no longer than a message may be. -/
structure Fitting (env : AdminEnv) (conf : Config) (cs : List Command) : Prop where
  requests : ∀ c ∈ cs, 6 + c.request.buffer.length ≤ MAX_MSG_SIZE
  replies : ∀ rs ∈ sequential env conf [] cs, ∀ r ∈ rs, r.Fits

/-- A reply that is to come can go over the wire. -/
theorem Fitting.wire {env : AdminEnv} {conf : Config} {served later : List Command} {c : Command} {r : Reply} {m : Msg}
    (h : Fitting env conf (served ++ c :: later)) (hr : r ∈ HttpProxy.replies env conf served c)
    (hm : r.Shows m) : m.Wire := by
  refine hm.wire (strings_replies env conf served c r hr) (h.replies _ ?_ r hr)
  rw [sequential_append]
  exact List.mem_append_right _ List.mem_cons_self

namespace Session

variable {env : AdminEnv} {conf : Config} {cmds done : List Command} {s : Session}

/-- A message that was sent shows one of the replies. -/
theorem shown_of_mem {rs : List Reply} {ms : List Msg} {m : Msg}
    (h : List.Forall₂ Reply.Shows rs ms) (hm : m ∈ ms) : ∃ r ∈ rs, r.Shows m := by
  induction h with
  | nil => cases hm
  | @cons r m' rs ms hr _ ih =>
    rcases List.mem_cons.mp hm with rfl | hm
    · exact ⟨r, List.mem_cons_self, hr⟩
    · obtain ⟨r', hr', hshows⟩ := ih hm
      exact ⟨r', List.mem_cons_of_mem r hr', hshows⟩

/-- The session goes on with an event, and is somewhere afterwards. -/
def Goes (env : AdminEnv) (conf : Config) (cmds : List Command) (r : Option Session) : Prop :=
  ∃ s' done', r = some s' ∧ Session.At env conf done' s' ∧ cmds = done' ++ s'.commands

/-- The client's next request leaves the session where the commands answered so far are. -/
theorem goes_send (hfit : Fitting env conf cmds) (hcmds : cmds = done ++ s.commands)
    (h : Session.At env conf done s) (hen : s.Enabled .send) : Goes env conf cmds s.send := by
  obtain ⟨hwaiting, hne⟩ := hen
  obtain ⟨c, commands, hc⟩ := List.exists_cons_of_ne_nil hne
  have hw := wire_request (hfit.requests c (by
    rw [hcmds, hc]
    exact List.mem_append_right _ List.mem_cons_self))
  have hlen : c.request.bytes.length ≤ MAX_MSG_SIZE + 1 := by
    rw [Msg.length_bytes]
    exact Nat.le_succ_of_le hw.fits
  have hsend : s.send = some { s with
      toServer := s.toServer ++ [c.request.bytes]
      commands := commands
      waiting := c.isList
      consumed := s.consumed ++ [[]] } := by
    unfold send
    simp only [hc, hw.serialize, Option.bind_some, if_pos hlen]
  cases h with
  | asked _ hwaits => rw [hwaiting] at hwaits; cases hwaits
  | answering hwaits => rw [hwaiting] at hwaits; cases hwaits
  | @idle s served pending _ hcreds hto hq hclient hstore hans =>
    cases hlist : c.isList with
    | none =>
      refine ⟨_, served ++ (pending ++ [c]), hsend, .idle hlist ?_ ?_ hq hclient hstore ?_, ?_⟩
      · intro x hx
        rcases List.mem_append.mp hx with hx | hx
        · exact hcreds x hx
        · rwa [List.mem_singleton.mp hx]
      · rw [List.map_append, ← hto]
        rfl
      · rw [← List.append_assoc]
        refine hans.snoc ?_
        cases c with
        | sendCredentials pass => exact .nil
        | _ => cases hlist
      · rw [hcmds, hc]
        simp only [List.append_assoc, List.singleton_append]
    | some isList =>
      refine ⟨_, served ++ pending ++ [c], hsend, .asked hlist hlist hcreds ?_ hq hclient hstore
        rfl hans, ?_⟩
      · rw [List.map_append, ← hto]
        rfl
      · rw [hcmds, hc]
        simp only [List.append_assoc, List.singleton_append]

/-- A write of the server sends the oldest reply that waits. -/
theorem goes_write (hfit : Fitting env conf cmds) (hcmds : cmds = done ++ s.commands)
    (h : Session.At env conf done s) : Goes env conf cmds s.write := by
  have hsame : s.server.queue.Holds [] → s.write = some s := by
    intro hq
    unfold write
    rw [Admin.adminWriteHandler_nil hq, Option.map_some, List.append_nil]
  have hstay : s.server.queue.Holds [] → Goes env conf cmds s.write := fun hq =>
    ⟨s, done, hsame hq, h, hcmds⟩
  cases h with
  | idle _ _ _ hq => exact hstay hq
  | asked _ _ _ _ hq => exact hstay hq
  | @answering s served c isList got ms transit queued taken left hwaiting hto hq hclient hstore
      hconsumed hans hreplies hshown hcoming hends =>
    cases queued with
    | nil => exact hstay hq
    | cons m queued =>
      obtain ⟨r, hr, hrm⟩ := shown_of_mem hcoming (List.mem_append_right transit List.mem_cons_self)
      rw [List.append_assoc] at hcmds
      have hw : m.Wire := Fitting.wire (hcmds ▸ hfit) (by
        rw [hreplies]
        exact List.mem_append_right _ hr) hrm
      obtain ⟨q, hwrite, hq'⟩ := Admin.adminWriteHandler_cons hq hw
      have hcoming' : List.Forall₂ Reply.Shows left ((transit ++ [m]) ++ queued) := by
        rwa [List.append_assoc]
      refine ⟨{ s with server := { s.server with queue := q }, toClient := s.toClient ++ [m.bytes] },
        served ++ [c], ?_, .answering hwaiting hto hq' ?_ hstore hconsumed hans hreplies hshown
        hcoming' hends, ?_⟩
      · unfold write
        rw [hwrite]
        rfl
      · rw [List.map_append, ← hclient]
        rfl
      · rw [hcmds, List.append_assoc]

/-- A request that arrives is answered as its command is. -/
theorem read_request (henv : env.Sound) {served : List Command} {c : Command}
    {rest : List (List UInt8)} (hw : c.request.Wire) (hto : s.toServer = c.request.bytes :: rest)
    (hstore : s.server.conf = served.foldl confAfter conf) (hq : s.server.queue.Holds []) :
    ∃ server ms, s.read env = some { s with server := server, toServer := rest } ∧
      server.conf = (served ++ [c]).foldl confAfter conf ∧ server.queue.Holds ms ∧
        List.Forall₂ Reply.Shows (replies env conf served c) ms := by
  obtain ⟨server, ms, hserver, hconf, hms, hshows⟩ := sends_adminReadHandler henv.malloc
    henv.metricGetValueString hstore hw [] hq
  refine ⟨server, ms, ?_, ?_, hms, hshows⟩
  · unfold read
    simp only [hto, hserver, Option.map_some]
  · rw [hconf, hstore, List.foldl_append]
    rfl

/-- Nothing is put into the queue for credentials. -/
theorem read_credentials (henv : env.Sound) {served : List Command} {c : Command}
    {rest : List (List UInt8)} (hc : c.isList = none) (hw : c.request.Wire)
    (hto : s.toServer = c.request.bytes :: rest)
    (hstore : s.server.conf = served.foldl confAfter conf) (hq : s.server.queue.Holds []) :
    ∃ server, s.read env = some { s with server := server, toServer := rest } ∧
      server.conf = (served ++ [c]).foldl confAfter conf ∧ server.queue.Holds [] := by
  obtain ⟨server, ms, hread, hstore', hms, hshows⟩ := read_request henv hw hto hstore hq
  refine ⟨server, hread, hstore', ?_⟩
  cases c with
  | sendCredentials pass => rwa [List.forall₂_nil_left_iff.mp hshows] at hms
  | _ => cases hc

/-- A read of the server takes the oldest request and queues its replies. -/
theorem goes_read (henv : env.Sound) (hsize : conf.length ≤ MAX_CONFIG)
    (hfit : Fitting env conf cmds) (hcmds : cmds = done ++ s.commands)
    (h : Session.At env conf done s) (hen : s.Enabled .read) : Goes env conf cmds (s.read env) := by
  have hwire : ∀ c ∈ done, c.request.Wire := fun c hc => wire_request (hfit.requests c (by
    rw [hcmds]
    exact List.mem_append_left _ hc))
  cases h with
  | answering _ hto => exact absurd hto hen
  | @idle s served pending hwaiting hcreds hto hq hclient hstore hans =>
    cases pending with
    | nil => exact absurd hto hen
    | cons c pending =>
      obtain ⟨server, hread, hstore', hq'⟩ := read_credentials henv (hcreds c List.mem_cons_self)
        (hwire c (List.mem_append_right _ List.mem_cons_self)) hto hstore hq
      rw [List.append_cons] at hans hcmds
      exact ⟨_, served ++ [c] ++ pending, hread,
        .idle hwaiting (fun x hx => hcreds x (List.mem_cons_of_mem c hx)) rfl hq' hclient hstore' hans,
        hcmds⟩
  | @asked s served pending c isList got hasks hwaiting hcreds hto hq hclient hstore hconsumed
      hans =>
    cases pending with
    | nil =>
      obtain ⟨server, ms, hread, hstore', hms, hshows⟩ := read_request henv
        (hwire c (List.mem_append_right _ List.mem_cons_self)) hto hstore hq
      rw [List.append_nil] at hans hcmds
      have hcoming : List.Forall₂ Reply.Shows (replies env conf served c) ([] ++ ms) := hshows
      refine ⟨_, served ++ [c], hread, .answering hwaiting rfl hms ?_ hstore' hconsumed hans
        (List.nil_append _).symm .nil hcoming (ends_replies env conf served hasks hsize), hcmds⟩
      exact hclient
    | cons d pending =>
      obtain ⟨server, hread, hstore', hq'⟩ := read_credentials henv (hcreds d List.mem_cons_self)
        (hwire d (List.mem_append_left _ (List.mem_append_right _ List.mem_cons_self))) hto hstore hq
      have hsplit : served ++ d :: pending = served ++ [d] ++ pending := List.append_cons _ _ _
      rw [hsplit] at hans hcmds
      exact ⟨_, served ++ [d] ++ pending ++ [c], hread,
        .asked hasks hwaiting (fun x hx => hcreds x (List.mem_cons_of_mem d hx)) rfl hq' hclient
          hstore' hconsumed hans, hcmds⟩

/-- What the client receives is the oldest reply, and it waits on exactly when more are to come. -/
theorem goes_receive (hfit : Fitting env conf cmds) (hcmds : cmds = done ++ s.commands)
    (h : Session.At env conf done s) (hen : s.Enabled .receive) : Goes env conf cmds s.receive := by
  obtain ⟨hwaiting, hne⟩ := hen
  cases h with
  | idle _ _ _ _ hclient => exact absurd hclient hne
  | asked _ _ _ _ _ hclient => exact absurd hclient hne
  | @answering s served c isList got ms transit queued taken left hwaits hto hq hclient hstore
      hconsumed hans hreplies hshown hcoming hends =>
    cases transit with
    | nil => exact absurd hclient hne
    | cons m transit =>
      cases hcoming with
      | @cons r m left ms' hr hrest =>
        rw [List.append_assoc] at hcmds
        have hw : m.Wire := Fitting.wire (hcmds ▸ hfit) (by
          rw [hreplies]
          exact List.mem_append_right _ List.mem_cons_self) hr
        have hreceive : s.receive = some { s with
            toClient := transit.map Msg.bytes
            waiting := if isList ∧ m.bufferSize > 0 then some isList else none
            consumed := got ++ [ms ++ [m]] } := by
          unfold receive
          simp only [hwaits, hclient, List.map_cons, hw.take, hw.deserialize fun _ => read_unsigned,
            Option.map_some, hconsumed, List.dropLast_concat, List.getLastD_concat]
        have hshown' : List.Forall₂ Reply.Shows (taken ++ [r]) (ms ++ [m]) :=
          List.rel_append hshown (.cons hr .nil)
        cases hends with
        | last hstops =>
          obtain ⟨rfl, rfl⟩ := List.append_eq_nil_iff.mp (List.forall₂_nil_left_iff.mp hrest)
          refine ⟨_, (served ++ [c]) ++ [], hreceive, .idle ?_ nofun hto hq rfl hstore ?_, ?_⟩
          · exact if_neg fun hgoes => hstops ⟨hgoes.1, hr.pos_iff.mp hgoes.2⟩
          · rw [List.append_nil]
            refine hans.snoc ?_
            rwa [hreplies]
          · rw [hcmds]
            simp only [List.append_assoc, List.singleton_append]
        | entry hgoes hends =>
          rw [List.append_cons] at hreplies
          refine ⟨_, served ++ [c], hreceive, .answering ?_ hto hq rfl hstore rfl hans hreplies
            hshown' hrest hends, ?_⟩
          · exact if_pos ⟨rfl, hr.pos_iff.mpr hgoes⟩
          · rw [hcmds, List.append_assoc]

/-- One event: it is defined if it can happen. -/
theorem goes_step (henv : env.Sound) (hsize : conf.length ≤ MAX_CONFIG)
    (hfit : Fitting env conf cmds) (hcmds : cmds = done ++ s.commands)
    (h : Session.At env conf done s) {e : SessionEvent} (hen : s.Enabled e) :
    Goes env conf cmds (s.step env e) := by
  cases e with
  | send => exact goes_send hfit hcmds h hen
  | receive => exact goes_receive hfit hcmds h hen
  | read => exact goes_read henv hsize hfit hcmds h hen
  | write => exact goes_write hfit hcmds h

/-- Every run of the session stays with the sequential store. The induction is on the run. -/
theorem at_run (henv : env.Sound) (hsize : conf.length ≤ MAX_CONFIG)
    (hfit : Fitting env conf cmds) {es : List SessionEvent} {t : Session} (hrun : Run env s es t)
    (hcmds : cmds = done ++ s.commands) (h : Session.At env conf done s) :
    ∃ done', Session.At env conf done' t ∧ cmds = done' ++ t.commands := by
  induction hrun generalizing done with
  | nil s => exact ⟨done, h, hcmds⟩
  | cons hen hstep _ ih =>
    obtain ⟨s', done', hs', hat, hcmds'⟩ := goes_step henv hsize hfit hcmds h hen
    rw [hstep] at hs'
    cases hs'
    exact ih hcmds' hat

/-- A session of the commands, before anything has happened. -/
def start (conf : Config) (cmds : List Command) : Session :=
  { server := { conf := conf }, commands := cmds }

/-- At the start no command was answered. -/
theorem at_start (env : AdminEnv) (conf : Config) (cmds : List Command) :
    Session.At env conf [] (start conf cmds) :=
  @Session.At.idle env conf (start conf cmds) [] [] rfl nofun rfl LinkedQueue.holds_empty rfl rfl .nil

/-- What the client has of the replies of the commands `done`. -/
structure Refines (env : AdminEnv) (conf : Config) (done : List Command) (s : Session) : Prop where
  /-- When the client does not wait it has all of them, and none is left over. -/
  idle : s.waiting = none → Answered env conf done s.consumed ∧ s.toClient = [] ∧
    qIsEmpty s.server.queue = true
  /-- When it waits it has all of the replies to the commands before and the first ones to the
  command it waits for, and there is something on its way. -/
  waiting : s.waiting ≠ none → ∃ before c got ms taken left, done = before ++ [c] ∧
    s.consumed = got ++ [ms] ∧ Answered env conf before got ∧
    replies env conf before c = taken ++ left ∧ List.Forall₂ Reply.Shows taken ms ∧ left ≠ [] ∧
    (s.toServer ≠ [] ∨ qIsEmpty s.server.queue = false ∨ s.toClient ≠ [])
  /-- No event that can happen is undefined. -/
  defined : ∀ e, s.Enabled e → s.step env e ≠ none

/-- Where the session is at the commands answered so far it refines the store. -/
theorem At.refines (henv : env.Sound) (hsize : conf.length ≤ MAX_CONFIG)
    (hfit : Fitting env conf cmds) (hcmds : cmds = done ++ s.commands)
    (h : Session.At env conf done s) : Refines env conf done s := by
  have hdefined : ∀ e, s.Enabled e → s.step env e ≠ none := by
    intro e hen
    obtain ⟨s', -, hs', -⟩ := goes_step henv hsize hfit hcmds h hen
    rw [hs']
    exact Option.some_ne_none s'
  cases h with
  | idle hwaiting _ _ hq hclient _ hans =>
    exact ⟨fun _ => ⟨hans, hclient, hq.isEmpty_iff.mpr rfl⟩, fun h => absurd hwaiting h, hdefined⟩
  | @asked s served pending c isList got hasks hwaiting _ hto hq hclient _ hconsumed hans =>
    refine ⟨fun h => ?_, fun _ => ?_, hdefined⟩
    · rw [hwaiting] at h
      cases h
    · refine ⟨_, c, got, [], [], _, rfl, hconsumed, hans, (List.nil_append _).symm, .nil,
        (ends_replies env conf _ hasks hsize).ne_nil, .inl ?_⟩
      rw [hto, List.map_append]
      exact List.append_ne_nil_of_right_ne_nil _ (List.cons_ne_nil _ _)
  | @answering s served c isList got ms transit queued taken left hwaiting _ hq hclient _ hconsumed
      hans hreplies hshown hcoming hends =>
    refine ⟨fun h => ?_, fun _ => ?_, hdefined⟩
    · rw [hwaiting] at h
      cases h
    · refine ⟨served, c, got, ms, taken, left, rfl, hconsumed, hans, hreplies, hshown, hends.ne_nil,
        .inr ?_⟩
      cases transit with
      | cons m transit =>
        right
        rw [hclient]
        exact List.cons_ne_nil _ _
      | nil =>
        left
        rw [qIsEmpty, Bool.eq_false_iff]
        intro hempty
        rw [hq.isEmpty_iff.mp hempty] at hcoming
        exact hends.ne_nil (List.forall₂_nil_right_iff.mp hcoming)

end Session

/-- The replies the client takes for its commands are those of the sequential store, whatever the
order in which the server reads and writes. -/
theorem session_refines {env : AdminEnv} (henv : env.Sound) (args : List (UInt8 × List UInt8))
    {cmds : List Command} (hfit : Fitting env (argumentGet mainConfigurations args) cmds)
    {es : List SessionEvent} {s : Session}
    (hrun : Session.Run env (.start (argumentGet mainConfigurations args) cmds) es s) :
    ∃ done, cmds = done ++ s.commands ∧
      s.Refines env (argumentGet mainConfigurations args) done := by
  have hsize := length_argumentGet args (by decide : mainConfigurations.length ≤ MAX_CONFIG)
  obtain ⟨done, hat, hcmds⟩ := Session.at_run henv hsize hfit hrun rfl (Session.at_start env _ cmds)
  exact ⟨done, hcmds, hat.refines henv hsize hfit hcmds⟩

/-- A process with enough memory, whose metrics are all 0. -/
def AdminEnv.plain : AdminEnv := ⟨fun _ => true, fun _ => 0, fun _ => cLit "0"⟩

/-- The administrator sets the buffers' size and asks for it. -/
def setAndGet : List Command := [.reqSetConfig 2 (cLit "512"), .reqGetConfig 2]

/-- Both commands are sent, read, answered and their answers taken. -/
def bothAnswered : List SessionEvent :=
  [.send, .read, .write, .receive, .send, .read, .write, .receive]

theorem session_refines_setAndGet :
    ∃ s, Session.Run .plain (.start mainConfigurations setAndGet) bothAnswered s ∧
      (∃ done, setAndGet = done ++ s.commands ∧ s.Refines .plain mainConfigurations done) ∧
      s.commands = [] ∧ s.waiting = none ∧
      s.consumed.map (·.map (·.buffer)) = [[[]], [cLit "(2)buffers_size: 512"]] := by
  have henv : AdminEnv.plain.Sound := ⟨fun _ => rfl, by decide⟩
  have hfit : Fitting .plain (argumentGet mainConfigurations []) setAndGet :=
    ⟨by decide +kernel, by decide +kernel⟩
  have hends : ((Session.start mainConfigurations setAndGet).runs .plain bothAnswered).map
      (fun s => (s.commands, s.waiting, s.consumed.map (·.map (·.buffer)))) =
        some ([], none, [[[]], [cLit "(2)buffers_size: 512"]]) := by decide +kernel
  obtain ⟨s, hs, hend⟩ := Option.map_eq_some_iff.mp hends
  obtain ⟨hcommands, hwaiting, hconsumed⟩ : s.commands = [] ∧ s.waiting = none ∧ _ := by
    simpa only [Prod.mk.injEq] using hend
  have hrun := Session.run_of_runs hs
  exact ⟨s, hrun, session_refines henv [] hfit hrun, hcommands, hwaiting, hconsumed⟩

end HttpProxy
