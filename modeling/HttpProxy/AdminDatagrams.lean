import HttpProxy.AdminSession
import HttpProxy.Serializer

/-!
# What the administration makes of a datagram

`admin_read_handler` for a datagram of any bytes. Three lengths are at work and none is compared with
another: that of the datagram, the size the datagram declares for its payload, which is the size of
the block the payload is put into, and the length of the string the payload starts with, which is what
is copied.

`handledWithin_iff`: they agree if and only if the payload is ended by a zero within both the datagram
and the declared size, or there is no payload to copy.
-/

namespace HttpProxy

/-! ## Strings in a datagram -/

variable {l : List UInt8} {r : List UInt8 × List UInt8}

/-- A string that has its zero is received. -/
theorem deserializeString_isSome (h : 0 ∈ l) : ∃ r, deserializeString l = some r := by
  induction l with
  | nil => cases h
  | cons c l ih =>
    unfold deserializeString
    by_cases hc : c = 0
    · exact ⟨_, if_pos hc⟩
    · obtain ⟨r, hr⟩ := ih (List.mem_of_ne_of_mem (Ne.symm hc) h)
      rw [if_neg hc, hr]
      exact ⟨_, rfl⟩

/-- A string is copied up to its terminator, and no further than the first zero. -/
theorem deserializeString_within (h : deserializeString l = some r) (n : Nat) :
    0 ∈ r.1 ∧ (0 ∈ l.take n ↔ r.1.length ≤ n) := by
  induction l generalizing r n with
  | nil => cases h
  | cons c l ih =>
    unfold deserializeString at h
    split at h
    · next hc =>
      cases h
      refine ⟨List.mem_singleton_self 0, ?_⟩
      cases n with
      | zero => exact iff_of_false List.not_mem_nil (Nat.not_succ_le_zero 0)
      | succ n =>
        refine iff_of_true ?_ (Nat.le_add_left 1 n)
        rw [hc, List.take_succ_cons]
        exact List.mem_cons_self
    · next hc =>
      obtain ⟨q, hq, rfl⟩ := Option.map_eq_some_iff.mp h
      refine ⟨List.mem_cons_of_mem c (ih hq 0).1, ?_⟩
      cases n with
      | zero => exact iff_of_false List.not_mem_nil (by rw [List.length_cons]; omega)
      | succ n =>
        rw [List.take_succ_cons, List.mem_cons, or_iff_right (Ne.symm hc), (ih hq n).2,
          List.length_cons, Nat.succ_le_succ_iff]

/-! ## The handler -/

namespace Admin

variable {env : AdminEnv} {s s' : Admin} {msg : Msg} {datagram : List UInt8}

/-- The `switch` of `admin_read_handler`. -/
def dispatch (env : AdminEnv) (msg : Msg) (s : Admin) : Option Admin :=
  match MsgType.ofCode msg.type with
  | some .SEND_CRED => some s.checkCredentials
  | some .LIST_METRICS => s.sendListMetrics env
  | some .LIST_CONFIGS => s.sendListConfigs env
  | some .GET_METRIC => s.sendMetric env msg.param
  | some .GET_CONFIG => s.sendConfig env msg.param
  | some .SET_CONFIG => s.checkSetConfig env msg.param msg.buffer msg.bufferSize
  | some .ERROR | none => some s

/-- `admin_read_handler` where there need not be memory for a payload. -/
def handleDatagram (env : AdminEnv) (datagram : List UInt8) (s : Admin) : Option Admin :=
  (ProxyHttp.deserializeMsg env.malloc (datagram.take MAX_READ)).bind fun d => s.dispatch env d.msg

/-- A datagram is received, and then handled. -/
theorem adminReadHandler_eq (env : AdminEnv) (datagram : List UInt8) (s : Admin) :
    s.adminReadHandler env datagram =
      (deserializeMsg toInt32 (datagram.take MAX_READ)).bind fun msg => s.dispatch env msg := by
  unfold adminReadHandler dispatch
  refine Option.bind_congr fun msg _ => ?_
  cases MsgType.ofCode msg.type with
  | none => rfl
  | some type => cases type <;> rfl

/-- With memory for everything a datagram is handled as the handler does. -/
theorem handleDatagram_eq (hmalloc : ∀ n, env.malloc n = true) (datagram : List UInt8) (s : Admin) :
    s.handleDatagram env datagram = s.adminReadHandler env datagram := by
  rw [adminReadHandler_eq]
  have hread := deserializeMsgWith_msg toInt32 hmalloc (datagram.take MAX_READ)
  rw [← hread, Option.bind_map]
  rfl

/-! ## What a datagram may do -/

/-- The size a datagram of at least six bytes declares for its payload. -/
def declaredSize (datagram : List UInt8) : Int :=
  ((deserializeInt readInt (datagram.drop 2)).map Prod.fst).getD 0

/-- `check_set_config` stores the value of a message: there is such a configuration, and memory for a
value of the declared size. -/
def Sets (env : AdminEnv) (s : Admin) (msg : Msg) : Prop :=
  msg.param.toNat < s.conf.length ∧ 0 < msg.bufferSize ∧ env.malloc msg.bufferSize.toNat = true

/-- The datagram is not trusted beyond its length. -/
structure HandledWithin (env : AdminEnv) (s : Admin) (datagram : List UInt8) : Prop where
  /-- No byte behind the datagram is read. -/
  reads : ProxyHttp.deserializeMsg env.malloc datagram ≠ none
  /-- No byte is stored behind the block of the payload. -/
  stores : ∀ d, ProxyHttp.deserializeMsg env.malloc datagram = some d →
    d.msg.buffer.length ≤ d.msg.bufferSize.toNat
  /-- The value of the configuration that is set is a string in its block. -/
  terminated : ∀ d, ProxyHttp.deserializeMsg env.malloc datagram = some d →
    MsgType.ofCode d.msg.type = some .SET_CONFIG → Sets env s d.msg →
    ∀ s', s.handleDatagram env datagram = some s' → ∃ e, s'.conf[d.msg.param.toNat]? = some e ∧
      0 ∈ e.value ∧ e.value.length ≤ d.msg.bufferSize.toNat
  /-- Nothing else is set. -/
  unset : ∀ d, ProxyHttp.deserializeMsg env.malloc datagram = some d →
    MsgType.ofCode d.msg.type = some .SET_CONFIG → ∀ s', s.handleDatagram env datagram = some s' →
    ∀ k, (Sets env s d.msg → k ≠ d.msg.param.toNat) → s'.conf[k]? = s.conf[k]?

/-- The datagram has a header, and its payload is ended by a zero both in the datagram and in the
declared size, unless none is copied. -/
def Terminated (env : AdminEnv) (datagram : List UInt8) : Prop :=
  6 ≤ datagram.length ∧ (declaredSize datagram ≤ 0 ∨ env.malloc (declaredSize datagram).toNat = false ∨
    0 ∈ (datagram.drop 6).take (declaredSize datagram).toNat)

instance (env : AdminEnv) (datagram : List UInt8) : Decidable (Terminated env datagram) :=
  inferInstanceAs (Decidable (_ ∧ (_ ∨ _ ∨ _)))

/-- The size that is read is the one declared. -/
theorem deserializeInt_declaredSize (a b c d e f : UInt8) (l : List UInt8) :
    deserializeInt readInt (c :: d :: e :: f :: l) =
      some (declaredSize (a :: b :: c :: d :: e :: f :: l), l) := by
  unfold declaredSize
  rw [List.drop_succ_cons, List.drop_succ_cons, List.drop_zero, deserializeInt, Option.map_some,
    Option.getD_some]

/-- What is read of a datagram: its header, and its payload if one is declared and there is
memory. -/
theorem deserializeMsg_datagram (malloc : Nat → Bool) {a b c d e f : UInt8} (l : List UInt8) :
    ProxyHttp.deserializeMsg malloc (a :: b :: c :: d :: e :: f :: l) =
      if declaredSize (a :: b :: c :: d :: e :: f :: l) > 0 then
        if malloc (declaredSize (a :: b :: c :: d :: e :: f :: l)).toNat then
          (deserializeString l).map fun r =>
            ⟨⟨a, b, declaredSize (a :: b :: c :: d :: e :: f :: l), r.1⟩, some r.2⟩
        else some ⟨⟨a, b, declaredSize (a :: b :: c :: d :: e :: f :: l), []⟩, none⟩
      else some ⟨⟨a, b, declaredSize (a :: b :: c :: d :: e :: f :: l), []⟩, some l⟩ :=
  deserializeMsgWith_header (deserializeInt_declaredSize a b c d e f l) malloc a b

/-- A datagram without its header is not received. -/
theorem deserializeMsg_short (malloc : Nat → Bool) (h : datagram.length < 6) :
    ProxyHttp.deserializeMsg malloc datagram = none := by
  match datagram with
  | [] | [_] | [_, _] | [_, _, _] | [_, _, _, _] | [_, _, _, _, _] => rfl
  | _ :: _ :: _ :: _ :: _ :: _ :: l =>
    simp only [List.length_cons] at h
    omega

/-- A datagram with a header has its six bytes. -/
theorem exists_header (h : 6 ≤ datagram.length) :
    ∃ a b c d e f l, datagram = a :: b :: c :: d :: e :: f :: l := by
  match datagram with
  | [] | [_] | [_, _] | [_, _, _] | [_, _, _, _] | [_, _, _, _, _] =>
    simp only [List.length_cons, List.length_nil] at h
    omega
  | a :: b :: c :: d :: e :: f :: l => exact ⟨a, b, c, d, e, f, l, rfl⟩

/-- The datagram is read within its length and its block if and only if it is terminated. -/
theorem terminated_iff (env : AdminEnv) (datagram : List UInt8) :
    Terminated env datagram ↔ ∃ d, ProxyHttp.deserializeMsg env.malloc datagram = some d ∧
      d.msg.buffer.length ≤ d.msg.bufferSize.toNat := by
  rcases Nat.lt_or_ge datagram.length 6 with hshort | hlong
  · refine iff_of_false (fun h => Nat.not_le.mpr hshort h.1) ?_
    rintro ⟨d, hd, -⟩
    rw [deserializeMsg_short _ hshort] at hd
    cases hd
  · obtain ⟨a, b, c, d, e, f, l, rfl⟩ := exists_header hlong
    unfold Terminated
    rw [deserializeMsg_datagram]
    generalize declaredSize (a :: b :: c :: d :: e :: f :: l) = size
    rw [and_iff_right hlong]
    simp only [List.drop_succ_cons, List.drop_zero]
    split
    · next hpos =>
      rw [or_iff_right (Int.not_le.mpr hpos)]
      split
      · next hmalloc =>
        rw [or_iff_right fun hno => Bool.false_ne_true (hno.symm.trans hmalloc)]
        constructor
        · intro hzero
          obtain ⟨r, hr⟩ := deserializeString_isSome (List.mem_of_mem_take hzero)
          rw [hr]
          exact ⟨_, rfl, ((deserializeString_within hr _).2).mp hzero⟩
        · rintro ⟨d, hd, hle⟩
          obtain ⟨r, hr, rfl⟩ := Option.map_eq_some_iff.mp hd
          exact ((deserializeString_within hr _).2).mpr hle
      · next hmalloc =>
        exact iff_of_true (.inl (Bool.eq_false_iff.mpr hmalloc)) ⟨_, rfl, Nat.zero_le _⟩
    · next hpos => exact iff_of_true (.inl (Int.not_lt.mp hpos)) ⟨_, rfl, Nat.zero_le _⟩

/-! ## What is set -/

/-- Sending a message leaves the store. -/
theorem conf_sendMsg {type : MsgType} {param : UInt8} {buffer : List UInt8}
    (h : s.sendMsg type param buffer = some s') : s'.conf = s.conf := by
  obtain ⟨q, -, rfl⟩ := Option.map_eq_some_iff.mp h
  rfl

/-- `check_set_config` stores the value at the index of the message, or nothing. -/
theorem conf_checkSetConfig {msg : Msg}
    (h : s.checkSetConfig env msg.param msg.buffer msg.bufferSize = some s') :
    Sets env s msg ∧ s'.conf = s.conf.modify msg.param.toNat (fun e =>
        { e with value := msg.buffer.take msg.bufferSize.toNat }) ∨
      ¬Sets env s msg ∧ s'.conf = s.conf := by
  unfold checkSetConfig at h
  split at h
  · next hindex => exact .inr ⟨fun hsets => Nat.not_lt.mpr hindex hsets.1, conf_sendMsg h⟩
  · next hindex =>
    split at h
    · next hlen => exact .inr ⟨fun hsets => Int.not_lt.mpr hlen hsets.2.1, conf_sendMsg h⟩
    · next hlen =>
      split at h
      · next hmalloc => exact .inr ⟨fun hsets => hmalloc hsets.2.2, conf_sendMsg h⟩
      · next hmalloc =>
        refine .inl ⟨⟨Nat.not_le.mp hindex, Int.not_le.mp hlen, not_not.mp hmalloc⟩, ?_⟩
        rw [← configSetFromIndex_snd]
        simp only at h
        split at h
        · exact conf_sendMsg h
        · exact conf_sendMsg h

/-- A value that is set of a payload within its block is a string. -/
theorem zero_mem_of_deserialized {d : Deserialized}
    (h : ProxyHttp.deserializeMsg env.malloc datagram = some d) (hpos : 0 < d.msg.bufferSize)
    (hmalloc : env.malloc d.msg.bufferSize.toNat = true) : 0 ∈ d.msg.buffer := by
  rcases Nat.lt_or_ge datagram.length 6 with hshort | hlong
  · rw [deserializeMsg_short _ hshort] at h
    cases h
  · obtain ⟨a, b, c, x, e, f, l, rfl⟩ := exists_header hlong
    rw [deserializeMsg_datagram] at h
    generalize declaredSize (a :: b :: c :: x :: e :: f :: l) = size at h
    split at h
    · split at h
      · obtain ⟨r, hr, rfl⟩ := Option.map_eq_some_iff.mp h
        exact (deserializeString_within hr 0).1
      · next hno =>
        cases h
        exact absurd hmalloc hno
    · next hno =>
      cases h
      exact absurd hpos hno

/-- The lengths of a datagram agree if and only if its payload is terminated. -/
theorem handledWithin_iff (env : AdminEnv) (s : Admin) {datagram : List UInt8}
    (hlen : 0 < datagram.length ∧ datagram.length ≤ MAX_READ) :
    HandledWithin env s datagram ↔ Terminated env datagram := by
  rw [terminated_iff]
  constructor
  · intro h
    obtain ⟨d, hd⟩ := Option.ne_none_iff_exists'.mp h.reads
    exact ⟨d, hd, h.stores d hd⟩
  rintro ⟨d, hd, hle⟩
  have hsame : ∀ d', ProxyHttp.deserializeMsg env.malloc datagram = some d' → d' = d := fun d' hd' =>
    Option.some.inj (hd'.symm.trans hd)
  have hset : ∀ d', ProxyHttp.deserializeMsg env.malloc datagram = some d' →
      MsgType.ofCode d'.msg.type = some .SET_CONFIG → ∀ s', s.handleDatagram env datagram = some s' →
      s.checkSetConfig env d'.msg.param d'.msg.buffer d'.msg.bufferSize = some s' := by
    intro d' hd' htype s' hs'
    unfold handleDatagram at hs'
    rwa [List.take_of_length_le hlen.2, hd', Option.bind_some, dispatch, htype] at hs'
  constructor
  case reads =>
    rw [hd]
    exact Option.some_ne_none d
  case stores => exact fun d' hd' => hsame d' hd' ▸ hle
  case terminated =>
    intro d' hd' htype hsets s' hs'
    obtain rfl := hsame d' hd'
    rcases conf_checkSetConfig (hset d' hd' htype s' hs') with ⟨-, hconf⟩ | ⟨hno, -⟩
    · have hvalue : d'.msg.buffer.take d'.msg.bufferSize.toNat = d'.msg.buffer := List.take_of_length_le hle
      refine ⟨{ s.conf.get ⟨_, hsets.1⟩ with value := d'.msg.buffer }, ?_, ?_, hle⟩
      · rw [hconf, hvalue, List.getElem?_modify_eq, List.getElem?_eq_getElem hsets.1]
        rfl
      · exact zero_mem_of_deserialized hd' hsets.2.1 hsets.2.2
    · exact absurd hsets hno
  case unset =>
    intro d' hd' htype s' hs' k hk
    rcases conf_checkSetConfig (hset d' hd' htype s' hs') with ⟨hsets, hconf⟩ | ⟨-, hconf⟩
    · rw [hconf, List.getElem?_modify_ne _ _ (Ne.symm (hk hsets))]
    · rw [hconf]

/-- A configuration is set to a string of the size the datagram declares. -/
theorem handledWithin_setting :
    0 < ([5, 2, 0, 0, 0, 3] ++ cLit "on").length ∧
      (HandledWithin .plain { conf := mainConfigurations } ([5, 2, 0, 0, 0, 3] ++ cLit "on") ↔
        Terminated .plain ([5, 2, 0, 0, 0, 3] ++ cLit "on")) :=
  ⟨by decide, handledWithin_iff .plain { conf := mainConfigurations } (by decide)⟩

/-- The same string, of which the datagram declares a single byte: it is stored behind the block that
is made for it. -/
theorem not_handledWithin_overlong :
    ¬HandledWithin .plain { conf := mainConfigurations } ([5, 2, 0, 0, 0, 1] ++ cLit "on") := by
  intro h
  have hread : ProxyHttp.deserializeMsg AdminEnv.plain.malloc ([5, 2, 0, 0, 0, 1] ++ cLit "on") =
      some ⟨⟨5, 2, 1, cLit "on"⟩, some []⟩ := by decide
  have hle : (cLit "on").length ≤ 1 := h.stores _ hread
  exact absurd hle (by decide)

end Admin

end HttpProxy
