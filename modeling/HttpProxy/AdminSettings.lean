import HttpProxy.Admin
import HttpProxy.Client

/-!
# What the administrator can set the buffers to

`check_set_config` takes any value for any configuration, and `client_new` makes its buffers of what
`atoi` reads in `buffers_size`, with a reserved zone of fixed size. So the buffers are buffers just
as long as the last value set is a number over that size.
-/

namespace HttpProxy

/-! ## The configuration of the buffers -/

/-- The index of `buffers_size` among the configurations `main` creates. -/
def buffersSizeIndex : Nat := 2

/-- `buffers_size` is at its index, with the value `v`. -/
def Config.SizeIs (conf : Config) (v : List UInt8) : Prop :=
  ∃ a b rest, conf = a :: b :: ⟨cLit "buffers_size", v⟩ :: rest ∧ a.name = cLit "media_types" ∧
    b.name = cLit "cmd"

variable {conf : Config} {v : List UInt8}

/-- The setting of the buffers' size is in the store. -/
theorem Config.SizeIs.size (h : conf.SizeIs v) : buffersSizeIndex < configGetSize conf := by
  obtain ⟨a, b, rest, rfl, -⟩ := h
  exact Nat.le_add_left 3 rest.length

/-- The size of the buffers is read from its setting. -/
theorem Config.SizeIs.configGet (h : conf.SizeIs v) :
    configGet (cLit "buffers_size") conf = some v := by
  obtain ⟨a, b, rest, rfl, ha, hb⟩ := h
  have hna : a.matches (cLit "buffers_size") = false := by
    unfold ConfigEntry.matches
    rw [ha]
    decide
  have hnb : b.matches (cLit "buffers_size") = false := by
    unfold ConfigEntry.matches
    rw [hb]
    decide
  have hn : (⟨cLit "buffers_size", v⟩ : ConfigEntry).matches (cLit "buffers_size") = true := by
    unfold ConfigEntry.matches
    exact beq_self_eq_true _
  unfold HttpProxy.configGet
  rw [List.find?_cons_of_neg (by rw [hna]; exact Bool.false_ne_true),
    List.find?_cons_of_neg (by rw [hnb]; exact Bool.false_ne_true), List.find?_cons, hn]
  rfl

/-- Setting a configuration changes the value of the buffers' size if its index is that one. -/
theorem Config.SizeIs.configSetFromIndex (h : conf.SizeIs v) (index : Nat) (value : List UInt8) :
    (configSetFromIndex index value conf).2.SizeIs
      (if index = buffersSizeIndex then value else v) := by
  obtain ⟨a, b, rest, rfl, ha, hb⟩ := h
  rw [configSetFromIndex_snd]
  match index with
  | 0 => exact ⟨{ a with value := value }, b, rest, rfl, ha, hb⟩
  | 1 => exact ⟨a, { b with value := value }, rest, rfl, ha, hb⟩
  | 2 => exact ⟨a, b, rest, rfl, ha, hb⟩
  | n + 3 =>
    rw [if_neg (by unfold buffersSizeIndex; omega)]
    exact ⟨a, b, rest.modify n fun e => { e with value := value }, rfl, ha, hb⟩

/-- Creating another configuration does not change the buffers' size. -/
theorem Config.SizeIs.configCreate (h : conf.SizeIs v) {name value : List UInt8}
    (hname : (⟨cLit "buffers_size", v⟩ : ConfigEntry).matches name = false) :
    (configCreate name value conf).2.SizeIs v := by
  obtain ⟨a, b, rest, rfl, ha, hb⟩ := h
  unfold HttpProxy.configCreate
  simp only [configReplace, hname, Bool.false_eq_true, if_false]
  cases ha' : a.matches name with
  | true => exact ⟨_, b, rest, rfl, ha, hb⟩
  | false =>
    cases hb' : b.matches name with
    | true => exact ⟨a, _, rest, rfl, ha, hb⟩
    | false =>
      simp only [Bool.false_eq_true, if_false]
      cases hrest : configReplace name (stringAt value ++ [0]) rest with
      | some rest' => exact ⟨a, b, rest', rfl, ha, hb⟩
      | none =>
        simp only [Option.map_none]
        split
        · exact ⟨a, b, rest, rfl, ha, hb⟩
        · exact ⟨a, b, rest ++ [_], rfl, ha, hb⟩

/-- The arguments of the program leave the size of the buffers. -/
theorem sizeIs_argumentGet (h : conf.SizeIs v) (args : List (UInt8 × List UInt8)) :
    (argumentGet conf args).SizeIs v := by
  induction args generalizing conf with
  | nil => exact h
  | cons arg args ih =>
    obtain ⟨c, optarg⟩ := arg
    apply ih
    cases hopt : optionName c with
    | none => exact h
    | some name =>
      refine h.configCreate ?_
      unfold optionName at hopt
      unfold ConfigEntry.matches
      simp only
      split_ifs at hopt <;> cases hopt <;> decide

theorem sizeIs_mainConfigurations : mainConfigurations.SizeIs (cLit "8192") :=
  ⟨⟨cLit "media_types", cLit "text/plain"⟩, ⟨cLit "cmd", cLit "cat"⟩, mainConfigurations.drop 3,
    by decide, rfl, rfl⟩

/-! ## Settings -/

/-- What `check_set_config` is called with when the value is terminated. -/
structure SetConfig where
  config : UInt8
  value : List UInt8
  valueLen : Int
  terminated : 0 ∈ value.take valueLen.toNat

/-- Whether `check_set_config` takes the value, when there are `size` configurations. -/
def SetConfig.accepted (env : AdminEnv) (size : Nat) (m : SetConfig) : Bool :=
  m.config.toNat < size && 0 < m.valueLen && env.malloc m.valueLen.toNat

/-- A setting is accepted when it is there, has a value, and there is memory for it. -/
theorem SetConfig.accepted_iff {env : AdminEnv} {size : Nat} {m : SetConfig} :
    m.accepted env size = true ↔
      m.config.toNat < size ∧ 0 < m.valueLen ∧ env.malloc m.valueLen.toNat = true := by
  unfold accepted
  rw [Bool.and_eq_true, Bool.and_eq_true, decide_eq_true_iff, decide_eq_true_iff, and_assoc]

/-- Settings, one after the other. -/
def Admin.settings (env : AdminEnv) (s : Admin) (ms : List SetConfig) : Option Admin :=
  ms.foldlM (fun s m => s.checkSetConfig env m.config m.value m.valueLen) s

/-- The last value accepted for the buffers' size, or the one before the settings. -/
def lastSize (env : AdminEnv) (v : List UInt8) (ms : List SetConfig) : List UInt8 :=
  ((ms.filter fun m => m.config.toNat = buffersSizeIndex ∧
      m.accepted env (buffersSizeIndex + 1)).getLast?.map
    fun m => m.value.take m.valueLen.toNat).getD v

/-- The last accepted size is that behind the first message. -/
theorem lastSize_cons (env : AdminEnv) (v : List UInt8) (m : SetConfig) (ms : List SetConfig) :
    lastSize env v (m :: ms) =
      lastSize env (if m.config.toNat = buffersSizeIndex ∧ m.accepted env (buffersSizeIndex + 1) then
        m.value.take m.valueLen.toNat else v) ms := by
  unfold lastSize
  split
  · next hm =>
    simp only [List.filter_cons, hm, and_self, decide_true, if_true, List.getLast?_cons]
    cases (ms.filter _).getLast? <;> rfl
  · next hm => simp only [List.filter_cons, hm, decide_false, Bool.false_eq_true, if_false]

namespace Admin

variable {s : Admin} {msgs : List Msg}

/-- A message is queued behind what waits. -/
theorem sendMsg_holds (h : s.queue.Holds msgs) (type : MsgType) (param : UInt8)
    (buffer : List UInt8) : ∃ s', s.sendMsg type param buffer = some s' ∧ s'.conf = s.conf ∧
      s'.queue.Holds (msgs ++ [⟨type.code, param, buffer.length, buffer⟩]) := by
  obtain ⟨q, hq, hholds⟩ := h.offer ⟨type.code, param, buffer.length, buffer⟩
  refine ⟨{ s with queue := q, made := s.made + 1 }, ?_, rfl, hholds⟩
  unfold sendMsg qOffer
  rw [hq]
  rfl

/-- Setting a setting leaves the size of the buffers, or gives it the value. -/
theorem checkSetConfig_sizeIs (env : AdminEnv) (h : s.queue.Holds msgs) (hv : s.conf.SizeIs v)
    (m : SetConfig) : ∃ s' msgs', s.checkSetConfig env m.config m.value m.valueLen = some s' ∧
      s'.queue.Holds msgs' ∧ s'.conf.SizeIs
        (if m.config.toNat = buffersSizeIndex ∧ m.accepted env (buffersSizeIndex + 1) then
          m.value.take m.valueLen.toNat else v) := by
  have hsize := hv.size
  unfold checkSetConfig
  split
  · next hindex =>
    obtain ⟨s', hs', hconf, hq⟩ := sendMsg_holds h .ERROR AdminError.CONFIG_NOT_FOUND.code []
    rw [if_neg (by omega)]
    exact ⟨s', _, hs', hq, by rwa [hconf]⟩
  · next hindex =>
    split
    · next hlen =>
      obtain ⟨s', hs', hconf, hq⟩ := sendMsg_holds h .ERROR AdminError.INVALID_LENGTH.code []
      rw [if_neg fun hm => absurd (SetConfig.accepted_iff.mp hm.2).2.1 (by omega)]
      exact ⟨s', _, hs', hq, by rwa [hconf]⟩
    · next hlen =>
      split
      · next hmalloc =>
        obtain ⟨s', hs', hconf, hq⟩ := sendMsg_holds h .ERROR AdminError.UNEXPECTED_ERROR.code []
        rw [if_neg fun hm => hmalloc (SetConfig.accepted_iff.mp hm.2).2.2]
        exact ⟨s', _, hs', hq, by rwa [hconf]⟩
      · next hmalloc =>
        have hset := hv.configSetFromIndex m.config.toNat (m.value.take m.valueLen.toNat)
        have hret :
            (configSetFromIndex m.config.toNat (m.value.take m.valueLen.toNat) s.conf).1 = 0 := by
          unfold configSetFromIndex
          exact congrArg Prod.fst (if_neg hindex)
        obtain ⟨s', hs', hconf, hq⟩ := sendMsg_holds
          (s := { s with conf := (configSetFromIndex m.config.toNat
            (m.value.take m.valueLen.toNat) s.conf).2 }) h .SET_CONFIG (env.unset s.made) []
        refine ⟨s', _, ?_, hq, ?_⟩
        · simp only [hret]
          exact hs'
        · rw [hconf]
          refine cast (congrArg _ (if_congr ?_ rfl rfl)) hset
          constructor
          · intro heq
            exact ⟨heq, SetConfig.accepted_iff.mpr
              ⟨by rw [heq]; exact Nat.lt_succ_self _, by omega, not_not.mp hmalloc⟩⟩
          · exact And.left

/-- After any settings the buffers' size is the last one accepted. -/
theorem settings_sizeIs (env : AdminEnv) (h : s.queue.Holds msgs) (hv : s.conf.SizeIs v)
    (ms : List SetConfig) : ∃ s', s.settings env ms = some s' ∧ s'.conf.SizeIs (lastSize env v ms) := by
  induction ms generalizing s msgs v with
  | nil => exact ⟨s, rfl, hv⟩
  | cons m ms ih =>
    obtain ⟨s', msgs', hs', hq, hv'⟩ := checkSetConfig_sizeIs env h hv m
    obtain ⟨s'', hs'', hv''⟩ := ih hq hv'
    refine ⟨s'', ?_, by rwa [lastSize_cons]⟩
    unfold settings at hs'' ⊢
    rw [List.foldlM_cons, hs']
    exact hs''

end Admin

/-! ## The client's buffers -/

/-- The buffer is in its memory, its zones are in order, and there is room for a byte. -/
def Buffer.Usable (b : Buffer) (mem : Nat) : Prop :=
  b.infLimit ≤ b.limit ∧ bufferCanWrite b = true ∧ b.limit ≤ mem

/-- Every buffer of the client is usable. -/
def Client.Usable (c : Client) : Prop :=
  c.preReqParseBuf.Usable c.preReqParseBufMem ∧ c.postReqParseBuf.Usable c.postReqParseBufMem ∧
    c.preResParseBuf.Usable c.preResParseBufMem ∧ c.postResParseBuf.Usable c.postResParseBufMem ∧
      c.preTransfBuf.Usable c.preTransfBufMem

/-- A buffer is usable exactly when it is larger than its reserved zone and there is memory for
it. -/
theorem usable_bufferInitR (malloc : Nat → Bool) (n : Nat) :
    (bufferInitR RESERVED_SPACE n).Usable (if malloc n then n else 0) ↔
      RESERVED_SPACE < n ∧ malloc n = true := by
  unfold Buffer.Usable bufferInitR bufferCanWrite Buffer.write
  simp only [List.length_nil, Nat.add_zero, decide_eq_true_eq]
  cases malloc n with
  | true =>
    simp only [if_true, and_true]
    omega
  | false =>
    simp only [Bool.false_eq_true, if_false, and_false, iff_false]
    omega

/-- A client is usable exactly when its buffers are. -/
theorem usable_fresh (malloc : Nat → Bool) (conf : Config) :
    (Client.fresh malloc conf).Usable ↔
      RESERVED_SPACE < buffersSize conf ∧ malloc (buffersSize conf) = true := by
  rw [← usable_bufferInitR]
  exact ⟨And.left, fun h => ⟨h, h, h, h, h⟩⟩

/-- A new client's buffers are usable if and only if the last value accepted for their size is a
number over the reserved space and there is memory for as much. -/
theorem usable_iff (env : AdminEnv) (malloc : Nat → Bool) (args : List (UInt8 × List UInt8))
    (ms : List SetConfig) :
    ∃ s, Admin.settings env { conf := argumentGet mainConfigurations args } ms = some s ∧
      ((Client.fresh malloc s.conf).Usable ↔
        RESERVED_SPACE < toSize (atoi (lastSize env (cLit "8192") ms)) ∧
          malloc (toSize (atoi (lastSize env (cLit "8192") ms))) = true) := by
  obtain ⟨s, hs, hsize⟩ := Admin.settings_sizeIs env
    (s := { conf := argumentGet mainConfigurations args }) LinkedQueue.holds_empty
    (sizeIs_argumentGet sizeIs_mainConfigurations args) ms
  refine ⟨s, hs, ?_⟩
  rw [usable_fresh]
  unfold buffersSize
  rw [hsize.configGet]
  rfl

/-- The administrator sets the buffers' size to 0. -/
theorem unusable_of_zero :
    ∃ s, Admin.settings ⟨fun _ => true, fun _ => 0, fun _ => []⟩ { conf := mainConfigurations }
        [⟨2, cLit "0", 2, by decide⟩] = some s ∧ ¬(Client.fresh (fun _ => true) s.conf).Usable := by
  refine ⟨_, rfl, fun h => ?_⟩
  exact absurd h.1.1 (by decide)

end HttpProxy
