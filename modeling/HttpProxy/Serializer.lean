import HttpProxy.AdminReplies

/-!
# The serializers of the two programs

`serializer.c` of `proxy_http` and `serializer.c` of `admin_client`, which differ in the type of
`buffer_size`: an `int` in the one, an `unsigned int` in the other. A number is sent as the same four
bytes by both, so each program has its own way to read them only.

`serializers_agree`: what one of the programs writes the other reads, and stops where it stopped.
-/

namespace HttpProxy

/-! ## Deserializing, with what is left of the buffer -/

/-- What `deserialize_msg` puts into the message, and the bytes that start at the pointer it returns:
there are none at `NULL`. -/
structure Deserialized where
  msg : Msg
  rest : Option (List UInt8)
deriving DecidableEq, Repr

/-- `read` is how the type of `buffer_size` reads its 32 bits. -/
def deserializeMsgWith (read : Int → Int) (malloc : Nat → Bool) (buffer : List UInt8) :
    Option Deserialized := do
  let (type, buffer) ← deserializeChar buffer
  let (param, buffer) ← deserializeChar buffer
  let (bufferSize, buffer) ← deserializeInt read buffer
  if bufferSize > 0 then
    -- a message without its payload is left behind when there is no memory
    if malloc bufferSize.toNat then
      let (str, buffer) ← deserializeString buffer
      return ⟨{ type := type, param := param, bufferSize := bufferSize, buffer := str }, some buffer⟩
    else return ⟨{ type := type, param := param, bufferSize := bufferSize }, none⟩
  else return ⟨{ type := type, param := param, bufferSize := bufferSize }, some buffer⟩

/-- The message is the one that is read where there is always memory. -/
theorem deserializeMsgWith_msg (read : Int → Int) {malloc : Nat → Bool}
    (hmalloc : ∀ n, malloc n = true) (buffer : List UInt8) :
    (deserializeMsgWith read malloc buffer).map Deserialized.msg = deserializeMsg read buffer := by
  unfold deserializeMsgWith deserializeMsg
  simp only [hmalloc, if_true, Option.bind_eq_bind]
  cases deserializeChar buffer with
  | none => rfl
  | some x =>
    simp only [Option.bind_some]
    cases deserializeChar x.2 with
    | none => rfl
    | some y =>
      simp only [Option.bind_some]
      cases deserializeInt read y.2 with
      | none => rfl
      | some z =>
        simp only [Option.bind_some]
        split
        · cases deserializeString z.2 <;> rfl
        · rfl

/-- What follows a header in which the size is read as `value`. -/
theorem deserializeMsgWith_header {read : Int → Int} {buffer l : List UInt8} {value : Int}
    (h : deserializeInt read buffer = some (value, l)) (malloc : Nat → Bool) (type param : UInt8) :
    deserializeMsgWith read malloc (type :: param :: buffer) =
      if value > 0 then
        if malloc value.toNat then
          (deserializeString l).map fun r => ⟨⟨type, param, value, r.1⟩, some r.2⟩
        else some ⟨⟨type, param, value, []⟩, none⟩
      else some ⟨⟨type, param, value, []⟩, some l⟩ := by
  unfold deserializeMsgWith
  simp only [deserializeChar, Option.bind_eq_bind, Option.bind_some, h]
  split
  · split
    · cases deserializeString l <;> rfl
    · rfl
  · rfl

/-! ## The two programs -/

/-- An `int`. -/
def readInt (n : Int) : Int := toInt32 n

/-- An `unsigned int`. -/
def readUnsigned (n : Int) : Int := n % 2 ^ 32

def ProxyHttp.serializeMsg (msg : Msg) : Option (List UInt8) := HttpProxy.serializeMsg msg

def ProxyHttp.deserializeMsg (malloc : Nat → Bool) (buffer : List UInt8) : Option Deserialized :=
  deserializeMsgWith readInt malloc buffer

def AdminClient.serializeMsg (msg : Msg) : Option (List UInt8) := HttpProxy.serializeMsg msg

def AdminClient.deserializeMsg (malloc : Nat → Bool) (buffer : List UInt8) : Option Deserialized :=
  deserializeMsgWith readUnsigned malloc buffer

inductive Program
  | proxyHttp
  | adminClient
deriving DecidableEq, Repr

def Program.serializeMsg : Program → Msg → Option (List UInt8)
  | .proxyHttp => ProxyHttp.serializeMsg
  | .adminClient => AdminClient.serializeMsg

def Program.deserializeMsg : Program → (Nat → Bool) → List UInt8 → Option Deserialized
  | .proxyHttp => ProxyHttp.deserializeMsg
  | .adminClient => AdminClient.deserializeMsg

/-- How the program reads the size of a payload. -/
def Program.readSize : Program → Int → Int
  | .proxyHttp => readInt
  | .adminClient => readUnsigned

theorem Program.serializeMsg_eq (p : Program) : p.serializeMsg = HttpProxy.serializeMsg := by
  cases p <;> rfl

theorem Program.deserializeMsg_eq (p : Program) :
    p.deserializeMsg = deserializeMsgWith p.readSize := by cases p <;> rfl

/-- A size both types have is read as it was written. -/
theorem Program.readSize_emod (p : Program) {n : Int} (h₀ : 0 ≤ n) (h₁ : n < 2 ^ 31) :
    p.readSize (n % 2 ^ 32) = n := by
  rw [Int.emod_eq_of_lt h₀ (by omega)]
  cases p with
  | proxyHttp => exact toInt32_eq (by omega) h₁
  | adminClient => exact Int.emod_eq_of_lt h₀ (by omega)

/-! ## What is written is read -/

/-- There is no payload, or it is a string and its size counts the terminator. -/
structure Msg.Sized (m : Msg) : Prop where
  payload : m.bufferSize = 0 ∨ ∃ str, 0 ∉ str ∧ m.buffer = str ++ [0] ∧ m.bufferSize = str.length + 1
  small : m.bufferSize < 2 ^ 31

theorem Msg.Sized.nonneg {m : Msg} (h : m.Sized) : 0 ≤ m.bufferSize := by
  rcases h.payload with hzero | ⟨str, -, -, hsize⟩ <;> omega

/-- The payload of the message, if it has one. -/
def Msg.payload (m : Msg) : List UInt8 := if m.bufferSize = 0 then [] else m.buffer

theorem Msg.Sized.length_payload {m : Msg} (h : m.Sized) : (m.payload.length : Int) = m.bufferSize := by
  unfold Msg.payload
  rcases h.payload with hzero | ⟨str, -, hbuf, hsize⟩
  · rw [if_pos hzero, hzero]
    rfl
  · rw [if_neg (by omega), hbuf, hsize, List.length_append, List.length_singleton]
    rfl

theorem Msg.Sized.serialize {m : Msg} (h : m.Sized) :
    serializeMsg m = some (m.type :: m.param :: serializeInt m.bufferSize ++ m.payload) := by
  unfold serializeMsg Msg.payload
  rcases h.payload with hzero | ⟨str, hstr, hbuf, hsize⟩
  · rw [if_neg (by omega), if_pos hzero, List.append_nil]
  · rw [if_pos (by omega), if_neg (by omega), hbuf, serializeString_append hstr]
    rfl

theorem Msg.Sized.deserialize {m : Msg} (h : m.Sized) (p : Program) {malloc : Nat → Bool}
    (hmalloc : 0 < m.bufferSize → malloc m.bufferSize.toNat = true) (others : List UInt8) :
    p.deserializeMsg malloc
        (m.type :: m.param :: serializeInt m.bufferSize ++ (m.payload ++ others)) =
      some ⟨{ m with buffer := m.payload }, some others⟩ := by
  have hsize := deserializeInt_serializeInt _ (p.readSize_emod h.nonneg h.small)
  rw [p.deserializeMsg_eq, List.cons_append, List.cons_append, deserializeMsgWith_header (hsize _)]
  unfold Msg.payload
  rcases h.payload with hzero | ⟨str, hstr, hbuf, hsize⟩
  · rw [if_neg (by omega), if_pos hzero, List.nil_append]
  · rw [if_pos (by omega), if_pos (hmalloc (by omega)), if_neg (by omega), hbuf, List.append_assoc,
      List.singleton_append, deserializeString_append hstr]
    rfl

/-- What either program writes of a message is six bytes and its payload, and either program reads
the message back from it and stops there, whatever follows. -/
theorem serializers_agree (writer reader : Program) {m : Msg} (h : m.Sized) {malloc : Nat → Bool}
    (hmalloc : 0 < m.bufferSize → malloc m.bufferSize.toNat = true) :
    ∃ bytes, writer.serializeMsg m = some bytes ∧ (bytes.length : Int) = 6 + m.bufferSize ∧
      ∀ others, ∃ msg, reader.deserializeMsg malloc (bytes ++ others) = some ⟨msg, some others⟩ ∧
        msg.type = m.type ∧ msg.param = m.param ∧ msg.bufferSize = m.bufferSize ∧
          msg.buffer = m.payload := by
  refine ⟨_, by rw [writer.serializeMsg_eq, h.serialize], ?_, fun others => ?_⟩
  · rw [List.length_append, Int.natCast_add, h.length_payload]
    rfl
  · rw [List.append_assoc]
    exact ⟨_, h.deserialize reader hmalloc others, rfl, rfl, rfl, rfl⟩

/-- The client sets a configuration to `on`. -/
theorem serializers_agree_on :
    ∃ bytes, Program.adminClient.serializeMsg ⟨5, 2, 3, cLit "on"⟩ = some bytes ∧
      (bytes.length : Int) = 6 + 3 ∧
      ∀ others, ∃ msg,
        Program.proxyHttp.deserializeMsg (fun n => n ≤ 3) (bytes ++ others) = some ⟨msg, some others⟩ ∧
          msg.type = 5 ∧ msg.param = 2 ∧ msg.bufferSize = 3 ∧ msg.buffer = cLit "on" := by
  have hsized : Msg.Sized ⟨5, 2, 3, cLit "on"⟩ := ⟨.inr ⟨lit "on", by decide, rfl, rfl⟩, by decide⟩
  have hmalloc : (0 : Int) < 3 → (fun n => decide (n ≤ 3)) (3 : Int).toNat = true := fun _ => rfl
  exact serializers_agree .adminClient .proxyHttp hsized hmalloc

end HttpProxy
