import HttpProxy.Chunks

/-!
# The log

`logger.c`: messages are appended to a buffer of 8192 bytes, each with a zero behind it, and a handler
passes the buffer on to the thread that logs them, as much at a time as `write` takes.

`log_send` asks for the room there is and compares it with the length of the message, not with that of
the message and its zero. A message that is as long as the room ends with a zero at `limit`, and the
assertion of `buffer_write_adv` fails; and when there is no room at all, what should become the last
byte of the room is the byte in front of the write pointer. In every run in which no message meets such
a buffer, the messages are appended as far as they fit (`logged_within_iff`).
-/

namespace HttpProxy

/-- The bytes `strncpy` stores: as many as it is told, with zeros behind the text. -/
def strncpy (s : List UInt8) (n : Nat) : List UInt8 := s.take n ++ List.replicate (n - s.length) 0

theorem length_strncpy (s : List UInt8) (n : Nat) : (strncpy s n).length = n := by
  rw [strncpy, List.length_append, List.length_take, List.length_replicate]
  omega

/-- What `log_send` leaves and stores. -/
structure Logged where
  b : RawBuffer
  stores : List (Nat × Nat)

namespace RawBuffer

/-- `log_send`; `s` is the message without the zero that ends it. -/
def logSend (b : RawBuffer) (s : List UInt8) : Logged :=
  let len := min s.length 2048
  let copied := store b.mem b.write (strncpy s b.space)
  if len > b.space then
    let last := b.write + b.space - 1
    { b := { b with mem := store copied last [0] }.writeAdv b.space
      stores := [(b.write, b.space), (last, 1)] }
  else
    { b := { b with mem := store copied (b.write + len) [0] }.writeAdv (len + 1 : Nat)
      stores := [(b.write, b.space), (b.write + len, 1)] }

/-- `log_write`, where `write` returns `written`. -/
def logWrite (b : RawBuffer) (written : Int) : RawBuffer := if b.canRead then b.readAdv written else b

/-- The buffer of `log_start`. -/
def logStart (data : Nat) (mem : Nat → UInt8) : RawBuffer := initR 0 8192 data mem

end RawBuffer

/-! ## What a message should do -/

/-- What is appended of `s` when there is room for `n` bytes. -/
def loggedText (n : Nat) (s : List UInt8) : List UInt8 :=
  if s.length + 1 ≤ n then s ++ [0] else if n = 0 then [] else s.take (n - 1) ++ [0]

namespace RawBuffer

variable {b : RawBuffer} {s : List UInt8}

/-- `log_send` stores between `write` and `limit` only, keeps the pointers in their order and appends what
fits of the message. -/
structure LogsWithin (b : RawBuffer) (s : List UInt8) : Prop where
  stores : ∀ st ∈ (b.logSend s).stores, ∀ k < st.2, b.write ≤ st.1 + k ∧ st.1 + k < b.limit
  ordered : (b.logSend s).b.Ordered
  appended : (b.logSend s).b.readable = b.readable ++ loggedText b.space s

/-- There is room, and the message does not just fill it. -/
def LogFits (b : RawBuffer) (s : List UInt8) : Prop := b.space ≠ 0 ∧ s.length ≠ b.space

instance (b : RawBuffer) (s : List UInt8) : Decidable (b.LogFits s) :=
  inferInstanceAs (Decidable (_ ∧ _))

theorem window_store_take (mem : Nat → UInt8) (p : Nat) {bytes : List UInt8} {n : Nat}
    (h : n ≤ bytes.length) : window (store mem p bytes) p n = bytes.take n := by
  have hall := window_store_self mem p bytes
  rw [show bytes.length = n + (bytes.length - n) by omega, window_append] at hall
  have htake := congrArg (List.take n) hall
  rwa [List.take_left' (length_window _ _ _)] at htake

/-- A zero stored over what was copied ends what is appended of it. -/
theorem appended_zero (h : b.Ordered) {bytes : List UInt8} {n : Nat} (hbytes : bytes.length = b.space)
    (hn : n < b.space) :
    b.Appended ({ b with mem := store (store b.mem b.write bytes) (b.write + n) [0] }.writeAdv (n + 1 : Nat))
      (bytes.take n ++ [0]) := by
  have hlen : (bytes.take n ++ [0]).length = n + 1 := by
    rw [List.length_append, List.length_take, hbytes, Nat.min_eq_left (Nat.le_of_lt hn), List.length_singleton]
  have hwrites : Pen.Writes ⟨b.mem, b.write, []⟩
      ⟨store (store b.mem b.write bytes) (b.write + n) [0], b.write + (n + 1), []⟩ (bytes.take n ++ [0]) := by
    refine ⟨by rw [hlen], ?_, ?_⟩
    · have hzero : window (store (store b.mem b.write bytes) (b.write + n) [0]) (b.write + n) 1 = [0] :=
        window_store_self _ _ [0]
      dsimp only
      rw [hlen, window_append, window_store_of_disjoint _ (.inl (Nat.le_refl _)), hzero,
        window_store_take b.mem b.write (by omega)]
    · intro q m hq
      dsimp only at hq ⊢
      rw [window_store_of_disjoint _ (.inl (by omega)), window_store_of_disjoint _ (.inl hq)]
  have hbuffer := toBuffer_writes h hwrites
  dsimp only at hbuffer
  rw [show ((b.write + (n + 1) : Nat) - b.write : Int) = (n + 1 : Nat) by omega] at hbuffer
  exact appended_writeAdv h (by rw [hlen]) (by rw [hlen]; exact hn) hbuffer

theorem take_strncpy (s : List UInt8) {k n : Nat} (hk : k ≤ n) (hs : k ≤ s.length) :
    (strncpy s n).take k = s.take k := by
  rw [strncpy, List.take_append_of_le_length, List.take_take, Nat.min_eq_left hk]
  rw [List.length_take]
  omega

/-- The two edges of the room are where `log_send` goes wrong. -/
theorem logsWithin_iff (h : b.Ordered) (hs : s.length ≤ 2047) : b.LogsWithin s ↔ b.LogFits s := by
  have hlen : min s.length 2048 = s.length := by omega
  have hwrite := h.write_le
  have hspace : b.space = b.limit - b.write := rfl
  constructor
  · intro hwithin
    have hstores := hwithin.stores
    unfold logSend at hstores
    rw [hlen] at hstores
    by_cases hover : s.length > b.space
    · -- Without any room the last byte of it is in front of the write pointer.
      rw [if_pos hover] at hstores
      have hlast := hstores (b.write + b.space - 1, 1) (List.mem_cons_of_mem _ List.mem_cons_self) 0
        Nat.zero_lt_one
      dsimp only at hlast
      exact ⟨by omega, by omega⟩
    · rw [if_neg hover] at hstores
      have hzero := hstores (b.write + s.length, 1) (List.mem_cons_of_mem _ List.mem_cons_self) 0
        Nat.zero_lt_one
      dsimp only at hzero
      exact ⟨by omega, by omega⟩
  · rintro ⟨hroom, hne⟩
    have hcopied := length_strncpy s b.space
    by_cases hover : s.length > b.space
    · have happended := appended_zero h (n := b.space - 1) hcopied (by omega)
      rw [take_strncpy s (by omega) (by omega), show b.space - 1 + 1 = b.space by omega,
        show b.write + (b.space - 1) = b.write + b.space - 1 by omega] at happended
      have hsend : (b.logSend s).b =
          { b with mem := store (store b.mem b.write (strncpy s b.space)) (b.write + b.space - 1) [0] }.writeAdv
            b.space := by
        unfold logSend
        rw [hlen, if_pos hover]
      have htext : loggedText b.space s = s.take (b.space - 1) ++ [0] := by
        rw [loggedText, if_neg (by omega), if_neg hroom]
      refine ⟨?_, by rw [hsend]; exact happended.ordered, by rw [hsend, htext]; exact happended.readable⟩
      intro st hst k hk
      unfold logSend at hst
      rw [hlen, if_pos hover] at hst
      simp only [List.mem_cons, List.not_mem_nil, or_false] at hst
      rcases hst with rfl | rfl <;> dsimp only at hk ⊢ <;> omega
    · have happended := appended_zero h (n := s.length) hcopied (by omega)
      rw [take_strncpy s (by omega) (Nat.le_refl _), List.take_length] at happended
      have hsend : (b.logSend s).b =
          { b with mem := store (store b.mem b.write (strncpy s b.space)) (b.write + s.length) [0] }.writeAdv
            (s.length + 1 : Nat) := by
        unfold logSend
        rw [hlen, if_neg hover]
      have htext : loggedText b.space s = s ++ [0] := if_pos (by omega)
      refine ⟨?_, by rw [hsend]; exact happended.ordered, by rw [hsend, htext]; exact happended.readable⟩
      intro st hst k hk
      unfold logSend at hst
      rw [hlen, if_neg hover] at hst
      simp only [List.mem_cons, List.not_mem_nil, or_false] at hst
      rcases hst with rfl | rfl <;> dsimp only at hk ⊢ <;> omega

end RawBuffer

/-! ## Runs -/

/-- What happens to the log: a message, or its handler, with what `write` returns. -/
inductive LogEvent
  | send (s : List UInt8)
  | write (written : Int)

namespace RawBuffer

/-- Messages are no longer than a line of `log_sendf`, and `write` takes no more than there is. -/
def Feasible (b : RawBuffer) : List LogEvent → Prop
  | [] => True
  | .send s :: evs =>
    (0 ∉ s ∧ s.length ≤ 2047) ∧
      ((b.logSend s).b.write ≤ (b.logSend s).b.limit → (b.logSend s).b.Feasible evs)
  | .write n :: evs => (-1 ≤ n ∧ n ≤ (b.write - b.read : Nat)) ∧ (b.logWrite n).Feasible evs

/-- `P` holds of each message and the buffer it meets, up to where the assertion of `buffer_write_adv`
fails. -/
def Along (P : RawBuffer → List UInt8 → Prop) (b : RawBuffer) : List LogEvent → Prop
  | [] => True
  | .send s :: evs =>
    P b s ∧ ((b.logSend s).b.write ≤ (b.logSend s).b.limit → (b.logSend s).b.Along P evs)
  | .write n :: evs => (b.logWrite n).Along P evs

theorem ordered_logWrite {b : RawBuffer} (h : b.Ordered) {n : Int} (hn : n ≤ (b.write - b.read : Nat)) :
    (b.logWrite n).Ordered := by
  obtain ⟨hdata, hread, hinf, hwrite, hdata'⟩ := h
  unfold logWrite
  split
  · unfold readAdv
    split
    · dsimp only
      split
      · next hall =>
        unfold compact
        dsimp only at hall ⊢
        split
        · exact ⟨Nat.le_trans hdata (Nat.le_add_right _ _), Nat.le_of_eq hall, hinf, hwrite, hdata'⟩
        · exact ⟨hdata', Nat.le_refl _, Nat.le_refl _, Nat.le_trans hinf hwrite, hdata'⟩
      · exact ⟨Nat.le_trans hdata (Nat.le_add_right _ _), by dsimp only; omega, hinf, hwrite, hdata'⟩
    · exact ⟨hdata, hread, hinf, hwrite, hdata'⟩
  · exact ⟨hdata, hread, hinf, hwrite, hdata'⟩

/-- In a run from any state in order the messages are logged as they should just if they all fit. -/
theorem along_iff {b : RawBuffer} (h : b.Ordered) {evs : List LogEvent} (hf : b.Feasible evs) :
    b.Along LogsWithin evs ↔ b.Along LogFits evs := by
  induction evs generalizing b with
  | nil => exact Iff.rfl
  | cons ev evs ih =>
    cases ev with
    | send s =>
      obtain ⟨⟨-, hs⟩, hrest⟩ := hf
      have hiff := logsWithin_iff h hs
      constructor
      · rintro ⟨hwithin, hafter⟩
        have hordered := hwithin.ordered
        exact ⟨hiff.mp hwithin, fun hle => (ih hordered (hrest hle)).mp (hafter hle)⟩
      · rintro ⟨hfits, hafter⟩
        have hordered := (hiff.mpr hfits).ordered
        exact ⟨hiff.mpr hfits, fun hle => (ih hordered (hrest hle)).mpr (hafter hle)⟩
    | write n => exact ih (ordered_logWrite h hf.1.2) hf.2

theorem ordered_logStart (data : Nat) (mem : Nat → UInt8) : (logStart data mem).Ordered :=
  ordered_initR (Nat.zero_le _) data mem

/-- In a run of the log every message is appended as it should, within the buffer, just if there is room
before every message and no message is as long as the room. -/
theorem logged_within_iff (data : Nat) (mem : Nat → UInt8) {evs : List LogEvent}
    (hf : (logStart data mem).Feasible evs) :
    (logStart data mem).Along LogsWithin evs ↔ (logStart data mem).Along LogFits evs :=
  along_iff (ordered_logStart data mem) hf

/-- Two messages, between which part of the first goes to the thread. -/
theorem logged_within_iff_partial :
    (logStart 0 fun _ => 0).Along LogsWithin
      [.send (lit "GET"), .write 2, .write (-1), .send (lit "200")] :=
  (logged_within_iff 0 (fun _ => 0)
    (show Feasible _ [.send (lit "GET"), .write 2, .write (-1), .send (lit "200")] from
      ⟨⟨by decide, by decide⟩, fun _ => ⟨by decide, by decide, ⟨by decide, by decide⟩, fun _ => trivial⟩⟩)).mpr
    ⟨by decide, fun _ => ⟨by decide, fun _ => trivial⟩⟩

theorem logSend_pointers {b : RawBuffer} {s : List UInt8} (hs : s.length ≤ 2047) (hlt : s.length < b.space) :
    (b.logSend s).b.write = b.write + (s.length + 1) ∧ (b.logSend s).b.limit = b.limit := by
  unfold logSend
  rw [show min s.length 2048 = s.length by omega, if_neg (by omega)]
  exact ⟨rfl, rfl⟩

/-- Four messages that leave room for one byte, and a message of one byte. -/
theorem logged_outside :
    let line := LogEvent.send (List.replicate 2047 0x61)
    let evs := [line, line, line, LogEvent.send (List.replicate 2046 0x61), LogEvent.send (lit "x")]
    (logStart 0 fun _ => 0).Feasible evs ∧ ¬(logStart 0 fun _ => 0).Along LogsWithin evs := by
  have hline : (List.replicate 2047 (0x61 : UInt8)).length = 2047 := List.length_replicate
  have hlast : (List.replicate 2046 (0x61 : UInt8)).length = 2046 := List.length_replicate
  have hzero : ∀ n, (0 : UInt8) ∉ List.replicate n 0x61 := fun n h0 =>
    absurd (List.eq_of_mem_replicate h0) (by decide)
  have hnext : ∀ (b : RawBuffer) (w n : Nat), b.write = w ∧ b.limit = 8192 → n ≤ 2047 → w + n < 8192 →
      (b.logSend (List.replicate n 0x61)).b.write = w + (n + 1) ∧
        (b.logSend (List.replicate n 0x61)).b.limit = 8192 := by
    rintro b w n ⟨rfl, hlimit⟩ hn hlt
    obtain ⟨hwrite', hlimit'⟩ := logSend_pointers (b := b) (s := List.replicate n 0x61)
      (by rw [List.length_replicate]; exact hn)
      (by rw [List.length_replicate, space, hlimit]; omega)
    rw [List.length_replicate] at hwrite'
    exact ⟨hwrite', hlimit'.trans hlimit⟩
  have h₁ := hnext (logStart 0 fun _ => 0) 0 2047 ⟨rfl, rfl⟩ (by decide) (by decide)
  have h₂ := hnext _ _ 2047 h₁ (by decide) (by decide)
  have h₃ := hnext _ _ 2047 h₂ (by decide) (by decide)
  have h₄ := hnext _ _ 2046 h₃ (by decide) (by decide)
  have hfeasible : (logStart 0 fun _ => 0).Feasible [.send (List.replicate 2047 0x61),
      .send (List.replicate 2047 0x61), .send (List.replicate 2047 0x61),
      .send (List.replicate 2046 0x61), .send (lit "x")] :=
    ⟨⟨hzero _, Nat.le_of_eq hline⟩, fun _ => ⟨⟨hzero _, Nat.le_of_eq hline⟩, fun _ =>
      ⟨⟨hzero _, Nat.le_of_eq hline⟩, fun _ => ⟨⟨hzero _, by rw [hlast]; decide⟩, fun _ =>
        ⟨by decide, fun _ => trivial⟩⟩⟩⟩⟩
  refine ⟨hfeasible, fun hwithin => ?_⟩
  obtain ⟨-, hfits⟩ := (along_iff (ordered_logStart 0 _) hfeasible).mp hwithin
  obtain ⟨-, hfits⟩ := hfits (by rw [h₁.1, h₁.2]; decide)
  obtain ⟨-, hfits⟩ := hfits (by rw [h₂.1, h₂.2]; decide)
  obtain ⟨-, hfits⟩ := hfits (by rw [h₃.1, h₃.2]; decide)
  obtain ⟨hfits, -⟩ := hfits (by rw [h₄.1, h₄.2]; decide)
  refine hfits.2 ?_
  rw [space, h₄.1, h₄.2]
  rfl

end RawBuffer

end HttpProxy
