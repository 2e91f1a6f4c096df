import HttpProxy.Buffer

/-!
# The buffer in memory

`buffer.c` on the memory it works on: two pointers that move over three zones, and bytes that are
moved when the buffer is compacted. `Buffer` keeps the readable bytes alone; `toBuffer` reads them
off the memory, and every operation does to them what its counterpart there does.

Pointers are addresses, and the memory has no end, so that a write past `limit` is one that can be
seen.
-/

namespace HttpProxy

structure RawBuffer where
  mem : Nat → UInt8
  data : Nat
  infLimit : Nat
  limit : Nat
  read : Nat
  write : Nat

/-! ## Memory -/

/-- The `n` bytes from `p` on. -/
def window (mem : Nat → UInt8) (p n : Nat) : List UInt8 := (List.range n).map fun k => mem (p + k)

/-- The memory with `bytes` from `p` on. -/
def store (mem : Nat → UInt8) (p : Nat) (bytes : List UInt8) : Nat → UInt8 := fun q =>
  if p ≤ q ∧ q < p + bytes.length then bytes.getD (q - p) 0 else mem q

def memmove (mem : Nat → UInt8) (dst src n : Nat) : Nat → UInt8 := store mem dst (window mem src n)

@[simp] theorem length_window (mem : Nat → UInt8) (p n : Nat) : (window mem p n).length = n := by
  rw [window, List.length_map, List.length_range]

theorem getElem_window (mem : Nat → UInt8) (p n : Nat) {k : Nat} (h : k < (window mem p n).length) :
    (window mem p n)[k] = mem (p + k) := by
  simp only [window, List.getElem_map, List.getElem_range]

@[simp] theorem window_zero (mem : Nat → UInt8) (p : Nat) : window mem p 0 = [] := rfl

theorem window_succ (mem : Nat → UInt8) (p n : Nat) :
    window mem p (n + 1) = mem p :: window mem (p + 1) n := by
  apply List.ext_getElem
  · simp only [length_window, List.length_cons]
  · intro k h _
    rw [getElem_window]
    cases k with
    | zero => rfl
    | succ k => rw [List.getElem_cons_succ, getElem_window, Nat.add_right_comm]; rfl

/-- A window is cut into two at any place. -/
theorem window_append (mem : Nat → UInt8) (p n m : Nat) :
    window mem p (n + m) = window mem p n ++ window mem (p + n) m := by
  induction n generalizing p with
  | zero => rw [Nat.zero_add, window_zero, List.nil_append, Nat.add_zero]
  | succ n ih =>
    rw [Nat.add_right_comm, window_succ, window_succ, ih, List.cons_append]
    congr 3
    omega

/-- The window behind its first `k` bytes. -/
theorem drop_window (mem : Nat → UInt8) (p n k : Nat) :
    (window mem p n).drop k = window mem (p + k) (n - k) := by
  apply List.ext_getElem
  · simp only [List.length_drop, length_window]
  · intro i h _
    rw [List.getElem_drop, getElem_window, getElem_window, Nat.add_assoc]

/-- A window is what the memory holds there, and depends on nothing else. -/
theorem window_congr {mem mem' : Nat → UInt8} {p n : Nat}
    (h : ∀ k < n, mem' (p + k) = mem (p + k)) : window mem' p n = window mem p n := by
  apply List.ext_getElem
  · simp only [length_window]
  · intro k hk _
    rw [getElem_window, getElem_window]
    rw [length_window] at hk
    exact h k hk

/-- What is stored at `p` is read at `p`. -/
theorem window_store_self (mem : Nat → UInt8) (p : Nat) (bytes : List UInt8) :
    window (store mem p bytes) p bytes.length = bytes := by
  apply List.ext_getElem
  · exact length_window _ _ _
  · intro k _ hk
    rw [getElem_window, store, if_pos ⟨Nat.le_add_right p k, Nat.add_lt_add_left hk p⟩,
      Nat.add_sub_cancel_left, List.getD_eq_getElem?_getD, List.getElem?_eq_getElem hk,
      Option.getD_some]

/-- What is stored elsewhere leaves a window alone. -/
theorem window_store_of_disjoint (mem : Nat → UInt8) {p q n : Nat} {bytes : List UInt8}
    (h : q + n ≤ p ∨ p + bytes.length ≤ q) :
    window (store mem p bytes) q n = window mem q n := by
  apply window_congr
  intro k hk
  rw [store, if_neg]
  omega

namespace RawBuffer

/-! ## The operations -/

def reset (b : RawBuffer) : RawBuffer := { b with read := b.infLimit, write := b.infLimit }

/-- `buffer_init_r` in a memory. -/
def initR (n0 n data : Nat) (mem : Nat → UInt8) : RawBuffer :=
  { mem := mem, data := data, infLimit := data + n0, limit := data + n, read := data + n0
    write := data + n0 }

def canWrite (b : RawBuffer) : Bool := b.write < b.limit

def canRead (b : RawBuffer) : Bool := b.read < b.write

def compact (b : RawBuffer) : RawBuffer :=
  if b.infLimit = b.read then b
  else if b.read = b.write then { b with read := b.infLimit, write := b.infLimit }
  else
    let n := b.write - b.read
    { b with mem := memmove b.mem b.infLimit b.read n, read := b.infLimit, write := b.infLimit + n }

def writeAdv (b : RawBuffer) (bytes : Int) : RawBuffer :=
  if bytes > -1 then { b with write := b.write + bytes.toNat } else b

def readAdv (b : RawBuffer) (bytes : Int) : RawBuffer :=
  if bytes > -1 then
    let b := { b with read := b.read + bytes.toNat }
    if b.read = b.write then b.compact else b
  else b

/-- `buffer_read`, and the byte it returns. -/
def readByte (b : RawBuffer) : UInt8 × RawBuffer :=
  if b.canRead then (b.mem b.read, b.readAdv 1) else (0, b)

def peek (b : RawBuffer) : UInt8 := if b.canRead then b.mem b.read else 0

def canWriteReverse (b : RawBuffer) : Bool := b.data < b.read

def isReserved (b : RawBuffer) : Bool := b.read < b.infLimit

def writeAdvReverse (b : RawBuffer) (bytes : Int) : RawBuffer :=
  if bytes > -1 then { b with read := b.read - bytes.toNat } else b

def writeReverse (b : RawBuffer) (c : UInt8) : RawBuffer :=
  if b.canWriteReverse then
    let b := b.writeAdvReverse 1
    { b with mem := store b.mem b.read [c] }
  else b

def writeByte (b : RawBuffer) (c : UInt8) : RawBuffer :=
  if b.canWrite then { b with mem := store b.mem b.write [c] }.writeAdv 1 else b

/-- `bytes` placed where `buffer_write_ptr` points, and `buffer_write_adv` over them. -/
def fill (b : RawBuffer) (bytes : List UInt8) : RawBuffer :=
  { b with mem := store b.mem b.write bytes }.writeAdv bytes.length

/-! ## The readable bytes -/

def readable (b : RawBuffer) : List UInt8 := window b.mem b.read (b.write - b.read)

/-- The buffer with its pointers as offsets from `data`. -/
def toBuffer (b : RawBuffer) : Buffer where
  infLimit := b.infLimit - b.data
  limit := b.limit - b.data
  read := b.read - b.data
  bytes := b.readable

/-- What the comments and the assertions of the source say of the pointers, and that the normal zone
lies in the memory. -/
structure Ordered (b : RawBuffer) : Prop where
  data_le : b.data ≤ b.read
  read_le : b.read ≤ b.write
  infLimit_le : b.infLimit ≤ b.write
  write_le : b.write ≤ b.limit
  data_le_infLimit : b.data ≤ b.infLimit

variable {b : RawBuffer}

/-- The bytes that can be read are those from `read` to `write`. -/
theorem length_readable (b : RawBuffer) : b.readable.length = b.write - b.read :=
  length_window _ _ _

theorem write_toBuffer (h : b.Ordered) : b.toBuffer.write = b.write - b.data := by
  have hdata := h.data_le
  have hread := h.read_le
  simp only [toBuffer, Buffer.write, length_readable]
  omega

/-- Nothing can be read exactly when `read` and `write` meet. -/
theorem readable_eq_nil (h : b.Ordered) : b.readable = [] ↔ b.read = b.write := by
  have hread := h.read_le
  rw [← List.length_eq_zero_iff, length_readable]
  omega

/-- `buffer_init_r` makes a buffer whose pointers are in order. -/
theorem ordered_initR {n0 n : Nat} (h : n0 ≤ n) (data : Nat) (mem : Nat → UInt8) :
    (initR n0 n data mem).Ordered :=
  ⟨Nat.le_add_right _ _, Nat.le_refl _, Nat.le_refl _, Nat.add_le_add_left h data,
    Nat.le_add_right _ _⟩

/-- `buffer_can_read` sees the same as on the bytes alone. -/
theorem canRead_toBuffer (h : b.Ordered) : bufferCanRead b.toBuffer = b.canRead := by
  have hlen := length_readable b
  have hread := h.read_le
  unfold bufferCanRead canRead toBuffer
  cases hr : b.readable with
  | nil =>
    rw [hr] at hlen
    simp only [List.length_nil] at hlen
    simp only [List.isEmpty_nil, Bool.not_true]
    exact (decide_eq_false (by omega)).symm
  | cons c l =>
    rw [hr] at hlen
    simp only [List.length_cons] at hlen
    simp only [List.isEmpty_cons, Bool.not_false]
    exact (decide_eq_true (by omega)).symm

/-- `buffer_can_write` sees the same as on the bytes alone. -/
theorem canWrite_toBuffer (h : b.Ordered) : bufferCanWrite b.toBuffer = b.canWrite := by
  have hdata := h.data_le
  have hread := h.read_le
  have hwrite := h.write_le
  unfold bufferCanWrite canWrite
  rw [write_toBuffer h, decide_eq_decide]
  change b.write - b.data < b.limit - b.data ↔ b.write < b.limit
  omega

/-- `buffer_can_write_reverse` sees the same as on the bytes alone. -/
theorem canWriteReverse_toBuffer (b : RawBuffer) :
    bufferCanWriteReverse b.toBuffer = b.canWriteReverse :=
  decide_eq_decide.mpr Nat.sub_pos_iff_lt

/-- A byte is in the reserved zone in the memory exactly when it is on the bytes alone. -/
theorem isReserved_toBuffer (h : b.Ordered) :
    HttpProxy.isReserved b.toBuffer = b.isReserved := by
  have hdata := h.data_le
  unfold HttpProxy.isReserved isReserved
  rw [decide_eq_decide]
  change b.read - b.data < b.infLimit - b.data ↔ b.read < b.infLimit
  omega

/-- The first byte that can be read is the one `read` points to. -/
theorem headD_readable (h : b.canRead = true) : b.readable.headD 0 = b.mem b.read := by
  have hlt : b.read < b.write := of_decide_eq_true h
  unfold readable
  rw [show b.write - b.read = b.write - b.read - 1 + 1 by omega, window_succ]
  rfl

/-- `buffer_peek` shows the byte that is first on the bytes alone. -/
theorem peek_toBuffer (h : b.Ordered) : bufferPeek b.toBuffer = b.peek := by
  unfold bufferPeek peek
  split
  · next hread => exact headD_readable hread
  · next hread =>
    have hnil : b.readable = [] := by
      have hge : ¬b.read < b.write := fun hlt => hread (decide_eq_true hlt)
      exact (readable_eq_nil h).mpr (Nat.le_antisymm h.read_le (Nat.le_of_not_lt hge))
    change b.readable.headD 0 = 0
    rw [hnil]
    rfl

/-! ## Every operation is its counterpart on the readable bytes -/

/-- `buffer_reset` on the memory is `bufferReset` on the bytes. -/
theorem toBuffer_reset (b : RawBuffer) : b.reset.toBuffer = bufferReset b.toBuffer := by
  unfold reset toBuffer bufferReset readable
  simp only [Nat.sub_self, window_zero]

/-- The bytes are moved as a whole, however many they are. -/
theorem toBuffer_compact (h : b.Ordered) : b.compact.toBuffer = bufferCompact b.toBuffer := by
  have hdata := h.data_le
  have hinf := h.data_le_infLimit
  have hiff : b.toBuffer.infLimit = b.toBuffer.read ↔ b.infLimit = b.read := by
    change b.infLimit - b.data = b.read - b.data ↔ b.infLimit = b.read
    omega
  unfold compact bufferCompact
  by_cases hread : b.infLimit = b.read
  · rw [if_pos hread, if_pos (hiff.mpr hread)]
  · rw [if_neg hread, if_neg (mt hiff.mp hread), ite_self]
    split
    · next hempty =>
      unfold toBuffer readable
      simp only [hempty, Nat.sub_self, window_zero]
    · unfold toBuffer readable memmove
      simp only [Nat.add_sub_cancel_left]
      have hself := window_store_self b.mem b.infLimit (window b.mem b.read (b.write - b.read))
      rw [length_window] at hself
      rw [hself]

/-- Filling the space behind `write` and advancing it is `bufferWriteAdv`. The bytes are stored where
nothing was to be read. -/
theorem toBuffer_fill (h : b.Ordered) (bytes : List UInt8) :
    (b.fill bytes).toBuffer = bufferWriteAdv b.toBuffer bytes := by
  have hread := h.read_le
  have hpos : (bytes.length : Int) > -1 := by omega
  unfold fill writeAdv bufferWriteAdv
  rw [if_pos hpos]
  unfold toBuffer readable
  simp only [Int.toNat_natCast]
  rw [show b.write + bytes.length - b.read = b.write - b.read + bytes.length by omega, window_append,
    window_store_of_disjoint b.mem (.inl (by omega)),
    show b.read + (b.write - b.read) = b.write by omega, window_store_self]

/-- `buffer_write` on the memory is `bufferWrite` on the bytes. -/
theorem toBuffer_writeByte (h : b.Ordered) (c : UInt8) :
    (b.writeByte c).toBuffer = bufferWrite b.toBuffer c := by
  unfold writeByte bufferWrite
  rw [canWrite_toBuffer h]
  split
  · exact toBuffer_fill h [c]
  · rfl

/-- `buffer_read_adv` by no more than there is to read is `bufferReadAdv`. -/
theorem toBuffer_readAdv (h : b.Ordered) {n : Int} (hn : n ≤ (b.write - b.read : Nat)) :
    (b.readAdv n).toBuffer = bufferReadAdv b.toBuffer n := by
  have hdata := h.data_le
  have hread := h.read_le
  unfold readAdv bufferReadAdv
  split
  · next hpos =>
    have hordered : { b with read := b.read + n.toNat }.Ordered :=
      ⟨Nat.le_trans hdata (Nat.le_add_right _ _), by simp only; omega, h.infLimit_le, h.write_le,
        h.data_le_infLimit⟩
    have hdrop : ({ b with read := b.read + n.toNat } : RawBuffer).toBuffer =
        { b.toBuffer with
          read := b.toBuffer.read + n.toNat, bytes := b.toBuffer.bytes.drop n.toNat } := by
      unfold toBuffer readable
      simp only [drop_window, Nat.sub_sub]
      rw [Nat.sub_add_comm hdata]
    have hempty : (b.toBuffer.bytes.drop n.toNat).isEmpty = true ↔ b.read + n.toNat = b.write := by
      have hbytes : _ = b.toBuffer.bytes.drop n.toNat := congrArg Buffer.bytes hdrop
      rw [List.isEmpty_iff, ← hbytes]
      exact readable_eq_nil hordered
    simp only
    by_cases heq : b.read + n.toNat = b.write
    · rw [if_pos heq, if_pos (hempty.mpr heq)]
      exact (toBuffer_compact hordered).trans (congrArg bufferCompact hdrop)
    · rw [if_neg heq, if_neg (mt hempty.mp heq)]
      exact hdrop
  · rfl

/-- `buffer_read` returns the byte that `bufferRead` returns. -/
theorem readByte_fst (h : b.Ordered) : b.readByte.1 = (bufferRead b.toBuffer).1 := by
  unfold readByte bufferRead
  rw [canRead_toBuffer h]
  split
  · next hread => exact (headD_readable hread).symm
  · rfl

/-- `buffer_read` leaves what `bufferRead` leaves. -/
theorem toBuffer_readByte (h : b.Ordered) : b.readByte.2.toBuffer = (bufferRead b.toBuffer).2 := by
  unfold readByte bufferRead
  rw [canRead_toBuffer h]
  split
  · next hread =>
    have hlt : b.read < b.write := of_decide_eq_true hread
    exact toBuffer_readAdv h (by omega)
  · rfl

/-- `buffer_write_reverse` on the memory is `bufferWriteReverse` on the bytes. -/
theorem toBuffer_writeReverse (h : b.Ordered) (c : UInt8) :
    (b.writeReverse c).toBuffer = bufferWriteReverse b.toBuffer c := by
  have hread := h.read_le
  unfold writeReverse bufferWriteReverse
  rw [canWriteReverse_toBuffer]
  split
  · next hcan =>
    have hlt : b.data < b.read := of_decide_eq_true hcan
    unfold writeAdvReverse toBuffer readable
    simp only [show (1 : Int) > -1 by decide, if_true, Int.toNat_one]
    rw [show b.write - (b.read - 1) = b.write - b.read + 1 by omega, window_succ,
      show b.read - 1 + 1 = b.read by omega, show b.read - 1 - b.data = b.read - b.data - 1 by omega]
    congr 2
    · rw [store, if_pos ⟨Nat.le_refl _, Nat.lt_succ_self _⟩, Nat.sub_self]
      rfl
    · exact window_store_of_disjoint b.mem (.inr (by simp only [List.length_singleton]; omega))
  · rfl

end RawBuffer

end HttpProxy
