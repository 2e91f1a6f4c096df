import HttpProxy.BufferMemory

/-!
# Runs of a buffer

A buffer is a deque: bytes are put in at the end, or back at the front, and taken from the front.
The deque here also knows which bytes were pushed back. `is_reserved` knows it too, as long as bytes
are pushed back below the normal zone and nothing is compacted while it holds any; and a buffer
compacts only when it is empty.

Compaction on demand moves the readable bytes to the start of the normal zone, and these may be more
than the zone holds: there can be as many as the reserved zone is long behind those that filled it.
-/

namespace HttpProxy

/-- The public operations. -/
inductive BufferOp
  | write (c : UInt8)
  /-- Bytes placed behind the write pointer, which is advanced over them. -/
  | writeAdv (bytes : List UInt8)
  | read
  | readAdv (bytes : Int)
  | writeReverse (c : UInt8)
  | reset
  | compact
deriving DecidableEq, Repr

namespace RawBuffer

def apply (b : RawBuffer) : BufferOp → RawBuffer
  | .write c => b.writeByte c
  | .writeAdv bytes => b.fill bytes
  | .read => b.readByte.2
  | .readAdv n => b.readAdv n
  | .writeReverse c => b.writeReverse c
  | .reset => b.reset
  | .compact => b.compact

def run (b : RawBuffer) (ops : List BufferOp) : RawBuffer := ops.foldl apply b

/-- `P` holds of every operation of a run and the buffer it finds. -/
def Always (P : RawBuffer → BufferOp → Prop) : RawBuffer → List BufferOp → Prop
  | _, [] => True
  | b, op :: ops => P b op ∧ Always P (b.apply op) ops

/-- No more is written than there is room for, and no more is read than there is. -/
def Allowed (b : RawBuffer) : BufferOp → Prop
  | .writeAdv bytes => bytes.length ≤ b.limit - b.write
  | .readAdv n => n ≤ (b.write - b.read : Nat)
  | .compact => b.readable.length ≤ b.limit - b.infLimit
  | _ => True

/-- Bytes are pushed back below the normal zone, and none of them is moved into it. -/
def Marks (b : RawBuffer) : BufferOp → Prop
  | .writeReverse _ => b.read ≤ b.infLimit
  | .compact => False
  | _ => True

instance (b : RawBuffer) : DecidablePred b.Allowed
  | .writeAdv _ | .readAdv _ | .compact => inferInstanceAs (Decidable (_ ≤ _))
  | .write _ | .read | .writeReverse _ | .reset => .isTrue trivial

instance (b : RawBuffer) : DecidablePred b.Marks
  | .writeReverse _ => inferInstanceAs (Decidable (_ ≤ _))
  | .compact => .isFalse id
  | .writeAdv _ | .readAdv _ | .write _ | .read | .reset => .isTrue trivial

instance decidableAlways {P : RawBuffer → BufferOp → Prop} [∀ b op, Decidable (P b op)] :
    ∀ (ops : List BufferOp) (b : RawBuffer), Decidable (Always P b ops)
  | [], _ => .isTrue trivial
  | op :: ops, b =>
    have : Decidable (Always P (b.apply op) ops) := decidableAlways ops (b.apply op)
    inferInstanceAs (Decidable (P b op ∧ Always P (b.apply op) ops))

/-- What an operation on the buffer does to a deque. Its bytes are marked when they were pushed
back. -/
def onDeque (b : RawBuffer) (d : List Cell) : BufferOp → List Cell
  | .write c => if b.write = b.limit then d else d ++ [(c, false)]
  | .writeAdv bytes => d ++ bytes.map (·, false)
  | .read => d.tail
  | .readAdv n => d.drop n.toNat
  | .writeReverse c => if b.read = b.data then d else (c, true) :: d
  | .reset => []
  | .compact => d

/-- The deque after a run. -/
def dequeAfter : RawBuffer → List Cell → List BufferOp → List Cell
  | _, d, [] => d
  | b, d, op :: ops => dequeAfter (b.apply op) (b.onDeque d op) ops

/-- The buffer is the deque. -/
structure IsDeque (b : RawBuffer) (d : List Cell) : Prop where
  ordered : b.Ordered
  bytes : b.readable = d.map Prod.fst
  /-- An empty buffer reads from the start of the normal zone. -/
  read_of_nil : d = [] → b.read = b.infLimit

/-- And it knows which bytes were pushed back. -/
def Knows (b : RawBuffer) (d : List Cell) : Prop := b.toBuffer.cells = d

variable {b : RawBuffer} {d : List Cell} {op : BufferOp} {ops : List BufferOp}

namespace IsDeque

/-- A buffer that holds a queue is well formed. -/
theorem wf (h : b.IsDeque d) : b.toBuffer.Wf where
  infLimit_le := by
    rw [write_toBuffer h.ordered]
    exact Nat.sub_le_sub_right h.ordered.infLimit_le b.data
  write_le := by
    rw [write_toBuffer h.ordered]
    exact Nat.sub_le_sub_right h.ordered.write_le b.data
  read_of_nil hnil := by
    have hbytes := h.bytes
    rw [show b.readable = [] from hnil] at hbytes
    exact congrArg (· - b.data) (h.read_of_nil (List.map_eq_nil_iff.mp hbytes.symm))

/-- What a well-formed buffer holds is a queue with its bytes. -/
theorem of_toBuffer (hdata : b.data ≤ b.read) (hread : b.read ≤ b.write)
    (hinf : b.data ≤ b.infLimit ∧ b.data ≤ b.limit) (hwf : b.toBuffer.Wf)
    (hbytes : b.toBuffer.bytes = d.map Prod.fst) : b.IsDeque d := by
  have hwrite : b.toBuffer.write = b.write - b.data := by
    simp only [toBuffer, Buffer.write, length_readable]
    omega
  have hinfLimit := hwf.infLimit_le
  have hlimit := hwf.write_le
  rw [hwrite] at hinfLimit hlimit
  simp only [toBuffer] at hinfLimit hlimit
  refine ⟨⟨hdata, hread, by omega, by omega, hinf.1⟩, hbytes, fun hd => ?_⟩
  have hnil := hwf.read_of_nil (by rw [hbytes, hd]; rfl)
  simp only [toBuffer] at hnil
  omega

end IsDeque

end RawBuffer

/-! ## The pointers -/

namespace Buffer

variable {b : Buffer}

/-- Advancing by what there is to read keeps the buffer well formed. -/
theorem wf_readAdv (hw : b.Wf) (n : Int) (hn : n ≤ b.bytes.length) : (bufferReadAdv b n).Wf := by
  have hinf := hw.infLimit_le
  have hle := hw.write_le
  unfold Buffer.write at hinf hle
  unfold bufferReadAdv
  split
  · simp only
    split
    · next hempty =>
      rw [List.isEmpty_iff] at hempty
      unfold bufferCompact
      split
      · next heq =>
        simp only at heq
        exact ⟨by simp only [Buffer.write]; omega,
          by simp only [Buffer.write, hempty, List.length_nil]; omega, fun _ => heq.symm⟩
      · simp only [hempty, List.isEmpty_nil, if_true]
        exact ⟨Nat.le_add_right _ _, by simp only [Buffer.write, List.length_nil]; omega,
          fun _ => rfl⟩
    · next hne =>
      refine ⟨?_, ?_, fun hnil => absurd (List.isEmpty_iff.mpr hnil) hne⟩
      · simp only [Buffer.write, List.length_drop]
        omega
      · simp only [Buffer.write, List.length_drop]
        omega
  · exact hw

/-- Pushing a byte back keeps the buffer well formed. -/
theorem wf_writeReverse (hw : b.Wf) (c : UInt8) : (bufferWriteReverse b c).Wf := by
  have hinf := hw.infLimit_le
  have hle := hw.write_le
  unfold Buffer.write at hinf hle
  unfold bufferWriteReverse
  split
  · next hcan =>
    have hpos : 0 < b.read := of_decide_eq_true hcan
    refine ⟨?_, ?_, fun hnil => absurd hnil (List.cons_ne_nil _ _)⟩
    · simp only [Buffer.write, List.length_cons]
      omega
    · simp only [Buffer.write, List.length_cons]
      omega
  · exact hw

/-- An empty buffer is well formed. -/
theorem wf_reset (hw : b.Wf) : (bufferReset b).Wf :=
  ⟨Nat.le_refl _, Nat.le_trans hw.infLimit_le hw.write_le, fun _ => rfl⟩

/-- Compacting what fits behind the reserved zone keeps the buffer well formed. -/
theorem wf_compact (hw : b.Wf) (h : b.bytes.length ≤ b.limit - b.infLimit) :
    (bufferCompact b).Wf := by
  have hinf := hw.infLimit_le
  have hle := hw.write_le
  unfold bufferCompact
  rw [ite_self]
  split
  · exact hw
  · refine ⟨Nat.le_add_right _ _, ?_, fun _ => rfl⟩
    simp only [Buffer.write]
    omega

/-- Compacting moves the bytes and loses none. -/
theorem bytes_compact (b : Buffer) : (bufferCompact b).bytes = b.bytes := by
  unfold bufferCompact
  rw [ite_self]
  split <;> rfl

/-! ## The marks -/

/-- The cells behind the first `n`. -/
theorem cellsFrom_drop (k : Nat) (l : List UInt8) (n : Nat) :
    (cellsFrom k l).drop n = cellsFrom (k - n) (l.drop n) := by
  induction n generalizing k l with
  | zero => rfl
  | succ n ih =>
    cases l with
    | nil => rw [cellsFrom_nil, List.drop_nil, List.drop_nil, cellsFrom_nil]
    | cons c l =>
      rw [cellsFrom_cons, List.drop_succ_cons, List.drop_succ_cons, ih, Nat.sub_sub, Nat.add_comm 1 n]

/-- Advancing leaves the cells behind those that were read. -/
theorem cells_readAdv (b : Buffer) (n : Int) :
    (bufferReadAdv b n).cells = b.cells.drop n.toNat := by
  have hbytes := bytes_readAdv b n
  by_cases hnil : b.bytes.drop n.toNat = []
  · rw [hnil] at hbytes
    have hdrop := cellsFrom_drop (b.infLimit - b.read) b.bytes n.toNat
    rw [hnil, cellsFrom_nil] at hdrop
    rw [cells_eq_nil.mpr hbytes]
    exact hdrop.symm
  · have hkeep : bufferReadAdv b n =
        if n > -1 then { b with read := b.read + n.toNat, bytes := b.bytes.drop n.toNat } else b := by
      unfold bufferReadAdv
      simp only [List.isEmpty_iff, hnil, if_false]
    rw [hkeep]
    split
    · unfold cells
      simp only
      rw [cellsFrom_drop, Nat.sub_sub]
    · rw [show n.toNat = 0 by omega]
      rfl

/-- A byte pushed back below the normal zone is a cell of its own. -/
theorem cells_writeReverse (h : b.read ≤ b.infLimit) (c : UInt8) :
    (bufferWriteReverse b c).cells = if b.read = 0 then b.cells else (c, true) :: b.cells := by
  unfold bufferWriteReverse
  by_cases hread : b.read = 0
  · have hcan : ¬bufferCanWriteReverse b = true := by
      rw [bufferCanWriteReverse, hread]
      decide
    rw [if_neg hcan, if_pos hread]
  · have hcan : bufferCanWriteReverse b = true := decide_eq_true (Nat.pos_of_ne_zero hread)
    rw [if_pos hcan, if_neg hread]
    unfold cells
    simp only
    rw [cellsFrom_cons, show b.infLimit - (b.read - 1) = b.infLimit - b.read + 1 by omega]
    rfl

/-- The first byte is reserved exactly when its cell says so. -/
theorem isReserved_iff (b : Buffer) {x : Cell} {l : List Cell} (h : b.cells = x :: l) :
    isReserved b = true ↔ x.2 = true := by
  rw [isReserved_cons h]

end Buffer

namespace RawBuffer

variable {b : RawBuffer} {d : List Cell} {op : BufferOp} {ops : List BufferOp}

/-! ## One operation -/

/-- What an operation does to the buffer it does to the readable bytes. -/
def applyTo (b : Buffer) : BufferOp → Buffer
  | .write c => bufferWrite b c
  | .writeAdv bytes => bufferWriteAdv b bytes
  | .read => (bufferRead b).2
  | .readAdv n => bufferReadAdv b n
  | .writeReverse c => bufferWriteReverse b c
  | .reset => bufferReset b
  | .compact => bufferCompact b

/-- An operation on the memory is the operation on the bytes. -/
theorem toBuffer_apply (h : b.Ordered) (ha : b.Allowed op) :
    (b.apply op).toBuffer = applyTo b.toBuffer op := by
  cases op with
  | write c => exact toBuffer_writeByte h c
  | writeAdv bytes => exact toBuffer_fill h bytes
  | read => exact toBuffer_readByte h
  | readAdv n => exact toBuffer_readAdv h ha
  | writeReverse c => exact toBuffer_writeReverse h c
  | reset => exact toBuffer_reset b
  | compact => exact toBuffer_compact h

/-- What there is room for in memory fits. -/
theorem IsDeque.fits (h : b.IsDeque d) (bytes : List UInt8) (hb : bytes.length ≤ b.limit - b.write) :
    b.toBuffer.write + bytes.length ≤ b.toBuffer.limit := by
  have hdata := Nat.le_trans h.ordered.data_le h.ordered.read_le
  have hle := h.ordered.write_le
  rw [write_toBuffer h.ordered]
  change b.write - b.data + bytes.length ≤ b.limit - b.data
  omega

/-- An operation that is allowed keeps the buffer well formed. The cases are the operations. -/
theorem wf_applyTo (h : b.IsDeque d) (ha : b.Allowed op) : (applyTo b.toBuffer op).Wf := by
  have hw := h.wf
  have hwrite := write_toBuffer h.ordered
  have hle := h.ordered.write_le
  have hfits := h.fits
  cases op with
  | write c =>
    change (bufferWrite b.toBuffer c).Wf
    by_cases hroom : b.write < b.limit
    · exact Buffer.wf_writeAll (l := [c]) hw (hfits [c] (by simp only [List.length_singleton]; omega))
    · rw [Buffer.bufferWrite_of_le c
        (by rw [hwrite]; exact Nat.sub_le_sub_right (Nat.le_of_not_lt hroom) b.data)]
      exact hw
  | writeAdv bytes =>
    have hall := Buffer.wf_writeAll hw (hfits bytes ha)
    rwa [Buffer.writeAll_of_le (hfits bytes ha)] at hall
  | read =>
    change (bufferRead b.toBuffer).2.Wf
    unfold bufferRead
    split
    · next hread =>
      rw [canRead_toBuffer h.ordered] at hread
      refine Buffer.wf_readAdv hw 1 ?_
      have hlt : b.read < b.write := of_decide_eq_true hread
      change (1 : Int) ≤ b.readable.length
      rw [length_readable]
      omega
    · exact hw
  | readAdv n =>
    refine Buffer.wf_readAdv hw n ?_
    change n ≤ b.readable.length
    rwa [length_readable]
  | writeReverse c => exact Buffer.wf_writeReverse hw c
  | reset => exact Buffer.wf_reset hw
  | compact =>
    have hroom : b.readable.length ≤ b.limit - b.infLimit := ha
    have hinf := h.ordered.data_le_infLimit
    refine Buffer.wf_compact hw ?_
    change b.readable.length ≤ b.limit - b.data - (b.infLimit - b.data)
    omega

/-- An operation that is allowed does on the bytes what it does on the queue. -/
theorem bytes_applyTo (h : b.IsDeque d) (ha : b.Allowed op) :
    (applyTo b.toBuffer op).bytes = (b.onDeque d op).map Prod.fst := by
  have hbytes : b.toBuffer.bytes = d.map Prod.fst := h.bytes
  have hwrite := write_toBuffer h.ordered
  have hdata := Nat.le_trans h.ordered.data_le h.ordered.read_le
  have hle := h.ordered.write_le
  cases op with
  | write c =>
    change (bufferWrite b.toBuffer c).bytes = (if b.write = b.limit then d else d ++ [(c, false)]).map _
    split
    · next hfull =>
      rw [Buffer.bufferWrite_of_le c (by rw [hwrite, hfull]; exact Nat.le_refl _)]
      exact hbytes
    · next hroom =>
      have hlt : b.toBuffer.write < b.toBuffer.limit := by
        rw [hwrite]
        change b.write - b.data < b.limit - b.data
        omega
      rw [Buffer.bufferWrite_of_lt c hlt]
      simp only [hbytes, List.map_append, List.map_cons, List.map_nil]
  | writeAdv bytes =>
    change b.toBuffer.bytes ++ bytes = (d ++ bytes.map (·, false)).map Prod.fst
    simp only [hbytes, List.map_append, List.map_map, Function.comp_def, List.map_id']
  | read =>
    change (bufferRead b.toBuffer).2.bytes = d.tail.map Prod.fst
    rw [Buffer.bytes_read, hbytes, List.map_tail]
  | readAdv n =>
    change (bufferReadAdv b.toBuffer n).bytes = (d.drop n.toNat).map Prod.fst
    rw [Buffer.bytes_readAdv, hbytes, List.map_drop]
  | writeReverse c =>
    change (bufferWriteReverse b.toBuffer c).bytes = (if b.read = b.data then d else (c, true) :: d).map _
    have hdle := h.ordered.data_le
    unfold bufferWriteReverse
    rw [canWriteReverse_toBuffer]
    unfold canWriteReverse
    by_cases hread : b.read = b.data
    · rw [if_pos hread, hread, decide_eq_false (Nat.lt_irrefl _)]
      exact hbytes
    · rw [if_neg hread, decide_eq_true (show b.data < b.read by omega)]
      simp only [if_true, hbytes, List.map_cons]
  | reset => rfl
  | compact => exact (Buffer.bytes_compact _).trans hbytes

/-- The limits stay where they are, and the pointers in their order. -/
structure Moves (b b' : RawBuffer) : Prop where
  data : b'.data = b.data
  infLimit : b'.infLimit = b.infLimit
  limit : b'.limit = b.limit
  data_le : b'.data ≤ b'.read
  read_le : b'.read ≤ b'.write

theorem moves_refl (h : b.Ordered) : Moves b b := ⟨rfl, rfl, rfl, h.data_le, h.read_le⟩

/-- Compacting moves none of the bounds. -/
theorem moves_compact (hdata : b.data ≤ b.read) (hread : b.read ≤ b.write)
    (hinf : b.data ≤ b.infLimit) : Moves b b.compact := by
  unfold compact
  split
  · exact ⟨rfl, rfl, rfl, hdata, hread⟩
  · split
    · exact ⟨rfl, rfl, rfl, hinf, Nat.le_refl _⟩
    · exact ⟨rfl, rfl, rfl, hinf, Nat.le_add_right _ _⟩

/-- Advancing by what there is to read moves none of the bounds. -/
theorem moves_readAdv (h : b.Ordered) {n : Int} (hn : n ≤ (b.write - b.read : Nat)) :
    Moves b (b.readAdv n) := by
  have hdata := h.data_le
  have hread := h.read_le
  unfold readAdv
  split
  · have hmoved : b.data ≤ b.read + n.toNat ∧ b.read + n.toNat ≤ b.write := by omega
    simp only
    split
    · obtain ⟨hd, hi, hl, hdle, hrle⟩ := moves_compact (b := { b with read := b.read + n.toNat })
        hmoved.1 hmoved.2 h.data_le_infLimit
      exact ⟨hd, hi, hl, hdle, hrle⟩
    · exact ⟨rfl, rfl, rfl, hmoved.1, hmoved.2⟩
  · exact moves_refl h

/-- Writing moves none of the bounds. -/
theorem moves_fill (h : b.Ordered) (bytes : List UInt8) : Moves b (b.fill bytes) := by
  unfold fill writeAdv
  split
  · exact ⟨rfl, rfl, rfl, h.data_le, Nat.le_trans h.read_le (Nat.le_add_right _ _)⟩
  · exact ⟨rfl, rfl, rfl, h.data_le, h.read_le⟩

/-- Every operation that is allowed moves none of the bounds. -/
theorem moves_apply (h : b.Ordered) (ha : b.Allowed op) : Moves b (b.apply op) := by
  cases op with
  | write c =>
    change Moves b (b.writeByte c)
    unfold writeByte
    split
    · exact moves_fill h [c]
    · exact moves_refl h
  | writeAdv bytes => exact moves_fill h bytes
  | read =>
    change Moves b b.readByte.2
    unfold readByte
    split
    · next hread =>
      have hlt : b.read < b.write := of_decide_eq_true hread
      have hone : (1 : Int) ≤ (b.write - b.read : Nat) := by omega
      exact moves_readAdv h hone
    · exact moves_refl h
  | readAdv n => exact moves_readAdv h ha
  | writeReverse c =>
    change Moves b (b.writeReverse c)
    unfold writeReverse
    split
    · next hcan =>
      have hlt : b.data < b.read := of_decide_eq_true hcan
      exact ⟨rfl, rfl, rfl, Nat.le_pred_of_lt hlt, Nat.le_trans (Nat.sub_le _ _) h.read_le⟩
    · exact moves_refl h
  | reset => exact ⟨rfl, rfl, rfl, h.data_le_infLimit, Nat.le_refl _⟩
  | compact => exact moves_compact h.data_le h.read_le h.data_le_infLimit

/-- A buffer that holds a queue holds the changed queue behind an operation. -/
theorem IsDeque.apply (h : b.IsDeque d) (ha : b.Allowed op) :
    (b.apply op).IsDeque (b.onDeque d op) := by
  have hto := toBuffer_apply h.ordered ha
  have hm := moves_apply h.ordered ha
  have hlimits : b.data ≤ b.infLimit ∧ b.data ≤ b.limit :=
    ⟨h.ordered.data_le_infLimit, Nat.le_trans h.ordered.data_le_infLimit
      (Nat.le_trans h.ordered.infLimit_le h.ordered.write_le)⟩
  rw [← hm.data, ← hm.infLimit, ← hm.limit] at hlimits
  refine .of_toBuffer hm.data_le hm.read_le hlimits ?_ ?_
  · rw [hto]
    exact wf_applyTo h ha
  · rw [hto]
    exact bytes_applyTo h ha

/-- What is known of where the bytes came from is known behind an operation. -/
theorem Knows.apply (h : b.IsDeque d) (hk : b.Knows d) (ha : b.Allowed op) (hm : b.Marks op) :
    (b.apply op).Knows (b.onDeque d op) := by
  have hcells : b.toBuffer.cells = d := hk
  have hwrite := write_toBuffer h.ordered
  have hle := h.ordered.write_le
  have hfits := h.fits
  have hfill : ∀ bytes : List UInt8, bytes.length ≤ b.limit - b.write →
      (bufferWriteAll b.toBuffer bytes).cells = d ++ bytes.map (·, false) := by
    intro bytes hb
    rw [Buffer.cells_writeAll h.wf (hfits bytes hb), hcells]
    rfl
  unfold Knows
  rw [toBuffer_apply h.ordered ha]
  cases op with
  | write c =>
    change (bufferWrite b.toBuffer c).cells = if b.write = b.limit then d else d ++ [(c, false)]
    split
    · next hfull =>
      rw [Buffer.bufferWrite_of_le c (by rw [hwrite, hfull]; exact Nat.le_refl _)]
      exact hcells
    · next hroom => exact hfill [c] (by simp only [List.length_singleton]; omega)
  | writeAdv bytes =>
    have hbytes := hfill bytes ha
    rwa [Buffer.writeAll_of_le (hfits bytes ha)] at hbytes
  | read =>
    change (bufferRead b.toBuffer).2.cells = d.tail
    cases hd : d with
    | nil =>
      rw [hd] at hcells
      rw [Buffer.read_nil hcells]
      exact hcells
    | cons x l =>
      rw [hd] at hcells
      exact Buffer.cells_read hcells
  | readAdv n =>
    change (bufferReadAdv b.toBuffer n).cells = d.drop n.toNat
    rw [Buffer.cells_readAdv, hcells]
  | writeReverse c =>
    change (bufferWriteReverse b.toBuffer c).cells = if b.read = b.data then d else (c, true) :: d
    have hbelow : b.toBuffer.read ≤ b.toBuffer.infLimit := Nat.sub_le_sub_right hm b.data
    have hdle := h.ordered.data_le
    rw [Buffer.cells_writeReverse hbelow, hcells]
    refine if_congr ?_ rfl rfl
    change b.read - b.data = 0 ↔ b.read = b.data
    omega
  | reset => exact Buffer.cells_eq_nil.mpr rfl
  | compact => exact absurd hm id

/-! ## Every run -/

/-- A buffer that holds a queue holds the changed queue behind a run. -/
theorem IsDeque.run (h : b.IsDeque d) (ha : Always Allowed b ops) :
    (b.run ops).IsDeque (b.dequeAfter d ops) := by
  induction ops generalizing b d with
  | nil => exact h
  | cons op ops ih => exact ih (h.apply ha.1) ha.2

/-- What is known of where the bytes came from is known behind a run. -/
theorem Knows.run (h : b.IsDeque d) (hk : b.Knows d) (ha : Always Allowed b ops)
    (hm : Always Marks b ops) : (b.run ops).Knows (b.dequeAfter d ops) := by
  induction ops generalizing b d with
  | nil => exact hk
  | cons op ops ih => exact ih (h.apply ha.1) (hk.apply h ha.1 hm.1) ha.2 hm.2

/-- A new buffer holds the empty queue. -/
theorem isDeque_initR {n0 n : Nat} (h : n0 ≤ n) (data : Nat) (mem : Nat → UInt8) : (initR n0 n data mem).IsDeque [] where
  ordered := ordered_initR h data mem
  bytes := by
    unfold readable initR
    rw [Nat.sub_self]
    rfl
  read_of_nil _ := rfl

theorem knows_initR (n0 n data : Nat) (mem : Nat → UInt8) : (initR n0 n data mem).Knows [] := by
  refine Buffer.cells_eq_nil.mpr ?_
  unfold toBuffer readable initR
  rw [Nat.sub_self]
  rfl

/-- What a user of the buffer sees of the deque. -/
structure Behaves (b : RawBuffer) (d : List Cell) : Prop where
  data_le : b.data ≤ b.read
  read_le : b.read ≤ b.write
  write_le : b.write ≤ b.limit
  infLimit_le : b.infLimit ≤ b.write
  readable : b.readable = d.map Prod.fst
  reads : b.readByte.1 = (d.map Prod.fst).headD 0

/-- A buffer that holds a queue answers as the queue does. -/
theorem IsDeque.behaves (h : b.IsDeque d) : b.Behaves d where
  data_le := h.ordered.data_le
  read_le := h.ordered.read_le
  write_le := h.ordered.write_le
  infLimit_le := h.ordered.infLimit_le
  readable := h.bytes
  reads := by
    rw [readByte_fst h.ordered, ← h.bytes]
    change (bufferRead b.toBuffer).1 = b.toBuffer.bytes.headD 0
    cases hcells : b.toBuffer.cells with
    | nil => rw [Buffer.read_nil hcells, Buffer.cells_eq_nil.mp hcells]; rfl
    | cons x l => rw [Buffer.read_fst_cons hcells, Buffer.bytes_of_cells_cons hcells]; rfl

/-- A buffer behaves as a deque in every run, and it knows which bytes were pushed back if they were
pushed back below the normal zone. -/
theorem behaves_run {n0 n : Nat} (hn : n0 ≤ n) (data : Nat) (mem : Nat → UInt8)
    (ops : List BufferOp) (ha : Always Allowed (initR n0 n data mem) ops) :
    ((initR n0 n data mem).run ops).Behaves ((initR n0 n data mem).dequeAfter [] ops) ∧
      (Always Marks (initR n0 n data mem) ops →
        ∀ x d, (initR n0 n data mem).dequeAfter [] ops = x :: d →
          (((initR n0 n data mem).run ops).isReserved = true ↔ x.2 = true)) := by
  have hstart := isDeque_initR hn data mem
  refine ⟨(hstart.run ha).behaves, fun hm x d hd => ?_⟩
  have hknows := (knows_initR n0 n data mem).run hstart ha hm
  rw [← isReserved_toBuffer (hstart.run ha).ordered]
  exact Buffer.isReserved_iff _ (hknows.trans hd)

/-- A memory of six bytes, the first two of them reserved. -/
def six : RawBuffer := initR 2 6 100 fun _ => 0

theorem behaves_pushedBack :
    (six.run [.write 0x4c, .writeReverse 0x4f]).Behaves [(0x4f, true), (0x4c, false)] ∧
      ((six.run [.write 0x4c, .writeReverse 0x4f]).isReserved = true ↔ true = true) :=
  have h := behaves_run (by decide) 100 (fun _ => 0) [.write 0x4c, .writeReverse 0x4f] (by decide)
  ⟨h.1, h.2 (by decide) (0x4f, true) [(0x4c, false)] (by decide)⟩

/-! ## Compaction on demand -/

/-- Compaction keeps the readable bytes, and the pointers in their order. -/
structure CompactKeeps (b : RawBuffer) : Prop where
  readable : b.compact.readable = b.readable
  data_le : b.compact.data ≤ b.compact.read
  read_le : b.compact.read ≤ b.compact.write
  write_le : b.compact.write ≤ b.compact.limit

/-- It does if and only if there is room for the readable bytes in the normal zone. -/
theorem compactKeeps_iff {n0 n : Nat} (hn : n0 ≤ n) (data : Nat) (mem : Nat → UInt8)
    (ops : List BufferOp) (ha : Always Allowed (initR n0 n data mem) ops) :
    ((initR n0 n data mem).run ops).CompactKeeps ↔
      ((initR n0 n data mem).run ops).readable.length ≤
        ((initR n0 n data mem).run ops).limit - ((initR n0 n data mem).run ops).infLimit := by
  have hb := (isDeque_initR hn data mem).run ha
  generalize (initR n0 n data mem).run ops = b at hb ⊢
  have hordered := hb.ordered
  constructor
  · intro hkeeps
    have hle := hkeeps.write_le
    have hinf := hordered.infLimit_le
    have hwrite := hordered.write_le
    rw [length_readable]
    unfold compact at hle
    split at hle
    · omega
    · split at hle
      · omega
      · simp only at hle
        omega
  · intro hfits
    have hroom : b.Allowed .compact := hfits
    have hcompact := (hb.apply hroom).ordered
    have hbytes := congrArg Buffer.bytes (toBuffer_compact hordered)
    rw [Buffer.bytes_compact] at hbytes
    exact ⟨hbytes, hcompact.data_le, hcompact.read_le, hcompact.write_le⟩

theorem compactKeeps_half : (six.run [.write 0x41, .write 0x42, .read]).CompactKeeps :=
  (compactKeeps_iff (by decide) 100 (fun _ => 0) [.write 0x41, .write 0x42, .read]
    (by decide)).mpr (by decide)

/-- A full buffer with two bytes pushed back: they are moved past the end of the memory. -/
theorem compact_overruns :
    Always Allowed six [.writeAdv [1, 2, 3, 4], .writeReverse 5, .writeReverse 6] ∧
      ¬(six.run [.writeAdv [1, 2, 3, 4], .writeReverse 5, .writeReverse 6]).CompactKeeps := by
  refine ⟨by decide, fun hkeeps => ?_⟩
  have hlt : (six.run [.writeAdv [1, 2, 3, 4], .writeReverse 5, .writeReverse 6]).compact.limit <
      (six.run [.writeAdv [1, 2, 3, 4], .writeReverse 5, .writeReverse 6]).compact.write := by decide
  exact absurd hkeeps.write_le (Nat.not_le_of_lt hlt)

end RawBuffer

end HttpProxy
