import HttpProxy.Ctype

/-!
# The direct-access buffer

`buffer.c`: a byte buffer with a read and a write pointer and, below `infLimit`, a reserved zone
where bytes can be pushed back in front of what is still to be read.

Pointers are offsets from `data`. No function of the program reads a byte outside the readable
part, so the memory is the list of the readable bytes, and `write` is `read` advanced by their
number: `data <= read <= write` holds by construction.

The parsers' view of a buffer is its list of cells: the readable bytes in order, each marked when
it lies in the reserved zone. Each operation's effect on the cells is one lemma below, and
everything above this module reasons about cells.
-/

namespace HttpProxy

structure Buffer where
  /-- Lower limit of the normal zone; the reserved zone is below it. -/
  infLimit : Nat
  /-- Upper limit, one past the last byte that can be written. -/
  limit : Nat
  /-- Read pointer. -/
  read : Nat
  /-- The bytes between the read and the write pointer. -/
  bytes : List UInt8
deriving DecidableEq, Repr

/-- Write pointer. -/
def Buffer.write (b : Buffer) : Nat := b.read + b.bytes.length

/-! ## The operations -/

def bufferReset (b : Buffer) : Buffer := { b with read := b.infLimit, bytes := [] }

/-- `n0` is the size of the reserved zone, `n` of the whole memory. -/
def bufferInitR (n0 n : Nat) : Buffer := { infLimit := n0, limit := n, read := n0, bytes := [] }

def bufferInit (n : Nat) : Buffer := bufferInitR 0 n

def bufferCanWrite (b : Buffer) : Bool := b.write < b.limit

/-- The room `buffer_write_ptr` reports. -/
def bufferWriteSpace (b : Buffer) : Nat := b.limit - b.write

def bufferCanRead (b : Buffer) : Bool := !b.bytes.isEmpty

def bufferCompact (b : Buffer) : Buffer :=
  if b.infLimit = b.read then b
  else if b.bytes.isEmpty then { b with read := b.infLimit }
  else { b with read := b.infLimit }

/-- `bytes` placed at the pointer of `buffer_write_ptr`, then `buffer_write_adv` over them. -/
def bufferWriteAdv (b : Buffer) (bytes : List UInt8) : Buffer := { b with bytes := b.bytes ++ bytes }

/-- Advances over `n` bytes that were readable; a negative count does nothing. -/
def bufferReadAdv (b : Buffer) (n : Int) : Buffer :=
  if n > -1 then
    let b := { b with read := b.read + n.toNat, bytes := b.bytes.drop n.toNat }
    if b.bytes.isEmpty then bufferCompact b else b
  else b

def bufferPeek (b : Buffer) : UInt8 := b.bytes.headD 0

def bufferRead (b : Buffer) : UInt8 × Buffer :=
  if bufferCanRead b then (b.bytes.headD 0, bufferReadAdv b 1) else (0, b)

def bufferCanWriteReverse (b : Buffer) : Bool := 0 < b.read

def isReserved (b : Buffer) : Bool := b.read < b.infLimit

def bufferWriteReverse (b : Buffer) (c : UInt8) : Buffer :=
  if bufferCanWriteReverse b then { b with read := b.read - 1, bytes := c :: b.bytes } else b

def bufferWrite (b : Buffer) (c : UInt8) : Buffer :=
  if bufferCanWrite b then { b with bytes := b.bytes ++ [c] } else b

/-- `buffer_write` of each byte in turn. -/
def bufferWriteAll (b : Buffer) (bytes : List UInt8) : Buffer := bytes.foldl bufferWrite b

/-- What holds of a buffer between operations: the normal zone starts no later than the write
pointer, which is within the memory, and an empty buffer reads from the start of the normal zone. -/
structure Buffer.Wf (b : Buffer) : Prop where
  infLimit_le : b.infLimit ≤ b.write
  write_le : b.write ≤ b.limit
  read_of_nil : b.bytes = [] → b.read = b.infLimit

/-! ## Cells -/

/-- A readable byte, and whether it lies in the reserved zone. -/
abbrev Cell := UInt8 × Bool

/-- Bytes of which the first `k` lie in the reserved zone. -/
def cellsFrom : Nat → List UInt8 → List Cell
  | _, [] => []
  | 0, c :: l => (c, false) :: cellsFrom 0 l
  | k + 1, c :: l => (c, true) :: cellsFrom k l

/-- The readable cells. -/
def Buffer.cells (b : Buffer) : List Cell := cellsFrom (b.infLimit - b.read) b.bytes

/-- Bytes in the normal zone. -/
def fresh (l : List UInt8) : List Cell := l.map fun c => (c, false)

/-- Bytes in the reserved zone. -/
def pushedBack (l : List UInt8) : List Cell := l.map fun c => (c, true)

@[simp] theorem fresh_nil : fresh [] = [] := rfl

@[simp] theorem fresh_cons (c : UInt8) (l : List UInt8) : fresh (c :: l) = (c, false) :: fresh l :=
  rfl

/-- Bytes received one after the other are received at once. -/
@[simp] theorem fresh_append (l m : List UInt8) : fresh (l ++ m) = fresh l ++ fresh m :=
  List.map_append

@[simp] theorem pushedBack_nil : pushedBack [] = [] := rfl

@[simp] theorem pushedBack_cons (c : UInt8) (l : List UInt8) :
    pushedBack (c :: l) = (c, true) :: pushedBack l := rfl

/-- Bytes pushed back one in front of the other are pushed back at once. -/
@[simp] theorem pushedBack_append (l m : List UInt8) :
    pushedBack (l ++ m) = pushedBack l ++ pushedBack m := List.map_append

theorem map_fst_pushedBack (l : List UInt8) : (pushedBack l).map Prod.fst = l := by
  simp only [pushedBack, List.map_map, Function.comp_def, List.map_id']

@[simp] theorem cellsFrom_nil (k : Nat) : cellsFrom k [] = [] := by cases k <;> rfl

theorem cellsFrom_cons (k : Nat) (c : UInt8) (l : List UInt8) :
    cellsFrom k (c :: l) = (c, decide (0 < k)) :: cellsFrom (k - 1) l := by
  cases k <;> rfl

theorem map_fst_cellsFrom (k : Nat) (l : List UInt8) : (cellsFrom k l).map Prod.fst = l := by
  induction l generalizing k with
  | nil => simp only [cellsFrom_nil, List.map_nil]
  | cons c l ih => simp only [cellsFrom_cons, List.map_cons, ih]

theorem cellsFrom_zero (l : List UInt8) : cellsFrom 0 l = fresh l := by
  induction l with
  | nil => rfl
  | cons c l ih => rw [cellsFrom, ih, fresh_cons]

/-- What is appended behind the reserved zone is fresh. -/
theorem cellsFrom_append (k : Nat) (l m : List UInt8) (h : k ≤ l.length) :
    cellsFrom k (l ++ m) = cellsFrom k l ++ fresh m := by
  induction l generalizing k with
  | nil =>
    obtain rfl : k = 0 := Nat.le_zero.mp h
    simp only [List.nil_append, cellsFrom_zero, fresh_nil]
  | cons c l ih =>
    simp only [List.cons_append, cellsFrom_cons]
    rw [ih (k - 1) (by simp only [List.length_cons] at h; omega)]

namespace Buffer

/-- The cells of a buffer are its bytes, each with where it stands. -/
theorem map_fst_cells (b : Buffer) : b.cells.map Prod.fst = b.bytes := map_fst_cellsFrom _ _

theorem length_cells (b : Buffer) : b.cells.length = b.bytes.length := by
  rw [← map_fst_cells b, List.length_map]

theorem cells_eq_nil {b : Buffer} : b.cells = [] ↔ b.bytes = [] := by
  rw [← List.length_eq_zero_iff, length_cells, List.length_eq_zero_iff]

theorem bytes_of_cells_cons {b : Buffer} {x : Cell} {l : List Cell} (h : b.cells = x :: l) :
    b.bytes = x.1 :: l.map Prod.fst := by
  rw [← map_fst_cells b, h, List.map_cons]

/-! ## The operations on cells -/

theorem wf_initR {n0 n : Nat} (h : n0 ≤ n) : (bufferInitR n0 n).Wf :=
  ⟨by simp only [bufferInitR, write, List.length_nil]; omega,
    by simpa only [bufferInitR, write, List.length_nil, Nat.add_zero] using h, fun _ => rfl⟩

/-- An empty buffer shows a zero. -/
theorem peek_nil {b : Buffer} (h : b.cells = []) : bufferPeek b = 0 := by
  rw [bufferPeek, cells_eq_nil.mp h, List.headD_nil]

/-- The byte that is shown is the first one. -/
theorem peek_cons {b : Buffer} {x : Cell} {l : List Cell} (h : b.cells = x :: l) :
    bufferPeek b = x.1 := by
  rw [bufferPeek, bytes_of_cells_cons h, List.headD_cons]

theorem canRead_cons {b : Buffer} {x : Cell} {l : List Cell} (h : b.cells = x :: l) :
    bufferCanRead b = true := by
  simp only [bufferCanRead, bytes_of_cells_cons h, List.isEmpty_cons, Bool.not_false]

theorem canRead_nil {b : Buffer} (h : b.cells = []) : bufferCanRead b = false := by
  simp only [bufferCanRead, cells_eq_nil.mp h, List.isEmpty_nil, Bool.not_true]

/-- The first byte is reserved when its cell says so. -/
theorem isReserved_cons {b : Buffer} {x : Cell} {l : List Cell} (h : b.cells = x :: l) :
    isReserved b = x.2 := by
  have hb := bytes_of_cells_cons h
  rw [cells, hb, cellsFrom_cons] at h
  have := congrArg Prod.snd (List.cons.inj h).1
  simp only at this
  simp only [isReserved, ← this, decide_eq_decide]
  omega

/-- Reading from an empty buffer gives a zero and takes nothing. -/
theorem read_nil {b : Buffer} (h : b.cells = []) : bufferRead b = (0, b) := by
  simp only [bufferRead, canRead_nil h, Bool.false_eq_true, if_false]

/-- What is read is the first byte. -/
theorem read_fst_cons {b : Buffer} {x : Cell} {l : List Cell} (h : b.cells = x :: l) :
    (bufferRead b).1 = x.1 := by
  simp only [bufferRead, canRead_cons h, if_true, bytes_of_cells_cons h, List.headD_cons]

/-- What is read is dropped, also when it leads to a compaction. -/
theorem bytes_readAdv (b : Buffer) (n : Int) : (bufferReadAdv b n).bytes = b.bytes.drop n.toNat := by
  unfold bufferReadAdv
  split
  · simp only
    split
    · unfold bufferCompact
      rw [ite_self]
      split <;> rfl
    · rfl
  · next hneg =>
    rw [show n.toNat = 0 by omega]
    rfl

/-- `buffer_read` drops a byte, if there is one. -/
theorem bytes_read (b : Buffer) : (bufferRead b).2.bytes = b.bytes.tail := by
  unfold bufferRead
  split
  · rw [bytes_readAdv]
    exact List.drop_one
  · next hempty =>
    have hnil : b.bytes = [] := by
      cases hb : b.bytes with
      | nil => rfl
      | cons c l =>
        rw [bufferCanRead, hb] at hempty
        exact absurd rfl hempty
    rw [hnil]
    rfl

/-- Advancing by one over the last byte goes back to `inf_limit`. -/
theorem readAdv_one_cons {b : Buffer} {c : UInt8} {l : List UInt8} (h : b.bytes = c :: l) :
    bufferReadAdv b 1 =
      { b with read := if l = [] then b.infLimit else b.read + 1, bytes := l } := by
  obtain ⟨inf, lim, rd, bs⟩ := b
  obtain rfl : bs = c :: l := h
  cases l with
  | nil =>
    by_cases hr : inf = rd + 1 <;>
      simp [bufferReadAdv, bufferCompact, hr]
  | cons d l => simp [bufferReadAdv]

/-- Reading the last byte goes back to `inf_limit`. -/
theorem read_snd_cons {b : Buffer} {x : Cell} {l : List Cell} (h : b.cells = x :: l) :
    (bufferRead b).2 =
      { b with
        read := if l = [] then b.infLimit else b.read + 1
        bytes := l.map Prod.fst } := by
  simp only [bufferRead, canRead_cons h, if_true]
  rw [readAdv_one_cons (bytes_of_cells_cons h)]
  simp only [List.map_eq_nil_iff]

/-- Reading takes the first cell. -/
theorem cells_read {b : Buffer} {x : Cell} {l : List Cell} (h : b.cells = x :: l) :
    (bufferRead b).2.cells = l := by
  rw [read_snd_cons h]
  have hb := bytes_of_cells_cons h
  rw [cells, hb, cellsFrom_cons] at h
  have htail := (List.cons.inj h).2
  cases l with
  | nil => simp only [cells, List.map_nil, cellsFrom_nil]
  | cons y l =>
    simp only [cells, reduceCtorEq, if_false]
    rw [← Nat.sub_sub]
    exact htail

/-- Reading keeps the buffer well formed. -/
theorem wf_read {b : Buffer} {x : Cell} {l : List Cell} (hw : b.Wf) (h : b.cells = x :: l) :
    (bufferRead b).2.Wf := by
  have hb := bytes_of_cells_cons h
  obtain ⟨h1, h2, -⟩ := hw
  simp only [write, hb, List.length_cons, List.length_map] at h1 h2
  rw [read_snd_cons h]
  cases l with
  | nil =>
    exact ⟨by simp only [write, List.map_nil, List.length_nil, if_true]; omega,
      by simp only [write, List.map_nil, List.length_nil, if_true] at *; omega, fun _ => rfl⟩
  | cons y l =>
    simp only [List.length_cons] at h1 h2
    exact ⟨by simp only [write, List.length_map, List.length_cons, reduceCtorEq, if_false]; omega,
      by simp only [write, List.length_map, List.length_cons, reduceCtorEq, if_false]; omega,
      fun hn => absurd hn (by simp)⟩

theorem infLimit_read (b : Buffer) : (bufferRead b).2.infLimit = b.infLimit := by
  cases h : b.cells with
  | nil => rw [read_nil h]
  | cons x l => rw [read_snd_cons h]

theorem limit_read (b : Buffer) : (bufferRead b).2.limit = b.limit := by
  cases h : b.cells with
  | nil => rw [read_nil h]
  | cons x l => rw [read_snd_cons h]

/-- The write pointer never moves up when a byte is read. -/
theorem write_read_le {b : Buffer} (hw : b.Wf) : (bufferRead b).2.write ≤ b.write := by
  cases h : b.cells with
  | nil => exact Nat.le_of_eq (by rw [read_nil h])
  | cons x l =>
    have hb := bytes_of_cells_cons h
    have h1 := hw.infLimit_le
    rw [read_snd_cons h]
    simp only [write, hb, List.length_cons, List.length_map] at h1 ⊢
    cases l with
    | nil =>
      rw [if_pos rfl]
      simp only [List.length_nil] at h1 ⊢
      omega
    | cons y l => simp only [reduceCtorEq, if_false, List.length_cons]; omega

/-! ## Pushing back -/

/-- Bytes pushed back last to first, as every caller of `buffer_write_reverse` does. -/
def pushBack (b : Buffer) (p : List UInt8) : Buffer := p.foldr (fun c b => bufferWriteReverse b c) b

@[simp] theorem pushBack_nil (b : Buffer) : b.pushBack [] = b := rfl

/-- What is pushed back last stands in front. -/
theorem pushBack_append (b : Buffer) (p q : List UInt8) :
    b.pushBack (p ++ q) = (b.pushBack q).pushBack p := by
  simp only [pushBack, List.foldr_append]

/-- What is left of `p` when it is pushed back into a reserved zone of `n` bytes: when it does not
fit, its first bytes are lost. -/
def clip (n : Nat) (p : List UInt8) : List UInt8 := p.drop (p.length - n)

theorem clip_of_le {n : Nat} {p : List UInt8} (h : p.length ≤ n) : clip n p = p := by
  rw [clip, Nat.sub_eq_zero_of_le h, List.drop_zero]

theorem length_clip (n : Nat) (p : List UInt8) : (clip n p).length = min n p.length := by
  simp only [clip, List.length_drop]; omega

/-- Pushing back stores what there is room for in front of `read`; the first bytes of it are
dropped. -/
theorem pushBack_eq (b : Buffer) (p : List UInt8) :
    b.pushBack p =
      { b with read := b.read - p.length, bytes := clip b.read p ++ b.bytes } := by
  induction p with
  | nil => simp [clip]
  | cons c p ih =>
    rw [show b.pushBack (c :: p) = bufferWriteReverse (b.pushBack p) c from rfl, ih]
    by_cases hr : p.length < b.read
    · simp only [bufferWriteReverse, bufferCanWriteReverse, show 0 < b.read - p.length by omega,
        decide_true, if_true, List.length_cons, Nat.sub_sub]
      rw [clip_of_le (by omega), clip_of_le (by rw [List.length_cons]; omega)]
      rfl
    · simp only [bufferWriteReverse, bufferCanWriteReverse, show ¬ 0 < b.read - p.length by omega,
        decide_false, Bool.false_eq_true, if_false, List.length_cons]
      rw [show b.read - (p.length + 1) = b.read - p.length by omega, clip, clip, List.length_cons,
        show p.length + 1 - b.read = (p.length - b.read) + 1 by omega, List.drop_succ_cons]

/-- Into an empty buffer, what fits of the pushed back bytes is readable and all of it lies in
the reserved zone. -/
theorem cells_pushBack {b : Buffer} (hw : b.Wf) (h : b.cells = []) (p : List UInt8) :
    (b.pushBack p).cells = pushedBack (clip b.infLimit p) := by
  have hb := cells_eq_nil.mp h
  have hr := hw.read_of_nil hb
  rw [pushBack_eq, cells, hb, hr, List.append_nil]
  have hlen : (clip b.infLimit p).length ≤ b.infLimit - (b.infLimit - p.length) := by
    rw [length_clip]; omega
  generalize clip b.infLimit p = l at hlen
  generalize b.infLimit - (b.infLimit - p.length) = k at hlen
  induction l generalizing k with
  | nil => simp only [cellsFrom_nil, pushedBack_nil]
  | cons c l ih =>
    simp only [List.length_cons] at hlen
    rw [cellsFrom_cons, pushedBack_cons, decide_eq_true (by omega), ih (k - 1) (by omega)]

/-- Pushing back into a buffer that was read empty keeps it well formed. -/
theorem wf_pushBack {b : Buffer} (hw : b.Wf) (h : b.cells = []) (p : List UInt8) :
    (b.pushBack p).Wf := by
  have hb := cells_eq_nil.mp h
  have hr := hw.read_of_nil hb
  obtain ⟨h1, h2, -⟩ := hw
  rw [pushBack_eq]
  simp only [write, hb, hr, List.length_nil] at h1 h2
  refine ⟨?_, ?_, ?_⟩
  · simp only [write, hb, List.append_nil, length_clip]; omega
  · simp only [write, hb, List.append_nil, length_clip]; omega
  · intro hn
    have hlen := congrArg List.length (List.append_eq_nil_iff.mp hn).1
    rw [length_clip, List.length_nil] at hlen
    simp only; omega

/-- Pushing back into a buffer that was read empty does not move `write`: the bytes end where it
stands. -/
theorem write_pushBack {b : Buffer} (hw : b.Wf) (h : b.cells = []) (p : List UInt8) :
    (b.pushBack p).write = b.write := by
  have hb := cells_eq_nil.mp h
  have hr := hw.read_of_nil hb
  simp only [pushBack_eq, write, hb, hr, List.append_nil, length_clip, List.length_nil]
  omega

/-- What is left of `p ++ q` is what is left of `q` and, where that leaves room, of `p`. -/
theorem clip_append (n : Nat) (p q : List UInt8) :
    clip (n - (clip n q).length) p ++ clip n q = clip n (p ++ q) := by
  rw [length_clip]
  unfold clip
  rw [List.drop_append, List.length_append]
  by_cases hq : q.length ≤ n
  · rw [show p.length - (n - min n q.length) = p.length + q.length - n by omega,
      show p.length + q.length - n - p.length = q.length - n by omega]
  · rw [show p.length - (n - min n q.length) = p.length by omega,
      show p.length + q.length - n - p.length = q.length - n by omega, List.drop_length,
      List.drop_of_length_le (show p.length ≤ p.length + q.length - n by omega)]

/-- A buffer in which everything was pushed back reads from just below the normal zone. -/
theorem read_of_cells_pushedBack {b : Buffer} {p : List UInt8} (hw : b.Wf)
    (h : b.cells = pushedBack p) : b.bytes = p ∧ b.read = b.infLimit - p.length := by
  have hb : b.bytes = p := by rw [← map_fst_cells, h, map_fst_pushedBack]
  refine ⟨hb, ?_⟩
  have h1 := hw.infLimit_le
  rw [write, hb] at h1
  cases hp : p with
  | nil => rw [hw.read_of_nil (hb.trans hp), List.length_nil, Nat.sub_zero]
  | cons c q =>
    -- The last byte is reserved, so it lies below `infLimit`.
    have hlast : p.length ≤ b.infLimit - b.read := by
      rw [cells, hb] at h
      clear hb h1 hp
      generalize b.infLimit - b.read = k at h
      induction p generalizing k with
      | nil => exact Nat.zero_le _
      | cons c p ih =>
        rw [cellsFrom_cons, pushedBack_cons] at h
        obtain ⟨hc, ht⟩ := List.cons.inj h
        have hk : 0 < k := of_decide_eq_true (congrArg Prod.snd hc)
        have := ih (k - 1) ht
        rw [List.length_cons]; omega
    rw [hp] at h1 hlast
    simp only [List.length_cons] at h1 hlast ⊢
    omega

/-- Pushing back in front of what was pushed back. -/
theorem cells_pushBack_pushBack {b : Buffer} {n : Nat} {q : List UInt8} (hw : b.Wf)
    (hn : b.infLimit = n) (h : b.cells = pushedBack (clip n q)) (p : List UInt8) :
    (b.pushBack p).cells = pushedBack (clip n (p ++ q)) ∧ (b.pushBack p).Wf ∧
      (b.pushBack p).write = b.write := by
  obtain ⟨hb, hr⟩ := read_of_cells_pushedBack hw h
  -- The same bytes pushed back into the buffer emptied.
  have hw₀ : ({ b with read := n, bytes := [] } : Buffer).Wf := by
    obtain ⟨h1, h2, -⟩ := hw
    simp only [write, hb, hr, hn, length_clip] at h1 h2
    exact ⟨by simp only [write, hn, List.length_nil]; omega,
      by simp only [write, List.length_nil]; omega, fun _ => hn.symm⟩
  have h₀ : ({ b with read := n, bytes := [] } : Buffer).cells = [] := cells_eq_nil.mpr rfl
  have heq : b.pushBack p = ({ b with read := n, bytes := [] } : Buffer).pushBack (p ++ q) := by
    rw [pushBack_eq, pushBack_eq, hb, hr, hn, clip_append, List.append_nil]
    simp only [length_clip, List.length_append]
    congr 1
    omega
  rw [heq]
  refine ⟨?_, wf_pushBack hw₀ h₀ _, ?_⟩
  · rw [cells_pushBack hw₀ h₀]
    simp only [hn]
  · rw [write_pushBack hw₀ h₀]
    simp only [write, hb, hr, hn, length_clip, List.length_nil]
    omega

/-- Pushing back does not move the reserved zone. -/
@[simp] theorem infLimit_pushBack (b : Buffer) (p : List UInt8) :
    (b.pushBack p).infLimit = b.infLimit := by rw [pushBack_eq]

@[simp] theorem limit_pushBack (b : Buffer) (p : List UInt8) :
    (b.pushBack p).limit = b.limit := by rw [pushBack_eq]

/-! ## Writing -/

/-- Bytes written one after the other are written at once. -/
theorem writeAll_append (b : Buffer) (l m : List UInt8) :
    bufferWriteAll b (l ++ m) = bufferWriteAll (bufferWriteAll b l) m := List.foldl_append

/-- A byte for which there is room is stored behind the others. -/
theorem bufferWrite_of_lt {b : Buffer} (c : UInt8) (h : b.write < b.limit) :
    bufferWrite b c = { b with bytes := b.bytes ++ [c] } := by
  simp only [bufferWrite, bufferCanWrite, h, decide_true, if_true]

/-- A byte for which there is no room is dropped. -/
theorem bufferWrite_of_le {b : Buffer} (c : UInt8) (h : b.limit ≤ b.write) :
    bufferWrite b c = b := by
  simp only [bufferWrite, bufferCanWrite, Nat.not_lt.mpr h, decide_false, Bool.false_eq_true,
    if_false]

/-- Bytes over the upper limit are lost, and nothing else. -/
theorem writeAll_eq (b : Buffer) (l : List UInt8) :
    bufferWriteAll b l = { b with bytes := b.bytes ++ l.take (b.limit - b.write) } := by
  induction l generalizing b with
  | nil => simp [bufferWriteAll]
  | cons c l ih =>
    rw [show bufferWriteAll b (c :: l) = bufferWriteAll (bufferWrite b c) l from rfl, ih]
    by_cases hr : b.write < b.limit
    · have hs : b.limit - b.write = (b.limit - (b.write + 1)) + 1 := by omega
      rw [bufferWrite_of_lt c hr, hs, List.take_succ_cons]
      simp only [write, List.length_append, List.length_singleton, List.append_assoc,
        List.singleton_append, Nat.add_assoc]
    · rw [bufferWrite_of_le c (by omega), show b.limit - b.write = 0 by omega, List.take_zero,
        List.take_zero]

/-- Bytes for which there is room are stored behind the others. -/
theorem writeAll_of_le {b : Buffer} {l : List UInt8} (h : b.write + l.length ≤ b.limit) :
    bufferWriteAll b l = { b with bytes := b.bytes ++ l } := by
  rw [writeAll_eq, List.take_of_length_le (by omega)]

/-- Bytes written with room for them are fresh cells behind the others. -/
theorem cells_writeAll {b : Buffer} {l : List UInt8} (hw : b.Wf)
    (h : b.write + l.length ≤ b.limit) : (bufferWriteAll b l).cells = b.cells ++ fresh l := by
  have h1 := hw.infLimit_le
  have hk : b.infLimit - b.read ≤ b.bytes.length := by simp only [write] at h1; omega
  rw [writeAll_of_le h]
  exact cellsFrom_append _ _ _ hk

/-- Writing with room keeps the buffer well formed. -/
theorem wf_writeAll {b : Buffer} {l : List UInt8} (hw : b.Wf)
    (h : b.write + l.length ≤ b.limit) : (bufferWriteAll b l).Wf := by
  have h1 := hw.infLimit_le
  rw [writeAll_of_le h]
  simp only [write] at h h1
  refine ⟨?_, ?_, ?_⟩
  · simp only [write, List.length_append]; omega
  · simp only [write, List.length_append]; omega
  · intro hn
    exact hw.read_of_nil (List.append_eq_nil_iff.mp hn).1

/-- Writing with room moves `write` by what was written. -/
theorem write_writeAll {b : Buffer} {l : List UInt8} (h : b.write + l.length ≤ b.limit) :
    (bufferWriteAll b l).write = b.write + l.length := by
  rw [writeAll_of_le h]; simp only [write, List.length_append, Nat.add_assoc]

/-- Writing does not move the reserved zone. -/
@[simp] theorem infLimit_writeAll (b : Buffer) (l : List UInt8) :
    (bufferWriteAll b l).infLimit = b.infLimit := by rw [writeAll_eq]

@[simp] theorem limit_writeAll (b : Buffer) (l : List UInt8) :
    (bufferWriteAll b l).limit = b.limit := by rw [writeAll_eq]

end Buffer

end HttpProxy
