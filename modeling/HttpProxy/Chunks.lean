import Mathlib.Data.Nat.Digits.Lemmas
import HttpProxy.BufferMemory
import HttpProxy.ChunkedLockstep
import HttpProxy.ResponseBody

/-!
# Writing chunks

`chunks.c`: what a transformation program prints is read into the response as chunks. The room a
chunk needs besides its data is reserved: seven digits and two line ends.

`RawBuffer.dumpChunkFromFd` writes in memory and keeps account of what it stores, the zeros with
which `sprintf` ends its texts included. On the readable bytes it is `dumpChunkFromFd`
(`toBuffer_dumpChunkFromFd`): each zero but the last is overwritten, and the last is behind the
write pointer.
-/

namespace HttpProxy

abbrev MAX_CHUNK_SIZE_DIGITS : Nat := 7

/-! ## Hexadecimal sizes -/

/-- `%X` of an `unsigned int`. -/
def hexText (n : Nat) : List UInt8 :=
  if n = 0 then [0x30]
  else (Nat.digits 16 n).reverse.map fun d => (lit "0123456789ABCDEF").getD d 0

theorem length_hexText {n : Nat} (h : n ≠ 0) : (hexText n).length = (Nat.digits 16 n).length := by
  rw [hexText, if_neg h, List.length_map, List.length_reverse]

/-- A number has as many hexadecimal digits as the base needs. -/
theorem length_hexText_le {n k : Nat} (h : n ≠ 0) : (hexText n).length ≤ k ↔ n < 16 ^ k := by
  rw [length_hexText h]
  exact Nat.digits_length_le_iff (by decide) n

/-- A digit that is printed is one that is read, with its value. -/
theorem value_hexDigit {d : Nat} (h : d < 16) :
    isxdigit ((lit "0123456789ABCDEF").getD d 0) = true ∧
      Radix.hex.value ((lit "0123456789ABCDEF").getD d 0) = d := by
  revert d
  decide

/-- The digits of a number, from the last one on, stand for it. -/
theorem valueOf_digits {ds : List Nat} (h : ∀ d ∈ ds, d < 16) :
    Radix.hex.valueOf (ds.reverse.map fun d => (lit "0123456789ABCDEF").getD d 0) =
      (Nat.ofDigits 16 ds : Nat) := by
  induction ds with
  | nil => rfl
  | cons d ds ih =>
    have hd := (value_hexDigit (h d List.mem_cons_self)).2
    have hds := ih fun e he => h e (List.mem_cons_of_mem d he)
    rw [Nat.ofDigits_cons, List.reverse_cons, List.map_append]
    unfold Radix.valueOf Radix.valueFrom at hds ⊢
    rw [List.foldl_append, hds, List.map_singleton, List.foldl_cons, List.foldl_nil, hd]
    push_cast
    exact Int.add_comm _ _

/-- The parser reads the size that was printed. -/
theorem chunkSize_hexText (n : Nat) : ChunkSize (hexText n) n := by
  by_cases h : n = 0
  · rw [h]
    exact ⟨by decide, by decide +kernel, rfl⟩
  · have hlt : ∀ d ∈ Nat.digits 16 n, d < 16 := fun d hd => Nat.digits_lt_base (by decide) hd
    refine ⟨?_, ?_, ?_⟩
    · intro hnil
      have hlen := length_hexText h
      rw [hnil, List.length_nil] at hlen
      exact Nat.digits_ne_nil_iff_ne_zero.mpr h (List.length_eq_zero_iff.mp hlen.symm)
    · intro c hc
      rw [hexText, if_neg h] at hc
      obtain ⟨d, hd, rfl⟩ := List.mem_map.mp hc
      exact (value_hexDigit (hlt d (List.mem_reverse.mp hd))).1
    · rw [hexText, if_neg h, valueOf_digits hlt, Nat.ofDigits_digits]

/-! ## In memory -/

/-- How `read` turns out: an error, or the bytes it stored; there are none at the end of the
file. -/
inductive ReadResult
  | error
  | bytes (l : List UInt8)
deriving DecidableEq, Repr

/-- `current_dst_buffer_ptr`, the memory it moves over, and the stores made on its way: where each
began and how many bytes it wrote. -/
structure Pen where
  mem : Nat → UInt8
  ptr : Nat
  stores : List (Nat × Nat)

namespace Pen

def memcpy (p : Pen) (bytes : List UInt8) : Pen where
  mem := store p.mem p.ptr bytes
  ptr := p.ptr + bytes.length
  stores := p.stores ++ [(p.ptr, bytes.length)]

/-- The zero that ends the text is stored, and not counted. -/
def sprintf (p : Pen) (text : List UInt8) : Pen where
  mem := store p.mem p.ptr (text ++ [0])
  ptr := p.ptr + text.length
  stores := p.stores ++ [(p.ptr, text.length + 1)]

/-- A chunk of `bytes`. -/
def chunk (p : Pen) (bytes : List UInt8) : Pen :=
  ((p.sprintf (hexText (bytes.length % 2 ^ 32) ++ [CR, LF])).memcpy bytes).sprintf [CR, LF]

end Pen

/-- What a function that writes chunks returns, leaves and stores. -/
structure Dumped where
  returned : Int
  b : RawBuffer
  stores : List (Nat × Nat)

namespace RawBuffer

def space (b : RawBuffer) : Nat := b.limit - b.write

def writeEmptyChunk (b : RawBuffer) : Dumped :=
  let text := lit "0\r\n\r\n"
  if text.length ≤ b.space then
    { returned := text.length, b := b.fill text, stores := [(b.write, text.length)] }
  else { returned := 0, b := b, stores := [] }

/-- `mallocs` is whether the memory for what is read was there, and `r` what `read` then did. -/
def dumpChunkFromFd (b : RawBuffer) (mallocs : Bool) (r : ReadResult) : Dumped :=
  if b.space > MAX_CHUNK_SIZE_DIGITS + 4 then
    if mallocs = false then { returned := -1, b := b, stores := [] }
    else
      match r with
      | .error => { returned := -1, b := b, stores := [] }
      | .bytes [] => { returned := 0, b := b, stores := [] }
      | .bytes (c :: l) =>
        let p := Pen.chunk { mem := b.mem, ptr := b.write, stores := [] } (c :: l)
        let written : Int := p.ptr - b.write
        { returned := written, b := { b with mem := p.mem }.writeAdv written, stores := p.stores }
  else { returned := 0, b := b, stores := [] }

end RawBuffer

/-! ## On the readable bytes -/

/-- The text of a chunk. -/
def chunkText (bytes : List UInt8) : List UInt8 :=
  hexText (bytes.length % 2 ^ 32) ++ ([CR, LF] ++ (bytes ++ [CR, LF]))

def writeEmptyChunk (dst : Buffer) : Int × Buffer :=
  let text := lit "0\r\n\r\n"
  if text.length ≤ bufferWriteSpace dst then (text.length, bufferWriteAdv dst text) else (0, dst)

def dumpChunkFromFd (mallocs : Bool) (r : ReadResult) (dst : Buffer) : Int × Buffer :=
  if bufferWriteSpace dst > MAX_CHUNK_SIZE_DIGITS + 4 then
    if mallocs = false then (-1, dst)
    else
      match r with
      | .error => (-1, dst)
      | .bytes [] => (0, dst)
      | .bytes (c :: l) => ((chunkText (c :: l)).length, bufferWriteAdv dst (chunkText (c :: l)))
  else (0, dst)

/-! ## What is written in memory -/

/-- From `p` to `p'` the text was written, and nothing below it. -/
structure Pen.Writes (p p' : Pen) (text : List UInt8) : Prop where
  ptr : p'.ptr = p.ptr + text.length
  text : window p'.mem p.ptr text.length = text
  below : ∀ q n, q + n ≤ p.ptr → window p'.mem q n = window p.mem q n

namespace Pen

variable {p p' p'' : Pen} {text text' : List UInt8}

/-- Texts written one after the other are written at once. -/
theorem Writes.trans (h : p.Writes p' text) (h' : p'.Writes p'' text') :
    p.Writes p'' (text ++ text') := by
  have hptr := h.ptr
  refine ⟨?_, ?_, ?_⟩
  · rw [h'.ptr, hptr, List.length_append, Nat.add_assoc]
  · rw [List.length_append, window_append, ← hptr, h'.text, h'.below _ _ (Nat.le_of_eq hptr.symm),
      h.text]
  · intro q n hqn
    rw [h'.below q n (by omega), h.below q n hqn]

/-- `memcpy` writes the bytes. -/
theorem writes_memcpy (p : Pen) (bytes : List UInt8) : p.Writes (p.memcpy bytes) bytes :=
  ⟨rfl, window_store_self _ _ _, fun _ _ h => window_store_of_disjoint _ (.inl h)⟩

/-- `sprintf` writes the text; its zero is behind the pen. -/
theorem writes_sprintf (p : Pen) (text : List UInt8) : p.Writes (p.sprintf text) text := by
  refine ⟨rfl, ?_, fun _ _ h => window_store_of_disjoint _ (.inl h)⟩
  have hall := window_store_self p.mem p.ptr (text ++ [0])
  rw [List.length_append, window_append] at hall
  exact (List.append_inj hall (length_window _ _ _)).1

/-- A chunk is written as its size, its data and the two line ends. -/
theorem writes_chunk (p : Pen) (bytes : List UInt8) : p.Writes (p.chunk bytes) (chunkText bytes) := by
  have hwrites := ((writes_sprintf p (hexText (bytes.length % 2 ^ 32) ++ [CR, LF])).trans
    (writes_memcpy _ bytes)).trans (writes_sprintf _ [CR, LF])
  rw [List.append_assoc, List.append_assoc] at hwrites
  exact hwrites

end Pen

namespace RawBuffer

variable {b : RawBuffer}

/-- The room is the same in the memory and on the bytes. -/
theorem space_toBuffer (h : b.Ordered) : bufferWriteSpace b.toBuffer = b.space := by
  have hdata := h.data_le
  have hread := h.read_le
  have hwrite := h.write_le
  unfold bufferWriteSpace space
  rw [write_toBuffer h]
  change b.limit - b.data - (b.write - b.data) = b.limit - b.write
  omega

/-- `write_empty_chunk` on the memory is `writeEmptyChunk` on the bytes. -/
theorem toBuffer_writeEmptyChunk (h : b.Ordered) :
    (b.writeEmptyChunk.returned, b.writeEmptyChunk.b.toBuffer) =
      HttpProxy.writeEmptyChunk b.toBuffer := by
  unfold writeEmptyChunk HttpProxy.writeEmptyChunk
  rw [space_toBuffer h]
  dsimp only
  split
  · rw [toBuffer_fill h]
  · rfl

/-- What a pen has written from the write pointer on is appended. -/
theorem toBuffer_writes (h : b.Ordered) {p : Pen} {text : List UInt8} {stores : List (Nat × Nat)}
    (hp : Pen.Writes ⟨b.mem, b.write, stores⟩ p text) :
    ({ b with mem := p.mem }.writeAdv (p.ptr - b.write : Int)).toBuffer =
      bufferWriteAdv b.toBuffer text := by
  obtain ⟨hptr, htext, hbelow⟩ := hp
  have hread := h.read_le
  dsimp only at hptr htext hbelow
  have hpos : (p.ptr - b.write : Int) > -1 := by omega
  have hcount : (p.ptr - b.write : Int).toNat = text.length := by omega
  have hlen : b.write + text.length - b.read = b.write - b.read + text.length := by omega
  unfold writeAdv bufferWriteAdv toBuffer readable
  rw [if_pos hpos]
  dsimp only
  rw [hcount, hlen, window_append, hbelow _ _ (by omega),
    show b.read + (b.write - b.read) = b.write by omega, htext]

/-- `dump_chunk_from_fd` on the memory is `dumpChunkFromFd` on the bytes. -/
theorem toBuffer_dumpChunkFromFd (h : b.Ordered) (mallocs : Bool) (r : ReadResult) :
    ((b.dumpChunkFromFd mallocs r).returned, (b.dumpChunkFromFd mallocs r).b.toBuffer) =
      HttpProxy.dumpChunkFromFd mallocs r b.toBuffer := by
  unfold dumpChunkFromFd HttpProxy.dumpChunkFromFd
  rw [space_toBuffer h]
  split
  · split
    · rfl
    · rcases r with _ | _ | ⟨c, l⟩
      · rfl
      · rfl
      · have hwrites := Pen.writes_chunk ⟨b.mem, b.write, []⟩ (c :: l)
        dsimp only
        rw [toBuffer_writes h hwrites, hwrites.ptr]
        congr 1
        dsimp only
        omega
  · rfl

/-! ## Where the stores are -/

/-- Every byte stored lies less than `space` bytes behind `ptr`. -/
def StaysWithin (stores : List (Nat × Nat)) (ptr space : Nat) : Prop :=
  ∀ st ∈ stores, ∀ k < st.2, st.1 + k < ptr + space

/-- What `dump_chunk_from_fd` does with a block that was read. -/
theorem dumpChunkFromFd_bytes {block : List UInt8} (hspace : b.space > MAX_CHUNK_SIZE_DIGITS + 4)
    (hne : block ≠ []) :
    b.dumpChunkFromFd true (.bytes block) =
      let p := Pen.chunk { mem := b.mem, ptr := b.write, stores := [] } block
      { returned := p.ptr - b.write
        b := { b with mem := p.mem }.writeAdv (p.ptr - b.write : Int)
        stores := p.stores } := by
  obtain ⟨c, l, rfl⟩ := List.exists_cons_of_ne_nil hne
  unfold dumpChunkFromFd
  rw [if_pos hspace]
  rfl

/-- The stores of a chunk: its size with the zero, its data, and the line end with the zero. -/
theorem stores_chunk (b : RawBuffer) (block : List UInt8) :
    (Pen.chunk { mem := b.mem, ptr := b.write, stores := [] } block).stores =
      let size := (hexText (block.length % 2 ^ 32)).length
      [(b.write, size + 3), (b.write + (size + 2), block.length),
        (b.write + (size + 2) + block.length, 3)] := by
  simp [Pen.chunk, Pen.sprintf, Pen.memcpy, Nat.add_assoc]

/-- The last zero is the byte stored furthest away. -/
theorem staysWithin_text {block : List UInt8} (hspace : b.space > MAX_CHUNK_SIZE_DIGITS + 4)
    (hne : block ≠ []) (space : Nat) :
    StaysWithin (b.dumpChunkFromFd true (.bytes block)).stores b.write space ↔
      (hexText (block.length % 2 ^ 32)).length + 4 + block.length < space := by
  have hpos := List.length_pos_iff.mpr hne
  rw [dumpChunkFromFd_bytes hspace hne]
  dsimp only
  rw [stores_chunk]
  generalize (hexText (block.length % 2 ^ 32)).length = size
  constructor
  · intro h
    have hlast := h (b.write + (size + 2) + block.length, 3)
      (List.mem_cons_of_mem _ (List.mem_cons_of_mem _ List.mem_cons_self)) 2 (Nat.lt_succ_self 2)
    dsimp only at hlast
    omega
  · intro h st hst k hk
    simp only [List.mem_cons, List.not_mem_nil, or_false] at hst
    rcases hst with rfl | rfl | rfl <;> dsimp only at hk ⊢ <;> omega

/-- Chunks stay inside the destination but for one edge: seven digits, and all the room there is
taken by the data. Then the zero behind the last line end is stored at the limit. -/
theorem staysWithin_iff {block : List UInt8} (hspace : b.space > MAX_CHUNK_SIZE_DIGITS + 4)
    (hne : block ≠ []) (hread : block.length ≤ b.space - MAX_CHUNK_SIZE_DIGITS - 4)
    (hdigits : (hexText block.length).length ≤ MAX_CHUNK_SIZE_DIGITS) :
    StaysWithin (b.dumpChunkFromFd true (.bytes block)).stores b.write b.space ↔
      block.length < 2 ^ 24 ∨ block.length < b.space - MAX_CHUNK_SIZE_DIGITS - 4 := by
  have hpos : block.length ≠ 0 := fun h => hne (List.length_eq_zero_iff.mp h)
  have hlt : block.length < 16 ^ 7 := (length_hexText_le hpos).mp hdigits
  have hsix := length_hexText_le (k := 6) hpos
  rw [staysWithin_text hspace hne, Nat.mod_eq_of_lt (by omega)]
  rw [show (16 : Nat) ^ 6 = 2 ^ 24 by norm_num] at hsix
  unfold MAX_CHUNK_SIZE_DIGITS at *
  omega

theorem staysWithin_iff_three :
    StaysWithin ((initR 255 1024 0 fun _ => 0).dumpChunkFromFd true (.bytes (lit "abc"))).stores 255 769
      ↔ 3 < 2 ^ 24 ∨ 3 < 769 - MAX_CHUNK_SIZE_DIGITS - 4 :=
  @staysWithin_iff (initR 255 1024 0 fun _ => 0) (lit "abc") (by decide) (by decide) (by decide)
    ((length_hexText_le (n := 3) (k := 7) (by decide)).mpr (by decide))

/-- A read of 2^24 bytes that takes all the room but the reserve. -/
theorem zero_at_limit :
    let b := initR 255 16777482 0 fun _ => 0
    let block := List.replicate 16777216 (0x61 : UInt8)
    b.space > MAX_CHUNK_SIZE_DIGITS + 4 ∧ 0 < block.length ∧
      block.length ≤ b.space - MAX_CHUNK_SIZE_DIGITS - 4 ∧
      (hexText block.length).length ≤ MAX_CHUNK_SIZE_DIGITS ∧
      ¬ StaysWithin (b.dumpChunkFromFd true (.bytes block)).stores b.write b.space := by
  intro b block
  have hlen : block.length = 16777216 := List.length_replicate
  have hne : block ≠ [] := List.length_pos_iff.mp (by omega)
  have hspace : b.space = 0 + 16777482 - (0 + 255) := rfl
  have hdigits : MAX_CHUNK_SIZE_DIGITS = 7 := rfl
  have hsix : ¬ (hexText 16777216).length ≤ 6 := fun h =>
    absurd ((length_hexText_le (by decide)).mp h) (by decide)
  refine ⟨by omega, by omega, by omega,
    by rw [hlen]; exact (length_hexText_le (by decide)).mpr (by decide), ?_⟩
  rw [staysWithin_text (by omega) hne, hlen, hspace,
    Nat.mod_eq_of_lt (by decide)]
  omega

/-! ## A body of chunks -/

/-- A call appends as many bytes as it returns, and they and the zeros of `sprintf` fit the room. -/
structure AppendsExactly (b : RawBuffer) (r : Dumped) : Prop where
  appends : ∃ text, r.b.readable = b.readable ++ text ∧ r.b.write = b.write + text.length ∧
    r.returned = text.length ∧ text.length ≤ b.space
  inside : StaysWithin r.stores b.write b.space

/-- A call for every block, each read whole, and the empty chunk behind the last: the buffer in
front of each call with what the call did, and the buffer that is left. -/
def dumpBlocks (b : RawBuffer) : List (List UInt8) → List (RawBuffer × Dumped) × RawBuffer
  | [] => ([(b, b.writeEmptyChunk)], b.writeEmptyChunk.b)
  | block :: blocks =>
    let r := b.dumpChunkFromFd true (.bytes block)
    let rest := dumpBlocks r.b blocks
    ((b, r) :: rest.1, rest.2)

/-- Each block fits what the ones before it leave, and the empty chunk what they all leave. -/
def Fits (b : RawBuffer) : List (List UInt8) → Prop
  | [] => 5 ≤ b.space
  | block :: blocks =>
    block ≠ [] ∧ block.length < 2 ^ 24 ∧ b.space > MAX_CHUNK_SIZE_DIGITS + 4 ∧
      block.length ≤ b.space - MAX_CHUNK_SIZE_DIGITS - 4 ∧
      (b.dumpChunkFromFd true (.bytes block)).b.Fits blocks

/-- The text of the blocks and of the empty chunk. -/
def bodyText (blocks : List (List UInt8)) : List UInt8 :=
  blocks.flatMap chunkText ++ lit "0\r\n\r\n"

/-- What is written is a chunked body with the blocks as its content. -/
theorem chunkedBody_bodyText {blocks : List (List UInt8)}
    (h : ∀ block ∈ blocks, block ≠ [] ∧ block.length < 2 ^ 24) :
    ChunkedBody false (bodyText blocks) blocks.flatten := by
  induction blocks with
  | nil =>
    have hlast : ChunkedBody false (hexText 0 ++ ([] ++ ([CR, LF] ++ ([] ++ [CR, LF])))) [] :=
      .last (chunkSize_hexText 0) (.inl rfl) (.inl rfl)
    exact hlast
  | cons block blocks ih =>
    obtain ⟨hne, hlt⟩ := h block List.mem_cons_self
    have hrest := ih fun other ho => h other (List.mem_cons_of_mem _ ho)
    have hchunk : ChunkedBody false (hexText block.length ++ ([] ++ ([CR, LF] ++ (block ++
        ([CR, LF] ++ bodyText blocks))))) (block ++ blocks.flatten) :=
      .chunk hne (chunkSize_hexText block.length) (.inr (Nat.lt_trans hlt (by decide))) (.inl rfl)
        hrest
    rw [List.flatten_cons]
    convert hchunk using 1
    rw [bodyText, bodyText, List.flatMap_cons, chunkText, Nat.mod_eq_of_lt (by omega)]
    simp only [List.append_assoc, List.nil_append]

/-- `b'` is `b` with `text` behind what is readable. -/
structure Appended (b b' : RawBuffer) (text : List UInt8) : Prop where
  ordered : b'.Ordered
  readable : b'.readable = b.readable ++ text
  write : b'.write = b.write + text.length

/-- Bytes appended on the readable part are appended in memory, when the pointer follows. -/
theorem appended_writeAdv (h : b.Ordered) {mem : Nat → UInt8} {n : Int} {text : List UInt8}
    (hn : n = text.length) (hroom : text.length ≤ b.space)
    (hbuffer : ({ b with mem := mem }.writeAdv n).toBuffer = bufferWriteAdv b.toBuffer text) :
    b.Appended ({ b with mem := mem }.writeAdv n) text := by
  obtain ⟨hdata, hread, hinf, hwrite, hdata'⟩ := h
  have hpos : n > -1 := by omega
  have hcount : n.toNat = text.length := by omega
  have hreadable := congrArg Buffer.bytes hbuffer
  unfold space at hroom
  unfold writeAdv at hreadable ⊢
  rw [if_pos hpos, hcount] at hreadable ⊢
  exact ⟨⟨hdata, Nat.le_trans hread (Nat.le_add_right _ _), Nat.le_trans hinf (Nat.le_add_right _ _),
    by dsimp only; omega, hdata'⟩, hreadable, rfl⟩

/-- The last chunk is appended where there is room for its five bytes. -/
theorem appended_writeEmptyChunk (h : b.Ordered) (hroom : 5 ≤ b.space) :
    b.Appended b.writeEmptyChunk.b (lit "0\r\n\r\n") ∧ b.AppendsExactly b.writeEmptyChunk := by
  have hfill : b.writeEmptyChunk =
      { returned := 5, b := b.fill (lit "0\r\n\r\n"), stores := [(b.write, 5)] } := if_pos hroom
  have happended : b.Appended (b.fill (lit "0\r\n\r\n")) (lit "0\r\n\r\n") :=
    appended_writeAdv h rfl hroom (toBuffer_fill h _)
  rw [hfill]
  refine ⟨happended, ⟨_, happended.readable, happended.write, rfl, hroom⟩, ?_⟩
  intro st hst k hk
  obtain rfl := List.mem_singleton.mp hst
  dsimp only at hk ⊢
  omega

/-- A block below 2^24 bytes has six digits of size at most. -/
theorem length_chunkText {block : List UInt8} (hne : block ≠ []) (hlt : block.length < 2 ^ 24) :
    (chunkText block).length = (hexText block.length).length + 4 + block.length ∧
      (hexText block.length).length ≤ 6 := by
  have hpos : block.length ≠ 0 := fun h => hne (List.length_eq_zero_iff.mp h)
  refine ⟨?_, (length_hexText_le hpos).mpr (Nat.lt_of_lt_of_le hlt (by decide))⟩
  rw [chunkText, Nat.mod_eq_of_lt (by omega)]
  simp only [List.length_append, List.length_cons, List.length_nil]
  omega

/-- A block that fits is appended as a chunk. -/
theorem appended_dumpChunkFromFd (h : b.Ordered) {block : List UInt8} (hne : block ≠ [])
    (hlt : block.length < 2 ^ 24) (hspace : b.space > MAX_CHUNK_SIZE_DIGITS + 4)
    (hread : block.length ≤ b.space - MAX_CHUNK_SIZE_DIGITS - 4) :
    b.Appended (b.dumpChunkFromFd true (.bytes block)).b (chunkText block) ∧
      b.AppendsExactly (b.dumpChunkFromFd true (.bytes block)) := by
  have hwrites := Pen.writes_chunk ⟨b.mem, b.write, []⟩ block
  have hptr : (Pen.chunk ⟨b.mem, b.write, []⟩ block).ptr = b.write + (chunkText block).length :=
    hwrites.ptr
  obtain ⟨hlen, hsix⟩ := length_chunkText hne hlt
  have hroom : (chunkText block).length ≤ b.space := by
    unfold MAX_CHUNK_SIZE_DIGITS at *
    omega
  have hcount : ((Pen.chunk ⟨b.mem, b.write, []⟩ block).ptr - b.write : Int) =
      (chunkText block).length := by omega
  have hinside := (staysWithin_text (b := b) hspace hne b.space).mpr (by
    rw [Nat.mod_eq_of_lt (by omega)]
    unfold MAX_CHUNK_SIZE_DIGITS at *
    omega)
  rw [dumpChunkFromFd_bytes hspace hne] at hinside ⊢
  have happended := appended_writeAdv h hcount hroom (toBuffer_writes h hwrites)
  exact ⟨happended, ⟨_, happended.readable, happended.write, hcount, hroom⟩, hinside⟩

/-- Blocks that fit are appended as a body. The induction is on the blocks. -/
theorem dumpBlocks_appends {blocks : List (List UInt8)} (h : b.Ordered) (hfits : b.Fits blocks) :
    (∀ call ∈ (b.dumpBlocks blocks).1, AppendsExactly call.1 call.2) ∧
      (b.dumpBlocks blocks).2.readable = b.readable ++ bodyText blocks := by
  induction blocks generalizing b with
  | nil =>
    obtain ⟨happended, hexact⟩ := appended_writeEmptyChunk h hfits
    refine ⟨fun call hcall => ?_, happended.readable⟩
    obtain rfl := List.mem_singleton.mp hcall
    exact hexact
  | cons block blocks ih =>
    obtain ⟨hne, hlt, hspace, hread, hrest⟩ := hfits
    obtain ⟨happended, hexact⟩ := appended_dumpChunkFromFd h hne hlt hspace hread
    obtain ⟨hcalls, hreadable⟩ := ih happended.ordered hrest
    refine ⟨fun call hcall => ?_, ?_⟩
    · rcases List.mem_cons.mp hcall with rfl | hcall
      · exact hexact
      · exact hcalls call hcall
    · rw [dumpBlocks, hreadable, happended.readable, bodyText, bodyText, List.flatMap_cons,
        List.append_assoc, List.append_assoc]

/-- Blocks that fit are neither empty nor too large. -/
theorem Fits.forall_mem {blocks : List (List UInt8)} (h : b.Fits blocks) :
    ∀ block ∈ blocks, block ≠ [] ∧ block.length < 2 ^ 24 := by
  induction blocks generalizing b with
  | nil => exact fun block hblock => absurd hblock List.not_mem_nil
  | cons block blocks ih =>
    obtain ⟨hne, hlt, -, -, hrest⟩ := h
    intro other hother
    rcases List.mem_cons.mp hother with rfl | hother
    · exact ⟨hne, hlt⟩
    · exact ih hrest other hother

end RawBuffer

/-- A chunked body that is there as a whole is read to its end. -/
theorem extractChunkedBodyTransf_whole {body content : List UInt8}
    (h : ChunkedBody false body content) (rd : ResponseData) {bIn : Buffer} (hw : bIn.Wf)
    (hempty : bIn.bytes = []) (hroom : body.length ≤ bufferWriteSpace bIn) (out transf : List UInt8) :
    ∃ s, extractChunkedBodyTransf ⟨rd, ⟨bufferWriteAll bIn body, out, false⟩, transf⟩ = (true, s) ∧
      s.transf = transf ++ content ∧ s.io.b.bytes = [] ∧ s.io.isBufferEmpty = false := by
  have hfits : bIn.write + body.length ≤ bIn.limit := by
    have hle := hw.write_le
    unfold bufferWriteSpace at hroom
    omega
  have hshows : Io.Shows ⟨bufferWriteAll bIn body, [], false⟩ (fresh (body ++ [])) := by
    refine ⟨Buffer.wf_writeAll hw hfits, ?_⟩
    rw [List.append_nil]
    dsimp only
    rw [Buffer.cells_writeAll hw hfits, Buffer.cells_eq_nil.mpr hempty, List.nil_append]
  have hfuel : body.length < (bufferWriteAll bIn body).bytes.length + 1 := by
    rw [Buffer.writeAll_of_le hfits, hempty, List.nil_append]
    exact Nat.lt_succ_self _
  obtain ⟨io', heq, hleaves⟩ := chunksLoop_fresh false h hfuel rd.bodyLength rfl hshows
  refine ⟨⟨{ rd with bodyLength := 0 }, { io' with out := out }, transf ++ io'.out⟩, ?_, ?_, ?_,
    hleaves.flag⟩
  · unfold extractChunkedBodyTransf extractChunked
    dsimp only
    rw [heq]
    rfl
  · exact congrArg (transf ++ ·) hleaves.out
  · exact Buffer.cells_eq_nil.mp hleaves.shows_.cells

/-- The decoder undoes the encoder: blocks that fit are appended call by call as counted, and what was
appended is read back as the blocks. -/
theorem chunks_decode {b : RawBuffer} (h : b.Ordered) {blocks : List (List UInt8)}
    (hfits : b.Fits blocks) :
    (∀ call ∈ (b.dumpBlocks blocks).1, RawBuffer.AppendsExactly call.1 call.2) ∧
      ∃ text, (b.dumpBlocks blocks).2.readable = b.readable ++ text ∧
        ∀ (rd : ResponseData) (bIn : Buffer) (out transf : List UInt8),
          bIn.Wf → bIn.bytes = [] → text.length ≤ bufferWriteSpace bIn →
          ∃ s, extractChunkedBodyTransf ⟨rd, ⟨bufferWriteAll bIn text, out, false⟩, transf⟩ =
              (true, s) ∧
            s.transf = transf ++ blocks.flatten ∧ s.io.b.bytes = [] ∧
              s.io.isBufferEmpty = false := by
  obtain ⟨hcalls, hreadable⟩ := RawBuffer.dumpBlocks_appends h hfits
  have hbody := RawBuffer.chunkedBody_bodyText hfits.forall_mem
  refine ⟨hcalls, RawBuffer.bodyText blocks, hreadable, fun rd bIn out transf hw hempty hroom => ?_⟩
  exact extractChunkedBodyTransf_whole hbody rd hw hempty hroom out transf

theorem fits_two : (RawBuffer.initR 255 1024 0 fun _ => 0).Fits [lit "abc", lit "de"] := by
  refine ⟨by decide, by decide, by decide, by decide, by decide, by decide, by decide +kernel,
    by decide +kernel, ?_⟩
  change 5 ≤ RawBuffer.space _
  decide +kernel

theorem chunks_decode_two :
    ∃ text, ((RawBuffer.initR 255 1024 0 fun _ => 0).dumpBlocks [lit "abc", lit "de"]).2.readable =
        [] ++ text ∧
      ∀ (rd : ResponseData) (bIn : Buffer) (out transf : List UInt8),
        bIn.Wf → bIn.bytes = [] → text.length ≤ bufferWriteSpace bIn →
        ∃ s, extractChunkedBodyTransf ⟨rd, ⟨bufferWriteAll bIn text, out, false⟩, transf⟩ =
            (true, s) ∧
          s.transf = transf ++ lit "abcde" ∧ s.io.b.bytes = [] ∧ s.io.isBufferEmpty = false :=
  (chunks_decode (RawBuffer.ordered_initR (by decide) 0 _) fits_two).2

end HttpProxy
