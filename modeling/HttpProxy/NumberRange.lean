import HttpProxy.Consumption
import HttpProxy.FreshInput
import HttpProxy.Interruptions
import HttpProxy.ResponseFraming

/-!
# The range of the numbers read

`getNumber` accumulates in an `int` and has no bound on the digits, so a number is read as what is
left of it in 32 bits. It is the number itself just below `2 ^ 31` (`readsExactly_iff`).

What a response parser makes of a number is a length: of a body (`TakesLength`) or of a chunk
(`ChunkTakes`). A length that is not exact is a smaller or a negative one, and a negative one is no
length at all for a body and the end of the body for a chunk.
-/

namespace HttpProxy

section Reading

variable {r : Radix} {ds rest : List UInt8} {c : UInt8} {io : Io}

/-- The results of the operations of the loop of `getNumber` on the digits, with `n` accumulated so
far: each is stored in 32 bits before the next digit. -/
def intermediates (r : Radix) : Int → List UInt8 → List Int
  | _, [] => []
  | n, d :: ds =>
    r.base * n :: r.value d :: (r.base * n + r.value d) ::
      intermediates r (toInt32 (r.base * n + r.value d)) ds

/-- In the range of an `int`. -/
def InInt32 (n : Int) : Prop := -2 ^ 31 ≤ n ∧ n < 2 ^ 31

/-- A call of `getNumber` on input that starts with the digits `ds` and something behind them: a number
that it returns is theirs, every result on the way to it is in range, and a number that is not in
range is refused. -/
structure ReadsExactly (r : Radix) (echo : Bool) (pre ds : List UInt8) (io : Io) : Prop where
  exact_ : ∀ n, (getNumberWith r echo pre io).1 = some n →
    n = r.valueOf ds ∧ 0 ≤ n ∧ ∀ k ∈ intermediates r 0 ds, InInt32 k
  refused : ¬InInt32 (r.valueOf ds) → (getNumberWith r echo pre io).1 = none

theorem leadingDigits_eq (hds : ∀ d ∈ ds, r.isDigit d = true) (hc : r.isDigit c = false) :
    leadingDigits r (ds ++ c :: rest) = ds := by
  rw [leadingDigits_append hds, leadingDigits, List.takeWhile_cons_of_neg (by rw [hc]; exact Bool.false_ne_true),
    List.append_nil]

theorem getD_numberValue (r : Radix) (n : Option Int) (ds : List UInt8) :
    (numberValue r n ds).getD 0 =
      ds.foldl (fun n c => toInt32 (r.base * n + r.value c)) (n.getD 0) := by
  induction ds generalizing n with
  | nil => rfl
  | cons d ds ih => exact ih (some (toInt32 (r.base * n.getD 0 + r.value d)))

/-- The value of digits is what is left of their number in 32 bits. -/
theorem numberValue_eq (r : Radix) (hne : ds ≠ []) :
    numberValue r none ds = some (toInt32 (r.valueOf ds)) := by
  obtain ⟨n, hn⟩ := numberValue_isSome (r := r) none hne
  have hget := getD_numberValue r none ds
  rw [hn, Option.getD_some, Option.getD_none] at hget
  rw [hn, hget]
  exact congrArg some (foldl_toInt32 r 0 ds)

/-- Digits with something behind them are read as what is left of them in 32 bits. -/
theorem getNumber_digits (h0 : r.isDigit 0 = false) (hne : ds ≠ []) (hds : ∀ d ∈ ds, r.isDigit d = true)
    (hc0 : c ≠ 0) (hc : r.isDigit c = false) (hwf : io.b.Wf) (hbytes : io.b.bytes = ds ++ c :: rest)
    (echo : Bool) (pre : List UInt8) :
    ∃ io', getNumberWith r echo pre io = (some (toInt32 (r.valueOf ds)), io') ∧ io'.b.Wf ∧
      io'.b.bytes = c :: rest ∧ io'.isBufferEmpty = io.isBufferEmpty := by
  have hmap : io.b.cells.map Prod.fst = ds ++ c :: rest := (Buffer.map_fst_cells io.b).trans hbytes
  have hz : ∀ x ∈ io.b.cells, r.isDigit x.1 = true → x.1 ≠ 0 := by
    intro x _ hd hx
    rw [hx, h0] at hd
    cases hd
  obtain ⟨hpasses, hvalue⟩ := numberLoop_passes (r := r) echo hz none ⟨hwf, rfl⟩
  rw [hmap, leadingDigits_eq hds hc, Buffer.length_cells] at hpasses hvalue
  have hrest : (numberLoop r echo io.b.bytes.length 0 io).2.b.bytes = c :: rest := by
    rw [← Buffer.map_fst_cells]
    have hcells := hpasses.shows_.cells
    rw [Option.getD_none] at hcells
    rw [hcells, List.map_drop, hmap, List.drop_left]
  have hpeek : r.isDigit (bufferPeek io.b) = true := by
    obtain ⟨d, ds, rfl⟩ := List.exists_cons_of_ne_nil hne
    rw [bufferPeek, hbytes]
    exact hds d List.mem_cons_self
  have hread : (numberLoop r echo io.b.bytes.length 0 io).1 = toInt32 (r.valueOf ds) :=
    hvalue.trans ((getD_numberValue r none ds).trans (foldl_toInt32 r 0 ds))
  refine ⟨(numberLoop r echo io.b.bytes.length 0 io).2, ?_, hpasses.shows_.wf, hrest, hpasses.flag⟩
  have hnext : bufferPeek (numberLoop r echo io.b.bytes.length 0 io).2.b = c := by
    rw [bufferPeek, hrest, List.headD_cons]
  unfold getNumberWith
  simp only [hpeek, Bool.true_eq_false, and_false, if_false, hnext, hc0, hread]

theorem valueFrom_cons (r : Radix) (n : Int) (d : UInt8) (ds : List UInt8) :
    r.valueFrom n (d :: ds) = r.valueFrom (r.base * n + r.value d) ds := rfl

/-- On the way to a number in range every result is in range. -/
theorem inInt32_intermediates (hr : r.Lawful) {n : Int} (hn : 0 ≤ n) (hds : ∀ d ∈ ds, r.isDigit d = true)
    (hlt : r.valueFrom n ds < 2 ^ 31) : ∀ k ∈ intermediates r n ds, InInt32 k := by
  induction ds generalizing n with
  | nil => exact fun k hk => absurd hk List.not_mem_nil
  | cons d ds ih =>
    rw [valueFrom_cons] at hlt
    have hd := hr.value_nonneg d (hds d List.mem_cons_self)
    have hmul : 0 ≤ r.base * n := Int.mul_nonneg (Int.natCast_nonneg _) hn
    have hds' : ∀ d ∈ ds, r.isDigit d = true := fun e he => hds e (List.mem_cons_of_mem d he)
    have hle := hr.le_valueFrom (n := r.base * n + r.value d) (by omega) hds'
    have hstep : toInt32 (r.base * n + r.value d) = r.base * n + r.value d :=
      toInt32_eq (by omega) (Int.lt_of_le_of_lt hle hlt)
    have hrest := ih (n := r.base * n + r.value d) (by omega) hds' hlt
    intro k hk
    rw [intermediates, hstep] at hk
    rcases List.mem_cons.mp hk with rfl | hk
    · exact ⟨by omega, by omega⟩
    rcases List.mem_cons.mp hk with rfl | hk
    · exact ⟨by omega, by omega⟩
    rcases List.mem_cons.mp hk with rfl | hk
    · exact ⟨by omega, by omega⟩
    · exact hrest k hk

/-- A number that is not negative is what is left of it in 32 bits just if it is in range. -/
theorem toInt32_eq_iff {n : Int} (hn : 0 ≤ n) : toInt32 n = n ↔ n < 2 ^ 31 := by
  constructor
  · intro h
    rw [← h]
    exact toInt32_lt n
  · exact toInt32_eq (by omega)

theorem readsExactly_iff (hr : r.Lawful) (h0 : r.isDigit 0 = false) (hne : ds ≠ [])
    (hds : ∀ d ∈ ds, r.isDigit d = true) (hc0 : c ≠ 0) (hc : r.isDigit c = false) (hwf : io.b.Wf)
    (hbytes : io.b.bytes = ds ++ c :: rest) (echo : Bool) (pre : List UInt8) :
    ReadsExactly r echo pre ds io ↔ r.valueOf ds < 2 ^ 31 := by
  have hnonneg := valueOf_nonneg hr hds
  obtain ⟨io', hread, -⟩ := getNumber_digits h0 hne hds hc0 hc hwf hbytes echo pre
  constructor
  · intro hexact
    by_contra hge
    have hrefused := hexact.refused fun hin => hge hin.2
    rw [hread] at hrefused
    cases hrefused
  · intro hlt
    refine ⟨fun n hn => ?_, fun hout => absurd ⟨by omega, hlt⟩ hout⟩
    rw [hread] at hn
    obtain rfl := Option.some.inj hn
    rw [toInt32_eq (by omega) hlt]
    exact ⟨rfl, hnonneg, inInt32_intermediates hr (Int.le_refl 0) hds hlt⟩

end Reading

/-! ## Lengths -/

section Lengths

/-- What is there of a quantity is moved, and the rest of it is missing. -/
theorem writeToTransfBufWithZero_missing {io : Io} {n : Int} (hn : io.b.bytes.length < n)
    (hflag : io.isBufferEmpty = false) :
    ∃ io', writeToTransfBufWithZero n io = (false, n - io.b.bytes.length, io') := by
  suffices loop : ∀ (w : List UInt8) (n : Int) (io : Io), io.b.bytes = w → w.length < n →
      io.isBufferEmpty = false → ∃ io',
        writeToTransfBufWithZeroLoop (w.length + 1) n io = (n - w.length, io') by
    obtain ⟨io', hloop⟩ := loop io.b.bytes n io rfl hn hflag
    refine ⟨io', ?_⟩
    have hmissing : ¬n - io.b.bytes.length ≤ 0 := by omega
    unfold writeToTransfBufWithZero
    simp only [hloop, hmissing, decide_false]
  intro w
  induction w with
  | nil =>
    intro n io hbytes hn _
    have hread : readAndWriteWithZero io = (0, { io with isBufferEmpty := true }) := by
      unfold readAndWriteWithZero
      rw [Buffer.canRead_nil (Buffer.cells_eq_nil.mpr hbytes)]
      rfl
    refine ⟨{ io with isBufferEmpty := true }, ?_⟩
    rw [writeToTransfBufWithZeroLoop, if_pos (by simpa using hn), hread]
    simp
  | cons c w ih =>
    intro n io hbytes hn hflag
    rw [List.length_cons] at hn
    have hread : (readAndWriteWithZero io).2.b.bytes = w ∧
        (readAndWriteWithZero io).2.isBufferEmpty = false := by
      have hcan : bufferCanRead io.b = true := by
        unfold bufferCanRead
        rw [hbytes]
        rfl
      unfold readAndWriteWithZero
      rw [if_pos hcan]
      refine ⟨?_, hflag⟩
      rw [Buffer.bytes_read, hbytes, List.tail_cons]
    obtain ⟨io', hloop⟩ := ih (n - 1) _ hread.1 (by omega) hread.2
    refine ⟨io', ?_⟩
    rw [List.length_cons, writeToTransfBufWithZeroLoop, if_pos (by omega)]
    simp only [hread.2, Bool.false_eq_true, if_false, hloop, Prod.mk.injEq, and_true]
    omega

/-- Of a body of `v` bytes what has arrived is passed on, and what is missing is known: the body is not
taken for a shorter one. -/
def TakesLength (v : Int) (d : ResponseFields) : Prop :=
  ∀ s : ResState, s.rData.bodyLength = d.bodyLength → s.rData.isChunked = false →
    s.io.isBufferEmpty = false → s.io.b.bytes.length < v →
    ((extractBody s).1 = false ∧ (extractBody s).2.rData.bodyLength = v - s.io.b.bytes.length) ∧
      (extractBodyTransf s).1 = false ∧
      (extractBodyTransf s).2.rData.bodyLength = v - s.io.b.bytes.length

/-- Of a chunk whose size is `ds` what has arrived is passed on, and what is missing is known. -/
def ChunkTakes (echo : Bool) (ds : List UInt8) : Prop :=
  ∀ (fuel : Nat) (bodyLength : Int) (io : Io) (w : List UInt8), io.b.Wf →
    io.isBufferEmpty = false → io.b.bytes = ds ++ CR :: LF :: w → w.length < Radix.hex.valueOf ds →
    (chunksLoop echo (fuel + 1) bodyLength io).1 = false ∧
      (chunksLoop echo (fuel + 1) bodyLength io).2.1 = Radix.hex.valueOf ds - w.length

/-- A quantity that is not positive is there. -/
theorem writeToTransfBufWithZero_nonpos {io : Io} {n : Int} (hn : n ≤ 0) :
    writeToTransfBufWithZero n io = (true, n, io) := by
  unfold writeToTransfBufWithZero
  rw [writeToTransfBufWithZeroLoop, if_neg (by omega)]
  simp only [hn, decide_true]

theorem extractBodyWith_of_length (echo : Bool) {d : ResponseFields} (hc : d.isChunked = false)
    (hd : 0 ≤ d.bodyLength) (io : Io) :
    extractBodyWith echo d io = writeToTransfBufWithZero d.bodyLength io := by
  unfold extractBodyWith
  rw [hc, if_neg Bool.false_ne_true, if_pos hd]

theorem extractBodyWith_of_none (echo : Bool) {d : ResponseFields} (hc : d.isChunked = false)
    (hd : d.bodyLength < 0) (io : Io) :
    extractBodyWith echo d io = (false, d.bodyLength, readAll io.b.bytes.length io) := by
  unfold extractBodyWith
  rw [hc, if_neg Bool.false_ne_true, if_neg (by omega)]

/-- As long as nothing has arrived, the length stays what it is. -/
theorem extractBodyWith_nothing (echo : Bool) {d : ResponseFields} (hc : d.isChunked = false) {io : Io}
    (hnil : io.b.bytes = []) (hflag : io.isBufferEmpty = false) :
    (extractBodyWith echo d io).2.1 = d.bodyLength := by
  by_cases hneg : d.bodyLength < 0
  · rw [extractBodyWith_of_none echo hc hneg]
  · rw [extractBodyWith_of_length echo hc (by omega)]
    by_cases hpos : 0 < d.bodyLength
    · obtain ⟨io', hmoved⟩ := writeToTransfBufWithZero_missing (n := d.bodyLength)
        (by rw [hnil]; exact hpos) hflag
      rw [hmoved, hnil, List.length_nil]
      exact Int.sub_zero _
    · rw [writeToTransfBufWithZero_nonpos (by omega)]

/-- A body is not taken for a shorter one just if its length is what the parser has for it. -/
theorem takesLength_iff {v : Int} (hv : 0 < v) (d : ResponseFields) :
    TakesLength v d ↔ d.bodyLength = v := by
  constructor
  · intro h
    let s : ResState := { rData := { d with isChunked := false }, io := ⟨bufferInitR 0 0, [], false⟩ }
    have hnone : (extractBodyTransf s).2.rData.bodyLength = v - ([] : List UInt8).length :=
      (h s rfl rfl rfl hv).2.2
    rw [List.length_nil] at hnone
    have hkept : (extractBodyTransf s).2.rData.bodyLength = s.rData.bodyLength :=
      extractBodyWith_nothing false (d := s.rData.toResponseFields) rfl rfl rfl
    have hsame : d.bodyLength = v - 0 := hkept.symm.trans hnone
    rwa [Int.sub_zero] at hsame
  · rintro rfl s hlength hchunked hflag hlt
    rw [← hlength] at hv hlt ⊢
    have hmissing : ∀ echo out, ∃ io', extractBodyWith echo s.rData.toResponseFields
        { s.io with out := out } = (false, s.rData.bodyLength - s.io.b.bytes.length, io') := by
      intro echo out
      rw [extractBodyWith_of_length echo hchunked (by omega)]
      exact writeToTransfBufWithZero_missing hlt hflag
    obtain ⟨io', hbody⟩ := hmissing true s.io.out
    obtain ⟨io'', htransf⟩ := hmissing false []
    have hguard : ¬(s.rData.isChunked = false ∧ s.rData.bodyLength < 0 ∧ s.rData.status ≠ 200) :=
      fun hc => by omega
    refine ⟨?_, ?_⟩
    · unfold extractBody
      rw [if_neg hguard, show s.io = { s.io with out := s.io.out } from rfl, hbody]
      exact ⟨rfl, rfl⟩
    · unfold extractBodyTransf
      rw [htransf]
      exact ⟨rfl, rfl⟩

/-- A byte that is there is read. -/
theorem readByte_bytes (echo : Bool) {io : Io} {c : UInt8} {w : List UInt8}
    (hbytes : io.b.bytes = c :: w) :
    (readByte echo io).b.bytes = w ∧ (readByte echo io).isBufferEmpty = io.isBufferEmpty := by
  have htail : (bufferRead io.b).2.bytes = w := by
    rw [Buffer.bytes_read, hbytes, List.tail_cons]
  cases echo
  · exact ⟨htail, rfl⟩
  · exact ⟨htail, rfl⟩

/-- The end of a line is matched, whatever is behind it. -/
theorem matchFormat_crlf (echo : Bool) {io : Io} {w : List UInt8} (hbytes : io.b.bytes = CR :: LF :: w) :
    ∃ io', matchFormatWith echo [CR, LF] [] io = (true, io') ∧ io'.b.bytes = w ∧
      io'.isBufferEmpty = io.isBufferEmpty := by
  obtain ⟨hcr, hflag⟩ := readByte_bytes echo hbytes
  obtain ⟨hlf, hflag'⟩ := readByte_bytes echo hcr
  refine ⟨readByte echo (readByte echo io), ?_, hlf, hflag'.trans hflag⟩
  have hpeek : peekUpChar io.b = toupper CR := by rw [peekUpChar, bufferPeek, hbytes, List.headD_cons]
  have hpeek' : peekUpChar (readByte echo io).b = toupper LF := by
    rw [peekUpChar, bufferPeek, hcr, List.headD_cons]
  have hloop : matchFormatLoop echo [CR, LF] 0 0 io =
      ([], 2, toupper LF, readByte echo (readByte echo io)) := by
    rw [matchFormatLoop, hpeek, if_neg (not_not.mpr rfl), matchFormatLoop, hpeek',
      if_neg (not_not.mpr rfl), matchFormatLoop]
  unfold matchFormatWith
  rw [hloop]
  rfl

/-- The end of a line is not matched on nothing. -/
theorem matchFormat_crlf_nil (echo : Bool) {io : Io} (hbytes : io.b.bytes = []) :
    (matchFormatWith echo [CR, LF] [] io).1 = false := by
  have hpeek : peekUpChar io.b = 0 := by
    rw [peekUpChar, bufferPeek, hbytes, List.headD_nil, toupper_zero]
  have hne : (0 : UInt8) ≠ toupper CR := by decide
  have hloop : matchFormatLoop echo [CR, LF] 0 0 io = ([CR, LF], 0, 0, io) := by
    rw [matchFormatLoop, hpeek, if_pos hne]
  unfold matchFormatWith
  rw [hloop]
  rfl

section Chunk

variable {echo : Bool} {ds w : List UInt8} {io : Io}

/-- The size of a chunk with its line: what is moved of the chunk is what is left of the size in 32
bits. -/
theorem chunkSize_read (echo : Bool) (hne : ds ≠ []) (hds : ∀ d ∈ ds, Radix.hex.isDigit d = true) (hwf : io.b.Wf)
    (hflag : io.isBufferEmpty = false) (hbytes : io.b.bytes = ds ++ CR :: LF :: w) :
    ∃ io' io'', getNumberWith .hex echo [] io = (some (toInt32 (Radix.hex.valueOf ds)), io') ∧
      matchFormatWith echo [CR, LF] [] io' = (true, io'') ∧ io''.b.bytes = w ∧
      io''.isBufferEmpty = false := by
  obtain ⟨io', hsize, -, hleft, hsame⟩ := getNumber_digits (r := .hex) rfl hne hds (by decide) rfl hwf
    hbytes echo []
  obtain ⟨io'', hline, hrest, hsame'⟩ := matchFormat_crlf echo hleft
  exact ⟨io', io'', hsize, hline, hrest, (hsame'.trans hsame).trans hflag⟩

theorem chunksLoop_missing (echo : Bool) (hne : ds ≠ []) (hds : ∀ d ∈ ds, Radix.hex.isDigit d = true) (hwf : io.b.Wf)
    (hflag : io.isBufferEmpty = false) (hbytes : io.b.bytes = ds ++ CR :: LF :: w)
    (hlt : w.length < toInt32 (Radix.hex.valueOf ds)) (fuel : Nat) (bodyLength : Int) :
    (chunksLoop echo (fuel + 1) bodyLength io).1 = false ∧
      (chunksLoop echo (fuel + 1) bodyLength io).2.1 = toInt32 (Radix.hex.valueOf ds) - w.length := by
  obtain ⟨io', io'', hsize, hline, hrest, hflag''⟩ := chunkSize_read echo hne hds hwf hflag hbytes
  rw [← hrest] at hlt ⊢
  obtain ⟨io₃, hmoved⟩ := writeToTransfBufWithZero_missing hlt hflag''
  rw [chunksLoop_succ, hsize]
  simp only [hline, Bool.true_eq_false, if_false, hmoved, if_true, and_self]

/-- A size that is not positive is taken for that of the last chunk, with nothing left of it. -/
theorem chunksLoop_nonpos (hne : ds ≠ []) (hds : ∀ d ∈ ds, Radix.hex.isDigit d = true) (hwf : io.b.Wf)
    (hflag : io.isBufferEmpty = false) (hbytes : io.b.bytes = ds ++ [CR, LF])
    (hle : toInt32 (Radix.hex.valueOf ds) ≤ 0) (fuel : Nat) (bodyLength : Int) :
    (chunksLoop echo (fuel + 1) bodyLength io).2.1 = toInt32 (Radix.hex.valueOf ds) := by
  obtain ⟨io', io'', hsize, hline, hrest, -⟩ := chunkSize_read echo hne hds hwf hflag hbytes
  have hend := matchFormat_crlf_nil echo hrest
  rw [chunksLoop_succ, hsize]
  simp only [hline, Bool.true_eq_false, if_false, writeToTransfBufWithZero_nonpos hle, hend, if_true]

/-- A chunk is not taken for a shorter one just if its size is in range. -/
theorem chunkTakes_iff (hne : ds ≠ []) (hds : ∀ d ∈ ds, Radix.hex.isDigit d = true) :
    ChunkTakes echo ds ↔ Radix.hex.valueOf ds < 2 ^ 31 := by
  have hnonneg := valueOf_nonneg Radix.hex_lawful hds
  rw [← toInt32_eq_iff hnonneg]
  constructor
  · intro h
    by_contra hne'
    have hlarge : ¬Radix.hex.valueOf ds < 2 ^ 31 := mt (toInt32_eq_iff hnonneg).mpr hne'
    let io : Io := ⟨bufferOf (ds ++ [CR, LF]), [], false⟩
    have hwf : io.b.Wf := wf_bufferOf _
    have hall := (h 0 0 io [] hwf rfl rfl (by rw [List.length_nil]; omega)).2
    rw [List.length_nil, Int.natCast_zero, Int.sub_zero] at hall
    by_cases hle : toInt32 (Radix.hex.valueOf ds) ≤ 0
    · exact hne' ((chunksLoop_nonpos hne hds hwf rfl rfl hle 0 0).symm.trans hall)
    · have hmissing := (chunksLoop_missing echo (w := []) hne hds hwf rfl rfl
        (by rw [List.length_nil]; omega) 0 0).2
      rw [List.length_nil, Int.natCast_zero, Int.sub_zero] at hmissing
      exact hne' (hmissing.symm.trans hall)
  · intro heq fuel bodyLength io w hwf hflag hbytes hlt
    rw [← heq] at hlt ⊢
    exact chunksLoop_missing echo hne hds hwf hflag hbytes hlt fuel bodyLength

end Chunk

end Lengths

/-! ## Numbers from the network -/

theorem checkLength_some {s : ResState} {n : Int} {io' : Io} (h : getNumber [] s.io = (some n, io')) :
    checkLength s = (true, { s with io := io', rData := { s.rData with bodyLength := n } }) := by
  unfold checkLength
  rw [h]

/-- What is left in 32 bits of a number out of range is another number. -/
theorem checkLength_takes_iff {ds rest : List UInt8} {c : UInt8} {s : ResState} (hne : ds ≠ [])
    (hds : ∀ d ∈ ds, Radix.dec.isDigit d = true) (hc0 : c ≠ 0) (hc : Radix.dec.isDigit c = false)
    (hwf : s.io.b.Wf) (hbytes : s.io.b.bytes = ds ++ c :: rest) :
    ((checkLength s).1 = true →
        TakesLength (Radix.dec.valueOf ds) (checkLength s).2.rData.toResponseFields) ↔
      Radix.dec.valueOf ds < 2 ^ 31 := by
  have hnonneg := valueOf_nonneg Radix.dec_lawful hds
  obtain ⟨io', hread, -⟩ := getNumber_digits (r := .dec) rfl hne hds hc0 hc hwf hbytes true []
  rw [checkLength_some hread, ← toInt32_eq_iff hnonneg]
  rcases Int.lt_or_eq_of_le hnonneg with hpos | hzero
  · rw [takesLength_iff hpos]
    exact ⟨fun h => h rfl, fun h _ => h⟩
  · -- Nothing is less than a length of zero, which is in range.
    rw [← hzero]
    exact iff_of_true (fun _ s _ _ _ hlt => absurd hlt (by omega)) rfl

/-- A number that is followed by something else is read exactly, and no length that it stands for is
taken for another one, just if it is less than `2 ^ 31`. -/
theorem numbers_exact_iff {r : Radix} (hr : r = .dec ∨ r = .hex) {ds rest : List UInt8} {c : UInt8}
    (hne : ds ≠ []) (hds : ∀ d ∈ ds, r.isDigit d = true) (hc0 : c ≠ 0) (hc : r.isDigit c = false)
    {s : ResState} (hwf : s.io.b.Wf) (hbytes : s.io.b.bytes = ds ++ c :: rest) (echo : Bool)
    (pre : List UInt8) :
    (ReadsExactly r echo pre ds s.io ∧
        (r = .dec → (checkLength s).1 = true →
          TakesLength (r.valueOf ds) (checkLength s).2.rData.toResponseFields) ∧
        (r = .hex → ChunkTakes echo ds)) ↔
      r.valueOf ds < 2 ^ 31 := by
  rcases hr with rfl | rfl
  · have hexact := readsExactly_iff Radix.dec_lawful rfl hne hds hc0 hc hwf hbytes echo pre
    constructor
    · intro h
      exact hexact.mp h.1
    · intro hlt
      refine ⟨hexact.mpr hlt, fun _ => (checkLength_takes_iff hne hds hc0 hc hwf hbytes).mpr hlt, ?_⟩
      intro hhex
      exact absurd (congrArg Radix.base hhex) (by decide)
  · have hexact := readsExactly_iff Radix.hex_lawful rfl hne hds hc0 hc hwf hbytes echo pre
    constructor
    · intro h
      exact hexact.mp h.1
    · intro hlt
      refine ⟨hexact.mpr hlt, fun hdec => ?_, fun _ => (chunkTakes_iff hne hds).mpr hlt⟩
      exact absurd (congrArg Radix.base hdec) (by decide)

/-- The greatest length that is read. -/
theorem numbers_exact_max :
    let ds := lit "2147483647"
    let s := resCallStart {} (bufferOf (ds ++ [CR, LF]))
    Radix.dec.valueOf ds = 2 ^ 31 - 1 ∧ ReadsExactly .dec true [] ds s.io ∧
      (Radix.dec = .dec → (checkLength s).1 = true →
        TakesLength (Radix.dec.valueOf ds) (checkLength s).2.rData.toResponseFields) ∧
      (Radix.dec = .hex → ChunkTakes true ds) :=
  ⟨by decide, (numbers_exact_iff (s := resCallStart {} (bufferOf (lit "2147483647" ++ [CR, LF])))
    (.inl rfl) (by decide) (by decide +kernel) (by decide) (by decide) (wf_bufferOf _) rfl true []).mpr
      (by decide)⟩

/-- A length of `2 ^ 32 + 1` is read as 1, and one of `2 ^ 31` as a negative number, which is no length
at all. -/
theorem numbers_exact_wrapped :
    let s := resCallStart {} (bufferOf (lit "4294967297\r\n"))
    let s' := resCallStart {} (bufferOf (lit "2147483648\r\n"))
    (checkLength s).2.rData.bodyLength = 1 ∧ (checkLength s').2.rData.bodyLength = -2 ^ 31 ∧
      ¬ReadsExactly .dec true [] (lit "4294967297") s.io ∧
      ¬ReadsExactly .dec true [] (lit "2147483648") s'.io := by
  have hread : (getNumber [] (resCallStart {} (bufferOf (lit "4294967297\r\n"))).io).1 = some 1 := by
    decide
  have hread' : (getNumber [] (resCallStart {} (bufferOf (lit "2147483648\r\n"))).io).1 =
      some (-2 ^ 31) := by decide
  refine ⟨by decide, by decide, ?_, ?_⟩
  · intro h
    exact absurd (h.exact_ 1 hread).1 (by decide)
  · intro h
    exact absurd (h.exact_ (-2 ^ 31) hread').1 (by decide)

end HttpProxy
