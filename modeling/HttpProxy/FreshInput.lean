import HttpProxy.MyParserUtilsSpec

/-!
# The parser utilities on input read for the first time

Where nothing was pushed back every cell is fresh, and a utility that finds what it needs is a move
over bytes: it leaves a rest of the input and writes some of what it read. The lemmas here say what
each utility leaves and writes on such input, whatever follows.

A byte that stops a utility has to be there: the end of the input is where it pushes back, and
none of these lemmas is about that.
-/

namespace HttpProxy

/-- From `io` to `io'` the input is down to the fresh bytes `v`, and `w` was written. -/
structure Io.Leaves (io io' : Io) (v w : List UInt8) : Prop where
  shows_ : io'.Shows (fresh v)
  out : io'.out = io.out ++ w
  flag : io'.isBufferEmpty = io.isBufferEmpty

namespace Io.Leaves

variable {io io' io'' : Io} {v v' w w' : List UInt8}

theorem refl (h : io.Shows (fresh v)) : io.Leaves io v [] :=
  ⟨h, (List.append_nil _).symm, rfl⟩

/-- Bytes read one after the other are read at once. -/
theorem trans (h : io.Leaves io' v w) (h' : io'.Leaves io'' v' w') :
    io.Leaves io'' v' (w ++ w') :=
  ⟨h'.shows_, by rw [h'.out, h.out, List.append_assoc], h'.flag.trans h.flag⟩

/-- What is written besides stands behind what was written. -/
theorem write (h : io.Leaves io' v w) (x : List UInt8) :
    io.Leaves (writeToBuf x io') v (w ++ x) :=
  ⟨⟨h.shows_.wf, h.shows_.cells⟩, by rw [writeToBuf, h.out, List.append_assoc], h.flag⟩

end Io.Leaves

/-- What a function that echoes or not writes of the bytes `w` it reads. -/
def written (echo : Bool) (w : List UInt8) : List UInt8 := if echo then w else []

@[simp] theorem written_true (w : List UInt8) : written true w = w := rfl

@[simp] theorem written_false (w : List UInt8) : written false w = [] := rfl

@[simp] theorem written_nil (echo : Bool) : written echo [] = [] := by cases echo <;> rfl

theorem written_append (echo : Bool) (w w' : List UInt8) :
    written echo (w ++ w') = written echo w ++ written echo w' := by cases echo <;> rfl

theorem echoed_fresh_eq (echo : Bool) (c : UInt8) :
    echoed echo (c, false) = written echo [c] := by cases echo <;> rfl

/-! ## One byte -/

section OneByte

variable {io : Io} {c : UInt8} {v : List UInt8}

/-- A byte that is read and not written. -/
theorem leaves_bufferRead (h : io.Shows (fresh (c :: v))) :
    io.Leaves { io with b := (bufferRead io.b).2 } v [] :=
  ⟨h.read _ _, (List.append_nil _).symm, rfl⟩

/-- A byte that is read is written. -/
theorem readAndWrite_fresh (hc : c ≠ 0) (h : io.Shows (fresh (c :: v))) :
    ∃ io', readAndWrite io = (c, io') ∧ io.Leaves io' v [c] :=
  ⟨_, readAndWrite_cons h hc, h.read _ _, rfl, rfl⟩

/-- A byte that is read is written with `echo`. -/
theorem leaves_readByte (echo : Bool) (hc : c ≠ 0) (h : io.Shows (fresh (c :: v))) :
    io.Leaves (readByte echo io) v (written echo [c]) := by
  rw [readByte_cons echo h hc, echoed_fresh_eq]
  exact ⟨h.read _ _, rfl, rfl⟩

end OneByte

/-! ## Matching a format -/

section Format

variable {format pre : List UInt8}

/-- Bytes that are the beginning of a format are gone through. The induction is on the format. -/
theorem matchFormatLoop_append (echo : Bool) {f u : List UInt8} (hu : u.map toupper = f.map toupper)
    (h0 : 0 ∉ u) (g v : List UInt8) (i : Nat) (c : UInt8) {io : Io}
    (h : io.Shows (fresh (u ++ v))) :
    ∃ i' c' io', matchFormatLoop echo (f ++ g) i c io = matchFormatLoop echo g i' c' io' ∧
      io.Leaves io' v (written echo u) := by
  induction u generalizing f i c io with
  | nil =>
    obtain rfl : f = [] := List.map_eq_nil_iff.mp hu.symm
    exact ⟨i, c, io, rfl, by rw [written_nil]; exact Io.Leaves.refl h⟩
  | cons a u ih =>
    obtain ⟨b, f, rfl⟩ : ∃ b f', f = b :: f' := List.exists_cons_of_ne_nil fun hn => by
      rw [hn] at hu; exact absurd hu (by simp)
    obtain ⟨hab, hu⟩ := List.cons.inj hu
    obtain ⟨ha0, h0⟩ := not_or.mp (mt List.mem_cons.mpr h0)
    have hread := leaves_readByte echo (Ne.symm ha0) h
    have hpeek : peekUpChar io.b = toupper b := by rw [peekUpChar, h.peek, ← hab]
    obtain ⟨i', c', io', hloop, hleaves⟩ := ih hu h0 (i + 1) (toupper b) hread.shows_
    refine ⟨i', c', io', ?_, ?_⟩
    · rw [← hloop, List.cons_append, matchFormatLoop]
      simp only [hpeek, ne_eq, not_true, if_false]
    · rw [← List.singleton_append, written_append]
      exact hread.trans hleaves

/-- Bytes that are the format, in any case, are read whole. -/
theorem matchFormat_full (echo : Bool) {u v : List UInt8}
    (hu : u.map toupper = format.map toupper) (h0 : 0 ∉ u) {io : Io}
    (h : io.Shows (fresh (u ++ v))) :
    ∃ io', matchFormatWith echo format pre io = (true, io') ∧
      io.Leaves io' v (written echo u) := by
  obtain ⟨i', c', io', hloop, hleaves⟩ := matchFormatLoop_append echo hu h0 [] v 0 0 h
  rw [List.append_nil] at hloop
  refine ⟨io', ?_, hleaves⟩
  simp only [matchFormatWith, hloop, matchFormatLoop, ne_eq, not_true, false_and, if_false,
    List.isEmpty_nil]

/-- Bytes that leave the format at `x` are read up to it, and `x` is left. -/
theorem matchFormat_miss (echo : Bool) {u v f g : List UInt8} {x y : UInt8}
    (hformat : format = f ++ y :: g) (hu : u.map toupper = f.map toupper) (h0 : 0 ∉ u)
    (hx : x ≠ 0) (hxy : toupper x ≠ toupper y) {io : Io} (h : io.Shows (fresh (u ++ x :: v))) :
    ∃ io', matchFormatWith echo format pre io = (false, io') ∧
      io.Leaves io' (x :: v) (written echo u) := by
  obtain ⟨i', c', io', hloop, hleaves⟩ := matchFormatLoop_append echo hu h0 (y :: g) (x :: v) 0 0 h
  have hpeek : peekUpChar io'.b = toupper x := by rw [peekUpChar, hleaves.shows_.peek]
  have hx0 : toupper x ≠ 0 := fun hn => hx (toupper_eq_zero.mp hn)
  refine ⟨io', ?_, hleaves⟩
  simp only [matchFormatWith, hformat, hloop, matchFormatLoop, hpeek, ne_eq, hxy,
    not_false_eq_true, if_true, hx0, and_false, if_false, List.isEmpty_cons]

/-- A text in front of a CR begins with the whole format, or with a part of it behind which comes
something else. -/
theorem format_cases (hcr : CR ∉ format) (t : List UInt8) :
    (∃ u v, t = u ++ v ∧ u.map toupper = format.map toupper) ∨
      ¬ format.map toupper <+: t.map toupper ∧
        ∃ u v f y g x v', t = u ++ v ∧ v ++ [CR] = x :: v' ∧ format = f ++ y :: g ∧
          u.map toupper = f.map toupper ∧ toupper x ≠ toupper y := by
  induction format generalizing t with
  | nil => exact .inl ⟨[], t, rfl, rfl⟩
  | cons y format ih =>
    obtain ⟨hy, hcr⟩ := not_or.mp (mt List.mem_cons.mpr hcr)
    cases t with
    | nil =>
      refine .inr ⟨fun h => absurd (List.prefix_nil.mp h) (List.cons_ne_nil _ _),
        [], [], [], y, format, CR, [], rfl, rfl, rfl, rfl, fun h => hy ?_⟩
      revert h
      unfold toupper
      grind
    | cons x t =>
      by_cases hxy : toupper x = toupper y
      · obtain ⟨u, v, rfl, hu⟩ | ⟨hpre, u, v, f, z, g, a, v', rfl, hv, rfl, hu, ha⟩ := ih hcr t
        · exact .inl ⟨x :: u, v, rfl, by rw [List.map_cons, List.map_cons, hxy, hu]⟩
        · refine .inr ⟨fun h => hpre (List.cons_prefix_cons.mp h).2, x :: u, v, y :: f, z, g, a, v',
            rfl, hv, rfl, ?_, ha⟩
          rw [List.map_cons, List.map_cons, hxy, hu]
      · exact .inr ⟨fun h => hxy (List.cons_prefix_cons.mp h).1.symm,
          [], x :: t, [], y, format, x, t ++ [CR], rfl, rfl, rfl, rfl, hxy⟩

/-- A format met by a text in front of a CR: read whole, or a part of it, whatever follows. -/
theorem matchFormat_text (echo : Bool) (pre : List UInt8) (hcr : CR ∉ format) {t : List UInt8}
    (ht : 0 ∉ t) :
    (∃ u v, t = u ++ v ∧ u.map toupper = format.map toupper ∧
      ∀ rest io, io.Shows (fresh (t ++ CR :: rest)) →
        ∃ io', matchFormatWith echo format pre io = (true, io') ∧
          io.Leaves io' (v ++ CR :: rest) (written echo u)) ∨
    ¬ format.map toupper <+: t.map toupper ∧ ∃ u v, t = u ++ v ∧
      ∀ rest io, io.Shows (fresh (t ++ CR :: rest)) →
        ∃ io', matchFormatWith echo format pre io = (false, io') ∧
          io.Leaves io' (v ++ CR :: rest) (written echo u) := by
  obtain ⟨u, v, rfl, hu⟩ | ⟨hpre, u, v, f, y, g, x, v', rfl, hv, hformat, hu, hxy⟩ :=
    format_cases hcr t
  · refine .inl ⟨u, v, rfl, hu, fun rest io h => ?_⟩
    rw [List.append_assoc] at h
    exact matchFormat_full echo hu (fun h0 => ht (List.mem_append_left v h0)) h
  · refine .inr ⟨hpre, u, v, rfl, fun rest io h => ?_⟩
    have hrest : v ++ CR :: rest = x :: (v' ++ rest) := by
      rw [← List.singleton_append, ← List.append_assoc, hv, List.cons_append]
    have hx : x ≠ 0 := by
      rintro rfl
      have hmem : (0 : UInt8) ∈ v ++ [CR] := hv ▸ List.mem_cons_self
      rcases List.mem_append.mp hmem with hmem | hmem
      · exact ht (List.mem_append_right u hmem)
      · exact absurd (List.mem_singleton.mp hmem) (by decide)
    rw [List.append_assoc, hrest] at h
    rw [hrest]
    exact matchFormat_miss echo hformat hu (fun h0 => ht (List.mem_append_left v h0)) hx hxy h

end Format

/-! ## Blanks and numbers -/

/-- Blanks are read up to the byte behind them, without being written. -/
theorem moveThroughSpaces_fresh {s v : List UInt8} {x : UInt8} (hs : ∀ c ∈ s, isBlank c = true)
    (hx : isBlank x = false) {io : Io} (h : io.Shows (fresh (s ++ x :: v))) :
    ∃ b', moveThroughSpaces io.b = (x, b') ∧ io.Leaves { io with b := b' } (x :: v) [] := by
  unfold moveThroughSpaces
  have hlen : io.b.bytes.length = s.length + (v.length + 1) := by
    rw [h.length, fresh, List.length_map, List.length_append, List.length_cons]
  rw [hlen]
  clear hlen
  induction s generalizing io with
  | nil =>
    refine ⟨io.b, ?_, Io.Leaves.refl h⟩
    have hp : bufferPeek io.b = x := h.peek
    rw [List.length_nil, Nat.zero_add, moveThroughSpacesLoop, hp]
    simp only [hx, Bool.false_eq_true, if_false]
  | cons a s ih =>
    have hread := leaves_bufferRead h
    obtain ⟨b', hloop, hleaves⟩ := ih (fun c hc => hs c (List.mem_cons_of_mem a hc)) hread.shows_
    refine ⟨b', ?_, hleaves.shows_, hleaves.out, hleaves.flag⟩
    rw [List.length_cons, show s.length + 1 + (v.length + 1) = s.length + (v.length + 1) + 1 by omega,
      moveThroughSpacesLoop, h.peek]
    simp only [hs a List.mem_cons_self, if_true]
    exact hloop

/-- The accumulator of the loop, which wraps at every digit, is the value of the digits wrapped. -/
theorem foldl_toInt32 (r : Radix) (n : Int) (ds : List UInt8) :
    ds.foldl (fun n c => toInt32 (r.base * n + r.value c)) (toInt32 n) =
      toInt32 (r.valueFrom n ds) := by
  induction ds generalizing n with
  | nil => rfl
  | cons c ds ih =>
    have hstep : toInt32 (r.base * toInt32 n + r.value c) = toInt32 (r.base * n + r.value c) := by
      unfold toInt32
      rw [← Int.bmod_add_bmod, Int.mul_bmod_bmod, Int.bmod_add_bmod]
    rw [List.foldl_cons, hstep, ih]
    rfl

section Number

variable {r : Radix} {ds v : List UInt8} {x : UInt8}

/-- Digits are read up to the byte behind them. The induction is on the digits. -/
theorem numberLoop_fresh (echo : Bool) (hds : ∀ c ∈ ds, r.isDigit c = true ∧ c ≠ 0)
    (hx : r.isDigit x = false) (k : Nat) (n : Int) {io : Io}
    (h : io.Shows (fresh (ds ++ x :: v))) :
    ∃ io', numberLoop r echo (ds.length + k) n io =
        (ds.foldl (fun n c => toInt32 (r.base * n + r.value c)) n, io') ∧
      io.Leaves io' (x :: v) (written echo ds) := by
  induction ds generalizing n io with
  | nil =>
    refine ⟨io, ?_, by rw [written_nil]; exact Io.Leaves.refl h⟩
    have hp : bufferPeek io.b = x := h.peek
    cases k with
    | zero => rfl
    | succ k =>
      rw [List.length_nil, Nat.zero_add, numberLoop, hp]
      simp only [hx, Bool.false_eq_true, if_false, List.foldl_nil]
  | cons a ds ih =>
    obtain ⟨hd, ha⟩ := hds a List.mem_cons_self
    have hread := leaves_readByte echo ha h
    obtain ⟨io', hloop, hleaves⟩ :=
      ih (fun c hc => hds c (List.mem_cons_of_mem a hc)) (toInt32 (r.base * n + r.value a))
        hread.shows_
    refine ⟨io', ?_, ?_⟩
    · rw [List.length_cons, show ds.length + 1 + k = ds.length + k + 1 by omega, numberLoop, h.peek]
      simp only [hd, if_true, List.foldl_cons]
      exact hloop
    · rw [← List.singleton_append (l := ds), written_append]
      exact hread.trans hleaves

/-- A number that something follows is read whole, and as an `int` holds it. -/
theorem getNumber_fresh (echo : Bool) (pre : List UInt8) (hne : ds ≠ [])
    (hds : ∀ c ∈ ds, r.isDigit c = true ∧ c ≠ 0) (hx : r.isDigit x = false) (hx0 : x ≠ 0) {io : Io}
    (h : io.Shows (fresh (ds ++ x :: v))) :
    ∃ io', getNumberWith r echo pre io = (some (toInt32 (r.valueOf ds)), io') ∧
      io.Leaves io' (x :: v) (written echo ds) := by
  have hlen : io.b.bytes.length = ds.length + (v.length + 1) := by
    rw [h.length, fresh, List.length_map, List.length_append, List.length_cons]
  obtain ⟨io', hloop, hleaves⟩ := numberLoop_fresh echo hds hx (v.length + 1) 0 h
  refine ⟨io', ?_, hleaves⟩
  have hpeek : r.isDigit (bufferPeek io.b) = true := by
    obtain ⟨a, ds, rfl⟩ := List.exists_cons_of_ne_nil hne
    rw [show bufferPeek io.b = a from h.peek]
    exact (hds a List.mem_cons_self).1
  have hpeek' : bufferPeek io'.b = x := hleaves.shows_.peek
  have hvalue : ds.foldl (fun n c => toInt32 (r.base * n + r.value c)) 0 =
      toInt32 (r.valueOf ds) := foldl_toInt32 r 0 ds
  simp only [getNumberWith, hpeek, and_false, if_false, hlen, hloop, hpeek', hx0, hvalue,
    Bool.true_eq_false]

end Number

/-! ## Counted bytes -/

/-- In a body a byte is read and written, a zero as well. -/
theorem readAndWriteWithZero_fresh {c : UInt8} {v : List UInt8} {io : Io}
    (h : io.Shows (fresh (c :: v))) :
    ∃ io', readAndWriteWithZero io = (c, io') ∧ io.Leaves io' v [c] := by
  refine ⟨_, ?_, h.read (io.out ++ [c]) io.isBufferEmpty, rfl, rfl⟩
  simp only [readAndWriteWithZero, Buffer.canRead_cons h.cells, if_true, Buffer.isReserved_cons h.cells,
    Buffer.read_fst_cons h.cells, Bool.not_false]

/-- A quantity that is there is moved whole. -/
theorem writeToTransfBufWithZero_all {w v : List UInt8} {io : Io} (hflag : io.isBufferEmpty = false)
    (h : io.Shows (fresh (w ++ v))) :
    ∃ io', writeToTransfBufWithZero w.length io = (true, 0, io') ∧ io.Leaves io' v w := by
  suffices hloop : ∀ k, ∃ io',
      writeToTransfBufWithZeroLoop (w.length + k) w.length io = (0, io') ∧ io.Leaves io' v w by
    have hlen : io.b.bytes.length + 1 = w.length + (v.length + 1) := by
      rw [h.length, fresh, List.length_map, List.length_append]; omega
    obtain ⟨io', heq, hleaves⟩ := hloop (v.length + 1)
    refine ⟨io', ?_, hleaves⟩
    simp only [writeToTransfBufWithZero, hlen, heq, Int.le_refl, decide_true]
  intro k
  induction w generalizing io with
  | nil =>
    refine ⟨io, ?_, Io.Leaves.refl h⟩
    cases k <;> rfl
  | cons a w ih =>
    obtain ⟨io₁, hread, hleaves₁⟩ := readAndWriteWithZero_fresh h
    obtain ⟨io', heq, hleaves⟩ := ih (hleaves₁.flag.trans hflag) hleaves₁.shows_
    refine ⟨io', ?_, ?_⟩
    · rw [List.length_cons, show w.length + 1 + k = w.length + k + 1 by omega,
        writeToTransfBufWithZeroLoop, hread]
      have hpos : ((w.length + 1 : Nat) : Int) > 0 := by omega
      have hpred : ((w.length + 1 : Nat) : Int) - 1 = w.length := by omega
      simp only [hpos, if_true, hleaves₁.flag, hflag, Bool.false_eq_true, if_false, hpred, heq]
    · exact hleaves₁.trans hleaves

/-- Of a quantity that is not there, what is there is moved. -/
theorem writeToTransfBufWithZero_short {w : List UInt8} {n : Int} (hn : w.length < n) {io : Io}
    (hflag : io.isBufferEmpty = false) (h : io.Shows (fresh w)) :
    ∃ io', writeToTransfBufWithZero n io = (false, n - w.length, io') ∧
      io'.out = io.out ++ w ∧ io'.b.bytes = [] ∧ io'.isBufferEmpty = true := by
  suffices hloop : ∃ io', writeToTransfBufWithZeroLoop (w.length + 1) n io = (n - w.length, io') ∧
      io'.out = io.out ++ w ∧ io'.b.bytes = [] ∧ io'.isBufferEmpty = true by
    have hlen : io.b.bytes.length + 1 = w.length + 1 := by rw [h.length, fresh, List.length_map]
    obtain ⟨io', heq, hio⟩ := hloop
    refine ⟨io', ?_, hio⟩
    have hpos : ¬ (n - w.length ≤ 0) := by omega
    simp only [writeToTransfBufWithZero, hlen, heq, hpos, decide_false]
  induction w generalizing n io with
  | nil =>
    have hpos : n > 0 := by simpa using hn
    have hread : readAndWriteWithZero io = (0, { io with isBufferEmpty := true }) := by
      simp only [readAndWriteWithZero, Buffer.canRead_nil h.cells, Bool.false_eq_true, if_false]
    refine ⟨{ io with isBufferEmpty := true }, ?_, (List.append_nil _).symm,
      Buffer.cells_eq_nil.mp h.cells, rfl⟩
    simp only [List.length_nil, writeToTransfBufWithZeroLoop, hpos, if_true, hread,
      Int.natCast_zero, Int.sub_zero]
  | cons a w ih =>
    rw [List.length_cons] at hn
    obtain ⟨io₁, hread, hleaves₁⟩ := readAndWriteWithZero_fresh h
    obtain ⟨io', heq, hout, hbytes, hempty⟩ :=
      ih (n := n - 1) (by omega) (hleaves₁.flag.trans hflag) hleaves₁.shows_
    refine ⟨io', ?_, by rw [hout, hleaves₁.out, List.append_assoc, List.singleton_append], hbytes,
      hempty⟩
    have hpos : n > 0 := by omega
    rw [List.length_cons, writeToTransfBufWithZeroLoop, hread]
    simp only [hpos, if_true, hleaves₁.flag, hflag, Bool.false_eq_true, if_false, heq, Prod.mk.injEq,
      and_true]
    omega

end HttpProxy
