import HttpProxy.Library.Transducer
import HttpProxy.MyParserUtils

/-!
# What the parser utilities do, as moves of a machine

Each utility is the code of one phase of a byte-at-a-time machine over the cells of the input
buffer: matching a format is a state for every number of bytes matched, reading a number a state
for every value read so far. The lemmas here say, for any machine with such a phase, what a call
of the utility is: it ends with the machine moved on to the next phase (`Advance`), or it ran out
of input with the machine inside the phase and the bytes that lead there pushed back (`Waits`).

A zero byte in the input is what none of the utilities can tell from the end of it; each lemma
has a last case that says the machine met one.
-/

namespace HttpProxy

/-! ## The state of a call -/

/-- The buffer is well formed and its readable cells are `l`. -/
structure Io.Shows (io : Io) (l : List Cell) : Prop where
  wf : io.b.Wf
  cells : io.b.cells = l

/-- A buffer with the same zones, whose write pointer is no higher. -/
structure Buffer.Keeps (b b' : Buffer) : Prop where
  infLimit : b'.infLimit = b.infLimit
  limit : b'.limit = b.limit
  write : b'.write ≤ b.write

theorem Buffer.Keeps.refl (b : Buffer) : b.Keeps b := ⟨rfl, rfl, Nat.le_refl _⟩

theorem Buffer.Keeps.trans {b b' b'' : Buffer} (h : b.Keeps b') (h' : b'.Keeps b'') :
    b.Keeps b'' :=
  ⟨h'.infLimit.trans h.infLimit, h'.limit.trans h.limit, Nat.le_trans h'.write h.write⟩

/-- Reading moves neither `write` nor the zones. -/
theorem Buffer.keeps_read {b : Buffer} (h : b.Wf) : b.Keeps (bufferRead b).2 :=
  ⟨Buffer.infLimit_read b, Buffer.limit_read b, Buffer.write_read_le h⟩

/-- Pushing back into a buffer that was read empty moves neither `write` nor the zones. -/
theorem Buffer.keeps_pushBack {b : Buffer} (hw : b.Wf) (h : b.cells = []) (p : List UInt8) :
    b.Keeps (b.pushBack p) :=
  ⟨infLimit_pushBack b p, limit_pushBack b p, Nat.le_of_eq (write_pushBack hw h p)⟩

/-- The bytes written when a cell is read: none when it was pushed back, since it was written
when it was first read. -/
def echoed (echo : Bool) (x : Cell) : List UInt8 := if echo && !x.2 then [x.1] else []

@[simp] theorem echoed_false (x : Cell) : echoed false x = [] := rfl

@[simp] theorem echoed_fresh (c : UInt8) : echoed true (c, false) = [c] := rfl

/-- A byte that was pushed back is not written a second time. -/
@[simp] theorem echoed_pushedBack (echo : Bool) (c : UInt8) : echoed echo (c, true) = [] := by
  cases echo <;> rfl

/-- A byte that is there is read, and written when it is fresh. -/
theorem readAndWrite_cons {io : Io} {x : Cell} {l : List Cell} (h : io.Shows (x :: l))
    (hx : x.1 ≠ 0) :
    readAndWrite io =
      (x.1, { io with b := (bufferRead io.b).2, out := io.out ++ echoed true x }) := by
  simp only [readAndWrite, Buffer.read_fst_cons h.cells, Buffer.isReserved_cons h.cells, echoed,
    Bool.true_and, bne_iff_ne.mpr hx, Bool.and_true]
  cases x.2 <;> simp

/-- Out of input a zero is returned and nothing is read. -/
theorem readAndWrite_nil {io : Io} (h : io.Shows []) : readAndWrite io = (0, io) := by
  simp [readAndWrite, Buffer.read_nil h.cells]

/-- A byte that is there is read, and with `echo` written when it is fresh. -/
theorem readByte_cons (echo : Bool) {io : Io} {x : Cell} {l : List Cell} (h : io.Shows (x :: l))
    (hx : x.1 ≠ 0) :
    readByte echo io =
      { io with b := (bufferRead io.b).2, out := io.out ++ echoed echo x } := by
  cases echo with
  | false => simp only [readByte, Bool.false_eq_true, if_false, echoed_false, List.append_nil]
  | true => simp only [readByte, if_true, readAndWrite_cons h hx]

/-- Whatever is written, the buffer after a read shows what was behind the first cell. -/
theorem Io.Shows.read {io : Io} {x : Cell} {l : List Cell} (h : io.Shows (x :: l))
    (out : List UInt8) (e : Bool) :
    ({ b := (bufferRead io.b).2, out := out, isBufferEmpty := e } : Io).Shows l :=
  ⟨Buffer.wf_read h.wf h.cells, Buffer.cells_read h.cells⟩

/-- The byte that is seen is that of the first cell. -/
theorem Io.Shows.peek {io : Io} {x : Cell} {l : List Cell} (h : io.Shows (x :: l)) :
    bufferPeek io.b = x.1 := Buffer.peek_cons h.cells

/-- Out of input a zero is seen. -/
theorem Io.Shows.peek_nil {io : Io} (h : io.Shows []) : bufferPeek io.b = 0 :=
  Buffer.peek_nil h.cells

theorem Io.Shows.length {io : Io} {l : List Cell} (h : io.Shows l) :
    io.b.bytes.length = l.length := by rw [← h.cells, Buffer.length_cells]

/-- What is pushed back into a buffer that was read empty is all there is to read. -/
theorem Io.Shows.pushBack {io : Io} (h : io.Shows []) (p : List UInt8) (out : List UInt8)
    (e : Bool) :
    ({ b := io.b.pushBack p, out := out, isBufferEmpty := e } : Io).Shows
      (pushedBack (Buffer.clip io.b.infLimit p)) :=
  ⟨Buffer.wf_pushBack h.wf h.cells p, Buffer.cells_pushBack h.wf h.cells p⟩

/-! ## Moves -/

section Moves

variable {σ β : Type*} (M : Transducer σ Cell β) (ι : UInt8 → β)

/-- From `io` showing `l` to `io'` showing `l'`, a call did what the machine does from `q` to `q'`:
what the call wrote, under `ι`, is what the machine emits. -/
structure Advance (q : σ) (io : Io) (l : List Cell) (q' : σ) (io' : Io) (l' : List Cell) : Prop where
  shows_ : io'.Shows l'
  keeps : io.b.Keeps io'.b
  emits : ∃ e, io'.out = io.out ++ e ∧ M.Yields q l (e.map ι) q' l'

/-- The call read all of `l`, which takes the machine from `q` to `q'`, set the flag and pushed back
`p`. -/
structure Waits (q : σ) (io : Io) (l : List Cell) (q' : σ) (io' : Io) (p : List UInt8) : Prop where
  shows_ : io'.Shows (pushedBack (Buffer.clip io.b.infLimit p))
  keeps : io.b.Keeps io'.b
  isBufferEmpty : io'.isBufferEmpty = true
  emits : ∃ e, io'.out = io.out ++ e ∧ M.Yields q l (e.map ι) q' []

/-- The machine meets a zero byte in state `q'`. -/
def MeetsNul (q : σ) (l : List Cell) (q' : σ) : Prop :=
  ∃ e x l', x.1 = 0 ∧ M.Yields q l e q' (x :: l')

variable {M ι}

/-- A zero byte is met only where there is one. -/
theorem MeetsNul.ne_zero {q q' : σ} {l : List Cell} (h : MeetsNul M q l q') :
    ¬ ∀ x ∈ l, x.1 ≠ 0 := by
  obtain ⟨e, x, l', hx, hy⟩ := h
  exact fun hl => hl x (hy.suffix.subset List.mem_cons_self) hx

theorem Advance.refl {q : σ} {io : Io} {l : List Cell} (h : io.Shows l) :
    Advance M ι q io l q io l :=
  ⟨h, Buffer.Keeps.refl _, [], (List.append_nil _).symm, Transducer.Yields.refl q l⟩

/-- Two parts of a run that read one after the other are one. -/
theorem Advance.trans {q q' q'' : σ} {io io' io'' : Io} {l l' l'' : List Cell}
    (h : Advance M ι q io l q' io' l') (h' : Advance M ι q' io' l' q'' io'' l'') :
    Advance M ι q io l q'' io'' l'' := by
  obtain ⟨e, he, hy⟩ := h.emits
  obtain ⟨e', he', hy'⟩ := h'.emits
  refine ⟨h'.shows_, h.keeps.trans h'.keeps, e ++ e', ?_, ?_⟩
  · rw [he', he, List.append_assoc]
  · rw [List.map_append]; exact hy.trans hy'

/-- A run that reads, and then waits, waits. -/
theorem Advance.waits {q q' q'' : σ} {io io' io'' : Io} {l l' : List Cell} {p : List UInt8}
    (h : Advance M ι q io l q' io' l') (h' : Waits M ι q' io' l' q'' io'' p) :
    Waits M ι q io l q'' io'' p := by
  obtain ⟨e, he, hy⟩ := h.emits
  obtain ⟨e', he', hy'⟩ := h'.emits
  refine ⟨h.keeps.infLimit ▸ h'.shows_, h.keeps.trans h'.keeps, h'.isBufferEmpty, e ++ e', ?_, ?_⟩
  · rw [he', he, List.append_assoc]
  · rw [List.map_append]; exact hy.trans hy'

/-- A run that reads, and then meets a zero byte, meets it. -/
theorem Advance.meetsNul {q q' q'' : σ} {io io' : Io} {l l' : List Cell}
    (h : Advance M ι q io l q' io' l') (h' : MeetsNul M q' l' q'') : MeetsNul M q l q'' := by
  obtain ⟨e, he, hy⟩ := h.emits
  obtain ⟨e', x, l'', hx, hy'⟩ := h'
  exact ⟨_, x, l'', hx, hy.trans hy'⟩

/-- What is left to read is behind what was read. -/
theorem Advance.suffix {q q' : σ} {io io' : Io} {l l' : List Cell}
    (h : Advance M ι q io l q' io' l') : l' <:+ l := by
  obtain ⟨_, _, hy⟩ := h.emits
  exact hy.suffix

/-- Reading one cell. -/
theorem Advance.read (echo : Bool) {q q' : σ} {io : Io} {x : Cell} {l : List Cell}
    (h : io.Shows (x :: l)) (hx : x.1 ≠ 0)
    (hs : M.step q x = (q', (echoed echo x).map ι)) :
    Advance M ι q io (x :: l) q' (readByte echo io) l := by
  rw [readByte_cons echo h hx]
  exact ⟨h.read _ _, Buffer.keeps_read h.wf, _, rfl, Transducer.Yields.step l hs⟩

/-- Peeking at a cell that two states treat alike. -/
theorem Advance.handOver {q q' : σ} {io : Io} {x : Cell} {l : List Cell}
    (h : io.Shows (x :: l)) (hs : M.step q x = M.step q' x) :
    Advance M ι q io (x :: l) q' io (x :: l) :=
  ⟨h, Buffer.Keeps.refl _, [], (List.append_nil _).symm,
    Transducer.Yields.handOver l (by rw [hs]; rfl)⟩

/-- Peeking at a cell after which one state writes `w` before doing as the other. -/
theorem Advance.insert {q q' : σ} {io : Io} {x : Cell} {l : List Cell} (w : List UInt8)
    (h : io.Shows (x :: l))
    (hs : M.step q x = ((M.step q' x).1, w.map ι ++ (M.step q' x).2)) :
    Advance M ι q io (x :: l) q' (writeToBuf w io) (x :: l) :=
  ⟨⟨h.wf, h.cells⟩, Buffer.Keeps.refl _, w, rfl, Transducer.Yields.handOver l hs⟩

/-- Running out of input in the state one is in. -/
theorem Waits.here {q : σ} {io : Io} (h : io.Shows []) (p : List UInt8) :
    Waits M ι q io [] q { io with b := io.b.pushBack p, isBufferEmpty := true } p :=
  ⟨h.pushBack p _ _, Buffer.keeps_pushBack h.wf h.cells p, rfl, [], (List.append_nil _).symm,
    Transducer.Yields.refl q []⟩

/-- A caller that pushes back more in front of what the callee did. -/
theorem Waits.prepend {q q' : σ} {io io' : Io} {l : List Cell} {p : List UInt8}
    (h : Waits M ι q io l q' io' p) (pre : List UInt8) :
    Waits M ι q io l q' { io' with b := io'.b.pushBack pre } (pre ++ p) := by
  obtain ⟨hcells, hwf, hwrite⟩ :=
    Buffer.cells_pushBack_pushBack h.shows_.wf h.keeps.infLimit h.shows_.cells pre
  exact ⟨⟨hwf, hcells⟩, ⟨(Buffer.infLimit_pushBack _ _).trans h.keeps.infLimit,
    (Buffer.limit_pushBack _ _).trans h.keeps.limit, hwrite ▸ h.keeps.write⟩,
    h.isBufferEmpty, h.emits⟩

end Moves

/-! ## Skipping blanks -/

section Phases

variable {σ β : Type*} {M : Transducer σ Cell β} {ι : UInt8 → β}

/-- `moveThroughSpaces` peeks at the first byte that is no blank, or at the end of the input. -/
theorem moveThroughSpaces_spec {q : σ}
    (hstep : ∀ x, isBlank x.1 = true → M.step q x = (q, []))
    {io : Io} {l : List Cell} (h : io.Shows l) :
    ∃ b' l', moveThroughSpaces io.b = (l'.head?.elim 0 Prod.fst, b') ∧
      Advance M ι q io l q { io with b := b' } l' ∧ ∀ x ∈ l'.head?, isBlank x.1 = false := by
  unfold moveThroughSpaces
  rw [h.length]
  induction l generalizing io with
  | nil =>
    refine ⟨io.b, [], ?_, Advance.refl h, by simp only [List.head?_nil, Option.not_mem_none,
      false_implies, implies_true]⟩
    simp only [List.length_nil, moveThroughSpacesLoop, h.peek_nil, List.head?_nil, Option.elim_none]
  | cons x l ih =>
    by_cases hb : isBlank x.1 = true
    · obtain ⟨b', l', hl, hadv, hhead⟩ := ih (h.read io.out io.isBufferEmpty)
      refine ⟨b', l', ?_, ?_, hhead⟩
      · simp only [List.length_cons, moveThroughSpacesLoop, h.peek, hb, if_true]
        exact hl
      · have hread : Advance M ι q io (x :: l) q { io with b := (bufferRead io.b).2 } l :=
          ⟨h.read _ _, Buffer.keeps_read h.wf, [], (List.append_nil _).symm,
            Transducer.Yields.step l (hstep x hb)⟩
        exact hread.trans hadv
    · refine ⟨io.b, x :: l, ?_, Advance.refl h, ?_⟩
      · simp only [List.length_cons, moveThroughSpacesLoop, h.peek, hb, if_false, List.head?_cons,
          Option.elim_some, Bool.false_eq_true]
      · intro y hy
        obtain rfl : x = y := Option.some.inj hy
        simpa only [Bool.not_eq_true] using hb

/-! ## Matching a format -/

/-- The step of a machine matching `format`, `i` bytes into it. -/
def stepMatch (format : List UInt8) (i : Nat) (inside : Nat → σ) (done : σ)
    (miss : Cell → σ × List β) (emit : Cell → List β) (x : Cell) : σ × List β :=
  if toupper x.1 = toupper (format.getD i 0) then
    (if i + 1 = format.length then done else inside (i + 1), emit x)
  else miss x

/-- What a call of `matchFormat` is to a machine with a state `inside i` for every `i` bytes
matched, `done` after the last and `miss` for a byte that does not match. -/
inductive MatchMove (M : Transducer σ Cell β) (ι : UInt8 → β) (format pre : List UInt8)
    (inside : Nat → σ) (done miss : σ) (q : σ) (io : Io) (l : List Cell) : Bool × Io → Prop
  | full {io' : Io} {l' : List Cell} (empty : io'.isBufferEmpty = io.isBufferEmpty)
      (adv : Advance M ι q io l done io' l') : MatchMove M ι format pre inside done miss q io l (true, io')
  | miss {io' : Io} {l' : List Cell} (empty : io'.isBufferEmpty = io.isBufferEmpty) (more : l' ≠ [])
      (adv : Advance M ι q io l miss io' l') : MatchMove M ι format pre inside done miss q io l (false, io')
  | short {io' : Io} {i : Nat} (lt : i < format.length)
      (waits : Waits M ι q io l (inside i) io' (pre ++ format.take i)) :
      MatchMove M ι format pre inside done miss q io l (false, io')
  | nul {r : Bool × Io} {i : Nat} (lt : i < format.length) (meets : MeetsNul M q l (inside i)) :
      MatchMove M ι format pre inside done miss q io l r

/-- What was read in front belongs to the move. -/
theorem MatchMove.prepend {format pre : List UInt8} {inside : Nat → σ} {done miss : σ} {q q' : σ}
    {io io' : Io} {l l' : List Cell} {r : Bool × Io} (h : Advance M ι q io l q' io' l')
    (he : io'.isBufferEmpty = io.isBufferEmpty)
    (m : MatchMove M ι format pre inside done miss q' io' l' r) :
    MatchMove M ι format pre inside done miss q io l r := by
  cases m with
  | full empty adv => exact .full (empty.trans he) (h.trans adv)
  | miss empty more adv => exact .miss (empty.trans he) more (h.trans adv)
  | short lt waits => exact .short lt (h.waits waits)
  | nul lt meets => exact .nul lt (h.meetsNul meets)

/-- The value `matchFormatWith` makes of what its loop ends with. -/
def matchFormatEnd (format pre : List UInt8) (r : List UInt8 × Nat × UInt8 × Io) : Bool × Io :=
  if r.1 ≠ [] ∧ r.2.2.1 = 0 then
    (false,
      { r.2.2.2 with
        b := writePrefix (writeToBufReverse format r.2.2.2.b r.2.1) pre
        isBufferEmpty := true })
  else (r.1.isEmpty, r.2.2.2)

/-- What `writePrefix` pushes back stands in front of what was pushed back before. -/
theorem writePrefix_eq (b : Buffer) (pre p : List UInt8) :
    writePrefix (b.pushBack p) pre = b.pushBack (pre ++ p) := by
  rw [writePrefix, writeToBufReverse, List.take_length, Buffer.pushBack_append]

/-- Where a list still goes on it goes on with the next element. -/
theorem drop_eq_cons {α : Type*} {l rest : List α} {i : Nat} {a : α} (h : l.drop i = a :: rest) :
    i < l.length ∧ l[i]? = some a ∧ l.drop (i + 1) = rest := by
  have hlen := congrArg List.length h
  simp only [List.length_drop, List.length_cons] at hlen
  refine ⟨by omega, ?_, ?_⟩
  · have := congrArg (·[0]?) h
    simpa only [List.getElem?_drop, Nat.add_zero, List.getElem?_cons_zero] using this
  · rw [← List.drop_drop, h, List.drop_one, List.tail_cons]

/-- `matchFormat` is a run through the states inside the format, to its end, to a byte that differs,
or to the end of the input, where it pushes back what it read. -/
theorem matchFormat_move {echo : Bool} {format : List UInt8} (pre : List UInt8)
    {inside : Nat → σ} {done miss : σ} (hne : format ≠ []) (hnz : 0 ∉ format)
    (hstep : ∀ i < format.length, ∀ x : Cell, x.1 ≠ 0 → M.step (inside i) x =
      stepMatch format i inside done (M.step miss) (fun x => (echoed echo x).map ι) x)
    {io : Io} {l : List Cell} (h : io.Shows l) :
    MatchMove M ι format pre inside done miss (inside 0) io l (matchFormatWith echo format pre io) := by
  -- The loop has matched the first `i` bytes, and the rest of the format is not empty.
  suffices loop : ∀ (rest : List UInt8) (i : Nat) (c : UInt8) (io : Io) (l : List Cell),
      rest ≠ [] → format.drop i = rest → io.Shows l →
      MatchMove M ι format pre inside done miss (inside i) io l
        (matchFormatEnd format pre (matchFormatLoop echo rest i c io)) from
    loop format 0 0 io l hne List.drop_zero h
  intro rest
  induction rest with
  | nil => intro _ _ _ _ hn; exact absurd rfl hn
  | cons f rest ih =>
    intro i c io l _ hdrop h
    obtain ⟨hlt, hget, hdrop'⟩ := drop_eq_cons hdrop
    have hf : format.getD i 0 = f := by rw [List.getD_eq_getElem?_getD, hget, Option.getD_some]
    have hf0 : f ≠ 0 := fun h0 => hnz (h0 ▸ List.mem_of_getElem? hget)
    cases l with
    | nil =>
      have hp : peekUpChar io.b = 0 := by rw [peekUpChar, h.peek_nil, toupper_zero]
      have hc : (0 : UInt8) ≠ toupper f := fun hc => hf0 (toupper_eq_zero.mp hc.symm)
      simp only [matchFormatLoop, hp, ne_eq, hc, not_false_eq_true, if_true, matchFormatEnd,
        reduceCtorEq, and_self]
      rw [writeToBufReverse, writePrefix_eq]
      exact .short hlt (Waits.here h _)
    | cons x l =>
      by_cases hx : x.1 = 0
      · exact .nul hlt ⟨[], x, l, hx, Transducer.Yields.refl _ _⟩
      have hs := hstep i hlt x hx
      rw [stepMatch, hf] at hs
      have hp : peekUpChar io.b = toupper x.1 := by rw [peekUpChar, h.peek]
      by_cases hc : toupper x.1 = toupper f
      · rw [if_pos hc] at hs
        have hadv := Advance.read echo h hx hs
        have he : (readByte echo io).isBufferEmpty = io.isBufferEmpty := by
          rw [readByte_cons echo h hx]
        have hloop : matchFormatLoop echo (f :: rest) i c io =
            matchFormatLoop echo rest (i + 1) (toupper x.1) (readByte echo io) := by
          simp only [matchFormatLoop, hp, ne_eq, hc, not_true, if_false]
        rw [hloop]
        by_cases hlast : rest = []
        · subst hlast
          have hlen : i + 1 = format.length := by
            have := congrArg List.length hdrop
            simp only [List.length_drop, List.length_cons, List.length_nil] at this; omega
          rw [if_pos hlen] at hadv
          simp only [matchFormatLoop, matchFormatEnd, ne_eq, not_true, false_and, if_false,
            List.isEmpty_nil]
          exact .full he hadv
        · have hlen : i + 1 ≠ format.length := fun hlen => by
            rw [hlen, List.drop_length] at hdrop'; exact hlast hdrop'.symm
          rw [if_neg hlen] at hadv
          exact MatchMove.prepend hadv he (ih (i + 1) _ _ l hlast hdrop' hadv.shows_)
      · rw [if_neg hc] at hs
        have hx' : toupper x.1 ≠ 0 := fun h0 => hx (toupper_eq_zero.mp h0)
        simp only [matchFormatLoop, hp, ne_eq, hc, not_false_eq_true, if_true, matchFormatEnd, hx',
          and_false, if_false, List.isEmpty_cons]
        exact .miss rfl (List.cons_ne_nil _ _) (Advance.handOver h hs)

/-! ## Reading a number -/

/-- The step of a machine reading a number of radix `r`, `n` being the value of the digits read so
far, `none` when there are none. -/
def stepNumber (r : Radix) (n : Option Int) (inside : Option Int → σ) (done : Int → Cell → σ × List β)
    (miss : Cell → σ × List β) (emit : Cell → List β) (x : Cell) : σ × List β :=
  if r.isDigit x.1 then (inside (some (toInt32 (r.base * n.getD 0 + r.value x.1))), emit x)
  else match n with
    | none => miss x
    | some v => done v x

/-- What a call of `getNumber` is to a machine with a state `inside n` for every value `n` read so
far, `done v` for the number read and `miss` for a byte that is no digit. -/
inductive NumberMove (M : Transducer σ Cell β) (ι : UInt8 → β) (r : Radix) (pre : List UInt8)
    (inside : Option Int → σ) (done : Int → σ) (miss : σ) (q : σ) (io : Io) (l : List Cell) :
    Option Int × Io → Prop
  | number {v : Int} {io' : Io} {l' : List Cell} (empty : io'.isBufferEmpty = io.isBufferEmpty)
      (more : l' ≠ []) (adv : Advance M ι q io l (done v) io' l') :
      NumberMove M ι r pre inside done miss q io l (some v, io')
  | refused {io' : Io} {l' : List Cell} (empty : io'.isBufferEmpty = io.isBufferEmpty)
      (more : l' ≠ []) (adv : Advance M ι q io l miss io' l') :
      NumberMove M ι r pre inside done miss q io l (none, io')
  | short {io' : Io} {n : Option Int}
      (waits : Waits M ι q io l (inside n) io' (pre ++ digitsOf r (n.getD 0))) :
      NumberMove M ι r pre inside done miss q io l (none, io')
  | nul {res : Option Int × Io} {n : Option Int} (meets : MeetsNul M q l (inside n)) :
      NumberMove M ι r pre inside done miss q io l res

/-- What was read in front belongs to the move. -/
theorem NumberMove.prepend {r : Radix} {pre : List UInt8} {inside : Option Int → σ}
    {done : Int → σ} {miss : σ} {q q' : σ} {io io' : Io} {l l' : List Cell} {res : Option Int × Io}
    (h : Advance M ι q io l q' io' l') (he : io'.isBufferEmpty = io.isBufferEmpty)
    (m : NumberMove M ι r pre inside done miss q' io' l' res) :
    NumberMove M ι r pre inside done miss q io l res := by
  cases m with
  | number empty more adv => exact .number (empty.trans he) more (h.trans adv)
  | refused empty more adv => exact .refused (empty.trans he) more (h.trans adv)
  | short waits => exact .short (h.waits waits)
  | nul meets => exact .nul (h.meetsNul meets)

/-- The value `getNumberWith` makes of what its loop ends with. -/
def getNumberEnd (r : Radix) (pre : List UInt8) (res : Int × Io) : Option Int × Io :=
  if bufferPeek res.2.b = 0 then
    (none,
      { res.2 with
        b := writePrefix (res.2.b.pushBack (digitsOf r res.1)) pre
        isBufferEmpty := true })
  else (some res.1, res.2)

/-- `getNumber` is a run through the states inside a number, to a byte that is no digit or to the end
of the input, where it pushes back the digits of the number. -/
theorem getNumber_move {r : Radix} (echo : Bool) (pre : List UInt8)
    (inside : Option Int → σ) (done : Int → σ) (miss : σ)
    (hstep : ∀ n, ∀ x : Cell, x.1 ≠ 0 → M.step (inside n) x =
      stepNumber r n inside (fun v => M.step (done v)) (M.step miss)
        (fun x => (echoed echo x).map ι) x)
    {io : Io} {l : List Cell} (h : io.Shows l) :
    NumberMove M ι r pre inside done miss (inside none) io l (getNumberWith r echo pre io) := by
  -- The loop has read the digits of `n`; before the first one the next byte is a digit or none.
  suffices loop : ∀ (l : List Cell) (n : Option Int) (io : Io), io.Shows l →
      (n = none → ∀ x ∈ l.head?, r.isDigit x.1 = true ∨ x.1 = 0) →
      NumberMove M ι r pre inside done miss (inside n) io l
        (getNumberEnd r pre (numberLoop r echo l.length (n.getD 0) io)) by
    cases l with
    | nil =>
      have hget : getNumberWith r echo pre io =
          getNumberEnd r pre (numberLoop r echo ([] : List Cell).length 0 io) := by
        simp only [getNumberWith, h.peek_nil, ne_eq, not_true, false_and, if_false, h.length]
        rfl
      rw [hget]
      exact loop [] none io h (fun _ x hx => by simp at hx)
    | cons x l =>
      by_cases hx : x.1 ≠ 0 ∧ r.isDigit x.1 = false
      · have hget : getNumberWith r echo pre io = (none, io) := by
          simp only [getNumberWith, h.peek, hx, and_self, if_true, ne_eq, not_false_eq_true]
        rw [hget]
        refine .refused rfl (List.cons_ne_nil x l) (Advance.handOver h ?_)
        rw [hstep none x hx.1, stepNumber, hx.2]
        rfl
      · have hget : getNumberWith r echo pre io =
            getNumberEnd r pre (numberLoop r echo (x :: l).length 0 io) := by
          simp only [getNumberWith, h.peek, hx, if_false, h.length]
          rfl
        rw [hget]
        refine loop (x :: l) none io h (fun _ y hy => ?_)
        obtain rfl : x = y := Option.some.inj hy
        by_cases h0 : x.1 = 0
        · exact .inr h0
        · exact .inl (by simpa only [h0, ne_eq, not_false_eq_true, true_and, Bool.not_eq_false] using hx)
  intro l
  induction l with
  | nil =>
    intro n io h _
    simp only [List.length_nil, numberLoop, getNumberEnd, h.peek_nil, if_true, writePrefix_eq]
    exact .short (Waits.here h _)
  | cons x l ih =>
    intro n io h hhead
    by_cases hx : x.1 = 0
    · exact .nul ⟨[], x, l, hx, Transducer.Yields.refl _ _⟩
    have hs := hstep n x hx
    unfold stepNumber at hs
    by_cases hd : r.isDigit x.1 = true
    · rw [if_pos hd] at hs
      have hadv := Advance.read echo h hx hs
      have he : (readByte echo io).isBufferEmpty = io.isBufferEmpty := by rw [readByte_cons echo h hx]
      have hloop : numberLoop r echo (x :: l).length (n.getD 0) io =
          numberLoop r echo l.length (toInt32 (r.base * n.getD 0 + r.value x.1))
            (readByte echo io) := by
        simp only [List.length_cons, numberLoop, h.peek, hd, if_true]
      rw [hloop]
      exact NumberMove.prepend hadv he (ih (some _) _ hadv.shows_ (by simp))
    · have hloop : numberLoop r echo (x :: l).length (n.getD 0) io = (n.getD 0, io) := by
        simp only [List.length_cons, numberLoop, h.peek, hd, if_false, Bool.false_eq_true]
      rw [hloop, getNumberEnd]
      simp only [h.peek, hx, if_false]
      cases n with
      | none =>
        rcases hhead rfl x rfl with hd' | hx'
        · exact absurd hd' hd
        · exact absurd hx' hx
      | some v =>
        rw [if_neg hd] at hs
        exact .number rfl (List.cons_ne_nil x l) (Advance.handOver h hs)

end Phases

/-! ## What is pushed back reads back -/

/-- A radix in which the character of a digit reads back as the digit. -/
structure Radix.Lawful (r : Radix) : Prop where
  two_le : 2 ≤ r.base
  isDigit_char : ∀ d < r.base, r.isDigit (r.char d) = true
  value_char : ∀ d < r.base, r.value (r.char d) = d
  char_zero : r.char 0 = 0x30
  value_nonneg : ∀ c, r.isDigit c = true → 0 ≤ r.value c

/-- The digits are the bytes from 48 to 57. -/
theorem isdigit_iff {c : UInt8} : isdigit c = true ↔ 48 ≤ c.toNat ∧ c.toNat ≤ 57 := by
  simp only [isdigit, Bool.and_eq_true, decide_eq_true_eq, UInt8.le_iff_toNat_le]
  exact Iff.rfl

/-- The characters of the decimal digits stand for their values. -/
theorem Radix.dec_lawful : Radix.dec.Lawful where
  two_le := by decide
  isDigit_char := by decide
  value_char := by decide
  char_zero := rfl
  value_nonneg c h := by
    have hc := isdigit_iff.mp h
    change 0 ≤ (c.toNat : Int) - 48
    omega

/-- The characters of the hexadecimal digits, in small letters, stand for their values. -/
theorem Radix.hex_lawful : Radix.hex.Lawful where
  two_le := by decide
  isDigit_char := by decide
  value_char := by decide
  char_zero := rfl
  value_nonneg c h := by
    change 0 ≤ hexCharToDec c
    unfold hexCharToDec
    split
    · next hd =>
      have hc := isdigit_iff.mp hd
      change 0 ≤ (c.toNat : Int) - 48
      omega
    · next hd =>
      -- A letter, whose capital is no less than `A`.
      have hup : 0x41 ≤ toupper c := by
        have hx : isxdigit c = true := h
        unfold isxdigit at hx
        unfold toupper
        grind
      have hle : 65 ≤ (toupper c).toNat := UInt8.le_iff_toNat_le.mp hup
      change 0 ≤ ((toupper c).toNat : Int) - 65 + 10
      omega

/-- The value the loop of `getNumber` has read after the digits `ds`. -/
def numberValue (r : Radix) (n : Option Int) (ds : List UInt8) : Option Int :=
  ds.foldl (fun n c => some (toInt32 (r.base * n.getD 0 + r.value c))) n

/-- Digits read one after the other are read at once. -/
theorem numberValue_append (r : Radix) (n : Option Int) (ds es : List UInt8) :
    numberValue r n (ds ++ es) = numberValue r (numberValue r n ds) es := List.foldl_append

variable {r : Radix}

/-- The number that digits `ds` behind a number `n` denote. -/
def Radix.valueFrom (r : Radix) (n : Int) (ds : List UInt8) : Int :=
  ds.foldl (fun n c => r.base * n + r.value c) n

/-- The number that digits denote. -/
def Radix.valueOf (r : Radix) (ds : List UInt8) : Int := r.valueFrom 0 ds

/-- More digits make no smaller number. -/
theorem Radix.Lawful.le_valueFrom (hr : r.Lawful) {n : Int} {ds : List UInt8} (hn : 0 ≤ n)
    (hds : ∀ c ∈ ds, r.isDigit c = true) : n ≤ r.valueFrom n ds := by
  induction ds generalizing n with
  | nil => exact Int.le_refl n
  | cons c ds ih =>
    have hc := hr.value_nonneg c (hds c List.mem_cons_self)
    have hmul : 1 * n ≤ r.base * n :=
      Int.mul_le_mul_of_nonneg_right (by have := hr.two_le; omega) hn
    rw [Int.one_mul] at hmul
    have hrest := ih (n := r.base * n + r.value c) (by omega)
      fun d hd => hds d (List.mem_cons_of_mem _ hd)
    exact Int.le_trans (by omega) hrest

/-- A number within an `int` is read as it is. -/
theorem numberValue_some (hr : r.Lawful) {n : Int} {ds : List UInt8} (hn : 0 ≤ n)
    (hds : ∀ c ∈ ds, r.isDigit c = true) (hlt : r.valueFrom n ds < 2 ^ 31) :
    numberValue r (some n) ds = some (r.valueFrom n ds) := by
  induction ds generalizing n with
  | nil => rfl
  | cons c ds ih =>
    have hc := hr.value_nonneg c (hds c List.mem_cons_self)
    have hmul : 0 ≤ r.base * n := Int.mul_nonneg (Int.natCast_nonneg _) hn
    have hds' : ∀ d ∈ ds, r.isDigit d = true := fun d hd => hds d (List.mem_cons_of_mem _ hd)
    have hle := hr.le_valueFrom (n := r.base * n + r.value c) (by omega) hds'
    have hstep : toInt32 (r.base * n + r.value c) = r.base * n + r.value c :=
      toInt32_eq (by omega) (Int.lt_of_le_of_lt hle hlt)
    change numberValue r (some (toInt32 (r.base * n + r.value c))) ds = _
    rw [hstep]
    exact ih (by omega) hds' hlt

/-- Digits whose number an `int` holds are read as it. -/
theorem numberValue_of_lt (hr : r.Lawful) {ds : List UInt8} (hne : ds ≠ [])
    (hds : ∀ c ∈ ds, r.isDigit c = true) (hlt : r.valueOf ds < 2 ^ 31) :
    numberValue r none ds = some (r.valueOf ds) := by
  obtain ⟨c, ds, rfl⟩ := List.exists_cons_of_ne_nil hne
  exact numberValue_some hr (Int.le_refl 0) hds hlt

/-- What is pushed back of a number is digits. The induction is on the fuel, which is the number of
divisions. -/
theorem isDigit_of_mem_digitsLoop (hr : r.Lawful) {fuel n : Nat} {c : UInt8}
    (h : c ∈ digitsLoop r fuel n) : r.isDigit c = true := by
  induction fuel generalizing n with
  | zero => simp only [digitsLoop, List.not_mem_nil] at h
  | succ fuel ih =>
    unfold digitsLoop at h
    split at h
    · rcases List.mem_append.mp h with h | h
      · exact ih h
      · rw [List.mem_singleton] at h
        exact h ▸ hr.isDigit_char _ (Nat.mod_lt _ (by have := hr.two_le; omega))
    · exact absurd h List.not_mem_nil

/-- What is pushed back of a number is digits. -/
theorem isDigit_of_mem_digitsOf (hr : r.Lawful) {n : Int} {c : UInt8} (h : c ∈ digitsOf r n) :
    r.isDigit c = true := by
  unfold digitsOf at h
  split at h
  · rw [List.mem_singleton] at h
    rw [h, ← hr.char_zero]
    exact hr.isDigit_char 0 (by have := hr.two_le; omega)
  · exact isDigit_of_mem_digitsLoop hr h

/-- The digits that are pushed back are read again as the number they were made from. -/
theorem numberValue_digitsLoop (hr : r.Lawful) {fuel n : Nat} (hf : n ≤ fuel) (hn : n < 2 ^ 31) :
    (numberValue r none (digitsLoop r fuel n)).getD 0 = n ∧
      (0 < n → numberValue r none (digitsLoop r fuel n) = some (n : Int)) := by
  induction fuel generalizing n with
  | zero =>
    obtain rfl : n = 0 := Nat.le_zero.mp hf
    exact ⟨rfl, fun h => absurd h (Nat.lt_irrefl 0)⟩
  | succ fuel ih =>
    have hb := hr.two_le
    by_cases h0 : n > 0
    · have hdiv : n / r.base < n := Nat.div_lt_self h0 hb
      have hprev := (ih (n := n / r.base) (by omega) (by omega)).1
      have hmod : r.base * (n / r.base) + n % r.base = n := Nat.div_add_mod n r.base
      have hval : numberValue r none (digitsLoop r (fuel + 1) n) = some (n : Int) := by
        rw [digitsLoop, if_pos h0, numberValue_append]
        simp only [numberValue, List.foldl_cons, List.foldl_nil] at hprev ⊢
        rw [hprev, hr.value_char _ (Nat.mod_lt _ (by omega)), ← Int.natCast_mul,
          ← Int.natCast_add, hmod, toInt32_eq (by omega) (by omega)]
      exact ⟨by rw [hval, Option.getD_some], fun _ => hval⟩
    · obtain rfl : n = 0 := by omega
      exact ⟨rfl, fun h => absurd h h0⟩

/-- The digits a number in range is pushed back as have that number as their value. -/
theorem numberValue_digitsOf (hr : r.Lawful) {n : Int} (h₀ : 0 ≤ n) (h₁ : n < 2 ^ 31) :
    numberValue r none (digitsOf r n) = some n := by
  unfold digitsOf
  split
  · next h =>
    have hv := hr.value_char 0 (by have := hr.two_le; omega)
    rw [hr.char_zero] at hv
    simp only [numberValue, List.foldl_cons, List.foldl_nil, Option.getD_none, hv, h]
    rw [Int.mul_zero]
    rfl
  · next h =>
    obtain ⟨k, rfl⟩ := Int.eq_ofNat_of_zero_le h₀
    have := (numberValue_digitsLoop hr (Nat.le_refl k) (by omega)).2 (by omega)
    simpa only [Int.toNat_natCast] using this

/-- A number below a power of the base has as many digits at most. -/
theorem length_digitsLoop_le {fuel n k : Nat} (h : n < r.base ^ k) :
    (digitsLoop r fuel n).length ≤ k := by
  induction fuel generalizing n k with
  | zero => exact Nat.zero_le k
  | succ fuel ih =>
    unfold digitsLoop
    split
    · next h0 =>
      cases k with
      | zero => simp only [Nat.pow_zero] at h; omega
      | succ k =>
        have hdiv : n / r.base < r.base ^ k := by
          rw [Nat.pow_succ] at h
          exact Nat.div_lt_of_lt_mul (by rwa [Nat.mul_comm] at h)
        rw [List.length_append, List.length_singleton]
        exact Nat.succ_le_succ (ih hdiv)
    · exact Nat.zero_le _

/-- A number in range is pushed back as at most ten decimal digits. -/
theorem length_digitsOf_dec {n : Int} (h : n < 2 ^ 31) : (digitsOf .dec n).length ≤ 10 := by
  unfold digitsOf
  split
  · decide
  · exact length_digitsLoop_le (k := 10) (show n.toNat < 10 ^ 10 by omega)

end HttpProxy
