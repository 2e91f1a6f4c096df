import HttpProxy.RequestRefinement

/-!
# Input behind a zero byte

The parser takes a zero byte for the end of the input. So a call does the same with the bytes in
front of the first one as with all of them, up to where it runs out of input: what it reads, writes
and decides agrees (`Io.Cut`), and when it runs out it fails on both. A request that is accepted is
accepted without what follows a zero byte.
-/

namespace HttpProxy

/-- `io'` has to read what `io` has in front of `z`. -/
structure Io.Cut (z : List Cell) (io io' : Io) : Prop where
  cut : ∃ l, io.Shows (l ++ z) ∧ io'.Shows l ∧ ∀ x ∈ l, x.1 ≠ 0
  out : io'.out = io.out
  flag : io'.isBufferEmpty = io.isBufferEmpty

/-- Two results of a utility: alike, or both those of one that ran out of input. -/
def Io.Alike {α : Type} (z : List Cell) (short : α) (r r' : α × Io) : Prop :=
  r'.1 = r.1 ∧ r.2.Cut z r'.2 ∨
    r.1 = short ∧ r'.1 = short ∧ r.2.isBufferEmpty = true ∧ r'.2.isBufferEmpty = true

section Utilities

variable {z : List Cell} {io io' : Io}

/-- Where nothing is left in front of `z`, the parser sees the end of the input on both. -/
theorem Io.Cut.shows_nil (hz : ∀ x ∈ z.head?, x.1 = 0) {l : List Cell} (h : io.Shows (l ++ z))
    (hl : l = []) : bufferPeek io.b = 0 := by
  subst hl
  cases z with
  | nil => exact h.peek_nil
  | cons x z => exact h.peek.trans (hz x rfl)

/-- Both show the same next byte. -/
theorem Io.Cut.peek (hz : ∀ x ∈ z.head?, x.1 = 0) (h : io.Cut z io') :
    bufferPeek io'.b = bufferPeek io.b := by
  obtain ⟨l, hshows, hshows', -⟩ := h.cut
  cases l with
  | nil => rw [shows_nil hz hshows rfl, hshows'.peek_nil]
  | cons x l => rw [hshows'.peek, Io.Shows.peek (l := l ++ z) hshows]

/-- A byte that is there is read from both. -/
theorem Io.Cut.read (hz : ∀ x ∈ z.head?, x.1 = 0) (h : io.Cut z io') (hc : bufferPeek io.b ≠ 0) :
    ∃ x : Cell, ∃ l, io.Shows (x :: (l ++ z)) ∧ io'.Shows (x :: l) ∧ x.1 ≠ 0 ∧ (∀ y ∈ l, y.1 ≠ 0) ∧
      x.1 = bufferPeek io.b := by
  obtain ⟨l, hshows, hshows', hl⟩ := h.cut
  cases l with
  | nil => exact absurd (shows_nil hz hshows rfl) hc
  | cons x l =>
    exact ⟨x, l, hshows, hshows', hl x List.mem_cons_self, fun y hy => hl y (List.mem_cons_of_mem x hy),
      (Io.Shows.peek (l := l ++ z) hshows).symm⟩

/-- Reading a byte that is there keeps the two alike. -/
theorem cut_readByte (hz : ∀ x ∈ z.head?, x.1 = 0) (echo : Bool) (h : io.Cut z io')
    (hc : bufferPeek io.b ≠ 0) : (readByte echo io).Cut z (readByte echo io') := by
  obtain ⟨x, l, hshows, hshows', hx, hl, -⟩ := h.read hz hc
  rw [readByte_cons echo hshows hx, readByte_cons echo hshows' hx]
  exact ⟨⟨l, hshows.read _ _, hshows'.read _ _, hl⟩, by rw [h.out], h.flag⟩

/-- Reading a byte that is there without writing it keeps the two alike. -/
theorem cut_bufferRead (hz : ∀ x ∈ z.head?, x.1 = 0) (h : io.Cut z io') (hc : bufferPeek io.b ≠ 0) :
    ({ io with b := (bufferRead io.b).2 } : Io).Cut z { io' with b := (bufferRead io'.b).2 } := by
  obtain ⟨x, l, hshows, hshows', hx, hl, -⟩ := h.read hz hc
  exact ⟨⟨l, hshows.read _ _, hshows'.read _ _, hl⟩, h.out, h.flag⟩

/-- What is read is the byte that was seen. -/
theorem readAndWrite_fst (io : Io) : (readAndWrite io).1 = bufferPeek io.b := by
  unfold readAndWrite bufferRead bufferCanRead bufferPeek
  cases io.b.bytes <;> rfl

/-- A byte is read from both, or there is none. -/
theorem alike_readAndWrite (hz : ∀ x ∈ z.head?, x.1 = 0) (h : io.Cut z io') :
    (readAndWrite io').1 = (readAndWrite io).1 ∧
      ((readAndWrite io).1 ≠ 0 → (readAndWrite io).2.Cut z (readAndWrite io').2) := by
  rw [readAndWrite_fst, readAndWrite_fst]
  exact ⟨h.peek hz, cut_readByte hz true h⟩

/-- Writing the same to both keeps them alike. -/
theorem Io.Cut.write (h : io.Cut z io') (w : List UInt8) : (writeToBuf w io).Cut z (writeToBuf w io') := by
  obtain ⟨l, hshows, hshows', hl⟩ := h.cut
  refine ⟨⟨l, ⟨hshows.wf, hshows.cells⟩, ⟨hshows'.wf, hshows'.cells⟩, hl⟩, ?_, h.flag⟩
  unfold writeToBuf
  rw [h.out]

/-- The blanks in front of a byte are skipped alike. -/
theorem alike_moveThroughSpaces (hz : ∀ x ∈ z.head?, x.1 = 0) (h : io.Cut z io') :
    (moveThroughSpaces io'.b).1 = (moveThroughSpaces io.b).1 ∧
      ({ io with b := (moveThroughSpaces io.b).2 } : Io).Cut z
        { io' with b := (moveThroughSpaces io'.b).2 } := by
  obtain ⟨l, hshows, hshows', hl⟩ := h.cut
  unfold moveThroughSpaces
  rw [hshows.length, hshows'.length, List.length_append, Nat.add_comm]
  generalize z.length = k
  -- What is left when the fuel of the shorter input is used up.
  induction l generalizing io io' with
  | nil =>
    have hp := h.peek hz
    have h0 : bufferPeek io.b = 0 := Io.Cut.shows_nil hz hshows rfl
    cases k with
    | zero => exact ⟨hp, ⟨⟨[], hshows, hshows', hl⟩, h.out, h.flag⟩⟩
    | succ k =>
      rw [List.length_nil, Nat.add_zero, moveThroughSpacesLoop, moveThroughSpacesLoop, h0]
      simp only [show isBlank 0 = false from rfl, Bool.false_eq_true, if_false]
      exact ⟨hp.trans h0, ⟨⟨[], hshows, hshows', hl⟩, h.out, h.flag⟩⟩
  | cons x l ih =>
    have hp := h.peek hz
    have hx : bufferPeek io.b = x.1 := Io.Shows.peek (l := l ++ z) hshows
    rw [List.length_cons, ← Nat.add_assoc, moveThroughSpacesLoop, moveThroughSpacesLoop, hp, hx]
    split
    · have hread := cut_bufferRead hz h (by rw [hx]; exact hl x List.mem_cons_self)
      exact ih hread (hshows.read _ _) (hshows'.read _ _) fun y hy => hl y (List.mem_cons_of_mem x hy)
    · exact ⟨rfl, h⟩

/-- A format is compared alike up to where it ends or differs. A zero never matches, for the format
has none. -/
theorem cut_matchFormatLoop (hz : ∀ x ∈ z.head?, x.1 = 0) (echo : Bool) {format : List UInt8}
    (hf : 0 ∉ format) (i : Nat) (c : UInt8) (h : io.Cut z io') :
    ∃ rest j d, ∃ io₁ io₁' : Io, matchFormatLoop echo format i c io = (rest, j, d, io₁) ∧
      matchFormatLoop echo format i c io' = (rest, j, d, io₁') ∧ io₁.Cut z io₁' := by
  induction format generalizing i c io io' with
  | nil => exact ⟨[], i, c, io, io', rfl, rfl, h⟩
  | cons f format ih =>
    obtain ⟨hf0, hf⟩ := not_or.mp (mt List.mem_cons.mpr hf)
    have hp : peekUpChar io'.b = peekUpChar io.b := congrArg toupper (h.peek hz)
    rw [matchFormatLoop, matchFormatLoop, hp]
    split
    · exact ⟨_, _, _, io, io', rfl, rfl, h⟩
    · next hc =>
      refine ih hf (i + 1) _ (cut_readByte hz echo h fun h0 => ?_)
      have hf1 : toupper f = 0 := by rw [← not_not.mp hc, peekUpChar, h0]; rfl
      exact hf0 (toupper_eq_zero.mp hf1).symm

/-- `matchFormat` succeeds alike, fails alike or runs out on both. -/
theorem alike_matchFormat (hz : ∀ x ∈ z.head?, x.1 = 0) {format : List UInt8} (hf : 0 ∉ format)
    (pre : List UInt8) (h : io.Cut z io') :
    Io.Alike z false (matchFormat format pre io) (matchFormat format pre io') := by
  obtain ⟨rest, j, d, io₁, io₁', hloop, hloop', hcut⟩ := cut_matchFormatLoop hz true hf 0 0 h
  unfold matchFormat matchFormatWith
  rw [hloop, hloop']
  simp only
  split
  · exact .inr ⟨rfl, rfl, rfl, rfl⟩
  · exact .inl ⟨rfl, hcut⟩

/-- The digits of a number are read alike. The induction is on the fuel of the first loop; the second
has its own, which is enough as well. -/
theorem cut_numberLoop (hz : ∀ x ∈ z.head?, x.1 = 0) {l : List Cell} {fuel fuel' : Nat} (n : Int)
    (h : io.Cut z io') (hshows' : io'.Shows l) (hfuel : l.length ≤ fuel) (hfuel' : l.length ≤ fuel') :
    (numberLoop .dec true fuel' n io').1 = (numberLoop .dec true fuel n io).1 ∧
      (numberLoop .dec true fuel n io).2.Cut z (numberLoop .dec true fuel' n io').2 := by
  induction l generalizing fuel fuel' n io io' with
  | nil =>
    have hp : bufferPeek io.b = 0 := (h.peek hz).symm.trans hshows'.peek_nil
    have hstop : ∀ {io : Io} (fuel : Nat), bufferPeek io.b = 0 → numberLoop .dec true fuel n io = (n, io) := by
      intro io fuel h0
      cases fuel with
      | zero => rfl
      | succ fuel =>
        rw [numberLoop, h0]
        exact if_neg (by decide)
    rw [hstop fuel hp, hstop fuel' hshows'.peek_nil]
    exact ⟨rfl, h⟩
  | cons x l ih =>
    cases fuel with
    | zero => exact absurd hfuel (Nat.not_succ_le_zero _)
    | succ fuel =>
      cases fuel' with
      | zero => exact absurd hfuel' (Nat.not_succ_le_zero _)
      | succ fuel' =>
        have hp : bufferPeek io.b = x.1 := (h.peek hz).symm.trans hshows'.peek
        rw [numberLoop, numberLoop, hshows'.peek, hp]
        split
        · next hd =>
          have hx : x.1 ≠ 0 := ne_zero_of_isdigit hd
          have hread := cut_readByte hz true h (by rw [hp]; exact hx)
          refine ih _ hread ?_ (Nat.le_of_succ_le_succ hfuel) (Nat.le_of_succ_le_succ hfuel')
          rw [readByte_cons true hshows' hx]
          exact hshows'.read _ _
        · exact ⟨rfl, h⟩

/-- The cut input is no longer than the whole. -/
theorem Io.Cut.length_le (h : io.Cut z io') : ∃ l, io'.Shows l ∧ l.length = io'.b.bytes.length ∧
    l.length ≤ io.b.bytes.length := by
  obtain ⟨l, hshows, hshows', -⟩ := h.cut
  refine ⟨l, hshows', hshows'.length.symm, ?_⟩
  rw [hshows.length, List.length_append]
  exact Nat.le_add_right _ _

/-- `getNumber` reads the same number from both, or runs out on both. -/
theorem alike_getNumber (hz : ∀ x ∈ z.head?, x.1 = 0) (pre : List UInt8) (h : io.Cut z io') :
    Io.Alike z none (getNumber pre io) (getNumber pre io') := by
  obtain ⟨l, hshows', hlen', hlen⟩ := h.length_le
  obtain ⟨hn, hcut⟩ := cut_numberLoop hz 0 h hshows' hlen (Nat.le_of_eq hlen')
  unfold getNumber getNumberWith
  rw [h.peek hz]
  simp only
  split
  · exact .inl ⟨rfl, h⟩
  · rw [hcut.peek hz, hn]
    split
    · exact .inr ⟨rfl, rfl, rfl, rfl⟩
    · exact .inl ⟨rfl, hcut⟩

end Utilities

/-! ## The functions of the parser -/

/-- `s'` is `s` but for what is behind the bytes to read. -/
structure ReqState.Cut (z : List Cell) (s s' : ReqState) : Prop where
  rData : s'.rData = s.rData
  calls : s'.calls = s.calls
  io : s.io.Cut z s'.io

/-- Two results of a function of the parser: alike, or both those of one that ran out of input. -/
def ReqState.Alike {α : Type} (z : List Cell) (short : α) (r r' : α × ReqState) : Prop :=
  r'.1 = r.1 ∧ r.2.Cut z r'.2 ∨
    r.1 = short ∧ r'.1 = short ∧ r.2.io.isBufferEmpty = true ∧ r'.2.io.isBufferEmpty = true

section Functions

variable {z : List Cell} {s s' : ReqState}

theorem ReqState.Cut.withIo (h : s.Cut z s') {io io' : Io} (hio : io.Cut z io') :
    ({ s with io := io } : ReqState).Cut z { s' with io := io' } :=
  ⟨h.rData, h.calls, hio⟩

theorem ReqState.Cut.goto (h : s.Cut z s') (p : RequestParserState) : (s.goto p).Cut z (s'.goto p) := by
  refine ⟨?_, h.calls, h.io⟩
  unfold ReqState.goto
  rw [h.rData]

theorem ReqState.Cut.gotoSpaces (h : s.Cut z s') (p : RequestParserState) :
    (s.gotoSpaces p).Cut z (s'.gotoSpaces p) := by
  refine ⟨?_, h.calls, h.io⟩
  unfold ReqState.gotoSpaces
  rw [h.rData]

/-- The callback announces the same origin. -/
theorem ReqState.Cut.hostCallback (h : s.Cut z s') : (hostCallback s).Cut z (hostCallback s') := by
  refine ⟨h.rData, ?_, h.io⟩
  unfold HttpProxy.hostCallback
  rw [h.calls, h.rData]

theorem ReqState.Cut.alike {α : Type} {short : α} (h : s.Cut z s') (v : α) :
    ReqState.Alike z short (v, s) (v, s') :=
  .inl ⟨rfl, h⟩

theorem alike_setEmpty (s s' : ReqState) : ReqState.Alike z false (false, s.setEmpty) (false, s'.setEmpty) :=
  .inr ⟨rfl, rfl, rfl, rfl⟩

/-- `checkSpaces` agrees, or runs out on both. -/
theorem alike_checkSpaces (hz : ∀ x ∈ z.head?, x.1 = 0) (h : s.Cut z s') :
    ReqState.Alike z false (checkSpaces s) (checkSpaces s') := by
  obtain ⟨hc, hcut⟩ := alike_moveThroughSpaces hz h.io
  unfold checkSpaces
  simp only
  rw [hc]
  split
  · exact alike_setEmpty _ _
  · exact .inl ⟨rfl, h.withIo (hcut.write [SP])⟩

/-- The methods that begin with a letter are tried alike, in the order of the table. -/
theorem alike_extractHttpMethodLoop (hz : ∀ x ∈ z.head?, x.1 = 0) (c : UInt8)
    {opts : List (List UInt8 × HttpMethod)} (hopts : ∀ o ∈ opts, 0 ∉ o.1.tail) (method : HttpMethod)
    {io io' : Io} (h : io.Cut z io') :
    Io.Alike z method (extractHttpMethodLoop c opts method io) (extractHttpMethodLoop c opts method io') := by
  induction opts generalizing io io' with
  | nil => exact .inl ⟨rfl, h⟩
  | cons o opts ih =>
    obtain ⟨name, type⟩ := o
    have hopts' : ∀ o ∈ opts, 0 ∉ o.1.tail := fun o ho => hopts o (List.mem_cons_of_mem _ ho)
    unfold extractHttpMethodLoop
    by_cases hc : name.headD 0 = c
    · rw [if_pos hc, if_pos hc]
      have hmatch := alike_matchFormat hz (hopts (name, type) List.mem_cons_self) [c] h
      generalize matchFormat name.tail [c] io = r at hmatch ⊢
      generalize matchFormat name.tail [c] io' = r' at hmatch ⊢
      rcases hmatch with ⟨hok, hcut⟩ | ⟨hok, hok', hflag, hflag'⟩
      · simp only [hok, hcut.flag]
        split
        · exact .inl ⟨rfl, hcut⟩
        · split
          · exact .inl ⟨rfl, hcut⟩
          · exact ih hopts' hcut
      · simp only [hok, hok', hflag, hflag', Bool.false_eq_true, if_false, if_true]
        exact .inr ⟨rfl, rfl, hflag, hflag'⟩
    · rw [if_neg hc, if_neg hc]
      exact ih hopts' h

/-- `extractHttpMethod` agrees, or runs out on both. No method was read before, so one that runs out
fails. -/
theorem alike_extractHttpMethod (hz : ∀ x ∈ z.head?, x.1 = 0) (h : s.Cut z s')
    (hm : isSupported s.rData.method = false) :
    ReqState.Alike z false (extractHttpMethod s) (extractHttpMethod s') := by
  obtain ⟨hc, hcut⟩ := alike_readAndWrite hz h.io
  unfold extractHttpMethod
  simp only
  rw [hc]
  by_cases h0 : toupper (readAndWrite s.io).1 = 0
  · rw [if_pos h0, if_pos h0]
    exact alike_setEmpty _ _
  · rw [if_neg h0, if_neg h0, h.rData]
    have hread := hcut fun hzero => h0 (toupper_eq_zero.mpr hzero)
    have hloop := alike_extractHttpMethodLoop hz (toupper (readAndWrite s.io).1)
      (fun o ho => (methodOption_tail o ho).2) s.rData.method hread
    generalize extractHttpMethodLoop _ methodOption s.rData.method (readAndWrite s.io).2 = r at hloop ⊢
    generalize extractHttpMethodLoop _ methodOption s.rData.method (readAndWrite s'.io).2 = r' at hloop ⊢
    rcases hloop with ⟨hmethod, hcut'⟩ | ⟨hmethod, hmethod', hflag, hflag'⟩
    · rw [hmethod]
      exact .inl ⟨rfl, rfl, h.calls, hcut'⟩
    · rw [hmethod, hmethod']
      exact .inr ⟨hm, hm, hflag, hflag'⟩

/-- The relative target is gone through alike, up to the blank behind it. -/
theorem cut_cleanRelativeUriLoop (hz : ∀ x ∈ z.head?, x.1 = 0) {l : List Cell} {fuel fuel' : Nat} {io io' : Io}
    (h : io.Cut z io') (hshows' : io'.Shows l) (hfuel : l.length ≤ fuel) (hfuel' : l.length ≤ fuel') :
    (cleanRelativeUriLoop fuel' io').1 = (cleanRelativeUriLoop fuel io).1 ∧
      (cleanRelativeUriLoop fuel io).2.Cut z (cleanRelativeUriLoop fuel' io').2 := by
  induction l generalizing fuel fuel' io io' with
  | nil =>
    have hp : bufferPeek io.b = 0 := (h.peek hz).symm.trans hshows'.peek_nil
    have hstop : ∀ {io : Io} (fuel : Nat), bufferPeek io.b = 0 → cleanRelativeUriLoop fuel io = (0, io) := by
      intro io fuel h0
      cases fuel with
      | zero => rw [cleanRelativeUriLoop, h0]
      | succ fuel =>
        rw [cleanRelativeUriLoop, h0]
        exact if_neg fun hc => hc.1 rfl
    rw [hstop fuel hp, hstop fuel' hshows'.peek_nil]
    exact ⟨rfl, h⟩
  | cons x l ih =>
    obtain ⟨fuel, rfl⟩ := Nat.exists_eq_succ_of_ne_zero (Nat.ne_of_gt (Nat.lt_of_lt_of_le (Nat.succ_pos _) hfuel))
    obtain ⟨fuel', rfl⟩ := Nat.exists_eq_succ_of_ne_zero (Nat.ne_of_gt (Nat.lt_of_lt_of_le (Nat.succ_pos _) hfuel'))
    have hp : bufferPeek io.b = x.1 := (h.peek hz).symm.trans hshows'.peek
    rw [cleanRelativeUriLoop, cleanRelativeUriLoop]
    simp only [hshows'.peek, hp]
    split
    · next hc =>
      obtain ⟨-, hcut⟩ := alike_readAndWrite hz h
      refine ih (hcut (by rw [readAndWrite_fst, hp]; exact hc.1)) ?_ (Nat.le_of_succ_le_succ hfuel)
        (Nat.le_of_succ_le_succ hfuel')
      rw [readAndWrite_cons hshows' hc.1]
      exact hshows'.read _ _
    · exact ⟨rfl, h⟩

/-- `cleanRelativeUri` agrees, or runs out on both. -/
theorem alike_cleanRelativeUri (hz : ∀ x ∈ z.head?, x.1 = 0) (h : s.Cut z s') :
    ReqState.Alike z false (cleanRelativeUri s) (cleanRelativeUri s') := by
  obtain ⟨l, hshows', hlen', hlen⟩ := h.io.length_le
  obtain ⟨hc, hcut⟩ := cut_cleanRelativeUriLoop hz h.io hshows' hlen (Nat.le_of_eq hlen')
  unfold cleanRelativeUri
  simp only
  rw [hc]
  split
  · exact alike_setEmpty _ _
  · exact .inl ⟨rfl, h.withIo hcut⟩

/-- What the loop over a host leaves is the same but for what is behind the bytes to read. -/
structure HostLoop.Cut (z : List Cell) (t t' : HostLoop) : Prop where
  i : t'.i = t.i
  c : t'.c = t.c
  host : t'.host = t.host
  io : t.io.Cut z t'.io

/-- The bytes of a host are copied alike. Each loop has fuel for what it has to read. -/
theorem cut_hostLoop (hz : ∀ x ∈ z.head?, x.1 = 0) (userinfo : Bool) {l : List Cell} {fuel fuel' : Nat}
    {t t' : HostLoop} (h : t.Cut z t') (hshows' : t'.io.Shows l) (hfuel : l.length < fuel)
    (hfuel' : l.length < fuel') : (hostLoop userinfo fuel t).Cut z (hostLoop userinfo fuel' t') := by
  obtain ⟨i, c, host, io⟩ := t
  obtain ⟨i', c', host', io'⟩ := t'
  obtain ⟨rfl, rfl, rfl, hio⟩ := h
  induction l generalizing fuel fuel' i' c' host' io io' with
  | nil =>
    obtain ⟨fuel, rfl⟩ := Nat.exists_eq_succ_of_ne_zero (Nat.ne_of_gt (Nat.lt_of_le_of_lt (Nat.zero_le _) hfuel))
    obtain ⟨fuel', rfl⟩ := Nat.exists_eq_succ_of_ne_zero (Nat.ne_of_gt (Nat.lt_of_le_of_lt (Nat.zero_le _) hfuel'))
    have hp : peekDownChar io.b = 0 := by
      rw [peekDownChar, ← hio.peek hz, hshows'.peek_nil, tolower_zero]
    have hp' : peekDownChar io'.b = 0 := by rw [peekDownChar, hshows'.peek_nil, tolower_zero]
    rw [hostLoop, hostLoop]
    split
    · simp only [hp, hp', if_true]
      exact ⟨rfl, rfl, rfl, hio⟩
    · exact ⟨rfl, rfl, rfl, hio⟩
  | cons x l ih =>
    obtain ⟨fuel, rfl⟩ := Nat.exists_eq_succ_of_ne_zero (Nat.ne_of_gt (Nat.lt_of_le_of_lt (Nat.zero_le _) hfuel))
    obtain ⟨fuel', rfl⟩ := Nat.exists_eq_succ_of_ne_zero (Nat.ne_of_gt (Nat.lt_of_le_of_lt (Nat.zero_le _) hfuel'))
    have hp : peekDownChar io'.b = peekDownChar io.b := congrArg tolower (hio.peek hz)
    have hread : peekDownChar io.b ≠ 0 →
        (readAndWrite io).2.Cut z (readAndWrite io').2 ∧ (readAndWrite io').2.Shows l := by
      intro hc
      have h0 : bufferPeek io.b ≠ 0 := fun h0 => hc (by rw [peekDownChar, h0, tolower_zero])
      have hx : x.1 ≠ 0 := by
        rw [← Io.Shows.peek (l := l) hshows', hio.peek hz]
        exact h0
      refine ⟨(alike_readAndWrite hz hio).2 (by rw [readAndWrite_fst]; exact h0), ?_⟩
      rw [readAndWrite_cons hshows' hx]
      exact hshows'.read _ _
    have hlt : l.length < fuel := Nat.lt_of_succ_lt_succ hfuel
    have hlt' : l.length < fuel' := Nat.lt_of_succ_lt_succ hfuel'
    rw [hostLoop, hostLoop]
    split
    · simp only [hp]
      split
      · exact ⟨rfl, rfl, rfl, hio⟩
      · next hc =>
        obtain ⟨hcut, hshows⟩ := hread hc
        split
        · exact ih hlt hlt' _ _ _ _ _ hshows hcut
        · split
          · exact ih hlt hlt' _ _ _ _ _ hshows hcut
          · exact ⟨rfl, rfl, rfl, hio⟩
    · exact ⟨rfl, rfl, rfl, hio⟩

/-- A port is read alike. Behind a `:` that is the last byte nothing is claimed. -/
theorem alike_readPort (hz : ∀ x ∈ z.head?, x.1 = 0) {c : UInt8} (h : s.Cut z s')
    (hc : c = 0x3a → bufferPeek s.io.b ≠ 0) :
    ReqState.Alike z false (readPort c s) (readPort c s') := by
  unfold readPort
  by_cases h3a : c = 0x3a
  · rw [if_pos h3a, if_pos h3a]
    have hread := (alike_readAndWrite hz h.io).2 (by rw [readAndWrite_fst]; exact hc h3a)
    have hnumber := alike_getNumber hz (lit ":") hread
    generalize getNumber (lit ":") (readAndWrite s.io).2 = r at hnumber ⊢
    generalize getNumber (lit ":") (readAndWrite s'.io).2 = r' at hnumber ⊢
    obtain ⟨n, io⟩ := r
    obtain ⟨n', io'⟩ := r'
    rcases hnumber with ⟨hn, hcut⟩ | ⟨hn, hn', hflag, hflag'⟩
    · obtain rfl : n' = n := hn
      cases n' with
      | none => exact .inl ⟨rfl, h.withIo hcut⟩
      | some port => exact .inl ⟨rfl, by simp only [h.rData], h.calls, hcut⟩
    · obtain rfl : n = none := hn
      obtain rfl : n' = none := hn'
      exact .inr ⟨rfl, rfl, hflag, hflag'⟩
  · rw [if_neg h3a, if_neg h3a]
    exact .inl ⟨rfl, h⟩

/-- The loop over a host stops at a `:` only in front of it. -/
theorem hostLoop_colon (userinfo : Bool) (fuel : Nat) {t : HostLoop} (ht : t.c ≠ 0x3a) :
    (hostLoop userinfo fuel t).c = 0x3a → bufferPeek (hostLoop userinfo fuel t).io.b ≠ 0 := by
  induction fuel generalizing t with
  | zero => exact fun hc => absurd hc ht
  | succ fuel ih =>
    rw [hostLoop]
    split
    · simp only
      split
      · next hc => exact fun h3a => absurd (hc.symm.trans h3a) (by decide)
      · split
        · next hhost =>
          refine ih fun h3a : peekDownChar t.io.b = 0x3a => ?_
          rw [h3a] at hhost
          exact absurd hhost (by decide)
        · split
          · next hat => exact ih fun h3a : peekDownChar t.io.b = 0x3a => absurd (hat.2.symm.trans h3a) (by decide)
          · next hc _ _ =>
            intro _ h0
            exact hc (by rw [peekDownChar, h0, tolower_zero])
    · exact fun hc => absurd hc ht

theorem ReqState.Cut.withHost (h : s.Cut z s') {t t' : HostLoop} (ht : t.Cut z t') :
    (s.withHost t).Cut z (s'.withHost t') := by
  refine ⟨?_, h.calls, ht.io⟩
  unfold ReqState.withHost
  rw [h.rData, ht.host]

/-- A host and its port are read alike, with and without a userinfo in front of it. -/
theorem alike_readHost (hz : ∀ x ∈ z.head?, x.1 = 0) (userinfo : Bool) (h : s.Cut z s') :
    ReqState.Alike z none (readHost userinfo s) (readHost userinfo s') := by
  obtain ⟨l, hshows', hlen', hlen⟩ := h.io.length_le
  have hstart : HostLoop.Cut z ⟨0, 0, s.rData.host, s.io⟩ ⟨0, 0, s'.rData.host, s'.io⟩ :=
    ⟨rfl, rfl, by rw [h.rData], h.io⟩
  have hloop := cut_hostLoop hz userinfo hstart hshows' (Nat.lt_succ_of_le hlen)
    (Nat.lt_succ_of_le (Nat.le_of_eq hlen'))
  have hcolon := hostLoop_colon userinfo (s.io.b.bytes.length + 1) (t := ⟨0, 0, s.rData.host, s.io⟩)
    (by show (0 : UInt8) ≠ 0x3a; decide)
  rw [readHost_eq, readHost_eq]
  generalize hostLoop userinfo (s.io.b.bytes.length + 1) ⟨0, 0, s.rData.host, s.io⟩ = t at hloop hcolon ⊢
  generalize hostLoop userinfo (s'.io.b.bytes.length + 1) ⟨0, 0, s'.rData.host, s'.io⟩ = t' at hloop ⊢
  simp only
  rw [hloop.c]
  have hport := alike_readPort hz (c := t.c) (h.withHost hloop) hcolon
  generalize readPort t.c (s.withHost t) = r at hport ⊢
  generalize readPort t.c (s'.withHost t') = r' at hport ⊢
  unfold readHostEnd
  rw [hloop.c, hloop.i]
  rcases hport with ⟨hvalid, hcut⟩ | ⟨hvalid, hvalid', hflag, hflag'⟩
  · rw [hvalid, hcut.io.flag]
    split
    · exact .inr ⟨rfl, rfl, rfl, rfl⟩
    · exact .inl ⟨rfl, hcut⟩
  · rw [if_pos (.inr ⟨hvalid, hflag⟩), if_pos (.inr ⟨hvalid', hflag'⟩)]
    exact .inr ⟨rfl, rfl, rfl, rfl⟩

/-- `checkUriForHost` agrees, or runs out on both. -/
theorem alike_checkUriForHost (hz : ∀ x ∈ z.head?, x.1 = 0) (h : s.Cut z s') :
    ReqState.Alike z false (checkUriForHost s) (checkUriForHost s') := by
  have hhost := alike_readHost hz true h
  unfold checkUriForHost
  generalize readHost true s = r at hhost ⊢
  generalize readHost true s' = r' at hhost ⊢
  obtain ⟨v, s⟩ := r
  obtain ⟨v', s'⟩ := r'
  rcases hhost with ⟨hv, hcut⟩ | ⟨hv, hv', hflag, hflag'⟩
  · obtain rfl : v' = v := hv
    cases v' with
    | none => exact .inl ⟨rfl, hcut⟩
    | some v => exact .inl ⟨rfl, hcut⟩
  · obtain rfl : v = none := hv
    obtain rfl : v' = none := hv'
    exact .inr ⟨rfl, rfl, hflag, hflag'⟩

/-- `extractHost` agrees, or runs out on both. -/
theorem alike_extractHost (hz : ∀ x ∈ z.head?, x.1 = 0) (h : s.Cut z s') :
    ReqState.Alike z false (extractHost s) (extractHost s') := by
  have hhost := alike_readHost hz false h
  unfold extractHost
  generalize readHost false s = r at hhost ⊢
  generalize readHost false s' = r' at hhost ⊢
  obtain ⟨v, s⟩ := r
  obtain ⟨v', s'⟩ := r'
  rcases hhost with ⟨hv, hcut⟩ | ⟨hv, hv', hflag, hflag'⟩
  · obtain rfl : v' = v := hv
    cases v' with
    | none => exact .inl ⟨rfl, hcut⟩
    | some v =>
      simp only [hcut.io.peek hz]
      exact .inl ⟨rfl, hcut⟩
  · obtain rfl : v = none := hv
    obtain rfl : v' = none := hv'
    exact .inr ⟨rfl, rfl, hflag, hflag'⟩

/-- The way of a relative target agrees, or runs out on both. -/
theorem alike_checkUriRelative (hz : ∀ x ∈ z.head?, x.1 = 0) (h : s.Cut z s') :
    ReqState.Alike z false (checkUriRelative s) (checkUriRelative s') := by
  rcases alike_cleanRelativeUri hz (h.goto .RELATIVE_URI) with ⟨-, hcut⟩ | ⟨-, -, hflag, hflag'⟩
  · exact .inl ⟨rfl, hcut⟩
  · exact .inr ⟨rfl, rfl, hflag, hflag'⟩

/-- What a function does when a first one found something, and when it did not and there is more
input. -/
def orElse (r : Bool × ReqState) (ok miss : ReqState → Bool × ReqState) : Bool × ReqState :=
  if r.1 then ok r.2 else if r.2.io.isBufferEmpty then (false, r.2) else miss r.2

/-- A match on the parser's state. -/
def ReqState.matchFormat (format pre : List UInt8) (s : ReqState) : Bool × ReqState :=
  ((HttpProxy.matchFormat format pre s.io).1, { s with io := (HttpProxy.matchFormat format pre s.io).2 })

/-- A function that tries one thing and then another agrees when both do. -/
theorem alike_orElse {r r' : Bool × ReqState} {ok miss : ReqState → Bool × ReqState}
    (h : ReqState.Alike z false r r')
    (hok : r.2.Cut z r'.2 → ReqState.Alike z false (ok r.2) (ok r'.2))
    (hmiss : r.2.Cut z r'.2 → ReqState.Alike z false (miss r.2) (miss r'.2)) :
    ReqState.Alike z false (orElse r ok miss) (orElse r' ok miss) := by
  unfold orElse
  rcases h with ⟨hr, hcut⟩ | ⟨hr, hr', hflag, hflag'⟩
  · rw [hr, hcut.io.flag]
    split
    · exact hok hcut
    · split
      · exact .inl ⟨rfl, hcut⟩
      · exact hmiss hcut
  · rw [hr, hr', hflag, hflag']
    exact .inr ⟨rfl, rfl, hflag, hflag'⟩

/-- A match on the parser's state agrees, or runs out on both. -/
theorem alike_match (hz : ∀ x ∈ z.head?, x.1 = 0) {format : List UInt8} (hf : 0 ∉ format) (pre : List UInt8)
    (h : s.Cut z s') : ReqState.Alike z false (s.matchFormat format pre) (s'.matchFormat format pre) := by
  rcases alike_matchFormat hz hf pre h.io with ⟨hr, hcut⟩ | ⟨hr, hr', hflag, hflag'⟩
  · exact .inl ⟨hr, h.withIo hcut⟩
  · exact .inr ⟨hr, hr', hflag, hflag'⟩

/-- `checkUri` as the things it tries one after the other. -/
theorem checkUri_eq (s : ReqState) :
    checkUri s =
      orElse (s.matchFormat (lit "HTTP") [])
        (fun s => orElse (s.matchFormat (lit "://") (lit "HTTP"))
          (fun s => orElse (checkUriForHost (s.goto .URI_HOST)) (fun s => (true, s)) checkUriRelative)
          checkUriRelative)
        checkUriRelative := by
  unfold checkUri orElse ReqState.matchFormat
  generalize matchFormat (lit "HTTP") [] s.io = r
  obtain ⟨http, io⟩ := r
  simp only

/-- `checkUri` agrees, or runs out on both. -/
theorem alike_checkUri (hz : ∀ x ∈ z.head?, x.1 = 0) (h : s.Cut z s') :
    ReqState.Alike z false (checkUri s) (checkUri s') := by
  rw [checkUri_eq, checkUri_eq]
  refine alike_orElse (alike_match hz (by decide +kernel) [] h) (fun hcut => ?_) (alike_checkUriRelative hz)
  refine alike_orElse (alike_match hz (by decide +kernel) (lit "HTTP") hcut) (fun hcut => ?_)
    (alike_checkUriRelative hz)
  refine alike_orElse (alike_checkUriForHost hz (hcut.goto .URI_HOST)) (fun hcut => ?_)
    (alike_checkUriRelative hz)
  exact hcut.alike true

/-- What `extractHttpVersion` does behind `HTTP/1.`. -/
def readVersion (s : ReqState) : Bool × ReqState :=
  let (c, io) := readAndWrite s.io
  if c ≠ 0 then
    let version := if c = 0x30 then .v1_0 else if c = 0x31 then .v1_1 else s.rData.version
    (version ≠ .undefined, { s with io := io, rData := { s.rData with version := version } })
  else
    (false, { s with io := { io with b := writePrefix io.b (lit "HTTP/1."), isBufferEmpty := true } })

/-- `extractHttpVersion` as a match and what comes behind it. -/
theorem extractHttpVersion_eq (s : ReqState) :
    extractHttpVersion s =
      orElse (s.matchFormat (lit "HTTP/1.") []) readVersion fun s => (s.rData.version ≠ .undefined, s) := by
  unfold extractHttpVersion orElse ReqState.matchFormat readVersion
  generalize matchFormat (lit "HTTP/1.") [] s.io = r
  obtain ⟨ok, io⟩ := r
  simp only

/-- The digit of the version is read alike. -/
theorem alike_readVersion (hz : ∀ x ∈ z.head?, x.1 = 0) (h : s.Cut z s') :
    ReqState.Alike z false (readVersion s) (readVersion s') := by
  obtain ⟨hc, hcut⟩ := alike_readAndWrite hz h.io
  unfold readVersion
  simp only [hc]
  by_cases h0 : (readAndWrite s.io).1 = 0
  · rw [if_neg (not_not.mpr h0), if_neg (not_not.mpr h0)]
    exact .inr ⟨rfl, rfl, rfl, rfl⟩
  · rw [if_pos h0, if_pos h0, h.rData]
    exact .inl ⟨rfl, rfl, h.calls, hcut h0⟩

/-- `extractHttpVersion` agrees, or runs out on both. -/
theorem alike_extractHttpVersion (hz : ∀ x ∈ z.head?, x.1 = 0) (h : s.Cut z s') :
    ReqState.Alike z false (extractHttpVersion s) (extractHttpVersion s') := by
  rw [extractHttpVersion_eq, extractHttpVersion_eq]
  refine alike_orElse (alike_match hz (by decide +kernel) [] h) (alike_readVersion hz) fun hcut => ?_
  rw [hcut.rData]
  exact .inl ⟨rfl, hcut⟩

/-- `checkStartLineEnd` agrees, or runs out on both. -/
theorem alike_checkStartLineEnd (hz : ∀ x ∈ z.head?, x.1 = 0) (h : s.Cut z s') :
    ReqState.Alike z false (checkStartLineEnd s) (checkStartLineEnd s') :=
  alike_match hz (show 0 ∉ [CR, LF] by decide) [] h

/-- `checkLocalHost` agrees, or runs out on both. -/
theorem alike_checkLocalHost (hz : ∀ x ∈ z.head?, x.1 = 0) (h : s.Cut z s') :
    ReqState.Alike z false (checkLocalHost s) (checkLocalHost s') := by
  have hlocal : ∀ s : ReqState, checkLocalHost s =
      if peekUpChar s.io.b = 0 then (false, s.setEmpty)
      else if peekUpChar s.io.b ≠ 0x58 then
        (s.rData.isLocalHost, { s with io := writeToBuf (lit "X-LOCALHOST: TRUE\r\n") s.io })
      else orElse (s.matchFormat (lit "X-LOCALHOST:") [])
        (fun s => (true, { s with rData := { s.rData with isLocalHost := true } }))
        fun s => (s.rData.isLocalHost, s) := by
    intro s
    unfold checkLocalHost orElse ReqState.matchFormat
    generalize matchFormat (lit "X-LOCALHOST:") [] s.io = r
    obtain ⟨ok, io⟩ := r
    rfl
  rw [hlocal, hlocal]
  have hc : peekUpChar s'.io.b = peekUpChar s.io.b := congrArg toupper (h.io.peek hz)
  rw [hc]
  split
  · exact alike_setEmpty _ _
  · split
    · simp only [h.rData]
      exact .inl ⟨rfl, rfl, h.calls, h.io.write _⟩
    · refine alike_orElse (alike_match hz (by decide +kernel) [] h) (fun hcut => ?_) fun hcut => ?_
      · rw [hcut.rData]
        exact .inl ⟨rfl, rfl, hcut.calls, hcut.io⟩
      · rw [hcut.rData]
        exact .inl ⟨rfl, hcut⟩

/-- The end of the headers is looked for alike. -/
theorem alike_checkHeadersEnd (hz : ∀ x ∈ z.head?, x.1 = 0) {io io' : Io} (h : io.Cut z io') :
    Io.Alike z false (checkHeadersEnd io) (checkHeadersEnd io') := by
  have hlf := alike_matchFormat hz (show 0 ∉ [LF] by decide) [CR] h
  unfold checkHeadersEnd checkLF
  generalize matchFormat [LF] [CR] io = r at hlf ⊢
  generalize matchFormat [LF] [CR] io' = r' at hlf ⊢
  obtain ⟨ok, io⟩ := r
  obtain ⟨ok', io'⟩ := r'
  rcases hlf with ⟨hok, hcut⟩ | ⟨hok, hok', hflag, hflag'⟩
  · obtain rfl : ok' = ok := hok
    cases ok' with
    | true => exact alike_matchFormat hz (show 0 ∉ [CR, LF] by decide) [CR, LF] hcut
    | false => exact .inl ⟨rfl, hcut⟩
  · obtain rfl : ok = false := hok
    obtain rfl : ok' = false := hok'
    exact .inr ⟨rfl, rfl, hflag, hflag'⟩

/-- Two results of the loop over the headers: it ended alike, or ran out of input on both. -/
def HeadersAlike (z : List Cell) (r r' : HostHeaderEnd × Io) : Prop :=
  r'.1 = r.1 ∧ r.2.Cut z r'.2 ∨ r.1 = .bufferEmpty ∧ r'.1 = .bufferEmpty

/-- The loop over the headers ends alike, or runs out on both. The induction is on the fuel, a unit of
which each byte takes. -/
theorem alike_checkHostHeaderLoop (hz : ∀ x ∈ z.head?, x.1 = 0) {fuel fuel' : Nat} {io io' : Io}
    (h : io.Cut z io') (hfuel : io.b.bytes.length < fuel) (hfuel' : io'.b.bytes.length < fuel') :
    HeadersAlike z (checkHostHeaderLoop fuel io) (checkHostHeaderLoop fuel' io') := by
  induction fuel generalizing fuel' io io' with
  | zero => exact absurd hfuel (Nat.not_lt_zero _)
  | succ fuel ih =>
    obtain ⟨fuel', rfl⟩ := Nat.exists_eq_succ_of_ne_zero (Nat.ne_of_gt (Nat.zero_lt_of_lt hfuel'))
    obtain ⟨hc, hcut⟩ := alike_readAndWrite hz h
    rw [checkHostHeaderLoop, checkHostHeaderLoop]
    simp only
    rw [hc]
    by_cases h0 : toupper (readAndWrite io).1 = 0
    · rw [if_pos h0, if_pos h0]
      exact .inr ⟨rfl, rfl⟩
    · rw [if_neg h0, if_neg h0]
      have hne : (readAndWrite io).1 ≠ 0 := fun hzero => h0 (toupper_eq_zero.mpr hzero)
      have hread := hcut hne
      have hlen : (readAndWrite io).2.b.bytes.length < fuel :=
        Nat.lt_of_lt_of_le (length_readAndWrite_lt hne) (Nat.le_of_lt_succ hfuel)
      have hlen' : (readAndWrite io').2.b.bytes.length < fuel' :=
        Nat.lt_of_lt_of_le (length_readAndWrite_lt (by rw [hc]; exact hne)) (Nat.le_of_lt_succ hfuel')
      -- A miss goes on with no more to read than behind the byte.
      have hagain : ∀ (fin : HostHeaderEnd) {m m' : Bool × Io}, Io.Alike z false m m' →
          (m.1 = true ∨ m.2.isBufferEmpty = false → (readAndWrite io).2.Consumes m.2) →
          (m'.1 = true ∨ m'.2.isBufferEmpty = false → (readAndWrite io').2.Consumes m'.2) →
          HeadersAlike z
            (if m.1 then (fin, m.2) else if m.2.isBufferEmpty then (.bufferEmpty, m.2)
              else checkHostHeaderLoop fuel m.2)
            (if m'.1 then (fin, m'.2) else if m'.2.isBufferEmpty then (.bufferEmpty, m'.2)
              else checkHostHeaderLoop fuel' m'.2) := by
        intro fin m m' hm hcons hcons'
        rcases hm with ⟨hok, hcut⟩ | ⟨hok, hok', hflag, hflag'⟩
        · rw [hok, hcut.flag]
          split
          · exact .inl ⟨rfl, hcut⟩
          · split
            · exact .inr ⟨rfl, rfl⟩
            · next he =>
              have hempty := Bool.eq_false_iff.mpr he
              exact ih hcut (Nat.lt_of_le_of_lt (hcons (.inr hempty)).length_le hlen)
                (Nat.lt_of_le_of_lt (hcons' (.inr (hcut.flag.trans hempty))).length_le hlen')
        · rw [hok, hok', hflag, hflag']
          exact .inr ⟨rfl, rfl⟩
      split
      · exact hagain .hostHeader (alike_matchFormat hz (show 0 ∉ lit "OST:" by decide +kernel) (lit "H") hread)
          (matchFormat_consumes _ _ _) (matchFormat_consumes _ _ _)
      · split
        · exact hagain .headersEnd (alike_checkHeadersEnd hz hread) checkHeadersEnd_consumes
            checkHeadersEnd_consumes
        · exact ih hread hlen hlen'

/-- `checkHostHeader` agrees, or runs out on both. -/
theorem alike_checkHostHeader (hz : ∀ x ∈ z.head?, x.1 = 0) (h : s.Cut z s') :
    ReqState.Alike z false (checkHostHeader s) (checkHostHeader s') := by
  have hloop := alike_checkHostHeaderLoop hz h.io (Nat.lt_succ_self _) (Nat.lt_succ_self _)
  unfold checkHostHeader
  generalize checkHostHeaderLoop (s.io.b.bytes.length + 1) s.io = r at hloop ⊢
  generalize checkHostHeaderLoop (s'.io.b.bytes.length + 1) s'.io = r' at hloop ⊢
  obtain ⟨fin, io⟩ := r
  obtain ⟨fin', io'⟩ := r'
  rcases hloop with ⟨hfin, hcut⟩ | ⟨hfin, hfin'⟩
  · obtain rfl : fin' = fin := hfin
    cases fin' with
    | hostHeader => exact (h.withIo hcut).alike true
    | headersEnd => exact (h.withIo hcut).alike false
    | bufferEmpty => exact alike_setEmpty _ _
  · obtain rfl : fin = .bufferEmpty := hfin
    obtain rfl : fin' = .bufferEmpty := hfin'
    exact alike_setEmpty _ _

end Functions

/-! ## The loop -/

/-- Two results of a loop: both failed, or both succeeded alike. -/
def SameEnd (z : List Cell) (r r' : Bool × ReqState) : Prop :=
  r'.1 = r.1 ∧ (r.1 = true → r.2.Cut z r'.2)

section Loop

variable {z : List Cell} {s s' : ReqState}

/-- Two iterations: both fail, or they end alike. -/
def IterationAlike (z : List Cell) (r r' : LoopFlags × ReqState) : Prop :=
  r'.1 = r.1 ∧ r.2.Cut z r'.2 ∨ r.1 = { success := false } ∧ r'.1 = { success := false }

/-- A case of the loop that goes on when its function succeeds. -/
theorem alike_checkCase {r r' : Bool × ReqState} {next : ReqState → ReqState}
    (h : ReqState.Alike z false r r') (hnext : r.2.Cut z r'.2 → (next r.2).Cut z (next r'.2)) :
    IterationAlike z (checkCase r next) (checkCase r' next) := by
  unfold checkCase
  rcases h with ⟨hr, hcut⟩ | ⟨hr, hr', -, -⟩
  · rw [hr]
    split
    · exact .inr ⟨rfl, rfl⟩
    · exact .inl ⟨rfl, hnext hcut⟩
  · rw [if_pos hr, if_pos hr']
    exact .inr ⟨rfl, rfl⟩

/-- The case of a host, which goes on in another state when none was found. -/
theorem alike_hostCase {r r' : Bool × ReqState} {otherwise : ReqState → ReqState}
    (h : ReqState.Alike z false r r') (hother : r.2.Cut z r'.2 → (otherwise r.2).Cut z (otherwise r'.2)) :
    IterationAlike z (hostCase r otherwise) (hostCase r' otherwise) := by
  unfold hostCase
  rcases h with ⟨hr, hcut⟩ | ⟨hr, hr', hflag, hflag'⟩
  · rw [hr, hcut.io.flag, hcut.rData]
    split
    · exact .inr ⟨rfl, rfl⟩
    · split
      · exact .inl ⟨rfl, hcut.hostCallback.goto .FINISHED⟩
      · exact .inl ⟨rfl, hother hcut⟩
  · rw [if_pos ⟨hr, .inr hflag⟩, if_pos ⟨hr', .inr hflag'⟩]
    exact .inr ⟨rfl, rfl⟩

/-- The case of the first header, which does not end the call when it fails. -/
theorem alike_localHostCase {r r' : Bool × ReqState} (h : ReqState.Alike z false r r') :
    IterationAlike z (localHostCase r) (localHostCase r') := by
  unfold localHostCase
  rcases h with ⟨hr, hcut⟩ | ⟨hr, hr', hflag, hflag'⟩
  · rw [hr, hcut.io.flag]
    split
    · exact .inl ⟨rfl, hcut.hostCallback.goto .FINISHED⟩
    · split
      · exact .inr ⟨rfl, rfl⟩
      · exact .inl ⟨rfl, hcut.goto .HEADERS⟩
  · rw [hr, hr', hflag, hflag']
    exact .inr ⟨rfl, rfl⟩

/-- One iteration fails on both or ends alike. The cases are the states of the parser. -/
theorem alike_iteration (hz : ∀ x ∈ z.head?, x.1 = 0) (h : s.Cut z s') (hw : s.rData.Wf) :
    IterationAlike z (iteration s) (iteration s') := by
  unfold iteration
  rw [h.rData]
  split
  · refine alike_checkCase (alike_checkSpaces hz h) fun hcut => ?_
    rw [hcut.rData]
    exact hcut.goto _
  · next hp =>
    exact alike_checkCase (alike_extractHttpMethod hz h (hw.method hp)) fun hcut => hcut.gotoSpaces .URI
  · exact alike_hostCase (alike_checkUri hz h) fun hcut => hcut.gotoSpaces .VERSION
  · exact alike_hostCase (alike_checkUriForHost hz h) fun hcut => hcut.gotoSpaces .VERSION
  · exact alike_checkCase (alike_cleanRelativeUri hz h) fun hcut => hcut.gotoSpaces .VERSION
  · exact alike_checkCase (alike_extractHttpVersion hz h) fun hcut => hcut.goto .START_LINE_END
  · exact alike_checkCase (alike_checkStartLineEnd hz h) fun hcut => hcut.goto .LOCALHOST_HEADER_CHECK
  · exact alike_localHostCase (alike_checkLocalHost hz h)
  · exact alike_checkCase (alike_checkHostHeader hz h) fun hcut => hcut.gotoSpaces .HOST
  · exact alike_hostCase (alike_extractHost hz h) fun hcut => hcut
  · exact .inl ⟨rfl, h⟩

/-- The loop is an iteration, and the loop again while it is to go on. -/
theorem requestLoop_succ (fuel : Nat) (s : ReqState) :
    requestLoop (fuel + 1) s =
      if (iteration s).1.success && (iteration s).1.active then requestLoop fuel (iteration s).2
      else some ((iteration s).1.success, (iteration s).2) := by
  have hbody : loopBody s =
      if (iteration s).1.success && (iteration s).1.active then .inl (iteration s).2
      else .inr ((iteration s).1.success, (iteration s).2) := rfl
  by_cases hgo : ((iteration s).1.success && (iteration s).1.active) = true
  · rw [if_pos hgo] at hbody ⊢
    exact Loop.run_succ_of_goes hbody fuel
  · rw [if_neg hgo] at hbody ⊢
    exact Loop.run_succ_of_ends hbody fuel

/-- The loop ends alike on both, or on neither. -/
theorem sameEnd_requestLoop (hz : ∀ x ∈ z.head?, x.1 = 0) (fuel : Nat) (h : s.Cut z s') (hw : s.rData.Wf) :
    Option.Rel (SameEnd z) (requestLoop fuel s) (requestLoop fuel s') := by
  induction fuel generalizing s s' with
  | zero => exact .none
  | succ fuel ih =>
    have hiter := alike_iteration hz h hw
    have hwf := iteration_wf hw
    rw [requestLoop_succ, requestLoop_succ]
    rcases hiter with ⟨hflags, hcut⟩ | ⟨hflags, hflags'⟩
    · rw [hflags]
      split
      · exact ih hcut hwf
      · exact .some ⟨rfl, fun _ => hcut⟩
    · rw [hflags, hflags']
      exact .some ⟨rfl, fun hs => absurd hs Bool.false_ne_true⟩

end Loop

end HttpProxy
