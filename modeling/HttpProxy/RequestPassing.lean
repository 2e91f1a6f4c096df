import HttpProxy.Forwarding
import HttpProxy.PushBacks

/-!
# What a call passes on of a request

The parser writes each byte when it first reads it, and drops no byte but a blank: for a run of blanks it
writes one space. So what a call of `checkRequest` writes, with what the loop behind it passes on of the
bytes left, holds all that was to read in front of the first zero byte but the blanks, in order, whatever
state the parser is in and whatever becomes of the request (`checkRequest_carries`).
-/

namespace HttpProxy

/-- Bytes without the blanks. -/
def unblanked (l : List UInt8) : List UInt8 := l.filter fun c => !isBlank c

/-- What is passed on of a buffer by reading it up to its first zero byte. -/
def Buffer.front (b : Buffer) : List UInt8 := passedOn (b.cells.takeWhile fun x => x.1 != 0)

theorem unblanked_append (l m : List UInt8) : unblanked (l ++ m) = unblanked l ++ unblanked m :=
  List.filter_append ..

/-- Without the blanks less of a sequence is still less. -/
theorem unblanked_sublist {l m : List UInt8} (h : l.Sublist m) : (unblanked l).Sublist (unblanked m) :=
  h.filter _

/-- A blank is left out, whether it is written or not. -/
theorem unblanked_echoed {x : Cell} (h : isBlank x.1 = true) : unblanked (echoed true x) = [] := by
  obtain ⟨c, reserved⟩ := x
  cases reserved with
  | true => rfl
  | false => exact List.filter_cons_of_neg (ne_true_of_eq_false (congrArg not h))

theorem sublist_unblanked (l : List UInt8) : (unblanked l).Sublist l := List.filter_sublist

section Front

variable {b : Buffer}

/-- Nothing is in front of a zero byte, or of the end. -/
theorem front_of_peek (h : bufferPeek b = 0) : b.front = [] := by
  unfold Buffer.front
  cases hcells : b.cells with
  | nil => rfl
  | cons x l =>
    have hx : (x.1 != 0) = false := by
      rw [← Buffer.peek_cons hcells, h]
      rfl
    rw [List.takeWhile_cons_of_neg (by rw [hx]; exact Bool.false_ne_true)]
    rfl

/-- A byte that is there is passed on in front of the others. -/
theorem front_of_cons {x : Cell} {l : List Cell} (h : b.cells = x :: l) (hx : x.1 ≠ 0) :
    b.front = echoed true x ++ (bufferRead b).2.front := by
  unfold Buffer.front
  rw [Buffer.cells_read h, h, List.takeWhile_cons_of_pos (p := fun x : Cell => x.1 != 0) (bne_iff_ne.mpr hx),
    passedOn_cons]

/-- Fresh bytes without a zero are all passed on. -/
theorem prefix_front {u v : List UInt8} (h : b.cells = fresh (u ++ v)) (hu : 0 ∉ u) : u <+: b.front := by
  unfold Buffer.front
  have hnonzero : ∀ x ∈ fresh u, (x.1 != 0) = true := by
    intro x hx
    obtain ⟨c, hc, rfl⟩ := List.mem_map.mp hx
    exact bne_iff_ne.mpr (ne_of_mem_of_not_mem hc hu)
  rw [h, fresh_append, List.takeWhile_append_of_pos hnonzero, passedOn_append, passedOn_fresh]
  exact List.prefix_append _ _

/-- The loop behind the parser passes on what is in front of the first zero byte. -/
theorem drain_front (hw : b.Wf) (post : Buffer) : (drain b post).2 = bufferWriteAll post b.front := by
  unfold Buffer.front
  by_cases hzero : ∃ x ∈ b.cells, x.1 = 0
  · obtain ⟨l, reserved, m, hcells, hl⟩ := exists_first_zero hzero
    have hnonzero : ∀ x ∈ l, (x.1 != 0) = true := fun x hx => bne_iff_ne.mpr (hl x hx)
    rw [(drain_zero post hw hcells hl).2, hcells, List.takeWhile_append_of_pos hnonzero,
      List.takeWhile_cons_of_neg Bool.false_ne_true, List.append_nil]
  · have hnonzero : ∀ x ∈ b.cells, x.1 ≠ 0 := fun x hx h0 => hzero ⟨x, hx, h0⟩
    rw [(drain_nonzero post hw hnonzero).2.2.2,
      List.takeWhile_eq_self_iff.mpr fun x hx => bne_iff_ne.mpr (hnonzero x hx)]

/-- Pushing back leaves a buffer well formed, whatever is still to read. The induction is on the bytes. -/
theorem Buffer.Wf.pushBack (h : b.Wf) (p : List UInt8) : (b.pushBack p).Wf := by
  induction p with
  | nil => exact h
  | cons c p ih =>
    change (bufferWriteReverse (b.pushBack p) c).Wf
    unfold bufferWriteReverse
    split
    · next hread =>
      have hpos : 0 < (b.pushBack p).read := of_decide_eq_true hread
      obtain ⟨hinf, hlimit, -⟩ := ih
      refine ⟨?_, ?_, nofun⟩
      · unfold Buffer.write at hinf
        change (b.pushBack p).infLimit ≤ (b.pushBack p).read - 1 + ((b.pushBack p).bytes.length + 1)
        omega
      · unfold Buffer.write at hlimit
        change (b.pushBack p).read - 1 + ((b.pushBack p).bytes.length + 1) ≤ (b.pushBack p).limit
        omega
    · exact ih

end Front

/-! ## The utilities -/

/-- What was written, and what is still to be passed on, hold the bytes `l`. -/
structure Io.Carries (l : List UInt8) (io : Io) : Prop where
  wf : io.b.Wf
  carried : l.Sublist (unblanked (io.out ++ io.b.front))

/-- What was written holds the bytes `l`. -/
structure Io.Wrote (l : List UInt8) (io : Io) : Prop where
  wf : io.b.Wf
  written : l.Sublist (unblanked io.out)

section Utilities

variable {l : List UInt8} {io : Io}

theorem Io.Wrote.carries (h : io.Wrote l) : io.Carries l :=
  ⟨h.wf, h.written.trans (unblanked_sublist (List.sublist_append_left _ _))⟩

/-- In front of a zero byte, or of the end, everything was written. -/
theorem Io.Carries.wrote (h : io.Carries l) (hpeek : bufferPeek io.b = 0) : io.Wrote l := by
  have hcarried := h.carried
  rw [front_of_peek hpeek, List.append_nil] at hcarried
  exact ⟨h.wf, hcarried⟩

/-- What is pushed back was written. -/
theorem Io.Wrote.pushBack (h : io.Wrote l) (p : List UInt8) (e : Bool) :
    Io.Wrote l { io with b := io.b.pushBack p, isBufferEmpty := e } := ⟨h.wf.pushBack p, h.written⟩

/-- What is written besides takes nothing away. -/
theorem Io.Carries.write (h : io.Carries l) (w : List UInt8) : (writeToBuf w io).Carries l := by
  refine ⟨h.wf, h.carried.trans (unblanked_sublist ?_)⟩
  exact (List.sublist_append_left _ w).append_right _

/-- A byte is written when it is read. -/
theorem carries_readAndWrite (h : io.Carries l) :
    (readAndWrite io).2.Carries l ∧ ((readAndWrite io).1 = 0 → (readAndWrite io).2.Wrote l) := by
  cases hcells : io.b.cells with
  | nil =>
    rw [readAndWrite_nil ⟨h.wf, hcells⟩]
    exact ⟨h, fun _ => h.wrote (Buffer.peek_nil hcells)⟩
  | cons x rest =>
    by_cases hx : x.1 = 0
    · obtain ⟨c, reserved⟩ := x
      obtain rfl : c = 0 := hx
      have hwrote : Io.Wrote l { io with b := (bufferRead io.b).2 } :=
        ⟨Buffer.wf_read h.wf hcells, (h.wrote (Buffer.peek_cons hcells)).written⟩
      rw [readAndWrite_zero ⟨h.wf, hcells⟩]
      exact ⟨hwrote.carries, fun _ => hwrote⟩
    · rw [readAndWrite_cons ⟨h.wf, hcells⟩ hx]
      refine ⟨⟨Buffer.wf_read h.wf hcells, ?_⟩, fun h0 => absurd h0 hx⟩
      have hcarried := h.carried
      rw [front_of_cons hcells hx, ← List.append_assoc] at hcarried
      exact hcarried

/-- Comparing with a format writes what it reads, and stops in front of the byte it saw last. -/
theorem carries_matchFormatLoop (format : List UInt8) {i : Nat} {c : UInt8} (h : io.Carries l) :
    (matchFormatLoop true format i c io).2.2.2.Carries l ∧
      ((matchFormatLoop true format i c io).1 ≠ [] → (matchFormatLoop true format i c io).2.2.1 =
        peekUpChar (matchFormatLoop true format i c io).2.2.2.b) := by
  induction format generalizing i c io with
  | nil => exact ⟨h, fun hne => absurd rfl hne⟩
  | cons f format ih =>
    rw [matchFormatLoop]
    split
    · exact ⟨h, fun _ => rfl⟩
    · exact ih (carries_readAndWrite h).1

theorem carries_matchFormat (format pre : List UInt8) (h : io.Carries l) :
    (matchFormat format pre io).2.Carries l := by
  have hloop := carries_matchFormatLoop format (i := 0) (c := 0) h
  unfold matchFormat matchFormatWith
  generalize matchFormatLoop true format 0 0 io = r at hloop ⊢
  obtain ⟨rest, i, c, io'⟩ := r
  dsimp only
  split
  · next hend =>
    -- Out of input all of it was written, and what matched of it is pushed back.
    have hpeek : bufferPeek io'.b = 0 := toupper_eq_zero.mp ((hloop.2 hend.1).symm.trans hend.2)
    exact (((hloop.1.wrote hpeek).pushBack _ true).pushBack _ true).carries
  · exact hloop.1

/-- Digits are written as they are read. -/
theorem carries_numberLoop (fuel : Nat) (n : Int) (h : io.Carries l) :
    (numberLoop .dec true fuel n io).2.Carries l := by
  induction fuel generalizing n io with
  | zero => exact h
  | succ fuel ih =>
    rw [numberLoop]
    split
    · exact ih _ (carries_readAndWrite h).1
    · exact h

/-- A number is written as it is read; out of input all was written. -/
theorem carries_getNumber (pre : List UInt8) (h : io.Carries l) :
    (getNumber pre io).2.Carries l ∧
      (io.isBufferEmpty = false → (getNumber pre io).2.isBufferEmpty = true → (getNumber pre io).2.Wrote l) := by
  unfold getNumber getNumberWith
  dsimp only
  split
  · exact ⟨h, fun hfalse htrue => Bool.noConfusion (hfalse.symm.trans htrue)⟩
  · have hloop := carries_numberLoop io.b.bytes.length 0 h
    have hflag := (numberLoop_consumes .dec true io.b.bytes.length 0 io).empty
    split
    · next hpeek =>
      suffices hwrote : Io.Wrote l _ from ⟨hwrote.carries, fun _ _ => hwrote⟩
      exact ((hloop.wrote hpeek).pushBack _ true).pushBack _ true
    · exact ⟨hloop, fun hfalse htrue => Bool.noConfusion (hfalse.symm.trans (hflag.symm.trans htrue))⟩

/-- Only blanks are left out where blanks are skipped. -/
theorem carries_moveThroughSpaces (h : io.Carries l) :
    Io.Carries l { io with b := (moveThroughSpaces io.b).2 } := by
  unfold moveThroughSpaces
  generalize io.b.bytes.length = fuel
  obtain ⟨b, out, e⟩ := io
  induction fuel generalizing b with
  | zero => exact h
  | succ fuel ih =>
    rw [moveThroughSpacesLoop]
    dsimp only
    split
    · next hblank =>
      refine ih (bufferRead b).2 ?_
      cases hcells : b.cells with
      | nil =>
        rw [Buffer.peek_nil hcells] at hblank
        exact absurd hblank (by decide)
      | cons x rest =>
        rw [Buffer.peek_cons hcells] at hblank
        have hx : x.1 ≠ 0 := by
          intro h0
          rw [h0] at hblank
          exact absurd hblank (by decide)
        have hcarried : l.Sublist (unblanked (out ++ b.front)) := h.carried
        rw [front_of_cons hcells hx, unblanked_append, unblanked_append, unblanked_echoed hblank, List.nil_append,
          ← unblanked_append] at hcarried
        exact ⟨Buffer.wf_read h.wf hcells, hcarried⟩
    · exact h

end Utilities

/-! ## The functions of the parser -/

namespace ReqState

/-- The parser's input and output hold the bytes. -/
abbrev Carries (l : List UInt8) (s : ReqState) : Prop := s.io.Carries l

end ReqState

section Functions

variable {l : List UInt8} {s : ReqState}

theorem carries_checkSpaces (h : s.Carries l) : (checkSpaces s).2.Carries l := by
  have hmove := carries_moveThroughSpaces h
  unfold checkSpaces
  dsimp only
  split
  · exact ⟨hmove.wf, hmove.carried⟩
  · exact hmove.write [SP]

/-- Each method is compared with what is there. The induction is on the methods. -/
theorem carries_extractHttpMethodLoop (c : UInt8) (opts : List (List UInt8 × HttpMethod)) (m : HttpMethod)
    {io : Io} (h : io.Carries l) : (extractHttpMethodLoop c opts m io).2.Carries l := by
  induction opts generalizing io with
  | nil => exact h
  | cons o opts ih =>
    obtain ⟨name, type⟩ := o
    have hmatch := carries_matchFormat name.tail [c] h
    rw [extractHttpMethodLoop]
    split
    · generalize matchFormat name.tail [c] io = r at hmatch ⊢
      dsimp only
      split
      · exact hmatch
      · split
        · exact hmatch
        · exact ih hmatch
    · exact ih h

theorem carries_extractHttpMethod (h : s.Carries l) : (extractHttpMethod s).2.Carries l := by
  have hread := (carries_readAndWrite h).1
  unfold extractHttpMethod
  dsimp only
  split
  · exact ⟨hread.wf, hread.carried⟩
  · exact carries_extractHttpMethodLoop _ _ _ hread

/-- A target is written as it is read. The induction is on the fuel. -/
theorem carries_cleanRelativeUriLoop (fuel : Nat) {io : Io} (h : io.Carries l) :
    (cleanRelativeUriLoop fuel io).2.Carries l := by
  induction fuel generalizing io with
  | zero => exact h
  | succ fuel ih =>
    rw [cleanRelativeUriLoop]
    split
    · exact ih (carries_readAndWrite h).1
    · exact h

theorem carries_cleanRelativeUri (h : s.Carries l) : (cleanRelativeUri s).2.Carries l := by
  have hloop := carries_cleanRelativeUriLoop s.io.b.bytes.length h
  unfold cleanRelativeUri
  dsimp only
  split
  · exact ⟨hloop.wf, hloop.carried⟩
  · exact hloop

/-- A host is written as it is read. The induction is on the fuel. -/
theorem carries_hostLoop (userinfo : Bool) (fuel : Nat) {t : HostLoop} (h : t.io.Carries l) :
    (hostLoop userinfo fuel t).io.Carries l := by
  induction fuel generalizing t with
  | zero => exact h
  | succ fuel ih =>
    rw [hostLoop]
    dsimp only
    split
    · split
      · exact h
      · split
        · exact ih (carries_readAndWrite h).1
        · split
          · exact ih (carries_readAndWrite h).1
          · exact h
    · exact h

/-- A host that a zero ended is in front of it. The induction is on the fuel. -/
theorem peek_hostLoop (userinfo : Bool) (fuel : Nat) {t : HostLoop}
    (ht : t.c ≠ 0 ∨ 0 < fuel ∧ t.i < HOST_MAX_SIZE) (h : (hostLoop userinfo fuel t).c = 0) :
    bufferPeek (hostLoop userinfo fuel t).io.b = 0 := by
  induction fuel generalizing t with
  | zero => exact absurd h (ht.resolve_right fun hpos => Nat.lt_irrefl 0 hpos.1)
  | succ fuel ih =>
    rw [hostLoop] at h ⊢
    dsimp only at h ⊢
    split at h
    · next hi =>
      rw [dif_pos hi]
      split at h
      · next hc =>
        rw [if_pos hc]
        exact tolower_eq_zero.mp hc
      · next hc =>
        rw [if_neg hc]
        split at h
        · next hchar =>
          rw [if_pos hchar]
          exact ih (.inl hc) h
        · next hchar =>
          rw [if_neg hchar]
          split at h
          · next hat =>
            rw [if_pos hat]
            exact ih (.inl hc) h
          · exact absurd h hc
    · next hi => exact absurd h (ht.resolve_right fun hpos => hi hpos.2)

/-- Out of input in front of the end of a port all was written. -/
theorem carries_readPort (c : UInt8) (h : s.Carries l) :
    (readPort c s).2.Carries l ∧ (s.io.isBufferEmpty = false →
      (readPort c s).2.io.isBufferEmpty = true → (readPort c s).2.io.Wrote l) := by
  unfold readPort
  split
  · have hport := carries_getNumber (lit ":") (carries_readAndWrite h).1
    have hflag : (readAndWrite s.io).2.isBufferEmpty = s.io.isBufferEmpty := rfl
    rw [hflag] at hport
    generalize getNumber (lit ":") (readAndWrite s.io).2 = r at hport ⊢
    obtain ⟨port, io⟩ := r
    cases port with
    | none => exact hport
    | some port => exact hport
  · exact ⟨h, fun hfalse htrue => Bool.noConfusion (hfalse.symm.trans htrue)⟩

/-- A host and its port are written as they are read, and pushed back only when all was written. -/
theorem carries_readHost (userinfo : Bool) (h : s.Carries l) (hflag : s.io.isBufferEmpty = false) :
    (readHost userinfo s).2.Carries l := by
  have hloop := carries_hostLoop userinfo (s.io.b.bytes.length + 1) (t := ⟨0, 0, s.rData.host, s.io⟩) h
  have hpeek := peek_hostLoop userinfo (s.io.b.bytes.length + 1) (t := ⟨0, 0, s.rData.host, s.io⟩)
    (.inr ⟨Nat.zero_lt_succ _, host_max_size_pos⟩)
  have hempty := (hostLoop_consumes userinfo (s.io.b.bytes.length + 1) ⟨0, 0, s.rData.host, s.io⟩).empty
  unfold readHost
  dsimp only
  generalize hostLoop userinfo (s.io.b.bytes.length + 1) ⟨0, 0, s.rData.host, s.io⟩ = t
    at hloop hpeek hempty ⊢
  have hport := carries_readPort t.c (s := s.withHost t) hloop
  split
  · next hend =>
    suffices hwrote : (readPort t.c (s.withHost t)).2.io.Wrote l from (hwrote.pushBack _ true).carries
    rcases hend with hzero | ⟨-, hend⟩
    · have hsame : readPort t.c (s.withHost t) = (true, s.withHost t) :=
        if_neg fun hcolon => absurd (hzero.symm.trans hcolon) (by decide)
      rw [hsame]
      exact hloop.wrote (hpeek hzero)
    · exact hport.2 (hempty.trans hflag) hend
  · exact hport.1

theorem carries_checkUriForHost (h : s.Carries l) (hflag : s.io.isBufferEmpty = false) :
    (checkUriForHost s).2.Carries l := by
  have hread := carries_readHost true h hflag
  unfold checkUriForHost
  generalize readHost true s = r at hread ⊢
  obtain ⟨_ | ⟨i, valid⟩, s'⟩ := r
  · exact hread
  · exact hread

theorem carries_extractHost (h : s.Carries l) (hflag : s.io.isBufferEmpty = false) :
    (extractHost s).2.Carries l := by
  have hread := carries_readHost false h hflag
  unfold extractHost
  generalize readHost false s = r at hread ⊢
  obtain ⟨_ | ⟨i, valid⟩, s'⟩ := r
  · exact hread
  · exact hread

/-- What is behind a target that is not absolute is passed over as it is written. -/
theorem carries_checkUriRelative (h : s.Carries l) : (checkUriRelative s).2.Carries l :=
  carries_cleanRelativeUri (s := s.goto .RELATIVE_URI) h

theorem carries_checkUri (h : s.Carries l) (hflag : s.io.isBufferEmpty = false) :
    (checkUri s).2.Carries l := by
  have hhttp := carries_matchFormat (lit "HTTP") [] h
  have hconsumed := matchFormat_consumes (lit "HTTP") [] s.io
  unfold checkUri
  generalize matchFormat (lit "HTTP") [] s.io = r at hhttp hconsumed ⊢
  obtain ⟨http, io⟩ := r
  dsimp only at hhttp hconsumed ⊢
  split
  · next hok =>
    have hsep := carries_matchFormat (lit "://") (lit "HTTP") hhttp
    have hconsumed' := matchFormat_consumes (lit "://") (lit "HTTP") io
    generalize matchFormat (lit "://") (lit "HTTP") io = r' at hsep hconsumed' ⊢
    obtain ⟨sep, io'⟩ := r'
    dsimp only at hsep hconsumed' ⊢
    split
    · next hok' =>
      have hflag' : io'.isBufferEmpty = false :=
        (hconsumed' (.inl hok')).empty.trans ((hconsumed (.inl hok)).empty.trans hflag)
      have hhost := carries_checkUriForHost (s := ({ s with io := io' } : ReqState).goto .URI_HOST) hsep hflag'
      generalize checkUriForHost (({ s with io := io' } : ReqState).goto .URI_HOST) = u at hhost ⊢
      split
      · exact hhost
      · split
        · exact hhost
        · exact carries_checkUriRelative hhost
    · split
      · exact hsep
      · exact carries_checkUriRelative (s := { s with io := io' }) hsep
  · split
    · exact hhttp
    · exact carries_checkUriRelative (s := { s with io := io }) hhttp

theorem carries_extractHttpVersion (h : s.Carries l) : (extractHttpVersion s).2.Carries l := by
  have hmatch := carries_matchFormat (lit "HTTP/1.") [] h
  unfold extractHttpVersion
  generalize matchFormat (lit "HTTP/1.") [] s.io = r at hmatch ⊢
  obtain ⟨ok, io⟩ := r
  dsimp only at hmatch ⊢
  split
  · have hread := carries_readAndWrite hmatch
    split
    · exact hread.1
    · next hzero => exact ((hread.2 (not_not.mp hzero)).pushBack _ true).carries
  · split
    · exact hmatch
    · exact hmatch

theorem carries_checkLocalHost (h : s.Carries l) : (checkLocalHost s).2.Carries l := by
  have hmatch := carries_matchFormat (lit "X-LOCALHOST:") [] h
  unfold checkLocalHost
  dsimp only
  split
  · exact ⟨h.wf, h.carried⟩
  · split
    · exact h.write _
    · generalize matchFormat (lit "X-LOCALHOST:") [] s.io = r at hmatch ⊢
      split
      · exact hmatch
      · split
        · exact hmatch
        · exact hmatch

/-- The headers are written as they are read. The induction is on the fuel. -/
theorem carries_checkHostHeaderLoop (fuel : Nat) {io : Io} (h : io.Carries l) :
    (checkHostHeaderLoop fuel io).2.Carries l := by
  induction fuel generalizing io with
  | zero => exact h
  | succ fuel ih =>
    have hread := (carries_readAndWrite h).1
    rw [checkHostHeaderLoop]
    generalize readAndWrite io = r at hread ⊢
    dsimp only
    split
    · exact hread
    · split
      · have hname := carries_matchFormat (lit "OST:") (lit "H") hread
        generalize matchFormat (lit "OST:") (lit "H") r.2 = m at hname ⊢
        split
        · exact hname
        · split
          · exact hname
          · exact ih hname
      · split
        · have hlf := carries_matchFormat [LF] [CR] hread
          have hend : (checkHeadersEnd r.2).2.Carries l := by
            unfold checkHeadersEnd checkLF
            generalize matchFormat [LF] [CR] r.2 = m at hlf ⊢
            dsimp only
            split
            · exact carries_matchFormat [CR, LF] [CR, LF] hlf
            · exact hlf
          generalize checkHeadersEnd r.2 = m at hend ⊢
          split
          · exact hend
          · split
            · exact hend
            · exact ih hend
        · exact ih hread

theorem carries_checkHostHeader (h : s.Carries l) : (checkHostHeader s).2.Carries l := by
  have hloop := carries_checkHostHeaderLoop (s.io.b.bytes.length + 1) h
  unfold checkHostHeader
  generalize checkHostHeaderLoop (s.io.b.bytes.length + 1) s.io = r at hloop ⊢
  obtain ⟨fin, io⟩ := r
  cases fin with
  | hostHeader => exact hloop
  | headersEnd => exact hloop
  | bufferEmpty => exact ⟨hloop.wf, hloop.carried⟩

/-! ## A call -/

/-- A case holds what its function does. -/
theorem carries_checkCase {r : Bool × ReqState} (h : r.2.Carries l) {next : ReqState → ReqState}
    (hnext : ∀ s, (next s).io = s.io) : (checkCase r next).2.Carries l := by
  unfold checkCase
  split
  · exact h
  · exact (congrArg (Io.Carries l) (hnext r.2)).mpr h

theorem carries_hostCase {r : Bool × ReqState} (h : r.2.Carries l) {otherwise : ReqState → ReqState}
    (hother : ∀ s, (otherwise s).io = s.io) : (hostCase r otherwise).2.Carries l := by
  unfold hostCase
  split
  · exact h
  · split
    · exact h
    · exact (congrArg (Io.Carries l) (hother r.2)).mpr h

theorem carries_localHostCase {r : Bool × ReqState} (h : r.2.Carries l) : (localHostCase r).2.Carries l := by
  unfold localHostCase
  split
  · exact h
  · split
    · exact h
    · exact h

/-- An iteration leaves nothing out. The cases are the states. -/
theorem carries_iteration (h : s.Carries l) (hflag : s.io.isBufferEmpty = false) :
    (iteration s).2.Carries l := by
  unfold iteration
  split
  · exact carries_checkCase (carries_checkSpaces h) fun _ => rfl
  · exact carries_checkCase (carries_extractHttpMethod h) fun _ => rfl
  · exact carries_hostCase (carries_checkUri h hflag) fun _ => rfl
  · exact carries_hostCase (carries_checkUriForHost h hflag) fun _ => rfl
  · exact carries_checkCase (carries_cleanRelativeUri h) fun _ => rfl
  · exact carries_checkCase (carries_extractHttpVersion h) fun _ => rfl
  · exact carries_checkCase (r := checkStartLineEnd s) (carries_matchFormat [CR, LF] [] h) fun _ => rfl
  · exact carries_localHostCase (carries_checkLocalHost h)
  · exact carries_checkCase (carries_checkHostHeader h) fun _ => rfl
  · exact carries_hostCase (carries_extractHost h hflag) fun _ => rfl
  · exact h

/-- The loop leaves nothing out. The induction is on its iterations, of which each but the last leaves the
flag clear. -/
theorem carries_requestLoop {fuel : Nat} {r : Bool × ReqState} (h : s.Carries l) (hs : s.Running)
    (hloop : requestLoop fuel s = some r) : r.2.Carries l := by
  refine Loop.run_induction (P := fun s r => s.Running → s.Carries l → r.2.Carries l) ?_ ?_ hloop hs h
  · intro s r hend hs h
    unfold loopBody at hend
    dsimp only at hend
    split at hend
    · cases hend
    · obtain rfl := Sum.inr.inj hend
      exact carries_iteration h hs.2
  · intro s s' r hgo ih hs h
    obtain ⟨-, hs'⟩ := loopBody_eq_inl.mp hgo
    have hrunning : s'.Running := by
      by_cases hstuck : s.Stuck
      · obtain rfl := Sum.inl.inj (hgo.symm.trans (loopBody_stuck s hs hstuck))
        exact hs
      · exact (loopBody_progress s s' hs hstuck hgo).1
    exact ih hrunning (hs' ▸ carries_iteration h hs.2)

variable {rd : RequestData} {bIn bOut : Buffer} {r : RequestResult}

/-- What a call of `checkRequest` and the loop behind it have to write. -/
def reqPassed (rd : RequestData) (bIn : Buffer) : List UInt8 :=
  (checkRequestInner (requestFuel bIn) (callStart rd bIn)).elim [] fun r => r.2.io.out ++ r.2.io.b.front

/-- Of all that is to read in front of the first zero byte nothing but blanks is left out. -/
theorem checkRequest_carries (hw : rd.Wf) (hwf : bIn.Wf) (h : checkRequest rd bIn bOut = some r) :
    r.bIn.Wf ∧ (drain r.bIn r.bOut).2 = bufferWriteAll bOut (reqPassed rd bIn) ∧
      (unblanked bIn.front).Sublist (reqPassed rd bIn) := by
  have hstart : (callStart rd bIn).Carries (unblanked bIn.front) := ⟨hwf, .refl _⟩
  unfold checkRequest at h
  obtain ⟨u, hu, rfl⟩ := Option.map_eq_some_iff.mp h
  have hpassed : reqPassed rd bIn = u.2.io.out ++ u.2.io.b.front := by
    unfold reqPassed
    rw [hu]
    rfl
  obtain ⟨x, hloop, rfl⟩ := Option.map_eq_some_iff.mp hu
  have hcarries : (reportError x).2.Carries (unblanked bIn.front) := by
    have hx := carries_requestLoop hstart (running_callStart hw bIn) hloop
    unfold reportError
    split
    · exact hx
    · exact hx
  rw [hpassed]
  refine ⟨hcarries.wf, ?_, hcarries.carried.trans (sublist_unblanked _)⟩
  rw [drain_front hcarries.wf, Buffer.writeAll_append]

/-- A parser at its end leaves it all to the loop behind it. -/
theorem reqPassed_of_finished (hp : rd.parserState = .FINISHED) : reqPassed rd bIn = bIn.front := by
  have hreturns : checkRequest rd bIn bIn ≠ none := checkRequest_ne_none hp
  obtain ⟨r, hr⟩ := Option.ne_none_iff_exists'.mp hreturns
  obtain ⟨x, hloop, -⟩ := checkRequest_eq_some_iff.mp hr
  have hx := (announcesOnce_requestLoop hloop).1 hp
  unfold reqPassed checkRequestInner
  rw [show requestLoop (requestFuel bIn) { callStart rd bIn with
    io := { (callStart rd bIn).io with isBufferEmpty := false } } = some x from hloop, hx]
  rfl

end Functions

end HttpProxy
