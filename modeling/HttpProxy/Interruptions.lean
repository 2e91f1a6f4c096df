import HttpProxy.MyParserUtilsSpec

/-!
# Calls interrupted by the end of the input

A utility that runs out of input pushes back what it read, or something that stands for it, and the
next call starts over on that and on what has arrived meanwhile. Starting over is going on where the
two calls together give what one call gives on all of the input (`Resumes`).

What a call gives is a function of the readable cells and of the size of the reserved zone
(`Outcome`), so the law is one between lists of cells. It holds for formats, which are pushed back
as they are. A number is pushed back as the digits of the value read so far, and an empty beginning
of a number as the digit `0`: a call that found nothing at all to read leaves a number behind, and
the next one no longer refuses an input that does not start with a digit.
-/

namespace HttpProxy

/-! ## What a call gives -/

/-- What a call returns, the cells it leaves to read, the bytes it writes and whether it ran out of
input. -/
structure Outcome (α : Type*) where
  result : α
  cells : List Cell
  written : List UInt8
  short : Bool

/-- The call from `io` that ended with `r` gave the outcome `o`. -/
structure Io.Gives {α : Type*} (io : Io) (r : α × Io) (o : Outcome α) : Prop where
  result : r.1 = o.result
  shows_ : r.2.Shows o.cells
  out : r.2.out = io.out ++ o.written
  flag : r.2.isBufferEmpty = (io.isBufferEmpty || o.short)
  keeps : io.b.Keeps r.2.b

/-- The bytes written when cells are read. -/
def echoedAll (echo : Bool) (l : List Cell) : List UInt8 := l.flatMap (echoed echo)

/-- Cells read one after the other write what they write at once. -/
theorem echoedAll_append (echo : Bool) (l m : List Cell) :
    echoedAll echo (l ++ m) = echoedAll echo l ++ echoedAll echo m := List.flatMap_append

@[simp] theorem echoedAll_pushedBack (echo : Bool) (p : List UInt8) :
    echoedAll echo (pushedBack p) = [] := by
  unfold echoedAll pushedBack
  rw [List.flatMap_map]
  exact List.flatMap_eq_nil_iff.mpr fun c _ => echoed_pushedBack echo c

/-- Bytes that are not zero are not in fresh cells either. -/
theorem ne_zero_of_mem_fresh {v : List UInt8} (h : 0 ∉ v) : ∀ x ∈ fresh v, x.1 ≠ 0 := by
  intro x hx h0
  obtain ⟨c, hc, rfl⟩ := List.mem_map.mp hx
  exact h (h0 ▸ hc)

theorem ne_zero_of_mem_pushedBack {q : List UInt8} (h : 0 ∉ q) : ∀ x ∈ pushedBack q, x.1 ≠ 0 := by
  intro x hx h0
  obtain ⟨c, hc, rfl⟩ := List.mem_map.mp hx
  exact h (h0 ▸ hc)

/-- The cells of a buffer without zero bytes have none. -/
theorem Buffer.ne_zero_of_mem_cells {b : Buffer} (h : 0 ∉ b.bytes) : ∀ x ∈ b.cells, x.1 ≠ 0 := by
  intro x hx h0
  exact h (Buffer.map_fst_cells b ▸ h0 ▸ List.mem_map_of_mem hx)

/-- `io'` is `io` with the cells `l` read and the rest `l'` of them left. -/
structure Io.Passes (echo : Bool) (io io' : Io) (l l' : List Cell) : Prop where
  shows_ : io'.Shows l'
  out : io'.out = io.out ++ echoedAll echo l
  flag : io'.isBufferEmpty = io.isBufferEmpty
  keeps : io.b.Keeps io'.b

namespace Io.Passes

variable {echo : Bool} {io io' io'' : Io} {x : Cell} {k k' l l' : List Cell}

theorem refl (echo : Bool) (h : io.Shows l) : io.Passes echo io [] l :=
  ⟨h, (List.append_nil _).symm, rfl, Buffer.Keeps.refl _⟩

/-- Reading a byte that is there passes one cell. -/
theorem read (echo : Bool) (h : io.Shows (x :: l)) (hx : x.1 ≠ 0) :
    io.Passes echo (readByte echo io) [x] l := by
  rw [readByte_cons echo h hx]
  refine ⟨h.read _ _, ?_, rfl, Buffer.keeps_read h.wf⟩
  rw [echoedAll, List.flatMap_singleton]

/-- Cells passed one after the other are passed at once. -/
theorem trans (h : io.Passes echo io' k l) (h' : io'.Passes echo io'' k' l') :
    io.Passes echo io'' (k ++ k') l' :=
  ⟨h'.shows_, by rw [h'.out, h.out, echoedAll_append, List.append_assoc], h'.flag.trans h.flag,
    h.keeps.trans h'.keeps⟩

/-- Cells read without running out of input. -/
theorem gives {α : Type*} (h : io.Passes echo io' k l) (a : α) :
    io.Gives (a, io') ⟨a, l, echoedAll echo k, false⟩ :=
  ⟨rfl, h.shows_, h.out, h.flag.trans (Bool.or_false _).symm, h.keeps⟩

/-- Everything was read, and `p` pushed back. -/
theorem gives_short {α : Type*} (h : io.Passes echo io' k []) (a : α) (p : List UInt8) :
    io.Gives (a, { io' with b := io'.b.pushBack p, isBufferEmpty := true })
      ⟨a, pushedBack (Buffer.clip io.b.infLimit p), echoedAll echo k, true⟩ :=
  ⟨rfl, h.keeps.infLimit ▸ h.shows_.pushBack p _ _, h.out, (Bool.or_true _).symm,
    h.keeps.trans (Buffer.keeps_pushBack h.shows_.wf h.shows_.cells p)⟩

end Io.Passes

/-! ## Formats

The characters of a format are `char`s, and whether these can be negative is left to the platform. -/

/-- `toupper` of a character: the capital of its byte, or a negative number where the platform has it
negative. -/
structure CharReading where
  up : UInt8 → Int
  up_eq : ∀ f, up f = (toupper f).toNat ∨ 0x80 ≤ f ∧ up f < 0

/-- Characters that are bytes. -/
def CharReading.bytes : CharReading := ⟨fun f => (toupper f).toNat, fun _ => .inl rfl⟩

/-- Characters over 127 that are negative, and that `toupper` leaves as they are. -/
def CharReading.signed : CharReading where
  up f := if f < 0x80 then (toupper f).toNat else f.toNat - 256
  up_eq f := by
    split
    · exact .inl rfl
    · next hf =>
      have hlt := f.toNat_lt
      exact .inr ⟨UInt8.not_lt.mp hf, by omega⟩

variable (p : CharReading)

def matchFormatLoopOn (echo : Bool) : List UInt8 → Nat → UInt8 → Io → List UInt8 × Nat × UInt8 × Io
  | [], i, c, io => ([], i, c, io)
  | f :: format, i, _, io =>
    let c := peekUpChar io.b
    if (c.toNat : Int) ≠ p.up f then (f :: format, i, c, io)
    else matchFormatLoopOn echo format (i + 1) c (readByte echo io)

/-- `matchFormat` and `simpleMatchFormat`, for any format. -/
def matchFormatOn (echo : Bool) (format pre : List UInt8) (io : Io) : Bool × Io :=
  let (rest, i, c, io) := matchFormatLoopOn p echo format 0 0 io
  if rest ≠ [] ∧ c = 0 then
    (false,
      { io with
        b := writePrefix (writeToBufReverse format io.b i) pre
        isBufferEmpty := true })
  else (rest.isEmpty, io)

variable {p}

/-- Two bytes are the same in capitals exactly when their numbers are. -/
theorem toNat_toupper_eq {c f : UInt8} : ((toupper c).toNat : Int) = (toupper f).toNat ↔
    toupper c = toupper f := by
  rw [Int.natCast_inj, UInt8.toNat_inj]

/-- On a format of characters that no platform has negative, these are the functions of the
parsers. -/
theorem matchFormatOn_of_ascii (echo : Bool) {format : List UInt8}
    (h : ∀ f ∈ format, p.up f = (toupper f).toNat) (pre : List UInt8) (io : Io) :
    matchFormatOn p echo format pre io = matchFormatWith echo format pre io := by
  suffices hloop : ∀ (rest : List UInt8) (i : Nat) (c : UInt8) (io : Io),
      (∀ f ∈ rest, p.up f = (toupper f).toNat) →
      matchFormatLoopOn p echo rest i c io = matchFormatLoop echo rest i c io by
    unfold matchFormatOn matchFormatWith
    rw [hloop format 0 0 io h]
  intro rest
  induction rest with
  | nil => intro _ _ _ _; rfl
  | cons f rest ih =>
    intro i c io hup
    have hiff : ((peekUpChar io.b).toNat : Int) ≠ p.up f ↔ peekUpChar io.b ≠ toupper f := by
      rw [hup f List.mem_cons_self]
      exact not_congr toNat_toupper_eq
    rw [matchFormatLoopOn, matchFormatLoop, ih _ _ _ fun g hg => hup g (List.mem_cons_of_mem f hg)]
    simp only [hiff]

variable (p) in
/-- How many of the bytes to read match the format. -/
def matchedOn : List UInt8 → List UInt8 → Nat
  | f :: format, c :: l => if ((toupper c).toNat : Int) = p.up f then matchedOn format l + 1 else 0
  | _, _ => 0

variable (p) in
/-- The input `u` ends inside the format: all of it matches, and the format goes on. -/
def MatchRunsOut (format u : List UInt8) : Prop :=
  matchedOn p format u < format.length ∧ matchedOn p format u = u.length

variable (p) in
/-- What of the format the input `u` matches. -/
def matchedPart (format u : List UInt8) : List UInt8 := format.take (matchedOn p format u)

section Matched

variable {f c : UInt8} {format l : List UInt8}

/-- A byte that matches is counted, and the format goes on behind it. -/
theorem matchedOn_cons_of_eq (h : ((toupper c).toNat : Int) = p.up f) :
    matchedOn p (f :: format) (c :: l) = matchedOn p format l + 1 := if_pos h

/-- A byte that differs ends the match. -/
theorem matchedOn_cons_of_ne (h : ((toupper c).toNat : Int) ≠ p.up f) :
    matchedOn p (f :: format) (c :: l) = 0 := if_neg h

/-- What matches is no longer than the format and the input. -/
theorem matchedOn_le (format l : List UInt8) :
    matchedOn p format l ≤ format.length ∧ matchedOn p format l ≤ l.length := by
  induction format generalizing l with
  | nil => exact ⟨Nat.le_refl 0, Nat.zero_le _⟩
  | cons f format ih =>
    cases l with
    | nil => exact ⟨Nat.zero_le _, Nat.le_refl 0⟩
    | cons c l =>
      by_cases hc : ((toupper c).toNat : Int) = p.up f
      · rw [matchedOn_cons_of_eq hc]
        exact ⟨Nat.succ_le_succ (ih l).1, Nat.succ_le_succ (ih l).2⟩
      · rw [matchedOn_cons_of_ne hc]
        exact ⟨Nat.zero_le _, Nat.zero_le _⟩

/-- Behind bytes that all match, the rest of the format is matched with the rest of the bytes. -/
theorem matchedOn_append (h : matchedOn p format l = l.length) (m : List UInt8) :
    matchedOn p format (l ++ m) = l.length + matchedOn p (format.drop l.length) m := by
  induction l generalizing format with
  | nil => rw [List.nil_append, List.length_nil, Nat.zero_add, List.drop_zero]
  | cons c l ih =>
    cases format with
    | nil => exact absurd h.symm (Nat.succ_ne_zero _)
    | cons f format =>
      by_cases hc : ((toupper c).toNat : Int) = p.up f
      · rw [matchedOn_cons_of_eq hc] at h
        rw [List.cons_append, matchedOn_cons_of_eq hc, ih (Nat.succ.inj h), List.length_cons,
          List.drop_succ_cons, Nat.add_right_comm]
      · rw [matchedOn_cons_of_ne hc] at h
        exact absurd h.symm (Nat.succ_ne_zero _)

/-- What was matched of a format matches it. -/
theorem matchedOn_take (h : matchedOn p format l = l.length) :
    matchedOn p format (format.take l.length) = l.length := by
  induction l generalizing format with
  | nil => cases format <;> rfl
  | cons c l ih =>
    cases format with
    | nil => exact absurd h.symm (Nat.succ_ne_zero _)
    | cons f format =>
      by_cases hc : ((toupper c).toNat : Int) = p.up f
      · rw [matchedOn_cons_of_eq hc] at h
        have hf : ((toupper f).toNat : Int) = p.up f := by
          rcases p.up_eq f with hup | ⟨-, hneg⟩
          · exact hup.symm
          · omega
        rw [List.length_cons, List.take_succ_cons, matchedOn_cons_of_eq hf, ih (Nat.succ.inj h)]
      · rw [matchedOn_cons_of_ne hc] at h
        exact absurd h.symm (Nat.succ_ne_zero _)

end Matched

/-- Only the zero reads as a zero. -/
theorem CharReading.up_ne_zero {f : UInt8} (h : f ≠ 0) : p.up f ≠ 0 := by
  rcases p.up_eq f with hup | ⟨-, hneg⟩
  · rw [hup]
    intro h0
    have hzero : toupper f = 0 := UInt8.toNat_inj.mp (Int.natCast_inj.mp h0)
    exact h (toupper_eq_zero.mp hzero)
  · exact Int.ne_of_lt hneg

section Format

variable {format : List UInt8} {l : List Cell} {io : Io}

/-- The loop of `matchFormat` passes what matches. The induction is on the format. -/
theorem matchFormatLoopOn_passes (echo : Bool) (hf : 0 ∉ format) (hz : ∀ x ∈ l, x.1 ≠ 0) (i : Nat)
    (c : UInt8) (h : io.Shows l) :
    let k := matchedOn p format (l.map Prod.fst)
    let r := matchFormatLoopOn p echo format i c io
    io.Passes echo r.2.2.2 (l.take k) (l.drop k) ∧ r.1 = format.drop k ∧ r.2.1 = i + k ∧
      (k < format.length → (r.2.2.1 = 0 ↔ k = l.length)) := by
  induction format generalizing l i c io with
  | nil => exact ⟨Io.Passes.refl echo h, rfl, rfl, fun hlt => absurd hlt (Nat.lt_irrefl 0)⟩
  | cons f format ih =>
    obtain ⟨hf0, hf⟩ := not_or.mp (mt List.mem_cons.mpr hf)
    cases l with
    | nil =>
      have hup : ((peekUpChar io.b).toNat : Int) ≠ p.up f := by
        rw [peekUpChar, h.peek_nil]
        exact (CharReading.up_ne_zero (Ne.symm hf0)).symm
      have hpeek : peekUpChar io.b = 0 := by rw [peekUpChar, h.peek_nil, toupper_zero]
      simp only [matchFormatLoopOn, hup, ne_eq, not_false_eq_true, if_true, List.map_nil]
      exact ⟨Io.Passes.refl echo h, rfl, rfl, fun _ => iff_of_true hpeek rfl⟩
    | cons x l =>
      have hx := hz x List.mem_cons_self
      have hpeek : peekUpChar io.b = toupper x.1 := by rw [peekUpChar, h.peek]
      by_cases hc : ((toupper x.1).toNat : Int) = p.up f
      · have hread := Io.Passes.read echo h hx
        obtain ⟨hpasses, hrest, hi, hlast⟩ := ih hf (fun y hy => hz y (List.mem_cons_of_mem x hy))
          (i + 1) (toupper x.1) hread.shows_
        simp only [matchFormatLoopOn, hpeek, hc, ne_eq, not_true, if_false, List.map_cons,
          matchedOn_cons_of_eq hc, List.take_succ_cons, List.drop_succ_cons, List.length_cons,
          Nat.succ_inj, Nat.succ_lt_succ_iff]
        exact ⟨hread.trans hpasses, hrest, by rw [hi]; omega, hlast⟩
      · simp only [matchFormatLoopOn, hpeek, hc, ne_eq, not_false_eq_true, if_true, List.map_cons,
          matchedOn_cons_of_ne hc]
        refine ⟨Io.Passes.refl echo h, rfl, rfl, fun _ => iff_of_false ?_ (Nat.succ_ne_zero _).symm⟩
        exact fun h0 => hx (toupper_eq_zero.mp h0)

variable (p) in
/-- What `matchFormat` gives on the cells `l` when `k` characters of the format are matched, with `n`
bytes reserved. -/
def matchOutcome (echo : Bool) (format pre : List UInt8) (k n : Nat) (l : List Cell) : Outcome Bool :=
  let j := matchedOn p (format.drop k) (l.map Prod.fst)
  if k + j = format.length then ⟨true, l.drop j, echoedAll echo (l.take j), false⟩
  else if j = l.length then
    ⟨false, pushedBack (Buffer.clip n (pre ++ format.take (k + j))), echoedAll echo l, true⟩
  else ⟨false, l.drop j, echoedAll echo (l.take j), false⟩

/-- What `matchFormat` gives is a function of the cells. -/
theorem matchFormatOn_gives (echo : Bool) (pre : List UInt8) (hf : 0 ∉ format)
    (hz : ∀ x ∈ l, x.1 ≠ 0) (h : io.Shows l) :
    io.Gives (matchFormatOn p echo format pre io) (matchOutcome p echo format pre 0 io.b.infLimit l) := by
  obtain ⟨hpasses, hrest, hi, hlast⟩ := matchFormatLoopOn_passes (p := p) echo hf hz 0 0 h
  have hle := (matchedOn_le (p := p) format (l.map Prod.fst)).1
  unfold matchFormatOn matchOutcome
  rw [List.drop_zero]
  simp only [Nat.zero_add]
  generalize matchFormatLoopOn p echo format 0 0 io = r at hpasses hrest hi hlast ⊢
  generalize matchedOn p format (l.map Prod.fst) = k at hpasses hrest hi hlast hle ⊢
  by_cases hall : k = format.length
  · have hnil : r.1 = [] := by rw [hrest, hall, List.drop_length]
    rw [if_neg fun hc => hc.1 hnil, if_pos hall, hnil]
    exact hpasses.gives true
  · have hlt : k < format.length := Nat.lt_of_le_of_ne hle hall
    have hne : r.1 ≠ [] := by
      rw [hrest, ne_eq, List.drop_eq_nil_iff]
      exact Nat.not_le.mpr hlt
    rw [if_neg hall]
    by_cases hend : k = l.length
    · rw [if_pos ⟨hne, (hlast hlt).mpr hend⟩, if_pos hend, writeToBufReverse, writePrefix_eq, hi,
        Nat.zero_add]
      rw [hend, List.take_length, List.drop_length] at hpasses
      rw [hend]
      exact hpasses.gives_short false _
    · rw [if_neg fun hc => hend ((hlast hlt).mp hc.2), if_neg hend, List.isEmpty_eq_false_iff.mpr hne]
      exact hpasses.gives false

end Format

/-! ## Going on -/

/-- `v` arrives behind what is readable. -/
def Io.receive (v : List UInt8) (io : Io) : Io := { io with b := bufferWriteAll io.b v }

/-- The `n` bytes that a caller reads again. -/
def rereads (echo : Bool) : Nat → Io → Io
  | 0, io => io
  | n + 1, io => rereads echo n (readByte echo io)

/-- Two calls returned the same, leave the same bytes to read and have written the same. -/
structure Agrees {α : Type*} (r r' : α × Io) : Prop where
  result : r.1 = r'.1
  bytes : r.2.b.bytes = r'.2.b.bytes
  out : r.2.out = r'.2.out

/-- When a call of `f` from `io` has pushed back `pre` and more, and `v` arrives, then reading `pre` and
calling `f` again comes to what one call comes to when `v` arrives in time. -/
def Resumes {α : Type*} (f : Io → α × Io) (echo : Bool) (pre v : List UInt8) (io : Io) : Prop :=
  Agrees (f (rereads echo pre.length ((f io).2.receive v))) (f (io.receive v))

/-- What arrives can be read behind what is there. -/
theorem Io.Shows.receive {io : Io} {l : List Cell} {v : List UInt8} (h : io.Shows l)
    (hroom : io.b.write + v.length ≤ io.b.limit) : (io.receive v).Shows (l ++ fresh v) := by
  refine ⟨Buffer.wf_writeAll h.wf hroom, ?_⟩
  rw [Io.receive, Buffer.cells_writeAll h.wf hroom, h.cells]

/-- A word that was pushed back is passed again when it is read again. -/
theorem rereads_passes (echo : Bool) {pre : List UInt8} (hpre : 0 ∉ pre) {l : List Cell} {io : Io}
    (h : io.Shows (pushedBack pre ++ l)) :
    io.Passes echo (rereads echo pre.length io) (pushedBack pre) l := by
  induction pre generalizing io with
  | nil => exact Io.Passes.refl echo h
  | cons c pre ih =>
    obtain ⟨hc, hpre⟩ := not_or.mp (mt List.mem_cons.mpr hpre)
    have hread := Io.Passes.read echo h (Ne.symm hc)
    exact hread.trans (ih hpre hread.shows_)

section Resuming

variable {α : Type*} {f : Io → α × Io} {F : Nat → List Cell → Outcome α} {pre q v : List UInt8}
  {l : List Cell} {io : Io}

/-- What the second call gives when the first one pushed back `pre` and `q`, and what one call gives on
everything. -/
theorem resumed_gives (echo : Bool)
    (hgives : ∀ (io : Io) (l : List Cell), (∀ x ∈ l, x.1 ≠ 0) → io.Shows l →
      io.Gives (f io) (F io.b.infLimit l))
    (hpre : 0 ∉ pre) (hq : 0 ∉ q) (hv : 0 ∉ v) (hz : ∀ x ∈ l, x.1 ≠ 0) (h : io.Shows l)
    (hroom : io.b.write + v.length ≤ io.b.limit)
    (hcells : (F io.b.infLimit l).cells = pushedBack (pre ++ q)) :
    let io' := rereads echo pre.length ((f io).2.receive v)
    io'.Gives (f io') (F io.b.infLimit (pushedBack q ++ fresh v)) ∧
      (io.receive v).Gives (f (io.receive v)) (F io.b.infLimit (l ++ fresh v)) ∧
      io'.out = io.out ++ (F io.b.infLimit l).written := by
  have hfresh := ne_zero_of_mem_fresh hv
  have hback := ne_zero_of_mem_pushedBack hq
  have hfirst := hgives io l hz h
  have hshows : (f io).2.Shows (pushedBack (pre ++ q)) := hcells ▸ hfirst.shows_
  have hreceive := hshows.receive (v := v) (by
    have hwrite := hfirst.keeps.write
    have hlimit := hfirst.keeps.limit
    omega)
  rw [pushedBack_append, List.append_assoc] at hreceive
  have hreads := rereads_passes echo hpre hreceive
  have hinf : (rereads echo pre.length ((f io).2.receive v)).b.infLimit = io.b.infLimit := by
    rw [hreads.keeps.infLimit]
    exact (Buffer.infLimit_writeAll _ _).trans hfirst.keeps.infLimit
  have hsecond := hgives _ _ (fun x hx => (List.mem_append.mp hx).elim (hback x) (hfresh x)) hreads.shows_
  have hwhole := hgives _ _ (fun x hx => (List.mem_append.mp hx).elim (hz x) (hfresh x))
    (h.receive hroom)
  rw [hinf] at hsecond
  rw [show (io.receive v).b.infLimit = io.b.infLimit from Buffer.infLimit_writeAll _ _] at hwhole
  refine ⟨hsecond, hwhole, ?_⟩
  rw [hreads.out, echoedAll_pushedBack, List.append_nil, Io.receive, hfirst.out]

/-- A utility whose calls give `F` resumes where `F` does. -/
theorem resumes_of_gives (echo : Bool)
    (hgives : ∀ (io : Io) (l : List Cell), (∀ x ∈ l, x.1 ≠ 0) → io.Shows l →
      io.Gives (f io) (F io.b.infLimit l))
    (hpre : 0 ∉ pre) (hq : 0 ∉ q) (hv : 0 ∉ v) (hz : ∀ x ∈ l, x.1 ≠ 0) (h : io.Shows l)
    (hroom : io.b.write + v.length ≤ io.b.limit)
    (hcells : (F io.b.infLimit l).cells = pushedBack (pre ++ q))
    (hresumes : F io.b.infLimit (l ++ fresh v) =
      { F io.b.infLimit (pushedBack q ++ fresh v) with
        written := (F io.b.infLimit l).written ++ (F io.b.infLimit (pushedBack q ++ fresh v)).written }) :
    Resumes f echo pre v io := by
  obtain ⟨hsecond, hwhole, hout⟩ := resumed_gives echo hgives hpre hq hv hz h hroom hcells
  refine ⟨?_, ?_, ?_⟩
  · rw [hsecond.result, hwhole.result, hresumes]
  · rw [← Buffer.map_fst_cells, ← Buffer.map_fst_cells, hsecond.shows_.cells, hwhole.shows_.cells, hresumes]
  · rw [hsecond.out, hwhole.out, hout, List.append_assoc, hresumes]
    rfl

/-- A call that did not run out of input leaves what arrives behind it. -/
theorem agrees_of_gives {o : Outcome α} (hone : io.Gives (f io) o)
    (hwhole : (io.receive v).Gives (f (io.receive v)) { o with cells := o.cells ++ fresh v })
    (hroom : io.b.write + v.length ≤ io.b.limit) :
    Agrees ((f io).1, (f io).2.receive v) (f (io.receive v)) := by
  have hreceive := hone.shows_.receive (v := v) (by
    have hwrite := hone.keeps.write
    have hlimit := hone.keeps.limit
    omega)
  refine ⟨?_, ?_, ?_⟩
  · rw [hwhole.result, hone.result]
  · rw [← Buffer.map_fst_cells, ← Buffer.map_fst_cells, hwhole.shows_.cells]
    exact congrArg _ hreceive.cells
  · rw [hwhole.out]
    exact hone.out

end Resuming

/-- Cells that all match take `matchFormat` further into the format. -/
theorem matchOutcome_append (echo : Bool) {format pre : List UInt8} {n : Nat} {q : List Cell}
    (h : matchedOn p format (q.map Prod.fst) = q.length) (m : List Cell) :
    matchOutcome p echo format pre 0 n (q ++ m) =
      { matchOutcome p echo format pre q.length n m with
        written := echoedAll echo q ++ (matchOutcome p echo format pre q.length n m).written } := by
  have hmatched : matchedOn p format ((q ++ m).map Prod.fst) =
      q.length + matchedOn p (format.drop q.length) (m.map Prod.fst) := by
    rw [List.map_append, matchedOn_append (by rw [h, List.length_map]), List.length_map]
  unfold matchOutcome
  rw [List.drop_zero, hmatched]
  simp only [Nat.zero_add, List.length_append, Nat.add_left_cancel_iff, List.drop_length_add_append,
    List.take_length_add_append, echoedAll_append]
  split_ifs <;> rfl

/-- Running out of input: all of it matches, and that is not the whole format. -/
theorem matchOutcome_short (echo : Bool) {format pre : List UInt8} {n : Nat} {l : List Cell}
    (hlt : l.length < format.length) (hend : matchedOn p format (l.map Prod.fst) = l.length)
    (hcap : pre.length + format.length ≤ n) :
    matchOutcome p echo format pre 0 n l =
      ⟨false, pushedBack (pre ++ format.take l.length), echoedAll echo l, true⟩ := by
  have hfits : (pre ++ format.take l.length).length ≤ n := by
    rw [List.length_append, List.length_take]
    omega
  unfold matchOutcome
  rw [List.drop_zero, hend]
  simp only [Nat.zero_add, Nat.ne_of_lt hlt, if_false, if_true, Buffer.clip_of_le hfits]

/-- A format that does not run out leaves the input behind what matched. -/
theorem matchOutcome_not_short (echo : Bool) {format : List UInt8} (pre : List UInt8) (n : Nat)
    {l : List Cell} (h : ¬(matchedOn p format (l.map Prod.fst) < format.length ∧
      matchedOn p format (l.map Prod.fst) = l.length)) :
    (matchOutcome p echo format pre 0 n l).short = false ∧
      (matchOutcome p echo format pre 0 n l).cells <:+ l := by
  have hle := (matchedOn_le (p := p) format (l.map Prod.fst)).1
  unfold matchOutcome
  rw [List.drop_zero]
  simp only [Nat.zero_add]
  by_cases hall : matchedOn p format (l.map Prod.fst) = format.length
  · rw [if_pos hall]
    exact ⟨rfl, List.drop_suffix _ _⟩
  · have hne : matchedOn p format (l.map Prod.fst) ≠ l.length := fun heq =>
      h ⟨Nat.lt_of_le_of_ne hle hall, heq⟩
    rw [if_neg hall, if_neg hne]
    exact ⟨rfl, List.drop_suffix _ _⟩

/-- The second call on a format that ran out is the call on all of the input. -/
theorem matchFormat_resumes (echo : Bool) {format pre v : List UInt8} {l : List Cell} {io : Io}
    (hformat : 0 ∉ format) (hpre : 0 ∉ pre) (hv : 0 ∉ v) (hz : ∀ x ∈ l, x.1 ≠ 0) (h : io.Shows l)
    (hlt : l.length < format.length) (hend : matchedOn p format (l.map Prod.fst) = l.length)
    (hcap : pre.length + format.length ≤ io.b.infLimit)
    (hroom : io.b.write + v.length ≤ io.b.limit) :
    Resumes (matchFormatOn p echo format pre) echo pre v io := by
  have hshort := matchOutcome_short (p := p) echo hlt hend hcap
  have hq : 0 ∉ format.take l.length := fun h0 => hformat (List.mem_of_mem_take h0)
  have hlen : (pushedBack (format.take l.length)).length = l.length := by
    rw [pushedBack, List.length_map, List.length_take_of_le (Nat.le_of_lt hlt)]
  have hmatched : matchedOn p format ((pushedBack (format.take l.length)).map Prod.fst) =
      (pushedBack (format.take l.length)).length := by
    have htake := matchedOn_take (p := p) (l := l.map Prod.fst) (hend.trans (List.length_map _).symm)
    rw [List.length_map] at htake
    rw [map_fst_pushedBack, hlen, htake]
  refine resumes_of_gives echo (fun io l hz h => matchFormatOn_gives echo pre hformat hz h) hpre hq hv
    hz h hroom (by rw [hshort]) ?_
  rw [matchOutcome_append echo hend, matchOutcome_append echo hmatched, hlen, hshort,
    echoedAll_pushedBack, List.nil_append]

/-- A call of `matchFormat` that runs out of input sets the flag, leaves the prefix and what it
matched of the format in the reserved zone, and resumes; one that does not leaves the flag as it is
and has only read. -/
theorem matchFormat_interrupted (p : CharReading) (echo : Bool) {format pre u v : List UInt8} {io : Io}
    (hformat : 0 ∉ format) (hpre : 0 ∉ pre) (hinput : 0 ∉ u ++ v) (hwf : io.b.Wf) (hu : io.b.bytes = u)
    (hcap : pre.length + format.length ≤ io.b.infLimit)
    (hroom : io.b.write + v.length ≤ io.b.limit) :
    (MatchRunsOut p format u →
      (matchFormatOn p echo format pre io).2.isBufferEmpty = true ∧
        (matchFormatOn p echo format pre io).2.b.cells = pushedBack (pre ++ matchedPart p format u) ∧
        Resumes (matchFormatOn p echo format pre) echo pre v io) ∧
    (¬MatchRunsOut p format u →
      (matchFormatOn p echo format pre io).2.isBufferEmpty = io.isBufferEmpty ∧
        (matchFormatOn p echo format pre io).2.b.cells <:+ io.b.cells) := by
  obtain ⟨hzu, hzv⟩ := not_or.mp (mt List.mem_append.mpr hinput)
  have h : io.Shows io.b.cells := ⟨hwf, rfl⟩
  have hz := Buffer.ne_zero_of_mem_cells (hu.symm ▸ hzu)
  have hgives := matchFormatOn_gives (p := p) echo pre hformat hz h
  have hcells : io.b.cells.map Prod.fst = u := (Buffer.map_fst_cells io.b).trans hu
  have hiff : MatchRunsOut p format u ↔ matchedOn p format (io.b.cells.map Prod.fst) < format.length ∧
      matchedOn p format (io.b.cells.map Prod.fst) = io.b.cells.length := by
    rw [hcells, Buffer.length_cells, hu]
    rfl
  constructor
  · intro hout
    obtain ⟨hlt, hend⟩ := hiff.mp hout
    have hpart : matchedPart p format u = format.take io.b.cells.length := by
      rw [matchedPart, ← hcells, hend]
    rw [hend] at hlt
    have hshort := matchOutcome_short (p := p) echo hlt hend hcap
    refine ⟨?_, ?_, matchFormat_resumes echo hformat hpre hzv hz h hlt hend hcap hroom⟩
    · rw [hgives.flag, hshort, Bool.or_true]
    · rw [hgives.shows_.cells, hshort, hpart]
  · intro hin
    obtain ⟨hshort, hsuffix⟩ :=
      matchOutcome_not_short (p := p) echo pre io.b.infLimit (mt hiff.mpr hin)
    refine ⟨?_, ?_⟩
    · rw [hgives.flag, hshort, Bool.or_false]
    · rw [hgives.shows_.cells]
      exact hsuffix

/-- `HT` has arrived of `HTTP/` behind a blank that was read, and `TP/1` follows. -/
theorem matchFormat_interrupted_http :
    let io : Io := ⟨bufferWriteAll (bufferInitR 10 100) (lit "hT"), [], false⟩
    (matchFormatOn .signed true (lit "HTTP/") (lit " ") io).2.isBufferEmpty = true ∧
      (matchFormatOn .signed true (lit "HTTP/") (lit " ") io).2.b.cells = pushedBack (lit " HT") ∧
      Resumes (matchFormatOn .signed true (lit "HTTP/") (lit " ")) true (lit " ") (lit "tp/1") io :=
  (matchFormat_interrupted .signed true (u := lit "hT") (by decide) (by decide) (by decide)
    ⟨by decide, by decide, by decide⟩ (by decide) (by decide) (by decide)).1
    ⟨by decide, by decide⟩

/-! ## Numbers -/

section Numbers

variable {r : Radix} {l : List Cell} {io : Io}

/-- The test behind the loop of `getNumber`. -/
def NumberRunsOut (r : Radix) (echo : Bool) (io : Io) : Prop :=
  ¬(bufferPeek io.b ≠ 0 ∧ r.isDigit (bufferPeek io.b) = false) ∧
    bufferPeek (numberLoop r echo io.b.bytes.length 0 io).2.b = 0

instance (r : Radix) (echo : Bool) (io : Io) : Decidable (NumberRunsOut r echo io) :=
  inferInstanceAs (Decidable (_ ∧ _))

/-- The digits that an input starts with. -/
def leadingDigits (r : Radix) (u : List UInt8) : List UInt8 := u.takeWhile r.isDigit

/-- The loop over a number passes its digits. The induction is on what is left to read. -/
theorem numberLoop_passes (echo : Bool) (hz : ∀ x ∈ l, r.isDigit x.1 = true → x.1 ≠ 0) (n : Option Int)
    (h : io.Shows l) :
    let ds := leadingDigits r (l.map Prod.fst)
    let res := numberLoop r echo l.length (n.getD 0) io
    io.Passes echo res.2 (l.take ds.length) (l.drop ds.length) ∧
      res.1 = (numberValue r n ds).getD 0 := by
  induction l generalizing n io with
  | nil => exact ⟨Io.Passes.refl echo h, rfl⟩
  | cons x l ih =>
    unfold leadingDigits at ih ⊢
    rw [List.map_cons, List.takeWhile_cons, List.length_cons, numberLoop, h.peek]
    by_cases hd : r.isDigit x.1 = true
    · have hread := Io.Passes.read echo h (hz x List.mem_cons_self hd)
      obtain ⟨hpasses, hvalue⟩ := ih (fun y hy => hz y (List.mem_cons_of_mem x hy))
        (some (toInt32 (r.base * n.getD 0 + r.value x.1))) hread.shows_
      simp only [hd, if_true, List.length_cons, List.take_succ_cons, List.drop_succ_cons]
      exact ⟨hread.trans hpasses, hvalue⟩
    · simp only [hd]
      exact ⟨Io.Passes.refl echo h, rfl⟩

/-- What `getNumber` gives on the cells `l` behind digits worth `start`, with `n` bytes reserved. -/
def numberOutcome (r : Radix) (echo : Bool) (start : Option Int) (n : Nat) (l : List Cell) :
    Outcome (Option Int) :=
  let ds := leadingDigits r (l.map Prod.fst)
  let value := numberValue r start ds
  if ds.length = l.length then
    ⟨none, pushedBack (Buffer.clip n (digitsOf r (value.getD 0))), echoedAll echo l, true⟩
  else ⟨value, l.drop ds.length, echoedAll echo (l.take ds.length), false⟩

/-- The leading digits are digits. -/
theorem isDigit_of_mem_leadingDigits {c : UInt8} {u : List UInt8} (h : c ∈ leadingDigits r u) :
    r.isDigit c = true := List.all_eq_true.mp List.all_takeWhile c h

theorem length_leadingDigits_le (r : Radix) (u : List UInt8) :
    (leadingDigits r u).length ≤ u.length := (List.takeWhile_sublist _).length_le

/-- Digits in front of a number make it longer. -/
theorem leadingDigits_append {ds : List UInt8} (h : ∀ c ∈ ds, r.isDigit c = true) (w : List UInt8) :
    leadingDigits r (ds ++ w) = ds ++ leadingDigits r w := List.takeWhile_append_of_pos h

/-- Behind the loop there is a byte to peek at unless all of the input is digits. -/
theorem peek_numberLoop (echo : Bool) (hz : ∀ x ∈ l, x.1 ≠ 0) (n : Option Int) (h : io.Shows l) :
    bufferPeek (numberLoop r echo l.length (n.getD 0) io).2.b = 0 ↔
      (leadingDigits r (l.map Prod.fst)).length = l.length := by
  obtain ⟨hpasses, -⟩ := numberLoop_passes (r := r) echo (fun x hx _ => hz x hx) n h
  have hle := length_leadingDigits_le r (l.map Prod.fst)
  rw [List.length_map] at hle
  have hshows := hpasses.shows_
  cases hdrop : l.drop (leadingDigits r (l.map Prod.fst)).length with
  | nil =>
    rw [hdrop] at hshows
    exact iff_of_true hshows.peek_nil (Nat.le_antisymm hle (List.drop_eq_nil_iff.mp hdrop))
  | cons x m =>
    rw [hdrop] at hshows
    have hx : x ∈ l := List.mem_of_mem_drop (hdrop ▸ List.mem_cons_self)
    refine iff_of_false ?_ fun heq => ?_
    · rw [hshows.peek]
      exact hz x hx
    · rw [heq, List.drop_length] at hdrop
      cases hdrop

/-- The test in front of the loop: what is there does not start with a digit. -/
theorem refuses_iff (hz : ∀ x ∈ l, x.1 ≠ 0) (h : io.Shows l) :
    bufferPeek io.b ≠ 0 ∧ r.isDigit (bufferPeek io.b) = false ↔
      l ≠ [] ∧ leadingDigits r (l.map Prod.fst) = [] := by
  cases l with
  | nil => exact iff_of_false (fun hc => hc.1 h.peek_nil) fun hc => hc.1 rfl
  | cons x l =>
    rw [h.peek, leadingDigits, List.map_cons, List.takeWhile_cons]
    have hx := hz x List.mem_cons_self
    cases hd : r.isDigit x.1 <;> simp [hx]

/-- A number runs out exactly when the input is all digits. -/
theorem numberRunsOut_iff (echo : Bool) (hz : ∀ x ∈ l, x.1 ≠ 0) (h : io.Shows l) :
    NumberRunsOut r echo io ↔ (leadingDigits r (l.map Prod.fst)).length = l.length := by
  unfold NumberRunsOut
  rw [refuses_iff hz h, h.length, show (0 : Int) = (none : Option Int).getD 0 from rfl,
    peek_numberLoop echo hz none h]
  refine and_iff_right_of_imp fun hall hc => hc.1 ?_
  rw [hc.2] at hall
  exact List.length_eq_zero_iff.mp hall.symm

/-- A number with a digit has a value. -/
theorem numberValue_isSome {ds : List UInt8} (n : Option Int) (h : ds ≠ []) :
    ∃ m, numberValue r n ds = some m := by
  obtain ⟨c, ds, rfl⟩ := List.exists_cons_of_ne_nil h
  change ∃ m, numberValue r (some (toInt32 (r.base * n.getD 0 + r.value c))) ds = some m
  generalize toInt32 (r.base * n.getD 0 + r.value c) = k
  induction ds generalizing k with
  | nil => exact ⟨k, rfl⟩
  | cons d ds ih => exact ih (List.cons_ne_nil _ _) _

/-- What `getNumber` gives is a function of the cells. -/
theorem getNumberWith_gives (r : Radix) (echo : Bool) (hz : ∀ x ∈ l, x.1 ≠ 0) (h : io.Shows l) :
    io.Gives (getNumberWith r echo [] io) (numberOutcome r echo none io.b.infLimit l) := by
  obtain ⟨hpasses, hvalue⟩ := numberLoop_passes (r := r) echo (fun x hx _ => hz x hx) none h
  have hpeek := peek_numberLoop (r := r) echo hz none h
  have hrefuses := refuses_iff (r := r) hz h
  unfold getNumberWith numberOutcome
  rw [h.length]
  simp only [Option.getD_none] at hpasses hvalue hpeek ⊢
  by_cases hc : bufferPeek io.b ≠ 0 ∧ r.isDigit (bufferPeek io.b) = false
  · obtain ⟨hne, hnil⟩ := hrefuses.mp hc
    rw [if_pos hc, hnil, if_neg fun heq => hne (List.length_eq_zero_iff.mp heq.symm)]
    exact (Io.Passes.refl echo h).gives none
  · rw [if_neg hc]
    generalize numberLoop r echo l.length 0 io = res at hpasses hvalue hpeek ⊢
    by_cases hall : (leadingDigits r (l.map Prod.fst)).length = l.length
    · rw [if_pos (hpeek.mpr hall), if_pos hall, writePrefix_eq, List.nil_append, hvalue]
      rw [hall, List.take_length, List.drop_length] at hpasses
      exact hpasses.gives_short none _
    · rw [if_neg (mt hpeek.mp hall), if_neg hall]
      have hsome : some res.1 = numberValue r none (leadingDigits r (l.map Prod.fst)) := by
        have hne : leadingDigits r (l.map Prod.fst) ≠ [] := by
          intro hnil
          refine hc (hrefuses.mpr ⟨?_, hnil⟩)
          rintro rfl
          exact hall rfl
        obtain ⟨m, hm⟩ := numberValue_isSome (r := r) none hne
        rw [hvalue, hm, Option.getD_some]
      rw [← hsome]
      exact hpasses.gives _

/-- What arrives behind a byte that is no digit is left to read. -/
theorem numberOutcome_behind (echo : Bool) {n : Nat}
    (h : (leadingDigits r (l.map Prod.fst)).length ≠ l.length) (start : Option Int) (m : List Cell) :
    numberOutcome r echo start n (l ++ m) =
      { numberOutcome r echo start n l with cells := (numberOutcome r echo start n l).cells ++ m } := by
  have hle := length_leadingDigits_le r (l.map Prod.fst)
  rw [List.length_map] at hle
  have hdigits : leadingDigits r ((l ++ m).map Prod.fst) = leadingDigits r (l.map Prod.fst) := by
    rw [List.map_append, leadingDigits, List.takeWhile_append, if_neg]
    · rfl
    · rwa [List.length_map]
  have hlt : ¬(leadingDigits r (l.map Prod.fst)).length = (l ++ m).length := by
    rw [List.length_append]
    omega
  unfold numberOutcome
  rw [hdigits]
  simp only [hlt, h, if_false, List.drop_append_of_le_length hle, List.take_append_of_le_length hle]

/-- Digits that are read take `getNumber` on from their value. -/
theorem numberOutcome_append (echo : Bool) {n : Nat} {q : List Cell}
    (h : ∀ c ∈ q.map Prod.fst, r.isDigit c = true) (start : Option Int) (m : List Cell) :
    numberOutcome r echo start n (q ++ m) =
      { numberOutcome r echo (numberValue r start (q.map Prod.fst)) n m with
        written := echoedAll echo q ++
          (numberOutcome r echo (numberValue r start (q.map Prod.fst)) n m).written } := by
  unfold numberOutcome
  rw [List.map_append, leadingDigits_append h]
  simp only [numberValue_append, List.length_append, List.length_map, Nat.add_left_cancel_iff]
  have htake : ∀ k, (q ++ m).take (q.length + k) = q ++ m.take k := fun k => List.take_length_add_append k
  have hdrop : ∀ k, (q ++ m).drop (q.length + k) = m.drop k := fun k => List.drop_length_add_append k
  rw [htake, hdrop]
  simp only [echoedAll_append]
  split_ifs <;> rfl

/-- Running out of input: all of it is digits, or there is none. -/
theorem numberOutcome_short (hr : r.Lawful) (echo : Bool) {n : Nat} {u : List UInt8}
    (hl : l.map Prod.fst = u) (hdigits : ∀ c ∈ u, r.isDigit c = true) (hvalue : r.valueOf u < 2 ^ 31)
    (hcap : (digitsOf r (r.valueOf u)).length ≤ n) :
    numberOutcome r echo none n l =
      ⟨none, pushedBack (digitsOf r (r.valueOf u)), echoedAll echo l, true⟩ := by
  have hall : leadingDigits r u = u := by
    have happend := leadingDigits_append hdigits []
    rwa [List.append_nil, show leadingDigits r [] = [] from rfl, List.append_nil] at happend
  have hread : (numberValue r none u).getD 0 = r.valueOf u := by
    by_cases hu : u = []
    · rw [hu]
      rfl
    · rw [numberValue_of_lt hr hu hdigits hvalue, Option.getD_some]
  unfold numberOutcome
  rw [hl, hall]
  simp only [hread, Buffer.clip_of_le hcap, show u.length = l.length by rw [← hl, List.length_map], if_true]

/-- Behind a number with a digit in it the digits are worth the same as behind any other beginning that
is worth as much. -/
theorem numberOutcome_resumes (hr : r.Lawful) (echo : Bool) {n : Nat} {u v : List UInt8}
    (hl : l.map Prod.fst = u) (hu : u ≠ []) (hdigits : ∀ c ∈ u, r.isDigit c = true)
    (hvalue : r.valueOf u < 2 ^ 31) :
    numberOutcome r echo none n (l ++ fresh v) =
      { numberOutcome r echo none n (pushedBack (digitsOf r (r.valueOf u)) ++ fresh v) with
        written := echoedAll echo l ++
          (numberOutcome r echo none n (pushedBack (digitsOf r (r.valueOf u)) ++ fresh v)).written } := by
  have hnonneg : 0 ≤ r.valueOf u := hr.le_valueFrom (Int.le_refl 0) hdigits
  have hback : ∀ c ∈ (pushedBack (digitsOf r (r.valueOf u))).map Prod.fst, r.isDigit c = true := by
    rw [map_fst_pushedBack]
    exact fun c hc => isDigit_of_mem_digitsOf hr hc
  rw [numberOutcome_append echo (by rwa [hl]), numberOutcome_append echo hback, map_fst_pushedBack, hl,
    numberValue_of_lt hr hu hdigits hvalue, numberValue_digitsOf hr hnonneg hvalue, echoedAll_pushedBack]
  rfl

/-- In front of anything but a digit, a number is the digits that were read. -/
theorem numberOutcome_refused (echo : Bool) (start : Option Int) {n : Nat} {v : List UInt8} (hv : v ≠ [])
    (hnone : leadingDigits r v = []) : (numberOutcome r echo start n (fresh v)).result = start := by
  have hmap : (fresh v).map Prod.fst = v := by
    rw [← cellsFrom_zero, map_fst_cellsFrom]
  have hlen : ¬([] : List UInt8).length = (fresh v).length := by
    rw [fresh, List.length_map]
    exact fun h => hv (List.length_eq_zero_iff.mp h.symm)
  unfold numberOutcome
  rw [hmap, hnone]
  simp only [hlen, if_false]
  rfl

/-- In front of a digit, the digit `0` is as good as nothing. -/
theorem numberOutcome_zero (hr : r.Lawful) (echo : Bool) {n : Nat} {c : UInt8} {v : List UInt8}
    (hc : r.isDigit c = true) :
    numberOutcome r echo none n (pushedBack [0x30] ++ fresh (c :: v)) =
      numberOutcome r echo none n (fresh (c :: v)) := by
  have hzero : r.isDigit 0x30 = true := by
    rw [← hr.char_zero]
    exact hr.isDigit_char 0 (by have := hr.two_le; omega)
  have hback : ∀ d ∈ (pushedBack [0x30]).map Prod.fst, r.isDigit d = true := by
    intro d hd
    rw [map_fst_pushedBack, List.mem_singleton] at hd
    rw [hd]
    exact hzero
  have hstart : numberValue r none [0x30] = some 0 := by
    have hdigits := numberValue_digitsOf hr (Int.le_refl 0) (by decide)
    exact hdigits
  rw [numberOutcome_append echo hback, map_fst_pushedBack, hstart, echoedAll_pushedBack]
  unfold numberOutcome leadingDigits
  simp only [fresh_cons, List.map_cons, List.takeWhile_cons, hc, if_true, List.nil_append]
  rfl

/-- Digits are no negative number. -/
theorem valueOf_nonneg (hr : r.Lawful) {ds : List UInt8} (h : ∀ c ∈ ds, r.isDigit c = true) :
    0 ≤ r.valueOf ds := hr.le_valueFrom (Int.le_refl 0) h

/-- Digits are worth no less with more digits behind them. -/
theorem valueOf_le_append (hr : r.Lawful) {ds es : List UInt8} (hds : ∀ c ∈ ds, r.isDigit c = true)
    (hes : ∀ c ∈ es, r.isDigit c = true) : r.valueOf ds ≤ r.valueOf (ds ++ es) := by
  unfold Radix.valueOf
  rw [Radix.valueFrom, Radix.valueFrom, List.foldl_append]
  exact hr.le_valueFrom (valueOf_nonneg hr hds) hes

variable {u v : List UInt8}

/-- A number of which digits were read, or of which digits arrive, is read on. -/
theorem getNumber_resumes (hr : r.Lawful) (h0 : r.isDigit 0 = false) (echo : Bool) (hzv : 0 ∉ v)
    (hwf : io.b.Wf) (hu : io.b.bytes = u) (hroom : io.b.write + v.length ≤ io.b.limit)
    (hdigits : ∀ c ∈ u, r.isDigit c = true) (hvalue : r.valueOf u < 2 ^ 31)
    (hcap : (digitsOf r (r.valueOf u)).length ≤ io.b.infLimit)
    (hcond : u ≠ [] ∨ ∃ c ∈ v.head?, r.isDigit c = true) :
    Resumes (getNumberWith r echo []) echo [] v io := by
  have hzu : 0 ∉ u := fun hmem => by rw [hdigits 0 hmem] at h0; cases h0
  have hq : 0 ∉ digitsOf r (r.valueOf u) := fun hmem => by
    rw [isDigit_of_mem_digitsOf hr hmem] at h0
    cases h0
  have hmap : io.b.cells.map Prod.fst = u := (Buffer.map_fst_cells io.b).trans hu
  have hshort := numberOutcome_short hr echo hmap hdigits hvalue hcap
  refine resumes_of_gives echo (fun _ _ hz h => getNumberWith_gives r echo hz h) List.not_mem_nil hq hzv
    (Buffer.ne_zero_of_mem_cells (hu.symm ▸ hzu)) ⟨hwf, rfl⟩ hroom (by rw [hshort, List.nil_append]) ?_
  rw [hshort]
  by_cases hne : u = []
  · obtain ⟨c, hc, hdigit⟩ := hcond.resolve_left fun hn => hn hne
    obtain ⟨w, rfl⟩ : ∃ w, v = c :: w := ⟨v.tail, (List.cons_head?_tail hc).symm⟩
    rw [Buffer.cells_eq_nil.mpr (hu.trans hne), hne, List.nil_append]
    exact (numberOutcome_zero hr echo hdigit).symm
  · exact numberOutcome_resumes hr echo hmap hne hdigits hvalue

/-- A call that found nothing to read makes the next one return `0` where it would have refused. -/
theorem getNumber_not_resumes (hr : r.Lawful) (h0 : r.isDigit 0 = false) (echo : Bool) (hv : v ≠ [])
    (hzv : 0 ∉ v) (hwf : io.b.Wf) (hu : io.b.bytes = []) (hroom : io.b.write + v.length ≤ io.b.limit)
    (hcap : (digitsOf r 0).length ≤ io.b.infLimit) (hnone : leadingDigits r v = []) :
    ¬Resumes (getNumberWith r echo []) echo [] v io := by
  intro hresumes
  have hq : 0 ∉ digitsOf r 0 := fun hmem => by
    rw [isDigit_of_mem_digitsOf hr hmem] at h0
    cases h0
  have hnil : io.b.cells = [] := Buffer.cells_eq_nil.mpr hu
  have hshort := numberOutcome_short (l := io.b.cells) (u := []) hr echo (by rw [hnil]; rfl)
    (by simp only [List.not_mem_nil, false_implies, implies_true]) (show (0 : Int) < 2 ^ 31 by decide)
    hcap
  have hback : ∀ c ∈ (pushedBack (digitsOf r 0)).map Prod.fst, r.isDigit c = true := by
    rw [map_fst_pushedBack]
    exact fun c hc => isDigit_of_mem_digitsOf hr hc
  have hz : ∀ x ∈ io.b.cells, x.1 ≠ 0 := by
    rw [hnil]
    exact fun _ hx => absurd hx List.not_mem_nil
  obtain ⟨hsecond, hwhole, -⟩ := resumed_gives echo (fun _ _ hz h => getNumberWith_gives r echo hz h)
    List.not_mem_nil hq hzv hz ⟨hwf, rfl⟩ hroom (by rw [hshort, List.nil_append]; rfl)
  have hsame := hsecond.result.symm.trans (hresumes.result.trans hwhole.result)
  rw [hnil, List.nil_append, numberOutcome_append echo hback] at hsame
  change (numberOutcome r echo _ _ (fresh v)).result = _ at hsame
  rw [numberOutcome_refused echo _ hv hnone, numberOutcome_refused echo _ hv hnone, map_fst_pushedBack,
    numberValue_digitsOf hr (Int.le_refl 0) (by decide)] at hsame
  cases hsame

/-- A number that does not run out is the same with more behind it. -/
theorem getNumber_behind (r : Radix) (echo : Bool) (hzu : 0 ∉ u) (hzv : 0 ∉ v) (hwf : io.b.Wf)
    (hu : io.b.bytes = u) (hroom : io.b.write + v.length ≤ io.b.limit)
    (hmore : (leadingDigits r u).length ≠ u.length) :
    Agrees ((getNumberWith r echo [] io).1, (getNumberWith r echo [] io).2.receive v)
      (getNumberWith r echo [] (io.receive v)) := by
  have h : io.Shows io.b.cells := ⟨hwf, rfl⟩
  have hz := Buffer.ne_zero_of_mem_cells (hu.symm ▸ hzu)
  have hzall : ∀ x ∈ io.b.cells ++ fresh v, x.1 ≠ 0 := fun x hx =>
    (List.mem_append.mp hx).elim (hz x) (ne_zero_of_mem_fresh hzv x)
  have hwhole := getNumberWith_gives r echo hzall (h.receive hroom)
  rw [show (io.receive v).b.infLimit = io.b.infLimit from Buffer.infLimit_writeAll _ _,
    numberOutcome_behind echo (by rwa [Buffer.map_fst_cells, Buffer.length_cells, hu])] at hwhole
  exact agrees_of_gives (getNumberWith_gives r echo hz h) hwhole hroom

end Numbers

/-- A call, and a second one when it runs out of input, with `v` arriving behind the first. -/
def getNumberTwice (r : Radix) (echo : Bool) (v : List UInt8) (io : Io) : Option Int × Io :=
  let first := getNumberWith r echo [] io
  if NumberRunsOut r echo io then getNumberWith r echo [] (first.2.receive v)
  else (first.1, first.2.receive v)

/-- A number that is read in two calls is read as in one, unless there was nothing at all for the first
call and what arrives is not a number. -/
theorem getNumber_interrupted_iff {r : Radix} (hr : r = .dec ∨ r = .hex) (echo : Bool) {u v : List UInt8}
    {io : Io} (hinput : 0 ∉ u ++ v) (hv : v ≠ []) (hvalue : r.valueOf (leadingDigits r (u ++ v)) < 2 ^ 31)
    (hwf : io.b.Wf) (hu : io.b.bytes = u)
    (hcap : (digitsOf r (r.valueOf (leadingDigits r u))).length ≤ io.b.infLimit)
    (hroom : io.b.write + v.length ≤ io.b.limit) :
    Agrees (getNumberTwice r echo v io) (getNumberWith r echo [] (io.receive v)) ↔
      u ≠ [] ∨ ∃ c ∈ v.head?, r.isDigit c = true := by
  obtain ⟨hlawful, h0⟩ : r.Lawful ∧ r.isDigit 0 = false := by
    rcases hr with rfl | rfl
    · exact ⟨Radix.dec_lawful, rfl⟩
    · exact ⟨Radix.hex_lawful, rfl⟩
  obtain ⟨hzu, hzv⟩ := not_or.mp (mt List.mem_append.mpr hinput)
  have hiff := numberRunsOut_iff (r := r) echo (Buffer.ne_zero_of_mem_cells (hu.symm ▸ hzu)) ⟨hwf, rfl⟩
  rw [Buffer.map_fst_cells, Buffer.length_cells, hu] at hiff
  unfold getNumberTwice
  by_cases hout : NumberRunsOut r echo io
  · rw [if_pos hout]
    have hall : leadingDigits r u = u := (List.takeWhile_sublist _).eq_of_length (hiff.mp hout)
    have hdigits : ∀ c ∈ u, r.isDigit c = true := fun c hc =>
      isDigit_of_mem_leadingDigits (hall.symm ▸ hc)
    rw [leadingDigits_append hdigits] at hvalue
    have hlt := Int.lt_of_le_of_lt
      (valueOf_le_append hlawful hdigits fun c hc => isDigit_of_mem_leadingDigits hc) hvalue
    rw [hall] at hcap
    refine ⟨fun hagrees => ?_, getNumber_resumes hlawful h0 echo hzv hwf hu hroom hdigits hlt hcap⟩
    by_contra hcond
    rw [not_or, not_not] at hcond
    obtain ⟨rfl, hrefused⟩ := hcond
    have hnone : leadingDigits r v = [] := by
      obtain ⟨c, w, rfl⟩ := List.exists_cons_of_ne_nil hv
      exact List.takeWhile_cons_of_neg fun hc => hrefused ⟨c, rfl, hc⟩
    exact getNumber_not_resumes hlawful h0 echo hv hzv hwf hu hroom hcap hnone hagrees
  · rw [if_neg hout]
    have hne : u ≠ [] := fun hnil => hout (hiff.mpr (by rw [hnil]; rfl))
    exact iff_of_true (getNumber_behind r echo hzu hzv hwf hu hroom (mt hiff.mpr hout)) (.inl hne)

/-- `12` has arrived, and `34` and the end of the line follow. -/
theorem getNumber_interrupted_iff_digits :
    Agrees (getNumberTwice .dec true (lit "34\r") ⟨bufferWriteAll (bufferInitR 10 100) (lit "12"), [], false⟩)
        (getNumberWith .dec true [] (Io.receive (lit "34\r")
          ⟨bufferWriteAll (bufferInitR 10 100) (lit "12"), [], false⟩)) ↔
      lit "12" ≠ [] ∨ ∃ c ∈ (lit "34\r").head?, Radix.dec.isDigit c = true :=
  getNumber_interrupted_iff (.inl rfl) true (by decide) (by decide) (by decide)
    ⟨by decide, by decide, by decide⟩ (by decide) (by decide) (by decide)

/-- Nothing has arrived, and `g` follows: refused in one call, the number 0 in two. -/
theorem getNumber_zero_unread :
    ¬Agrees (getNumberTwice .dec true (lit "g") ⟨bufferInitR 10 100, [], false⟩)
      (getNumberWith .dec true [] (Io.receive (lit "g") ⟨bufferInitR 10 100, [], false⟩)) :=
  fun h => absurd h.result (by decide)

end HttpProxy
