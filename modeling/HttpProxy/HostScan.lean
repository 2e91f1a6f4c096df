import HttpProxy.RequestRefinement
import HttpProxy.RequestRest
import HttpProxy.StartLineForm

/-!
# What a host and its port are in the bytes to read

`scanHost` goes through the bytes as the loops of `checkUriForHost` and `extractHost` do, without the
buffer and the host array: how many characters the host has, whether the array begins with one, and
the bytes behind it. `readHost_scan` says what `readHost` does in terms of these bytes, and
`checkUri_scan` what `checkUri` does in terms of how they begin.
-/

namespace HttpProxy

/-- A host in the bytes to read: its length, whether the host array begins with a character, and what
follows it. -/
structure HostScan where
  i : Nat
  begun : Bool
  rest : List UInt8
deriving DecidableEq, Repr

def scanHost (userinfo : Bool) : Bool → Nat → List UInt8 → HostScan
  | begun, i, [] => ⟨i, begun, []⟩
  | begun, i, c :: w =>
    if i < HOST_MAX_SIZE then
      if isHostChar (tolower c) then scanHost userinfo (begun || i == 0) (i + 1) w
      else if userinfo ∧ tolower c = 0x40 then scanHost userinfo false 0 w
      else ⟨i, begun, c :: w⟩
    else ⟨i, begun, c :: w⟩

/-- The value `getNumber` makes of digits. -/
def portValue (ds : List UInt8) : Int :=
  ds.foldl (fun n c => toInt32 (10 * n + Radix.dec.value c)) 0

namespace HostScan

/-- The `:` in front of a port. -/
def colon (h : HostScan) : Bool := h.i < HOST_MAX_SIZE && tolower (h.rest.headD 0) == 0x3a

/-- The digits of the port. -/
def digits (h : HostScan) : List UInt8 := h.rest.tail.takeWhile isdigit

/-- What follows the host and its port. -/
def after (h : HostScan) : List UInt8 := if h.colon then h.rest.tail.dropWhile isdigit else h.rest

/-- The input ends inside the host or the port. -/
def Short (h : HostScan) : Prop := h.i < HOST_MAX_SIZE ∧ h.after = []

/-- The host fills the array, or no digit follows the `:`. -/
def Refused (h : HostScan) : Prop :=
  h.i = HOST_MAX_SIZE ∨ h.colon = true ∧ h.digits = [] ∧ h.after ≠ []

/-- The port, `p` without one. -/
def port (h : HostScan) (p : Int) : Int := if h.colon then portValue h.digits else p

end HostScan

/-- The host array after a loop over a host that began with what is in `t`. -/
structure HostLoop.Keeps (t t' : HostLoop) : Prop where
  flag : t'.io.isBufferEmpty = t.io.isBufferEmpty
  le : t.i ≤ HOST_MAX_SIZE → t'.i ≤ HOST_MAX_SIZE
  char : (∀ c ∈ t.host.toList, c = 0 ∨ isHostChar c = true) →
    ∀ c ∈ t'.host.toList, c = 0 ∨ isHostChar c = true
  /-- The last entry is only written when the array is full. -/
  last : t'.i < HOST_MAX_SIZE → t'.host[254] = t.host[254]
  later : ∀ k (hk : k < HOST_MAX_SIZE), 0 < k → t.host[k] ≠ 0 → t'.host[k] ≠ 0
  copied : (∀ k (hk : k < HOST_MAX_SIZE), k < t.i → t.host[k] ≠ 0) →
    ∀ k (hk : k < HOST_MAX_SIZE), k < t'.i → t'.host[k] ≠ 0

theorem HostLoop.Keeps.refl (t : HostLoop) (c : UInt8) : t.Keeps { t with c := c } :=
  ⟨rfl, id, id, fun _ => rfl, fun _ _ _ => id, id⟩

/-- Two parts of the loop keep what the first wrote, up to where the second began. -/
theorem HostLoop.Keeps.trans {t t' t'' : HostLoop} (h : t.Keeps t') (h' : t'.Keeps t'')
    (hi : t'.i < HOST_MAX_SIZE) : t.Keeps t'' where
  flag := h'.flag.trans h.flag
  le := fun hle => h'.le (h.le hle)
  char := fun hc => h'.char (h.char hc)
  last := fun hlt => (h'.last hlt).trans (h.last hi)
  later := fun k hk hpos h0 => h'.later k hk hpos (h.later k hk hpos h0)
  copied := fun hc => h'.copied (h.copied hc)

/-- A character is copied. -/
theorem HostLoop.keeps_char (t : HostLoop) (hi : t.i < HOST_MAX_SIZE) {c d : UInt8} {io : Io}
    (hflag : io.isBufferEmpty = t.io.isBufferEmpty) (hc : isHostChar c = true) :
    t.Keeps ⟨t.i + 1, d, t.host.set t.i c hi, io⟩ := by
  refine ⟨hflag, fun _ => hi, fun hchar e he => ?_, fun hlt => ?_, fun k hk _ h0 => ?_,
    fun hcopied k hk hlt => ?_⟩
  · rw [Vector.toList_set] at he
    rcases List.mem_or_eq_of_mem_set he with he | rfl
    · exact hchar e he
    · exact .inr hc
  · change t.i + 1 < 255 at hlt
    exact Vector.getElem_set_ne hi (by decide) (by omega)
  · rw [Vector.getElem_set]
    split
    · exact ReqMachine.ne_zero_of_isHostChar hc
    · exact h0
  · rw [Vector.getElem_set]
    split
    · exact ReqMachine.ne_zero_of_isHostChar hc
    · next hne =>
      change k < t.i + 1 at hlt
      exact hcopied k hk (by omega)

/-- What was copied was user information. -/
theorem HostLoop.keeps_at (t : HostLoop) {d : UInt8} {io : Io}
    (hflag : io.isBufferEmpty = t.io.isBufferEmpty) : t.Keeps ⟨0, d, t.host.set 0 0, io⟩ := by
  refine ⟨hflag, fun _ => Nat.zero_le _, fun hchar e he => ?_, fun _ => ?_, fun k hk hpos h0 => ?_,
    fun _ k _ hlt => ?_⟩
  · rw [Vector.toList_set] at he
    rcases List.mem_or_eq_of_mem_set he with he | rfl
    · exact hchar e he
    · exact .inl rfl
  · exact Vector.getElem_set_ne (by decide) (by decide) (by decide)
  · rw [Vector.getElem_set_ne (by decide) hk (Nat.ne_of_lt hpos)]
    exact h0
  · exact absurd hlt (Nat.not_lt_zero k)

/-- One byte of the loop over a host, as long as the array has room. -/
theorem hostLoop_cons {userinfo : Bool} {fuel : Nat} {t : HostLoop} {x : Cell} {l : List Cell}
    (hi : t.i < HOST_MAX_SIZE) (h : t.io.Shows (x :: l)) (hx : x.1 ≠ 0) :
    hostLoop userinfo (fuel + 1) t =
      if isHostChar (tolower x.1) then
        hostLoop userinfo fuel
          ⟨t.i + 1, tolower x.1, t.host.set t.i (tolower x.1) hi, (readAndWrite t.io).2⟩
      else if userinfo ∧ tolower x.1 = 0x40 then
        hostLoop userinfo fuel ⟨0, tolower x.1, t.host.set 0 0 host_max_size_pos, (readAndWrite t.io).2⟩
      else { t with c := tolower x.1 } := by
  have hp : peekDownChar t.io.b = tolower x.1 := by rw [peekDownChar, h.peek]
  have hc : tolower x.1 ≠ 0 := fun h0 => hx (tolower_eq_zero.mp h0)
  rw [hostLoop, dif_pos hi]
  simp only [hp, hc, if_false]

/-- A full array ends the loop. -/
theorem hostLoop_full {userinfo : Bool} {fuel : Nat} {t : HostLoop} (hi : ¬t.i < HOST_MAX_SIZE) :
    hostLoop userinfo fuel t = t := by
  cases fuel with
  | zero => rfl
  | succ fuel => rw [hostLoop, dif_neg hi]

/-- The loop over a host keeps the array. -/
theorem hostLoop_keeps (userinfo : Bool) (fuel : Nat) (t : HostLoop) (hi : t.i < HOST_MAX_SIZE) :
    t.Keeps (hostLoop userinfo fuel t) := by
  induction fuel generalizing t with
  | zero => exact .refl t t.c
  | succ fuel ih =>
    rw [hostLoop, dif_pos hi]
    simp only
    split
    · exact .refl t _
    · split
      · next hc =>
        have hkeeps : t.Keeps ⟨t.i + 1, peekDownChar t.io.b, t.host.set t.i (peekDownChar t.io.b) hi,
            (readAndWrite t.io).2⟩ := t.keeps_char hi rfl hc
        by_cases hlast : t.i + 1 < HOST_MAX_SIZE
        · exact hkeeps.trans (ih _ hlast) hlast
        · rw [hostLoop_full hlast]
          exact hkeeps
      · split
        · have hkeeps : t.Keeps ⟨0, peekDownChar t.io.b, t.host.set 0 0, (readAndWrite t.io).2⟩ :=
            t.keeps_at rfl
          exact hkeeps.trans (ih _ (Nat.zero_lt_succ _)) (Nat.zero_lt_succ _)
        · exact .refl t _

/-- How the loop over a host ends: `l'` is what is left to read. -/
structure HostLoop.Scans (userinfo : Bool) (t : HostLoop) (l : List Cell) (t' : HostLoop) (l' : List Cell) :
    Prop where
  shows_ : t'.io.Shows l'
  suffix : l' <:+ l
  scan : scanHost userinfo (t.host[0] != 0) t.i (l.map Prod.fst) =
    ⟨t'.i, t'.host[0] != 0, l'.map Prod.fst⟩
  stop : t'.i < HOST_MAX_SIZE ∧ t'.c = tolower ((l'.map Prod.fst).headD 0) ∨
    t'.i = HOST_MAX_SIZE ∧ isHostChar t'.c = true

/-- The loop over a host does what the scan says. The induction is on what is left to read. -/
theorem hostLoop_scan (userinfo : Bool) (l : List Cell) (fuel : Nat) (t : HostLoop)
    (hf : l.length < fuel) (hi : t.i < HOST_MAX_SIZE) (h : t.io.Shows l) (hz : ∀ x ∈ l, x.1 ≠ 0) :
    ∃ l', t.Scans userinfo l (hostLoop userinfo fuel t) l' := by
  induction l generalizing fuel t with
  | nil =>
    obtain ⟨fuel, rfl⟩ := Nat.exists_eq_succ_of_ne_zero (Nat.ne_of_gt hf)
    have hp : peekDownChar t.io.b = 0 := by rw [peekDownChar, h.peek_nil, tolower_zero]
    rw [hostLoop, dif_pos hi]
    simp only [hp, if_true]
    exact ⟨[], h, List.suffix_rfl, rfl, .inl ⟨hi, rfl⟩⟩
  | cons x l ih =>
    obtain ⟨fuel, rfl⟩ := Nat.exists_eq_succ_of_ne_zero (Nat.ne_of_gt (Nat.zero_lt_of_lt hf))
    have hx : x.1 ≠ 0 := hz x List.mem_cons_self
    have hz' : ∀ y ∈ l, y.1 ≠ 0 := fun y hy => hz y (List.mem_cons_of_mem _ hy)
    have hlen : l.length < fuel := Nat.lt_of_succ_lt_succ hf
    have hread : (readAndWrite t.io).2.Shows l := h.read _ _
    have hscan : ∀ begun, scanHost userinfo begun t.i ((x :: l).map Prod.fst) = _ :=
      fun begun => if_pos hi
    rw [hostLoop_cons hi h hx]
    by_cases hh : isHostChar (tolower x.1) = true
    · have hc : tolower x.1 ≠ 0 := ReqMachine.ne_zero_of_isHostChar hh
      have hbegun : ((t.host.set t.i (tolower x.1) hi)[0] != 0) = (t.host[0] != 0 || t.i == 0) := by
        rw [Vector.getElem_set]
        by_cases h0 : t.i = 0
        · simp [h0, hc]
        · simp [h0]
      rw [if_pos hh]
      have hstep : scanHost userinfo (t.host[0] != 0) t.i ((x :: l).map Prod.fst) =
          scanHost userinfo ((t.host.set t.i (tolower x.1) hi)[0] != 0) (t.i + 1) (l.map Prod.fst) := by
        rw [hscan, if_pos hh, hbegun]
      -- The loop goes on while the array has room.
      by_cases hlast : t.i + 1 < HOST_MAX_SIZE
      · obtain ⟨l', hs⟩ := ih fuel
          ⟨t.i + 1, tolower x.1, t.host.set t.i (tolower x.1) hi, (readAndWrite t.io).2⟩ hlen hlast hread hz'
        exact ⟨l', hs.shows_, hs.suffix.trans (List.suffix_cons x l), hstep.trans hs.scan, hs.stop⟩
      · rw [hostLoop_full hlast]
        refine ⟨l, hread, List.suffix_cons x l, hstep.trans ?_, .inr ⟨?_, hh⟩⟩
        · cases l with
          | nil => rfl
          | cons y l => exact if_neg hlast
        · change t.i + 1 = HOST_MAX_SIZE
          omega
    · rw [if_neg hh]
      by_cases hu : userinfo = true ∧ tolower x.1 = 0x40
      · rw [if_pos hu]
        -- An `@` starts the host over.
        obtain ⟨l', hs⟩ := ih fuel ⟨0, tolower x.1, t.host.set 0 0, (readAndWrite t.io).2⟩ hlen
          (Nat.zero_lt_succ _) hread hz'
        refine ⟨l', hs.shows_, hs.suffix.trans (List.suffix_cons x l), ?_, hs.stop⟩
        rw [hscan, if_neg hh, if_pos hu, ← hs.scan, Vector.getElem_set_self]
        rfl
      · rw [if_neg hu]
        refine ⟨x :: l, h, List.suffix_rfl, ?_, .inl ⟨hi, rfl⟩⟩
        rw [hscan, if_neg hh, if_neg hu]
        rfl

/-! ## The port -/

/-- The digits of a port are read up to what is behind them. -/
theorem numberLoop_scan {l : List Cell} {n : Int} {io : Io} (h : io.Shows l) (hz : ∀ x ∈ l, x.1 ≠ 0) :
    ∃ l', (numberLoop .dec true l.length n io).2.Shows l' ∧ l' <:+ l ∧
      l'.map Prod.fst = (l.map Prod.fst).dropWhile isdigit ∧
      (numberLoop .dec true l.length n io).2.isBufferEmpty = io.isBufferEmpty ∧
      (numberLoop .dec true l.length n io).1 = ((l.map Prod.fst).takeWhile isdigit).foldl
        (fun n c => toInt32 (10 * n + Radix.dec.value c)) n := by
  induction l generalizing n io with
  | nil =>
    rw [List.length_nil, numberLoop]
    exact ⟨[], h, List.suffix_rfl, rfl, rfl, rfl⟩
  | cons x l ih =>
    have hdigit : Radix.dec.isDigit x.1 = isdigit x.1 := rfl
    rw [List.length_cons, numberLoop, List.map_cons]
    simp only [h.peek, hdigit]
    cases hd : isdigit x.1 with
    | true =>
      obtain ⟨l', hshows, hsuffix, hrest, hflag, hvalue⟩ :=
        ih (n := toInt32 (10 * n + Radix.dec.value x.1)) (h.read _ _)
          fun y hy => hz y (List.mem_cons_of_mem _ hy)
      simp only [if_true, List.dropWhile_cons, List.takeWhile_cons, hd, List.foldl_cons]
      exact ⟨l', hshows, hsuffix.trans (List.suffix_cons x l), hrest, hflag, hvalue⟩
    | false =>
      simp only [Bool.false_eq_true, if_false, List.dropWhile_cons, List.takeWhile_cons, hd]
      exact ⟨x :: l, h, List.suffix_rfl, rfl, trivial, rfl⟩

/-- A call of `getNumber` by what follows the digits: the end of the input, or something after no
digit or after the digits of a number. -/
inductive NumberScan (io : Io) (l : List Cell) : Option Int × Io → Prop
  | short {io' : Io} (rest : (l.map Prod.fst).dropWhile isdigit = []) (flag : io'.isBufferEmpty = true) :
      NumberScan io l (none, io')
  | refused {l' : List Cell} {io' : Io} (none : (l.map Prod.fst).takeWhile isdigit = []) (more : l' ≠ [])
      (shows_ : io'.Shows l') (suffix : l' <:+ l)
      (bytes : l'.map Prod.fst = (l.map Prod.fst).dropWhile isdigit)
      (flag : io'.isBufferEmpty = io.isBufferEmpty) : NumberScan io l (.none, io')
  | number {l' : List Cell} {io' : Io} (some : (l.map Prod.fst).takeWhile isdigit ≠ []) (more : l' ≠ [])
      (shows_ : io'.Shows l') (suffix : l' <:+ l)
      (bytes : l'.map Prod.fst = (l.map Prod.fst).dropWhile isdigit)
      (flag : io'.isBufferEmpty = io.isBufferEmpty) :
      NumberScan io l (.some (portValue ((l.map Prod.fst).takeWhile isdigit)), io')

/-- `getNumber` on a port reads its digits, finds none, or runs out. -/
theorem getNumber_scan {l : List Cell} {io : Io} (pre : List UInt8) (h : io.Shows l)
    (hz : ∀ x ∈ l, x.1 ≠ 0) : NumberScan io l (getNumber pre io) := by
  have hdigit : ∀ c, Radix.dec.isDigit c = isdigit c := fun _ => rfl
  unfold getNumber getNumberWith
  rw [h.length]
  simp only [hdigit]
  by_cases hc : bufferPeek io.b ≠ 0 ∧ isdigit (bufferPeek io.b) = false
  · rw [if_pos hc]
    cases l with
    | nil => exact absurd h.peek_nil hc.1
    | cons x l =>
      have hx : isdigit x.1 = false := by rw [← h.peek]; exact hc.2
      refine .refused ?_ (List.cons_ne_nil x l) h List.suffix_rfl ?_ rfl
      · simp only [List.map_cons, List.takeWhile_cons, hx, Bool.false_eq_true, if_false]
      · simp only [List.map_cons, List.dropWhile_cons, hx, Bool.false_eq_true, if_false]
  · rw [if_neg hc]
    obtain ⟨l', hshows, hsuffix, hrest, hflag, hvalue⟩ := numberLoop_scan (n := 0) h hz
    generalize numberLoop .dec true l.length 0 io = r at hshows hflag hvalue ⊢
    cases l' with
    | nil =>
      rw [if_pos hshows.peek_nil]
      exact .short hrest.symm rfl
    | cons y l' =>
      have hy : bufferPeek r.2.b ≠ 0 := by
        rw [hshows.peek]
        exact hz y (hsuffix.subset List.mem_cons_self)
      rw [if_neg hy, hvalue]
      refine .number (fun hnone => hc ?_) (List.cons_ne_nil y l') hshows hsuffix hrest hflag
      cases l with
      | nil => exact absurd (List.suffix_nil.mp hsuffix) (List.cons_ne_nil y l')
      | cons x l =>
        rw [h.peek]
        refine ⟨hz x List.mem_cons_self, ?_⟩
        by_contra hd
        rw [List.map_cons, List.takeWhile_cons, if_pos (eq_true_of_ne_false hd)] at hnone
        cases hnone

/-! ## `readHost` -/

/-- A call of `readHost` on bytes in which `h` is the host: they end before the host and its port do,
these are refused, or they are read. -/
inductive HostRead (h : HostScan) (s : ReqState) (l : List Cell) : Option (Nat × Bool) × ReqState → Prop
  | short {s' : ReqState} (short : h.Short) (flag : s'.io.isBufferEmpty = true) :
      HostRead h s l (none, s')
  | refused {s' : ReqState} {l' : List Cell} {v : Bool} (refused : h.Refused)
      (invalid : ¬(h.i < HOST_MAX_SIZE ∧ v = true)) (reads : s'.Reads l')
      (bytes : l'.map Prod.fst = h.after) (begun : (s'.rData.host[0] != 0) = h.begun) :
      HostRead h s l (some (h.i, v), s')
  | valid {s' : ReqState} {l' : List Cell} (lt : h.i < HOST_MAX_SIZE) (short : ¬h.Short)
      (refused : ¬h.Refused) (reads : s'.Reads l')
      (bytes : l'.map Prod.fst = h.after) (begun : (s'.rData.host[0] != 0) = h.begun)
      (last : s'.rData.host[254] = s.rData.host[254]) (port : s'.rData.port = h.port s.rData.port) :
      HostRead h s l (some (h.i, true), s')

/-- `readHost` finds the host and the port that the scan says, or runs out. -/
theorem readHost_scan (userinfo : Bool) {s : ReqState} {l : List Cell} (h : s.Reads l) :
    HostRead (scanHost userinfo (s.rData.host[0] != 0) 0 (l.map Prod.fst)) s l (readHost userinfo s) := by
  obtain ⟨l', hs⟩ := hostLoop_scan userinfo l (l.length + 1) ⟨0, 0, s.rData.host, s.io⟩
    (Nat.lt_succ_self _) (Nat.zero_lt_succ _) h.shows_ h.nonzero
  rw [hs.scan]
  unfold readHost
  rw [h.shows_.length]
  have hz : ∀ x ∈ l', x.1 ≠ 0 := fun x hx => h.nonzero x (hs.suffix.subset hx)
  have hkeeps := hostLoop_keeps userinfo (l.length + 1) ⟨0, 0, s.rData.host, s.io⟩ (Nat.zero_lt_succ _)
  generalize hostLoop userinfo (l.length + 1) ⟨0, 0, s.rData.host, s.io⟩ = t at hs hkeeps ⊢
  have hempty : t.io.isBufferEmpty = false := hkeeps.flag.trans h.notEmpty
  have hreads : (s.withHost t).Reads l' := ⟨hs.shows_, hz, hempty⟩
  rcases hs.stop with ⟨hi, hc⟩ | ⟨hi, hc⟩
  -- The loop ended in front of the array's end: at the end of the input, or at a byte it does not
  -- take.
  · cases l' with
    | nil =>
      have h0 : t.c = 0 := hc.trans tolower_zero
      simp only [h0, true_or, if_true]
      refine .short ⟨hi, ?_⟩ rfl
      unfold HostScan.after
      split <;> rfl
    | cons x l' =>
      have hx : x.1 ≠ 0 := hz x List.mem_cons_self
      have hc : t.c = tolower x.1 := hc
      have h0 : t.c ≠ 0 := by rw [hc]; exact fun h0 => hx (tolower_eq_zero.mp h0)
      have hcolon : (⟨t.i, t.host[0] != 0, (x :: l').map Prod.fst⟩ : HostScan).colon = (t.c == 0x3a) := by
        unfold HostScan.colon
        rw [decide_eq_true hi, hc]
        rfl
      have hfull : t.i ≠ HOST_MAX_SIZE := Nat.ne_of_lt hi
      -- A colon is followed by the port; any other byte ends the host.
      by_cases h3a : t.c = 0x3a
      · rw [beq_iff_eq.mpr h3a] at hcolon
        have hafter : (⟨t.i, t.host[0] != 0, (x :: l').map Prod.fst⟩ : HostScan).after =
            (l'.map Prod.fst).dropWhile isdigit := by
          unfold HostScan.after
          rw [hcolon, if_pos rfl]
          rfl
        have hread : (readAndWrite t.io).2.Shows l' := hs.shows_.read _ _
        have hnumber := getNumber_scan (lit ":") hread fun y hy => hz y (List.mem_cons_of_mem _ hy)
        have hflag : (readAndWrite t.io).2.isBufferEmpty = false := hempty
        unfold readPort
        simp only [h3a, if_true, ReqState.io_withHost]
        generalize getNumber (lit ":") (readAndWrite t.io).2 = r at hnumber ⊢
        cases hnumber with
        | short rest flag =>
          simp only [flag, and_self, or_true, if_true]
          exact .short ⟨hi, hafter.trans rest⟩ rfl
        | @refused l'' io' none more shows_ suffix bytes flag =>
          have he : io'.isBufferEmpty = false := flag.trans hflag
          simp only [show ¬(0x3a : UInt8) = 0 by decide, he, Bool.false_eq_true, and_false, or_self,
            if_false]
          refine .refused (.inr ⟨hcolon, none, ?_⟩) (fun hv => Bool.false_ne_true hv.2)
            ⟨shows_, fun y hy => hz y (List.mem_cons_of_mem _ (suffix.subset hy)), he⟩
            (bytes.trans hafter.symm) rfl
          rw [hafter, ← bytes]
          exact fun hnil => more (List.map_eq_nil_iff.mp hnil)
        | @number l'' io' some more shows_ suffix bytes flag =>
          have hmore : (⟨t.i, t.host[0] != 0, (x :: l').map Prod.fst⟩ : HostScan).after ≠ [] := by
            rw [hafter, ← bytes]
            exact fun hnil => more (List.map_eq_nil_iff.mp hnil)
          simp only [show ¬(0x3a : UInt8) = 0 by decide, Bool.true_eq_false, false_and, or_self,
            if_false]
          refine .valid hi (fun hshort => hmore hshort.2) ?_
            ⟨shows_, fun y hy => hz y (List.mem_cons_of_mem _ (suffix.subset hy)), flag.trans hflag⟩
            (bytes.trans hafter.symm) rfl (hkeeps.last hi) ?_
          · rintro (hi' | ⟨-, hdigits, -⟩)
            · exact hfull hi'
            · exact some hdigits
          · unfold HostScan.port
            rw [hcolon, if_pos rfl]
            rfl
      · rw [beq_eq_false_iff_ne.mpr h3a] at hcolon
        have hafter : (⟨t.i, t.host[0] != 0, (x :: l').map Prod.fst⟩ : HostScan).after =
            (x :: l').map Prod.fst := by
          unfold HostScan.after
          rw [hcolon, if_neg Bool.false_ne_true]
        simp only [readPort_of_ne h3a, h0, Bool.true_eq_false, false_and, or_self, if_false]
        refine .valid hi (fun hshort => ?_) ?_ hreads hafter.symm rfl (hkeeps.last hi) ?_
        · exact absurd (hafter.symm.trans hshort.2) (List.cons_ne_nil _ _)
        · rintro (hi' | ⟨hc', -, -⟩)
          · exact hfull hi'
          · exact Bool.false_ne_true (hcolon.symm.trans hc')
        · unfold HostScan.port
          rw [hcolon, if_neg Bool.false_ne_true]
          rfl
  -- The array is full, so no port is looked for.
  · have hne : t.c ≠ 0x3a := by rintro h; rw [h] at hc; exact absurd hc (by decide)
    have h0 : t.c ≠ 0 := by rintro h; rw [h] at hc; exact absurd hc (by decide)
    have hcolon : (⟨t.i, t.host[0] != 0, l'.map Prod.fst⟩ : HostScan).colon = false := by
      unfold HostScan.colon
      rw [decide_eq_false (by rw [hi]; exact Nat.lt_irrefl _), Bool.false_and]
    simp only [readPort_of_ne hne, h0, Bool.true_eq_false, false_and, or_self, if_false]
    refine .refused (.inl hi) (fun hv => absurd hv.1 (by rw [hi]; exact Nat.lt_irrefl _)) hreads ?_ rfl
    unfold HostScan.after
    rw [if_neg (by rw [hcolon]; exact Bool.false_ne_true)]

/-! ## Formats -/

/-- A call of `matchFormat` by how many of the bytes to read are those of the format: all of its
bytes, or not all with a byte behind them, or all that there is to read. -/
inductive FormatScan (format : List UInt8) (io : Io) (l : List Cell) : Bool × Io → Prop
  | full {io' : Io} (all : matched format (l.map Prod.fst) = format.length)
      (shows_ : io'.Shows (l.drop format.length)) (flag : io'.isBufferEmpty = io.isBufferEmpty) :
      FormatScan format io l (true, io')
  | miss {io' : Io} (part : matched format (l.map Prod.fst) < format.length)
      (more : matched format (l.map Prod.fst) < l.length)
      (shows_ : io'.Shows (l.drop (matched format (l.map Prod.fst))))
      (flag : io'.isBufferEmpty = io.isBufferEmpty) : FormatScan format io l (false, io')
  | short {io' : Io} (part : matched format (l.map Prod.fst) < format.length)
      (none : matched format (l.map Prod.fst) = l.length) (flag : io'.isBufferEmpty = true) :
      FormatScan format io l (false, io')

/-- The loop of `matchFormat` goes through what is matched. The induction is on the format. -/
theorem matchFormatLoop_scan {format : List UInt8} {l : List Cell} (hf : 0 ∉ format)
    (hz : ∀ x ∈ l, x.1 ≠ 0) (i : Nat) (c : UInt8) {io : Io} (h : io.Shows l) :
    (matchFormatLoop true format i c io).2.2.2.Shows (l.drop (matched format (l.map Prod.fst))) ∧
      (matchFormatLoop true format i c io).2.2.2.isBufferEmpty = io.isBufferEmpty ∧
      (matchFormatLoop true format i c io).1 = format.drop (matched format (l.map Prod.fst)) ∧
      (matched format (l.map Prod.fst) < format.length →
        ((matchFormatLoop true format i c io).2.2.1 = 0 ↔
          matched format (l.map Prod.fst) = l.length)) := by
  induction format generalizing l i c io with
  | nil => exact ⟨h, rfl, rfl, fun hlt => absurd hlt (Nat.lt_irrefl 0)⟩
  | cons f format ih =>
    obtain ⟨hf0, hf'⟩ := not_or.mp (mt List.mem_cons.mpr hf)
    unfold matchFormatLoop
    cases l with
    | nil =>
      have hc : (0 : UInt8) ≠ toupper f := fun hc => hf0 (toupper_eq_zero.mp hc.symm).symm
      simp only [peekUpChar, h.peek_nil, toupper_zero, ne_eq, hc, not_false_eq_true, if_true]
      exact ⟨h, trivial, rfl, fun _ => iff_of_true trivial rfl⟩
    | cons x l =>
      simp only [peekUpChar, h.peek, List.map_cons, matched]
      by_cases hc : toupper x.1 = toupper f
      · obtain ⟨hshows, hflag, hrest, hlast⟩ := ih (l := l) hf'
          (fun y hy => hz y (List.mem_cons_of_mem _ hy)) (i + 1) (toupper x.1) (h.read _ _)
        simp only [hc, ne_eq, not_true, if_false, if_true]
        rw [hc] at hshows hflag hrest hlast
        refine ⟨hshows, hflag, hrest, fun hlt => (hlast (Nat.lt_of_succ_lt_succ hlt)).trans ?_⟩
        rw [List.length_cons, Nat.succ_inj]
      · simp only [hc, ne_eq, not_false_eq_true, if_true, if_false]
        refine ⟨h, trivial, rfl, fun _ => iff_of_false ?_ (Nat.ne_of_lt (Nat.zero_lt_succ _))⟩
        exact fun h0 => hz x List.mem_cons_self (toupper_eq_zero.mp h0)

/-- `matchFormat` succeeds, misses or runs out by what is matched. -/
theorem matchFormat_scan {format : List UInt8} (pre : List UInt8) {l : List Cell} (hf : 0 ∉ format)
    (hz : ∀ x ∈ l, x.1 ≠ 0) {io : Io} (h : io.Shows l) :
    FormatScan format io l (matchFormat format pre io) := by
  obtain ⟨hshows, hflag, hrest, hlast⟩ := matchFormatLoop_scan hf hz 0 0 h
  have hright := matched_le_right format (l.map Prod.fst)
  rw [List.length_map] at hright
  unfold matchFormat matchFormatWith
  generalize matchFormatLoop true format 0 0 io = r at hshows hflag hrest hlast ⊢
  simp only
  rcases Nat.lt_or_eq_of_le (matched_le_left format (l.map Prod.fst)) with hlt | hall
  · have hne : r.1 ≠ [] := by
      rw [hrest, ne_eq, List.drop_eq_nil_iff]
      exact Nat.not_le.mpr hlt
    split
    · next hc => exact .short hlt ((hlast hlt).mp hc.2) rfl
    · next hc =>
      rw [List.isEmpty_eq_false_iff.mpr hne]
      exact .miss hlt (Nat.lt_of_le_of_ne hright fun heq => hc ⟨hne, (hlast hlt).mpr heq⟩) hshows hflag
  · have hnil : r.1 = [] := by rw [hrest, hall, List.drop_length]
    rw [if_neg fun hc => hc.1 hnil, hnil]
    rw [hall] at hshows
    exact .full hall hshows hflag

/-! ## `checkUri` -/

/-- The target begins with `http://`, whatever the case of its letters. -/
def HttpTarget (w : List UInt8) : Prop := (w.take 7).map toupper = lit "HTTP://"

instance decidableHttpTarget (w : List UInt8) : Decidable (HttpTarget w) :=
  inferInstanceAs (Decidable (_ = _))

/-- A target is absolute exactly when `http://` is matched. -/
theorem httpTarget_iff (w : List UInt8) : HttpTarget w ↔ matched (lit "HTTP://") w = 7 :=
  (matched_eq_length_iff (lit "HTTP://") w).symm

/-- The end of `checkUri` behind `http://`. -/
def checkUriAbsolute (s : ReqState) : Bool × ReqState :=
  let (ok, s) := checkUriForHost s
  if ok then (true, s)
  else if s.io.isBufferEmpty then (false, s)
  else checkUriRelative s

/-- A call of `checkUri` by whether the bytes to read begin with `http://`: they end before that is
known, or they do not, or the host is looked for behind it. -/
inductive UriScan (s : ReqState) (l : List Cell) : Bool × ReqState → Prop
  | short {io : Io} (other : ¬HttpTarget (l.map Prod.fst))
      (none : matched (lit "HTTP://") (l.map Prod.fst) = l.length) (flag : io.isBufferEmpty = true) :
      UriScan s l (false, { s with io := io })
  | relative {io : Io} (other : ¬HttpTarget (l.map Prod.fst))
      (reads : ({ s with io := io } : ReqState).Reads (l.drop (matched (lit "HTTP://") (l.map Prod.fst)))) :
      UriScan s l (checkUriRelative { s with io := io })
  | absolute {io : Io} (target : HttpTarget (l.map Prod.fst))
      (reads : ({ s with io := io } : ReqState).Reads (l.drop 7)) :
      UriScan s l (checkUriAbsolute (({ s with io := io } : ReqState).goto .URI_HOST))

/-- `checkUri` goes on with an absolute target or with a relative one by what is matched. -/
theorem checkUri_scan {s : ReqState} {l : List Cell} (h : s.Reads l) : UriScan s l (checkUri s) := by
  -- The two formats are matched as one.
  have hboth : matched (lit "HTTP://") (l.map Prod.fst) =
      if matched (lit "HTTP") (l.map Prod.fst) = 4 then 4 + matched (lit "://") ((l.drop 4).map Prod.fst)
      else matched (lit "HTTP") (l.map Prod.fst) := by
    rw [List.map_drop]
    exact matched_append_format (lit "HTTP") (lit "://") (l.map Prod.fst)
  have hhttp := matchFormat_scan [] (show 0 ∉ lit "HTTP" by decide) h.nonzero h.shows_
  unfold checkUri
  generalize matchFormat (lit "HTTP") [] s.io = r at hhttp ⊢
  cases hhttp with
  | @short io part none flag =>
    have hpart : matched (lit "HTTP") (l.map Prod.fst) < 4 := part
    rw [if_neg (Nat.ne_of_lt hpart)] at hboth
    simp only [Bool.false_eq_true, if_false, flag, if_true]
    exact .short (fun htarget => by rw [httpTarget_iff] at htarget; omega) (hboth.trans none) flag
  | @miss io part more shows_ flag =>
    have hpart : matched (lit "HTTP") (l.map Prod.fst) < 4 := part
    have he : io.isBufferEmpty = false := flag.trans h.notEmpty
    rw [if_neg (Nat.ne_of_lt hpart)] at hboth
    simp only [Bool.false_eq_true, if_false, he]
    refine .relative (fun htarget => by rw [httpTarget_iff] at htarget; omega) ?_
    rw [hboth]
    exact ⟨shows_, fun x hx => h.nonzero x (List.mem_of_mem_drop hx), he⟩
  | @full io all shows_ flag =>
    have hz : ∀ x ∈ l.drop 4, x.1 ≠ 0 := fun x hx => h.nonzero x (List.mem_of_mem_drop hx)
    have hsep := matchFormat_scan (lit "HTTP") (show 0 ∉ lit "://" by decide) hz shows_
    have hlen := matched_le_right (lit "HTTP") (l.map Prod.fst)
    have hall : matched (lit "HTTP") (l.map Prod.fst) = 4 := all
    rw [hall, List.length_map] at hlen
    rw [if_pos hall] at hboth
    have hdrop : ∀ i, (l.drop 4).drop i = l.drop (4 + i) := fun i => List.drop_drop
    simp only [if_true]
    generalize matchFormat (lit "://") (lit "HTTP") io = r at hsep ⊢
    cases hsep with
    | @short io' part none flag' =>
      have hpart : matched (lit "://") ((l.drop 4).map Prod.fst) < 3 := part
      simp only [Bool.false_eq_true, if_false, flag', if_true]
      refine .short (fun htarget => by rw [httpTarget_iff] at htarget; omega) ?_ flag'
      rw [hboth, none, List.length_drop]
      omega
    | @miss io' part more shows_' flag' =>
      have hpart : matched (lit "://") ((l.drop 4).map Prod.fst) < 3 := part
      have he : io'.isBufferEmpty = false := flag'.trans (flag.trans h.notEmpty)
      simp only [Bool.false_eq_true, if_false, he]
      refine .relative (fun htarget => by rw [httpTarget_iff] at htarget; omega) ?_
      rw [hboth, ← hdrop]
      exact ⟨shows_', fun x hx => hz x (List.mem_of_mem_drop hx), he⟩
    | @full io' all' shows_' flag' =>
      have hall' : matched (lit "://") ((l.drop 4).map Prod.fst) = 3 := all'
      simp only [if_true]
      refine .absolute (s := s) ?_ ⟨hdrop 3 ▸ shows_',
        fun x hx => h.nonzero x (List.mem_of_mem_drop hx), flag'.trans (flag.trans h.notEmpty)⟩
      rw [httpTarget_iff, hboth, hall']

end HttpProxy
