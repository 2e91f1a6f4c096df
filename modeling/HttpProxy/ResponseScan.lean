import HttpProxy.Consumption
import HttpProxy.FreshInput
import HttpProxy.ResponseParser

/-!
# What `checkHeaders` makes of a line

The loop of `checkHeaders` looks for field names at every byte, not only at the start of a line. Its
scan of a text either passes over it or finds a name in it, and it goes on behind what it read, so
the lemmas compose: `Skips w v` says that the scan passes over `w` in front of `v`, `Finds next w v`
that it ends with `next` behind `w`, and both hold whatever comes after.

A text without field names is passed over (`scan_text`), with two exceptions, both behind a `con`:
a text that ends in `content-` takes the CR of its line with it, and one that starts like `content-`
and goes on like `connection:` (`contnection:`) passes for a `Connection` field.
-/

namespace HttpProxy

/-- The fields the parser looks at. -/
inductive HeaderField
  | connection
  | contentLength
  | contentEncoding
  | contentType
  | transferEncoding
deriving DecidableEq, Repr

namespace HeaderField

/-- The name, in capitals and with its colon. -/
def name : HeaderField → List UInt8
  | connection => lit "CONNECTION:"
  | contentLength => lit "CONTENT-LENGTH:"
  | contentEncoding => lit "CONTENT-ENCODING:"
  | contentType => lit "CONTENT-TYPE:"
  | transferEncoding => lit "TRANSFER-ENCODING:"

/-- The state that looks at the value. -/
def check : HeaderField → ResponseParserState
  | connection => .CONNECTION_CHECK
  | contentLength => .LENGTH_CHECK
  | contentEncoding => .ENCODING_CHECK
  | contentType => .TYPE_CHECK
  | transferEncoding => .CHUNKED_CHECK

end HeaderField

/-- `text` contains `word`, given in capitals, in any case. -/
def Mentions (word text : List UInt8) : Prop := word <:+: text.map toupper

instance (word text : List UInt8) : Decidable (Mentions word text) :=
  inferInstanceAs (Decidable (word <:+: text.map toupper))

/-- A text contains what stands in it. -/
theorem Mentions.of_append {word u v w : List UInt8} (h : v.map toupper = word) :
    Mentions word (u ++ v ++ w) :=
  ⟨u.map toupper, w.map toupper, by rw [List.map_append, List.map_append, h]⟩

/-- What is contained behind something is contained. -/
theorem Mentions.mono {word text : List UInt8} (h : Mentions word text) (u : List UInt8) :
    Mentions word (u ++ text) := by
  unfold Mentions
  rw [List.map_append]
  exact h.trans (List.suffix_append _ _).isInfix

/-! ## The scan as a whole -/

/-- A name that is missed was consumed, and the input goes on. -/
theorem checkName_none {format pre : List UInt8} {next : ResponseParserState} {io io' : Io}
    (h : checkName format pre next io = (none, io')) :
    io.Consumes io' ∧ io'.isBufferEmpty = false := by
  unfold checkName at h
  simp only [Prod.mk.injEq] at h
  obtain ⟨hnone, rfl⟩ := h
  split at hnone
  · cases hnone
  · split at hnone
    · cases hnone
    · next hflag =>
      have hflag := Bool.eq_false_iff.mpr hflag
      exact ⟨matchFormat_consumes _ _ _ (.inr hflag), hflag⟩

/-- Where none of the names behind `Content-` is found the bytes were consumed. -/
theorem checkContent_consumes {io io' : Io} (h : checkContent io = (none, io')) :
    io.Consumes io' := by
  have hread := readAndWrite_consumes io
  unfold checkContent at h
  simp only at h
  split at h
  · exact hread.trans (checkName_none h).1
  split at h
  · exact hread.trans (checkName_none h).1
  split at h
  · exact hread.trans (checkName_none h).1
  split at h
  · cases h
  · cases h; exact hread

/-- Where none of the names behind `C` is found the bytes were consumed. -/
theorem checkCon_consumes {io io' : Io} (h : checkCon io = (none, io')) : io.Consumes io' := by
  unfold checkCon at h
  simp only at h
  split at h
  · next hon =>
    have hcon := matchFormat_consumes _ _ io (.inl hon)
    split at h
    · next htent =>
      exact (hcon.trans (matchFormat_consumes _ _ _ (.inl htent))).trans (checkContent_consumes h)
    · obtain ⟨hname, hflag⟩ := checkName_none h
      -- Had `TENT-` run out of input, the flag would still be set.
      have htent := matchFormat_consumes _ _ _ (.inr (hname.empty.symm.trans hflag))
      exact (hcon.trans htent).trans hname
  · simp only [Prod.mk.injEq] at h
    obtain ⟨hnone, rfl⟩ := h
    split at hnone
    · cases hnone
    · next hflag => exact matchFormat_consumes _ _ _ (.inr (Bool.eq_false_iff.mpr hflag))

/-- Where the headers go on behind a line end the bytes were consumed. -/
theorem checkResHeadersEnd_consumes {d : ResponseFields} {io io' : Io}
    (h : checkResHeadersEnd d io = (none, io')) : io.Consumes io' := by
  unfold checkResHeadersEnd at h
  simp only at h
  split at h
  · next hlf =>
    have hlf := matchFormat_consumes _ _ io (.inl hlf)
    split at h
    · split at h
      · cases h
      split at h
      · cases h
      · cases h
        exact hlf.trans ⟨rfl, by rw [Buffer.bytes_read, List.length_tail]; exact Nat.sub_le _ _⟩
    · split at h
      · cases h
      · cases h; exact hlf
  · simp only [Prod.mk.injEq] at h
    obtain ⟨hnone, rfl⟩ := h
    split at hnone
    · cases hnone
    · next hflag => exact matchFormat_consumes _ _ _ (.inr (Bool.eq_false_iff.mpr hflag))

/-- A pass of the loop that goes on has pushed nothing back. -/
theorem checkHeadersPass_consumes {d : ResponseFields} {c : UInt8} {io io' : Io}
    (h : checkHeadersPass d c io = (none, io')) : io.Consumes io' := by
  unfold checkHeadersPass at h
  split at h
  · exact checkCon_consumes h
  split at h
  · exact (checkName_none h).1
  split at h
  · exact checkResHeadersEnd_consumes h
  · cases h; exact .refl io

/-- Every pass that goes on reads a byte, so more fuel than there are bytes changes nothing. -/
theorem checkHeadersLoop_fuel (d : ResponseFields) {fuel fuel' : Nat} {io : Io}
    (hf : io.b.bytes.length < fuel) (hf' : io.b.bytes.length < fuel') :
    checkHeadersLoop d fuel io = checkHeadersLoop d fuel' io := by
  induction fuel generalizing fuel' io with
  | zero => exact absurd hf (Nat.not_lt_zero _)
  | succ fuel ih =>
    obtain ⟨fuel', rfl⟩ : ∃ k, fuel' = k + 1 := ⟨fuel' - 1, by omega⟩
    simp only [checkHeadersLoop]
    split
    · rfl
    · next hc =>
      have hlt := length_readAndWrite_lt fun h0 => hc (toupper_eq_zero.mpr h0)
      split
      · rfl
      · next io' hpass =>
        have hle := (checkHeadersPass_consumes hpass).length_le
        exact ih (by omega) (by omega)

/-- The loop of `checkHeaders` from `io`. -/
def scanHeaders (d : ResponseFields) (io : Io) : ResponseParserState × Io :=
  checkHeadersLoop d (io.b.bytes.length + 1) io

/-- Behind a byte whose pass finds nothing the scan starts over. -/
theorem scanHeaders_goes {d : ResponseFields} {c : UInt8} {io io₁ io' : Io} (hc : c ≠ 0)
    (hread : readAndWrite io = (c, io₁))
    (hpass : checkHeadersPass d (toupper c) io₁ = (none, io')) :
    scanHeaders d io = scanHeaders d io' := by
  have hlt : (readAndWrite io).2.b.bytes.length < io.b.bytes.length :=
    length_readAndWrite_lt (by rw [hread]; exact hc)
  rw [hread] at hlt
  change io₁.b.bytes.length < io.b.bytes.length at hlt
  have hle := (checkHeadersPass_consumes hpass).length_le
  have hc' : toupper c ≠ 0 := fun h0 => hc (toupper_eq_zero.mp h0)
  rw [scanHeaders, checkHeadersLoop, hread]
  simp only [hc', if_false, hpass]
  exact checkHeadersLoop_fuel d (by omega) (Nat.lt_succ_self _)

/-- A byte whose pass finds something ends the scan. -/
theorem scanHeaders_finds {d : ResponseFields} {c : UInt8} {io io₁ io' : Io}
    {next : ResponseParserState} (hc : c ≠ 0) (hread : readAndWrite io = (c, io₁))
    (hpass : checkHeadersPass d (toupper c) io₁ = (some next, io')) :
    scanHeaders d io = (next, io') := by
  have hc' : toupper c ≠ 0 := fun h0 => hc (toupper_eq_zero.mp h0)
  rw [scanHeaders, checkHeadersLoop, hread]
  simp only [hc', if_false, hpass]

/-! ## Passing over bytes, and finding a name -/

/-- The scan passes over `w` in front of `v`. -/
def Skips (w v : List UInt8) : Prop :=
  ∀ (d : ResponseFields) (rest : List UInt8) (io : Io), io.isBufferEmpty = false →
    io.Shows (fresh (w ++ (v ++ rest))) →
    ∃ io', scanHeaders d io = scanHeaders d io' ∧ io.Leaves io' (v ++ rest) w

/-- The scan reads `w` and ends with `next`, in front of `v`. -/
def Finds (next : ResponseParserState) (w v : List UInt8) : Prop :=
  ∀ (d : ResponseFields) (rest : List UInt8) (io : Io), io.isBufferEmpty = false →
    io.Shows (fresh (w ++ (v ++ rest))) →
    ∃ io', scanHeaders d io = (next, io') ∧ io.Leaves io' (v ++ rest) w

/-- A call of `f` reads `w` in front of `v`, and returns `a`. -/
def Reads {α : Type*} (f : Io → α × Io) (a : α) (w v : List UInt8) : Prop :=
  ∀ (rest : List UInt8) (io : Io), io.isBufferEmpty = false → io.Shows (fresh (w ++ (v ++ rest))) →
    ∃ io', f io = (a, io') ∧ io.Leaves io' (v ++ rest) w

theorem Reads.stay {α : Type*} (a : α) (v : List UInt8) : Reads (fun io => (a, io)) a [] v :=
  fun _ io _ h => ⟨io, rfl, Io.Leaves.refl h⟩

theorem Skips.nil (v : List UInt8) : Skips [] v := fun _ _ io _ h => ⟨io, rfl, Io.Leaves.refl h⟩

/-- The scan comes to what is behind the bytes it passes over. -/
theorem Skips.comes {u w v : List UInt8} (h : Skips u (w ++ v)) (d : ResponseFields) {rest : List UInt8}
    {io : Io} (hflag : io.isBufferEmpty = false) (hio : io.Shows (fresh (u ++ w ++ (v ++ rest)))) :
    ∃ io', scanHeaders d io = scanHeaders d io' ∧ io.Leaves io' (w ++ (v ++ rest)) u ∧
      io'.isBufferEmpty = false ∧ io'.Shows (fresh (w ++ (v ++ rest))) := by
  rw [List.append_assoc, ← List.append_assoc w] at hio
  obtain ⟨io', heq, hl⟩ := h d rest io hflag hio
  rw [List.append_assoc] at hl
  exact ⟨io', heq, hl, hl.flag.trans hflag, hl.shows_⟩

/-- Texts passed over one after the other are passed over at once. -/
theorem Skips.append {u w v : List UInt8} (h : Skips u (w ++ v)) (h' : Skips w v) :
    Skips (u ++ w) v := by
  intro d rest io hflag hio
  obtain ⟨io₁, heq₁, hl₁, hflag₁, hio₁⟩ := h.comes d hflag hio
  obtain ⟨io₂, heq₂, hl₂⟩ := h' d rest io₁ hflag₁ hio₁
  exact ⟨io₂, heq₁.trans heq₂, hl₁.trans hl₂⟩

/-- A name behind a text that is passed over is found. -/
theorem Skips.finds {next : ResponseParserState} {u w v : List UInt8} (h : Skips u (w ++ v))
    (h' : Finds next w v) : Finds next (u ++ w) v := by
  intro d rest io hflag hio
  obtain ⟨io₁, heq₁, hl₁, hflag₁, hio₁⟩ := h.comes d hflag hio
  obtain ⟨io₂, heq₂, hl₂⟩ := h' d rest io₁ hflag₁ hio₁
  exact ⟨io₂, heq₁.trans heq₂, hl₁.trans hl₂⟩

section Pass

variable {c : UInt8} {w v : List UInt8}

/-- A text is passed over when the pass of its first byte consumes it. -/
theorem Skips.of_pass (hc : c ≠ 0)
    (h : ∀ d, Reads (checkHeadersPass d (toupper c)) none w v) : Skips (c :: w) v := by
  intro d rest io hflag hio
  obtain ⟨io₁, hread, hl₁⟩ := readAndWrite_fresh hc hio
  obtain ⟨io₂, hpass, hl₂⟩ := h d rest io₁ (hl₁.flag.trans hflag) hl₁.shows_
  exact ⟨io₂, scanHeaders_goes hc hread hpass, hl₁.trans hl₂⟩

/-- A name is found when the pass of its first byte does. -/
theorem Finds.of_pass {next : ResponseParserState} (hc : c ≠ 0)
    (h : ∀ d, Reads (checkHeadersPass d (toupper c)) (some next) w v) :
    Finds next (c :: w) v := by
  intro d rest io hflag hio
  obtain ⟨io₁, hread, hl₁⟩ := readAndWrite_fresh hc hio
  obtain ⟨io₂, hpass, hl₂⟩ := h d rest io₁ (hl₁.flag.trans hflag) hl₁.shows_
  exact ⟨io₂, scanHeaders_finds hc hread hpass, hl₁.trans hl₂⟩

end Pass

/-! ## Matching a name -/

section Name

variable {format : List UInt8}

/-- Bytes that are a format in any case match it. -/
theorem reads_matchFormat {w : List UInt8} (pre : List UInt8)
    (hw : w.map toupper = format.map toupper) (h0 : 0 ∉ w) (v : List UInt8) :
    Reads (matchFormat format pre) true w v := fun _ _ _ h => matchFormat_full true hw h0 h

/-- In front of a CR a format is read whole, or in part. -/
theorem reads_matchFormat_text (pre : List UInt8) (hcr : CR ∉ format) {t : List UInt8}
    (ht : 0 ∉ t) :
    (∃ u v, t = u ++ v ∧ u.map toupper = format.map toupper ∧
      Reads (matchFormat format pre) true u (v ++ [CR])) ∨
    ¬ format.map toupper <+: t.map toupper ∧
      ∃ u v, t = u ++ v ∧ Reads (matchFormat format pre) false u (v ++ [CR]) := by
  obtain ⟨u, v, rfl, hu, -⟩ | ⟨hpre, u, v, rfl, hmiss⟩ := matchFormat_text true pre hcr ht
  · exact .inl ⟨u, v, rfl, hu, reads_matchFormat pre hu (fun h0 => ht (List.mem_append_left v h0)) _⟩
  · refine .inr ⟨hpre, u, v, rfl, fun rest io _ hio => ?_⟩
    rw [List.append_assoc, ← List.append_assoc] at hio
    obtain ⟨io', heq, hl⟩ := hmiss rest io hio
    exact ⟨io', heq, by rw [List.append_assoc]; exact hl⟩

variable {pre w v : List UInt8} {next : ResponseParserState}

/-- A name whose format matches is found. -/
theorem reads_checkName (h : Reads (matchFormat format pre) true w v) :
    Reads (checkName format pre next) (some next) w v := by
  intro rest io hflag hio
  obtain ⟨io', heq, hl⟩ := h rest io hflag hio
  exact ⟨io', by simp only [checkName, heq, if_true], hl⟩

/-- A name whose format is missed is not found. -/
theorem reads_checkName_miss (h : Reads (matchFormat format pre) false w v) :
    Reads (checkName format pre next) none w v := by
  intro rest io hflag hio
  obtain ⟨io', heq, hl⟩ := h rest io hflag hio
  refine ⟨io', ?_, hl⟩
  simp only [checkName, heq, hl.flag, hflag, Bool.false_eq_true, if_false]

end Name

/-! ## The passes of the loop -/

/-- What can follow `content-` in a name: its first byte and the rest, what is pushed back in front of
it, and the state that looks at the value. -/
inductive ContentName : UInt8 → List UInt8 → List UInt8 → ResponseParserState → Prop
  | length : ContentName 0x4c (lit "ENGTH:") (lit "CONTENT-L") .LENGTH_CHECK
  | encoding : ContentName 0x45 (lit "NCODING:") (lit "CONTENT-E") .ENCODING_CHECK
  | type : ContentName 0x54 (lit "YPE:") (lit "CONTENT-T") .TYPE_CHECK

section Passes

variable {u₁ u₂ w v : List UInt8} {next : Option ResponseParserState} {x : UInt8}

/-- Behind `Content-` the byte `y` leads to the name that it begins. -/
theorem reads_checkContent {y : UInt8} {format pre : List UInt8} {p : ResponseParserState}
    (hname : ContentName y format pre p) (hx : x ≠ 0) (hy : toupper x = y)
    (h : Reads (checkName format pre p) next w v) : Reads checkContent next (x :: w) v := by
  intro rest io hflag hio
  obtain ⟨io₁, hread, hl₁⟩ := readAndWrite_fresh hx hio
  obtain ⟨io₂, heq, hl₂⟩ := h rest io₁ (hl₁.flag.trans hflag) hl₁.shows_
  refine ⟨io₂, ?_, hl₁.trans hl₂⟩
  rw [checkContent, hread]
  cases hname with
  | length => simp only [hy, if_true, heq]
  | encoding => simp only [hy, show ¬ (0x45 : UInt8) = 0x4c by decide, if_false, if_true, heq]
  | type =>
    simp only [hy, show ¬ (0x54 : UInt8) = 0x4c by decide, show ¬ (0x54 : UInt8) = 0x45 by decide,
      if_false, if_true, heq]

/-- Behind `Content-` any other byte leads to no name. -/
theorem reads_checkContent_other (hx : x ≠ 0) (hl : toupper x ≠ 0x4c) (he : toupper x ≠ 0x45)
    (ht : toupper x ≠ 0x54) (v : List UInt8) : Reads checkContent none [x] v := by
  intro rest io _ hio
  obtain ⟨io', hread, hl'⟩ := readAndWrite_fresh hx hio
  have hx' : toupper x ≠ 0 := fun h0 => hx (toupper_eq_zero.mp h0)
  refine ⟨io', ?_, hl'⟩
  rw [checkContent, hread]
  simp only [hl, he, ht, hx', if_false]

/-- Behind `C` there is no name without `ON`. -/
theorem reads_checkCon_miss (h : Reads (matchFormat (lit "ON") (lit "C")) false w v) :
    Reads checkCon none w v := by
  intro rest io hflag hio
  obtain ⟨io', heq, hl⟩ := h rest io hflag hio
  refine ⟨io', ?_, hl⟩
  simp only [checkCon, heq, hl.flag, hflag, Bool.false_eq_true, if_false]

/-- Behind `con` the scan reads `u₂` looking for `tent-`, and goes on with `f`. -/
theorem reads_checkCon {ok : Bool} {f : Io → Option ResponseParserState × Io}
    (hf : f = if ok then checkContent else checkName (lit "NECTION:") (lit "CON") .CONNECTION_CHECK)
    (h₁ : Reads (matchFormat (lit "ON") (lit "C")) true u₁ (u₂ ++ (w ++ v)))
    (h₂ : Reads (matchFormat (lit "TENT-") (lit "CON")) ok u₂ (w ++ v)) (h : Reads f next w v) :
    Reads checkCon next (u₁ ++ (u₂ ++ w)) v := by
  intro rest io hflag hio
  have hio₀ : io.Shows (fresh (u₁ ++ ((u₂ ++ (w ++ v)) ++ rest))) := by
    simpa only [List.append_assoc] using hio
  obtain ⟨io₁, heq₁, hl₁⟩ := h₁ rest io hflag hio₀
  have hio₁ := hl₁.shows_
  rw [List.append_assoc] at hio₁
  obtain ⟨io₂, heq₂, hl₂⟩ := h₂ rest io₁ (hl₁.flag.trans hflag) hio₁
  have hio₂ := hl₂.shows_
  rw [List.append_assoc] at hio₂
  obtain ⟨io₃, heq₃, hl₃⟩ := h rest io₂ (hl₂.flag.trans (hl₁.flag.trans hflag)) hio₂
  refine ⟨io₃, ?_, hl₁.trans (hl₂.trans hl₃)⟩
  simp only [checkCon, heq₁, heq₂, if_true]
  rw [← heq₃, hf]
  cases ok <;> rfl

end Passes

/-! ## The field names -/

/-- Bytes that are a name in capitals have no zero. -/
theorem zero_not_mem_of_map {u name : List UInt8} (h : u.map toupper = name) (h0 : 0 ∉ name) :
    0 ∉ u := fun hu => h0 (h ▸ List.mem_map.mpr ⟨0, hu, toupper_zero⟩)

theorem ne_zero_of_toupper {x y : UInt8} (h : toupper x = y) (hy : y ≠ 0) : x ≠ 0 := by
  rintro rfl
  exact hy (h.symm.trans toupper_zero)

/-- Behind `con`, what makes a name of it. -/
theorem finds_con {x : UInt8} {u₁ u₂ w v : List UInt8} {ok : Bool} {p : ResponseParserState}
    (hx : toupper x = 0x43) (hon : u₁.map toupper = lit "ON")
    (htent : Reads (matchFormat (lit "TENT-") (lit "CON")) ok u₂ (w ++ v))
    (h : Reads (if ok then checkContent else checkName (lit "NECTION:") (lit "CON") .CONNECTION_CHECK)
      (some p) w v) : Finds p (x :: (u₁ ++ (u₂ ++ w))) v := by
  apply Finds.of_pass (ne_zero_of_toupper hx (by decide))
  intro d
  have hpass : checkHeadersPass d (toupper x) = checkCon := by
    funext io
    rw [hx, checkHeadersPass]
    rfl
  rw [hpass]
  exact reads_checkCon rfl (reads_matchFormat _ hon (zero_not_mem_of_map hon (by decide)) _) htent h

/-- A name that begins with `Content-` is found. -/
theorem finds_content {y : UInt8} {u format pre : List UInt8} {p : ResponseParserState}
    (hname : ContentName y format pre p)
    (hu : u.map toupper = 0x43 :: (lit "ON" ++ (lit "TENT-" ++ y :: format))) (v : List UInt8) :
    Finds p u v := by
  obtain ⟨x, u, rfl, hx, hu⟩ := List.map_eq_cons_iff.mp hu
  obtain ⟨u₁, u, rfl, hon, hu⟩ := List.map_eq_append_iff.mp hu
  obtain ⟨u₂, u, rfl, htent, hu⟩ := List.map_eq_append_iff.mp hu
  obtain ⟨z, w, rfl, hz, hw⟩ := List.map_eq_cons_iff.mp hu
  obtain ⟨hz0, hw', hw0⟩ : z ≠ 0 ∧ w.map toupper = format.map toupper ∧ 0 ∉ w := by
    cases hname <;>
      exact ⟨ne_zero_of_toupper hz (by decide), hw.trans (by decide),
        zero_not_mem_of_map hw (by decide)⟩
  apply finds_con hx hon (reads_matchFormat _ htent (zero_not_mem_of_map htent (by decide)) _)
  exact reads_checkContent hname hz0 hz (reads_checkName (reads_matchFormat _ hw' hw0 v))

/-- A field name is found, whatever its case and whatever follows. -/
theorem finds_name (k : HeaderField) {u : List UInt8} (hu : u.map toupper = k.name)
    (v : List UInt8) : Finds k.check u v := by
  cases k with
  | connection =>
    obtain ⟨x, u, rfl, hx, hu⟩ := List.map_eq_cons_iff.mp
      (show u.map toupper = 0x43 :: (lit "ON" ++ lit "NECTION:") from hu)
    obtain ⟨u₁, w, rfl, hon, hw⟩ := List.map_eq_append_iff.mp hu
    -- `TENT-` is given up at the second `N`, with nothing read.
    have hmiss : Reads (matchFormat (lit "TENT-") (lit "CON")) false [] (w ++ v) := by
      intro rest io _ hio
      obtain ⟨n, w', rfl, hn, -⟩ := List.map_eq_cons_iff.mp
        (show w.map toupper = 0x4e :: lit "ECTION:" from hw)
      exact matchFormat_miss true (f := []) (y := 0x54) (g := lit "ENT-") rfl rfl
        List.not_mem_nil (ne_zero_of_toupper hn (by decide)) (by rw [hn]; decide) hio
    apply finds_con hx hon hmiss
    exact reads_checkName (reads_matchFormat _ hw (zero_not_mem_of_map hw (by decide)) v)
  | contentLength => exact finds_content .length hu v
  | contentEncoding => exact finds_content .encoding hu v
  | contentType => exact finds_content .type hu v
  | transferEncoding =>
    obtain ⟨x, w, rfl, hx, hw⟩ := List.map_eq_cons_iff.mp
      (show u.map toupper = 0x54 :: lit "RANSFER-ENCODING:" from hu)
    apply Finds.of_pass (ne_zero_of_toupper hx (by decide))
    intro d
    have hpass : checkHeadersPass d (toupper x) =
        checkName (lit "RANSFER-ENCODING:") (lit "T") .CHUNKED_CHECK := by
      funext io
      rw [hx, checkHeadersPass]
      rfl
    rw [hpass]
    exact reads_checkName (reads_matchFormat _ hw (zero_not_mem_of_map hw (by decide)) v)

/-! ## Text without field names -/

/-- What can follow `Content-` is the rest of a field's name. -/
theorem ContentName.field {y : UInt8} {format pre : List UInt8} {p : ResponseParserState}
    (hname : ContentName y format pre p) :
    ∃ k : HeaderField, k.name = 0x43 :: (lit "ON" ++ (lit "TENT-" ++ y :: format)) := by
  cases hname with
  | length => exact ⟨.contentLength, rfl⟩
  | encoding => exact ⟨.contentEncoding, rfl⟩
  | type => exact ⟨.contentType, rfl⟩

/-- The rest of a name is in capitals and does not go over the line. -/
theorem ContentName.format_eq {y : UInt8} {format pre : List UInt8} {p : ResponseParserState}
    (hname : ContentName y format pre p) : format.map toupper = format ∧ CR ∉ format := by
  cases hname <;> exact ⟨by decide, by decide⟩

/-- What a pass does in a text `t` in front of a CR, behind the byte `c` it read. -/
inductive PassText (c : UInt8) (t : List UInt8) : Prop
  | skips {w v : List UInt8} (split : t = w ++ v)
      (pass : ∀ d, Reads (checkHeadersPass d (toupper c)) none w (v ++ [CR]))
  | swallows (con : Mentions (lit "CON") (c :: t))
      (pass : ∀ d, Reads (checkHeadersPass d (toupper c)) none (t ++ [CR]) [])
  | finds {w v : List UInt8} (con : Mentions (lit "CON") (c :: t)) (split : t = w ++ v)
      (pass : ∀ d, Reads (checkHeadersPass d (toupper c)) (some .CONNECTION_CHECK) w (v ++ [CR]))

/-- Behind `content-`, in a text that contains no name. -/
theorem reads_checkContent_text {t : List UInt8} (ht : 0 ∉ t)
    (hfree : ∀ y format pre p, ContentName y format pre p →
      ¬ ∃ u v, t = u ++ v ∧ u.map toupper = y :: format) :
    (∃ w v, t = w ++ v ∧ Reads checkContent none w (v ++ [CR])) ∨
      Reads checkContent none (t ++ [CR]) [] := by
  cases t with
  | nil => exact .inr (reads_checkContent_other (by decide) (by decide) (by decide) (by decide) [])
  | cons x t =>
    obtain ⟨hx, ht⟩ := not_or.mp (mt List.mem_cons.mpr ht)
    replace hx := Ne.symm hx
    left
    by_cases hother : toupper x ≠ 0x4c ∧ toupper x ≠ 0x45 ∧ toupper x ≠ 0x54
    · obtain ⟨hl, he, ht'⟩ := hother
      exact ⟨[x], t, rfl, reads_checkContent_other hx hl he ht' _⟩
    · obtain ⟨format, pre, p, hname⟩ : ∃ format pre p, ContentName (toupper x) format pre p := by
        rcases (show toupper x = 0x4c ∨ toupper x = 0x45 ∨ toupper x = 0x54 by tauto) with h | h | h <;>
          rw [h]
        · exact ⟨_, _, _, .length⟩
        · exact ⟨_, _, _, .encoding⟩
        · exact ⟨_, _, _, .type⟩
      obtain ⟨hup, hcr⟩ := hname.format_eq
      obtain ⟨u, v, rfl, hu, -⟩ | ⟨-, u, v, rfl, hmiss⟩ := reads_matchFormat_text pre hcr ht
      · exact absurd ⟨x :: u, v, rfl, by rw [List.map_cons, hu, hup]⟩ (hfree _ _ _ _ hname)
      · exact ⟨x :: u, v, rfl, reads_checkContent hname hx rfl (reads_checkName_miss hmiss)⟩

/-- The bytes behind `C` make it a text with `con`. -/
theorem mentions_con {c : UInt8} {u : List UInt8} (hc : toupper c = 0x43)
    (hu : u.map toupper = lit "ON") (v : List UInt8) : Mentions (lit "CON") (c :: (u ++ v)) :=
  Mentions.of_append (u := []) (v := c :: u) (w := v) (by rw [List.map_cons, hc, hu]; rfl)

/-- The pass of a `c` is the one that looks for the names behind it. -/
theorem checkHeadersPass_con {c : UInt8} (hc : toupper c = 0x43) (d : ResponseFields) :
    checkHeadersPass d (toupper c) = checkCon := by
  funext io
  rw [hc, checkHeadersPass]
  rfl

section Con

variable {c : UInt8} {u₁ u₂ t : List UInt8}

/-- Behind `content-` a text with no name in it is read on, with its last byte or with the CR of its
line. -/
theorem con_content (hc : toupper c = 0x43) (hon : u₁.map toupper = lit "ON")
    (htent : u₂.map toupper = lit "TENT-") (ht : 0 ∉ t)
    (hfree : ∀ k : HeaderField, ¬ Mentions k.name (c :: (u₁ ++ (u₂ ++ t)))) :
    PassText c (u₁ ++ (u₂ ++ t)) := by
  have hon' : ∀ v, Reads (matchFormat (lit "ON") (lit "C")) true u₁ v :=
    reads_matchFormat _ hon (zero_not_mem_of_map hon (by decide))
  have htent' : ∀ v, Reads (matchFormat (lit "TENT-") (lit "CON")) true u₂ v :=
    reads_matchFormat _ htent (zero_not_mem_of_map htent (by decide))
  have hnoname : ∀ y format pre p, ContentName y format pre p →
      ¬ ∃ u v, t = u ++ v ∧ u.map toupper = y :: format := by
    rintro y format pre p hname ⟨u, v, rfl, hu⟩
    obtain ⟨k, hk⟩ := hname.field
    have hname : (c :: (u₁ ++ (u₂ ++ u))).map toupper = k.name := by
      rw [List.map_cons, List.map_append, List.map_append, hc, hon, htent, hu, hk]
    have hmention := Mentions.of_append (u := []) (w := v) hname
    exact hfree k (by simpa only [List.nil_append, List.cons_append, List.append_assoc] using hmention)
  obtain ⟨w, v, rfl, hread⟩ | hread := reads_checkContent_text ht hnoname
  · refine .skips (w := u₁ ++ (u₂ ++ w)) (v := v) (by simp only [List.append_assoc]) fun d => ?_
    rw [checkHeadersPass_con hc]
    exact reads_checkCon rfl (hon' _) (htent' _) hread
  · refine .swallows (mentions_con hc hon _) fun d => ?_
    rw [checkHeadersPass_con hc, List.append_assoc, List.append_assoc]
    exact reads_checkCon rfl (hon' _) (htent' _) hread

/-- What was read of `tent-` is forgotten when `nection:` is tried. -/
theorem con_nection (hc : toupper c = 0x43) (hon : u₁.map toupper = lit "ON")
    (hmiss : Reads (matchFormat (lit "TENT-") (lit "CON")) false u₂ (t ++ [CR]))
    (ht : 0 ∉ t) : PassText c (u₁ ++ (u₂ ++ t)) := by
  have hon' : ∀ v, Reads (matchFormat (lit "ON") (lit "C")) true u₁ v :=
    reads_matchFormat _ hon (zero_not_mem_of_map hon (by decide))
  have hcr : CR ∉ lit "NECTION:" := by decide
  obtain ⟨w, v, rfl, -, hread⟩ | ⟨-, w, v, rfl, hread⟩ := reads_matchFormat_text (lit "CON") hcr ht
  · rw [List.append_assoc] at hmiss
    refine .finds (w := u₁ ++ (u₂ ++ w)) (v := v) (mentions_con hc hon _)
      (by simp only [List.append_assoc]) fun d => ?_
    rw [checkHeadersPass_con hc]
    exact reads_checkCon rfl (hon' _) hmiss (reads_checkName hread)
  · rw [List.append_assoc] at hmiss
    refine .skips (w := u₁ ++ (u₂ ++ w)) (v := v) (by simp only [List.append_assoc]) fun d => ?_
    rw [checkHeadersPass_con hc]
    exact reads_checkCon rfl (hon' _) hmiss (reads_checkName_miss hread)

end Con

/-- Behind `c` a text with no name in it is read on. The cases are how far `CON` and `TENT-`
match. -/
theorem con_text {c : UInt8} {t : List UInt8} (hc : toupper c = 0x43) (ht : 0 ∉ t)
    (hfree : ∀ k : HeaderField, ¬ Mentions k.name (c :: t)) : PassText c t := by
  have hcr₁ : CR ∉ lit "ON" := by decide
  have hcr₂ : CR ∉ lit "TENT-" := by decide
  obtain ⟨u₁, t, rfl, hon, -⟩ | ⟨-, u, v, rfl, hmiss⟩ := reads_matchFormat_text (lit "C") hcr₁ ht
  · have ht₁ : 0 ∉ t := fun h0 => ht (List.mem_append_right u₁ h0)
    obtain ⟨u₂, t, rfl, htent, -⟩ | ⟨-, u₂, t, rfl, hmiss⟩ :=
      reads_matchFormat_text (lit "CON") hcr₂ ht₁
    · exact con_content hc hon htent (fun h0 => ht₁ (List.mem_append_right u₂ h0)) hfree
    · exact con_nection hc hon hmiss fun h0 => ht₁ (List.mem_append_right u₂ h0)
  · refine .skips rfl fun d => ?_
    rw [checkHeadersPass_con hc]
    exact reads_checkCon_miss hmiss

/-- The pass of any byte but CR reads on in a text with no name in it. -/
theorem pass_text {c : UInt8} {t : List UInt8} (hcr : c ≠ CR) (ht : 0 ∉ t)
    (hfree : ∀ k : HeaderField, ¬ Mentions k.name (c :: t)) : PassText c t := by
  by_cases hc : toupper c = 0x43
  · exact con_text hc ht hfree
  by_cases hc' : toupper c = 0x54
  · have hpass : ∀ d, checkHeadersPass d (toupper c) =
        checkName (lit "RANSFER-ENCODING:") (lit "T") .CHUNKED_CHECK := by
      intro d
      funext io
      rw [hc', checkHeadersPass]
      rfl
    have hcr' : CR ∉ lit "RANSFER-ENCODING:" := by decide
    obtain ⟨u, v, rfl, hu, -⟩ | ⟨-, u, v, rfl, hmiss⟩ := reads_matchFormat_text (lit "T") hcr' ht
    · have hname : (c :: u).map toupper = HeaderField.transferEncoding.name := by
        rw [List.map_cons, hc', hu]
        decide
      exact absurd (Mentions.of_append (u := []) (w := v) hname) (hfree .transferEncoding)
    · refine .skips rfl fun d => ?_
      rw [hpass]
      exact reads_checkName_miss hmiss
  · refine .skips (w := []) (v := t) rfl fun d => ?_
    have hup : toupper c ≠ CR := by
      intro h
      revert h hcr
      unfold toupper
      grind
    have hpass : checkHeadersPass d (toupper c) = fun io => (none, io) := by
      funext io
      simp only [checkHeadersPass, hc, hc', hup, if_false]
    rw [hpass]
    exact Reads.stay none _

/-- The scan of a text without field names in front of a CR. -/
inductive ScanText (t : List UInt8) : Prop
  | skips (scan : Skips t [CR])
  | swallows (con : Mentions (lit "CON") t) (scan : Skips (t ++ [CR]) [])
  | finds {w v : List UInt8} (con : Mentions (lit "CON") t) (split : t = w ++ v)
      (scan : Finds .CONNECTION_CHECK w (v ++ [CR]))

/-- What is passed over in front belongs to the scan of the text. -/
theorem ScanText.prepend {w v : List UInt8} (hw : Skips w (v ++ [CR])) (h : ScanText v) :
    ScanText (w ++ v) := by
  cases h with
  | skips scan => exact .skips (hw.append scan)
  | swallows con scan =>
    refine .swallows (con.mono w) ?_
    rw [List.append_assoc]
    exact Skips.append (by rwa [List.append_nil]) scan
  | finds con split scan =>
    subst split
    refine .finds (con.mono w) (List.append_assoc _ _ _).symm (Skips.finds ?_ scan)
    rwa [List.append_assoc] at hw

/-- A text with no name in it is passed over, or is one of the two exceptions. The induction is on its
length, of which a pass takes a part. -/
theorem scan_text {t : List UInt8} (ht : 0 ∉ t) (hcr : CR ∉ t)
    (hfree : ∀ k : HeaderField, ¬ Mentions k.name t) : ScanText t := by
  induction hn : t.length using Nat.strongRecOn generalizing t with
  | ind n ih =>
    subst hn
    cases t with
    | nil => exact .skips (Skips.nil _)
    | cons c t =>
      obtain ⟨hc, ht⟩ := not_or.mp (mt List.mem_cons.mpr ht)
      obtain ⟨hcr, hcrt⟩ := not_or.mp (mt List.mem_cons.mpr hcr)
      replace hc := Ne.symm hc
      cases pass_text (Ne.symm hcr) ht hfree with
      | @skips w v split hpass =>
        subst split
        refine ScanText.prepend (w := c :: w) (v := v) (Skips.of_pass hc hpass)
          (ih v.length ?_ ?_ ?_ ?_ rfl)
        · rw [List.length_cons, List.length_append]; omega
        · exact fun h0 => ht (List.mem_append_right w h0)
        · exact fun h0 => hcrt (List.mem_append_right w h0)
        · exact fun k hk => hfree k (Mentions.mono hk (c :: w))
      | swallows con hpass => exact .swallows con (Skips.of_pass hc hpass)
      | @finds w v con split hpass =>
        subst split
        exact .finds (w := c :: w) (v := v) con rfl (Finds.of_pass hc hpass)

/-! ## Where lines end -/

/-- The LF behind a CR is read. -/
theorem leaves_checkLF (pre : List UInt8) {v : List UInt8} {io : Io}
    (h : io.Shows (fresh (LF :: v))) : ∃ io', checkLF pre io = (true, io') ∧ io.Leaves io' v [LF] :=
  matchFormat_full true (u := [LF]) rfl (by decide) h

/-- The LF of a line end is passed over like any other byte. -/
theorem skips_lf (v : List UInt8) : Skips [LF] v := by
  apply Skips.of_pass (by decide)
  intro d
  have hpass : checkHeadersPass d (toupper LF) = fun io => (none, io) := rfl
  rw [hpass]
  exact Reads.stay none v

/-- Behind a line comes another. -/
theorem skips_crlf {x : UInt8} (hx : x ≠ 0) (hcr : x ≠ CR) : Skips [CR, LF] [x] := by
  apply Skips.of_pass (by decide)
  intro d rest io hflag hio
  obtain ⟨io', heq, hl⟩ := leaves_checkLF [CR] hio
  refine ⟨io', ?_, hl⟩
  have hpeek : bufferPeek io'.b = x := hl.shows_.peek
  change checkResHeadersEnd d io = _
  simp only [checkResHeadersEnd, heq, hpeek, hx, hcr, if_true, if_false]

/-- Behind the last line comes an empty one. -/
theorem scanHeaders_end {d : ResponseFields} {rest : List UInt8} {io : Io}
    (h : io.Shows (fresh ([CR, LF] ++ CR :: LF :: rest))) :
    ∃ io', scanHeaders d io = (.RES_FINISHED, io') ∧
      io.Leaves io' rest ([CR, LF] ++ headersEnd d) := by
  obtain ⟨io₁, hread, hl₁⟩ := readAndWrite_fresh (by decide) h
  obtain ⟨io₂, heq, hl₂⟩ := leaves_checkLF [CR] hl₁.shows_
  have hcr := leaves_bufferRead hl₂.shows_
  have hlf := leaves_bufferRead hcr.shows_
  have hpeek : bufferPeek io₂.b = CR := hl₂.shows_.peek
  have hpeek' : bufferPeek (bufferRead io₂.b).2 = LF := hcr.shows_.peek
  refine ⟨_, scanHeaders_finds (by decide) hread ?_,
    hl₁.trans (hl₂.trans (hcr.trans (hlf.write (headersEnd d))))⟩
  change checkResHeadersEnd d io₁ = _
  simp only [checkResHeadersEnd, heq, hpeek, hpeek', if_true]

/-- What comes behind an empty line is still to be seen. -/
theorem scanHeaders_waits {d : ResponseFields} {io : Io} (h : io.Shows (fresh [CR, LF])) :
    (scanHeaders d io).1 = .RES_HEADERS := by
  obtain ⟨io₁, hread, hl₁⟩ := readAndWrite_fresh (by decide) h
  obtain ⟨io₂, heq, hl₂⟩ := leaves_checkLF [CR] hl₁.shows_
  have hpeek : bufferPeek io₂.b = 0 := hl₂.shows_.peek_nil
  have hpass : checkHeadersPass d (toupper CR) io₁ =
      (some .RES_HEADERS, { io₂ with b := writePrefix io₂.b [CR, LF], isBufferEmpty := true }) := by
    change checkResHeadersEnd d io₁ = _
    simp only [checkResHeadersEnd, heq, hpeek, if_true]
    rfl
  rw [scanHeaders_finds (by decide) hread hpass]

end HttpProxy
