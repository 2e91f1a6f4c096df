import HttpProxy.RequestErrors

/-!
# What the parser does with a start line

On a request received whole the loop of `checkRequestInner` goes through the start line as `lineScan`
does, one iteration for each of its parts (`LineRun`). So it is decided by the bytes alone whether the
parser gets past the start line, what it reports or whether it waits.
-/

namespace HttpProxy

/-- What the loop does from `s` on with the rest of the start line. -/
inductive LineRun : ReqState → LineScan → Prop
  | goes {s s' : ReqState} {r : LineScan} (go : loopBody s = .inl s')
      (hp : s.rData.parserState ≠ .LOCALHOST_HEADER_CHECK) (run : LineRun s' r) : LineRun s r
  | waits {s s' : ReqState} (ends : loopBody s = .inr (false, s')) (flag : s'.io.isBufferEmpty = true)
      (hp : s.rData.parserState ≠ .LOCALHOST_HEADER_CHECK) : LineRun s .waits
  | fails {s s' : ReqState} {e : RequestErr} (ends : loopBody s = .inr (false, s'))
      (flag : s'.io.isBufferEmpty = false) (error : errorOf s' = e)
      (hp : s.rData.parserState ≠ .LOCALHOST_HEADER_CHECK) : LineRun s (.fails e)
  | passes {s : ReqState} {l : List Cell} {rest : List UInt8} (reads : s.Reads l)
      (bytes : l.map Prod.fst = rest) (hp : s.rData.parserState = .LOCALHOST_HEADER_CHECK) :
      LineRun s (.passes rest)

/-- What the loop does with a line, told part by part: on to the next part, or to an end without
success. -/
structure ByParts (Run : ReqState → LineScan → Prop) : Prop where
  goes : ∀ {s s' r}, loopBody s = .inl s' → s.rData.parserState ≠ .LOCALHOST_HEADER_CHECK → Run s' r → Run s r
  waits : ∀ {s s'}, loopBody s = .inr (false, s') → s'.io.isBufferEmpty = true →
    s.rData.parserState ≠ .LOCALHOST_HEADER_CHECK → Run s .waits
  fails : ∀ {s s' e}, loopBody s = .inr (false, s') → s'.io.isBufferEmpty = false → errorOf s' = e → e ≠ .OK →
    s.rData.parserState ≠ .LOCALHOST_HEADER_CHECK → Run s (.fails e)

theorem LineRun.byParts : ByParts LineRun where
  goes := .goes
  waits := .waits
  fails := fun ends flag error _ hp => .fails ends flag error hp

/-- A case of the loop goes on with its next state, or ends the loop. -/
theorem loopBody_checkCase {s : ReqState} {r : Bool × ReqState} {next : ReqState → ReqState}
    (h : iteration s = checkCase r next) :
    loopBody s = if r.1 then .inl (next r.2) else .inr (false, r.2) := by
  obtain ⟨ok, s'⟩ := r
  unfold loopBody
  rw [h]
  cases ok <;> rfl

section Parts

variable {s : ReqState} {l : List Cell}

/-! ## The end of the line -/

/-- The loop in `START_LINE_END` does what `endScan` says. -/
theorem lineRun_end (h : s.Reads l) (hp : s.rData.parserState = .START_LINE_END) :
    LineRun s (endScan (l.map Prod.fst)) := by
  have hne : s.rData.parserState ≠ .LOCALHOST_HEADER_CHECK := by rw [hp]; decide
  have hiter : iteration s = checkCase (checkStartLineEnd s) (·.goto .LOCALHOST_HEADER_CHECK) := by
    unfold iteration
    rw [hp]
  have hbody := loopBody_checkCase hiter
  have hmatch := matchFormat_scan [] (show 0 ∉ [CR, LF] by decide) h.nonzero h.shows_
  unfold checkStartLineEnd checkCRLF at hbody
  unfold endScan
  generalize matchFormat [CR, LF] [] s.io = r at hmatch hbody
  cases hmatch with
  | @full io all shows_ flag =>
    have hall : matched [CR, LF] (l.map Prod.fst) = 2 := all
    rw [if_pos hall, ← List.map_drop]
    refine .goes hbody hne (.passes ⟨shows_, ?_, flag.trans h.notEmpty⟩ rfl rfl)
    exact fun x hx => h.nonzero x (List.mem_of_mem_drop hx)
  | @miss io part more shows_ flag =>
    have hpart : matched [CR, LF] (l.map Prod.fst) < 2 := part
    rw [if_neg (Nat.ne_of_lt hpart), List.length_map, if_neg (Nat.ne_of_lt more)]
    refine .fails hbody (flag.trans h.notEmpty) ?_ hne
    unfold errorOf
    simp only [hp]
  | @short io part none flag =>
    have hpart : matched [CR, LF] (l.map Prod.fst) < 2 := part
    rw [if_neg (Nat.ne_of_lt hpart), List.length_map, if_pos none]
    exact .waits hbody flag hne

/-! ## The version -/

/-- The loop in `VERSION` does what `versionScan` says. -/
theorem lineRun_version (h : s.Reads l) (hp : s.rData.parserState = .VERSION)
    (hv : s.rData.version ≠ .undefined) : LineRun s (versionScan (l.map Prod.fst)) := by
  have hne : s.rData.parserState ≠ .LOCALHOST_HEADER_CHECK := by rw [hp]; decide
  have hiter : iteration s = checkCase (extractHttpVersion s) (·.goto .START_LINE_END) := by
    unfold iteration
    rw [hp]
  have hbody := loopBody_checkCase hiter
  have hmatch := matchFormat_scan [] (show 0 ∉ lit "HTTP/1." by decide) h.nonzero h.shows_
  have hright := matched_le_right (lit "HTTP/1.") (l.map Prod.fst)
  have hdrop : ∀ i, (l.map Prod.fst).drop i = (l.drop i).map Prod.fst := fun i => List.map_drop.symm
  unfold extractHttpVersion at hbody
  unfold versionScan
  simp only [hdrop]
  rw [List.length_map] at hright ⊢
  generalize matchFormat (lit "HTTP/1.") [] s.io = r at hmatch hbody
  cases hmatch with
  | @full io all shows_ flag =>
    have hall : matched (lit "HTTP/1.") (l.map Prod.fst) = 7 := all
    have hz : ∀ x ∈ l.drop 7, x.1 ≠ 0 := fun x hx => h.nonzero x (List.mem_of_mem_drop hx)
    have hshows : io.Shows (l.drop 7) := shows_
    rw [if_pos hall]
    rw [hall] at hright
    cases hl : l.drop 7 with
    | nil =>
      have hlen := List.drop_eq_nil_iff.mp hl
      rw [hl] at hshows
      simp only [readAndWrite_nil hshows, ne_eq, not_true, if_false, if_true] at hbody
      rw [if_pos (Nat.le_antisymm hlen hright)]
      -- The digit of the version is still to come.
      exact .waits hbody rfl hne
    | cons x l' =>
      have hx : x.1 ≠ 0 := hz x (by rw [hl]; exact List.mem_cons_self)
      have hlen : ¬l.length = 7 := fun heq => by
        rw [List.drop_eq_nil_of_le (Nat.le_of_eq heq)] at hl
        cases hl
      have hrest : l.drop 8 = l' := by rw [show 8 = 7 + 1 from rfl, ← List.drop_drop, hl, List.drop_one, List.tail_cons]
      -- A digit that is neither leaves the version that was set before, which is accepted.
      have hset : (if x.1 = 0x30 then HttpVersion.v1_0 else if x.1 = 0x31 then .v1_1 else s.rData.version) ≠
          .undefined := by
        split
        · decide
        · split
          · decide
          · exact hv
      rw [hl] at hshows
      simp only [readAndWrite_cons hshows hx, hx, ne_eq, not_false_eq_true, if_true, hset, decide_true] at hbody
      rw [if_neg hlen, hrest]
      refine .goes hbody hne (lineRun_end ⟨hshows.read _ _, fun y hy => ?_, flag.trans h.notEmpty⟩ rfl)
      exact hz y (by rw [hl]; exact List.mem_cons_of_mem x hy)
  | @miss io part more shows_ flag =>
    have hpart : matched (lit "HTTP/1.") (l.map Prod.fst) < 7 := part
    have he : io.isBufferEmpty = false := flag.trans h.notEmpty
    simp only [Bool.false_eq_true, if_false, he, ne_eq, hv, not_false_eq_true, decide_true, if_true] at hbody
    rw [if_neg (Nat.ne_of_lt hpart), if_neg (Nat.ne_of_lt more)]
    exact .goes hbody hne (lineRun_end ⟨shows_, fun x hx => h.nonzero x (List.mem_of_mem_drop hx), he⟩ rfl)
  | @short io part none flag =>
    have hpart : matched (lit "HTTP/1.") (l.map Prod.fst) < 7 := part
    simp only [Bool.false_eq_true, if_false, flag, if_true] at hbody
    rw [if_neg (Nat.ne_of_lt hpart), if_pos none]
    exact .waits hbody flag hne

/-! ## Blanks -/

/-- Skipping the blanks leaves what stands behind them. -/
theorem moveThroughSpacesLoop_dropWhile {l : List Cell} {io : Io} (h : io.Shows l) :
    ∃ l', l'.map Prod.fst = (l.map Prod.fst).dropWhile isBlank ∧ l' <:+ l ∧
      ({ io with b := (moveThroughSpacesLoop l.length io.b).2 } : Io).Shows l' ∧
      (moveThroughSpacesLoop l.length io.b).1 = (l'.map Prod.fst).headD 0 := by
  induction l generalizing io with
  | nil => exact ⟨[], rfl, List.suffix_rfl, h, h.peek_nil⟩
  | cons x l ih =>
    rw [List.length_cons, moveThroughSpacesLoop, List.map_cons, List.dropWhile_cons]
    simp only [h.peek]
    cases hb : isBlank x.1 with
    | true =>
      obtain ⟨l', hbytes, hsuffix, hshows, hc⟩ := ih (h.read io.out io.isBufferEmpty)
      simp only [if_true]
      exact ⟨l', hbytes, hsuffix.trans (List.suffix_cons x l), hshows, hc⟩
    | false =>
      simp only [Bool.false_eq_true, if_false]
      exact ⟨x :: l, rfl, List.suffix_rfl, h, rfl⟩

/-- Nothing of the host is known, and the version is the preset one or one that was read. -/
structure ReqState.InLine (s : ReqState) : Prop where
  version : s.rData.version ≠ .undefined
  host : s.rData.host[0] = 0

/-- The loop in front of blanks does with what is behind them what `scan` says. -/
theorem ByParts.spaces {Run : ReqState → LineScan → Prop} (hrun : ByParts Run)
    {scan : List UInt8 → LineScan} (h : s.Reads l) (hp : s.rData.parserState = .SPACE_TRANSITION)
    (hscan : ∀ io l', l'.map Prod.fst = (l.map Prod.fst).dropWhile isBlank →
      ({ s with io := io } : ReqState).Reads l' →
      Run (({ s with io := io } : ReqState).goto s.rData.next) (scan (l'.map Prod.fst))) :
    Run s (spacesScan scan (l.map Prod.fst)) := by
  have hne : s.rData.parserState ≠ .LOCALHOST_HEADER_CHECK := by rw [hp]; decide
  have hiter : iteration s = checkCase (checkSpaces s) fun s => s.goto s.rData.next := by
    unfold iteration
    rw [hp]
  have hbody := loopBody_checkCase hiter
  obtain ⟨l', hbytes, hsuffix, hshows, hc⟩ := moveThroughSpacesLoop_dropWhile h.shows_
  have hz : ∀ x ∈ l', x.1 ≠ 0 := fun x hx => h.nonzero x (hsuffix.subset hx)
  unfold checkSpaces moveThroughSpaces at hbody
  unfold spacesScan
  rw [h.shows_.length] at hbody
  generalize moveThroughSpacesLoop l.length s.io.b = r at hshows hc hbody
  rw [← hbytes]
  cases l' with
  | nil =>
    simp only [show r.1 = 0 from hc, if_true, Bool.false_eq_true, if_false] at hbody
    rw [List.map_nil, if_pos rfl]
    exact hrun.waits hbody rfl hne
  | cons x l' =>
    have hx : r.1 ≠ 0 := by
      rw [hc]
      exact hz x List.mem_cons_self
    simp only [hx, if_false, if_true] at hbody
    rw [if_neg (by rw [List.map_cons]; exact List.cons_ne_nil _ _)]
    exact hrun.goes hbody hne (hscan _ _ hbytes ⟨⟨hshows.wf, hshows.cells⟩, hz, h.notEmpty⟩)

/-! ## The target -/

/-- A blank is one in either case. -/
theorem isBlank_toupper (c : UInt8) : isBlank (toupper c) = isBlank c := by
  unfold isBlank toupper
  grind

/-- What is matched of a format without blanks has none. -/
theorem isBlank_matched {format w : List UInt8} (hf : ∀ f ∈ format, isBlank f = false) :
    ∀ c ∈ w.take (matched format w), isBlank c = false := by
  intro c hc
  have hmem : toupper c ∈ (format.take (matched format w)).map toupper := by
    rw [← map_take_matched]
    exact List.mem_map_of_mem hc
  obtain ⟨f, hf', heq⟩ := List.mem_map.mp hmem
  rw [← isBlank_toupper c, ← heq, isBlank_toupper]
  exact hf f (List.mem_of_mem_take hf')

/-- The case of a host goes on in its other state where none was copied, unless the input ends. -/
theorem loopBody_hostCase_false {s s' : ReqState} {otherwise : ReqState → ReqState}
    (h : iteration s = hostCase (false, s') otherwise) (h0 : s'.rData.host[0] = 0) :
    loopBody s = if s'.io.isBufferEmpty then .inr (false, s') else .inl (otherwise s') := by
  unfold loopBody
  rw [h]
  unfold hostCase
  simp only [h0, ne_eq, not_true, false_or, true_and, Bool.false_eq_true, if_false]
  cases s'.io.isBufferEmpty <;> rfl

/-- The loop behind the target does what the rest of the line says. -/
theorem lineRun_behind_target (h : s.Reads l) (hline : s.InLine)
    (hp : s.rData.parserState = .SPACE_TRANSITION) (hn : s.rData.next = .VERSION) :
    LineRun s (spacesScan versionScan (l.map Prod.fst)) := by
  refine LineRun.byParts.spaces h hp fun io l' _ hreads => ?_
  rw [hn]
  exact lineRun_version ⟨hreads.shows_, hreads.nonzero, hreads.notEmpty⟩ rfl hline.version

/-- The rest of the target, from inside it. -/
theorem lineRun_relative {s₁ : ReqState} {l₁ : List Cell} {w : List UInt8} (reads : s₁.Reads l₁) (hline : s₁.InLine)
    (hiter : iteration s = hostCase (checkUriRelative s₁) (·.gotoSpaces .VERSION))
    (hne : s.rData.parserState ≠ .LOCALHOST_HEADER_CHECK)
    (hdrop : w.dropWhile (!isBlank ·) = (l₁.map Prod.fst).dropWhile (!isBlank ·)) : LineRun s (targetScan w) := by
  have hrest := cleanRelativeUri_rest (s := s₁.goto .RELATIVE_URI) ⟨reads.shows_, reads.nonzero, reads.notEmpty⟩
  unfold checkUriRelative at hiter
  unfold targetScan
  rw [hdrop]
  generalize cleanRelativeUri (s₁.goto .RELATIVE_URI) = r at hrest hiter
  cases hrest with
  | @short io' none flag =>
    have hbody := loopBody_hostCase_false hiter hline.host
    rw [if_pos (show io'.isBufferEmpty = true from flag)] at hbody
    rw [if_pos none]
    exact .waits hbody flag hne
  | @found io' l' bytes some reads' =>
    have hbody := loopBody_hostCase_false hiter hline.host
    rw [if_neg (Bool.eq_false_iff.mp reads'.notEmpty)] at hbody
    rw [← bytes, if_neg fun hnil => some (List.map_eq_nil_iff.mp hnil)]
    refine .goes hbody hne (lineRun_behind_target ?_ ⟨hline.version, hline.host⟩ rfl rfl)
    exact ⟨reads'.shows_, reads'.nonzero, reads'.notEmpty⟩

/-- The loop in `URI` goes through a target that is not absolute as `targetScan` says. -/
theorem lineRun_target (h : s.Reads l) (hp : s.rData.parserState = .URI) (hline : s.InLine)
    (hother : ¬HttpTarget (l.map Prod.fst)) : LineRun s (targetScan (l.map Prod.fst)) := by
  have hne : s.rData.parserState ≠ .LOCALHOST_HEADER_CHECK := by rw [hp]; decide
  have hiter : iteration s = hostCase (checkUri s) (·.gotoSpaces .VERSION) := by
    unfold iteration
    rw [hp]
  have hmatched := @isBlank_matched (lit "HTTP://") (l.map Prod.fst) (by decide +kernel)
  have huri := checkUri_scan h
  generalize checkUri s = r at huri hiter
  cases huri with
  | @short io other none flag =>
    unfold targetScan
    have hbody := loopBody_hostCase_false hiter hline.host
    have hnil : (l.map Prod.fst).dropWhile (!isBlank ·) = [] := by
      refine List.dropWhile_eq_nil_iff.mpr fun c hc => ?_
      rw [none, ← List.length_map (f := Prod.fst), List.take_length] at hmatched
      rw [hmatched c hc]
      rfl
    rw [if_pos (show io.isBufferEmpty = true from flag)] at hbody
    rw [if_pos hnil]
    exact .waits hbody flag hne
  | @relative io other reads =>
    have hdrop : (l.map Prod.fst).dropWhile (!isBlank ·) =
        ((l.drop (matched (lit "HTTP://") (l.map Prod.fst))).map Prod.fst).dropWhile (!isBlank ·) := by
      have hsplit := List.take_append_drop (matched (lit "HTTP://") (l.map Prod.fst)) (l.map Prod.fst)
      conv_lhs => rw [← hsplit]
      rw [List.dropWhile_append, List.dropWhile_eq_nil_iff.mpr, List.isEmpty_nil, if_pos rfl, List.map_drop]
      intro c hc
      rw [hmatched c hc]
      rfl
    exact lineRun_relative reads ⟨hline.version, hline.host⟩ hiter hne hdrop
  | absolute target reads => exact absurd target hother

/-! ## The method -/

/-- What the loop over the options makes of a method that starts with the first byte of `w`. -/
inductive MethodRead (method : HttpMethod) (l : List Cell) : HttpMethod × Io → Prop
  | word {io : Io} {o : List UInt8 × HttpMethod} (mem : o ∈ methodWords)
      (begins : BeginsWith (l.map Prod.fst) o) (shows_ : io.Shows (l.drop o.1.length))
      (flag : io.isBufferEmpty = false) : MethodRead method l (o.2, io)
  | unknown {io : Io} (none : ∀ o ∈ methodWords, ¬BeginsWith (l.map Prod.fst) o)
      (more : ∀ o ∈ methodWords, matched o.1 (l.map Prod.fst) ≠ (l.map Prod.fst).length)
      (flag : io.isBufferEmpty = false) : MethodRead method l (method, io)
  | short {io : Io} {o : List UInt8 × HttpMethod} (mem : o ∈ methodWords)
      (none : ∀ o ∈ methodWords, ¬BeginsWith (l.map Prod.fst) o)
      (short : matched o.1 (l.map Prod.fst) = (l.map Prod.fst).length) (flag : io.isBufferEmpty = true) :
      MethodRead method l (method, io)

/-- Only the options that begin with the byte are tried. -/
theorem extractHttpMethodLoop_filter (c : UInt8) (opts : List (List UInt8 × HttpMethod))
    (method : HttpMethod) (io : Io) :
    extractHttpMethodLoop c opts method io =
      extractHttpMethodLoop c (opts.filter fun o => o.1.headD 0 == c) method io := by
  induction opts generalizing io with
  | nil => rfl
  | cons o opts ih =>
    rw [List.filter_cons, extractHttpMethodLoop]
    by_cases hc : o.1.headD 0 = c
    · rw [if_pos hc, if_pos (beq_iff_eq.mpr hc), extractHttpMethodLoop, if_pos hc]
      simp only [ih]
    · rw [if_neg hc, if_neg (by rw [beq_iff_eq]; exact hc), ih]

/-- The options and the words for a first byte: none, one, or those that start with a `P`. -/
theorem filter_methodOption (c : UInt8) :
    (∀ o ∈ methodWords, o.1.headD 0 ≠ c) ∧ methodOption.filter (fun o => o.1.headD 0 == c) = [] ∨
      (∃ o ∈ methodWords, o.1.headD 0 = c ∧ (∀ o' ∈ methodWords, o'.1.headD 0 = c → o' = o) ∧
        methodOption.filter (fun o => o.1.headD 0 == c) = [o]) ∨
      c = 0x50 ∧ methodOption.filter (fun o => o.1.headD 0 == c) = [(lit "POST", .POST), (lit "PUT", .PUT)] := by
  by_cases hC : c = 0x43
  · subst hC
    exact .inr (.inl ⟨(lit "CONNECT", .CONNECT), by decide +kernel, by decide +kernel, by decide +kernel, by decide +kernel⟩)
  by_cases hD : c = 0x44
  · subst hD
    exact .inr (.inl ⟨(lit "DELETE", .DELETE), by decide +kernel, by decide +kernel, by decide +kernel, by decide +kernel⟩)
  by_cases hG : c = 0x47
  · subst hG
    exact .inr (.inl ⟨(lit "GET", .GET), by decide +kernel, by decide +kernel, by decide +kernel, by decide +kernel⟩)
  by_cases hH : c = 0x48
  · subst hH
    exact .inr (.inl ⟨(lit "HEAD", .HEAD), by decide +kernel, by decide +kernel, by decide +kernel, by decide +kernel⟩)
  by_cases hO : c = 0x4f
  · subst hO
    exact .inr (.inl ⟨(lit "OPTIONS", .OPTIONS), by decide +kernel, by decide +kernel, by decide +kernel, by decide +kernel⟩)
  by_cases hP : c = 0x50
  · subst hP
    exact .inr (.inr ⟨rfl, by decide +kernel⟩)
  by_cases hT : c = 0x54
  · subst hT
    exact .inr (.inl ⟨(lit "TRACE", .TRACE), by decide +kernel, by decide +kernel, by decide +kernel, by decide +kernel⟩)
  have hheads : ∀ o ∈ methodWords, o.1.headD 0 ∈ [0x43, 0x44, 0x47, 0x48, 0x4f, 0x50, 0x54] := by decide +kernel
  have hnone : ∀ o ∈ methodWords, o.1.headD 0 ≠ c := by
    intro o ho heq
    have hmem := hheads o ho
    rw [heq] at hmem
    simp only [List.mem_cons, List.not_mem_nil, or_false] at hmem
    grind
  refine .inl ⟨hnone, List.filter_eq_nil_iff.mpr fun o ho => ?_⟩
  rw [beq_iff_eq]
  exact hnone o (List.mem_append_left _ ho)

/-- A word by its first byte. -/
theorem matched_word {o : List UInt8 × HttpMethod} (ho : o ∈ methodWords) (c : UInt8) (w : List UInt8) :
    matched o.1 (c :: w) = if o.1.headD 0 = toupper c then matched o.1.tail w + 1 else 0 := by
  have hupper : ∀ o ∈ methodWords, ∃ f t, o.1 = f :: t ∧ toupper f = f := by
    intro o ho
    have hne : ∀ o ∈ methodWords, o.1 ≠ [] ∧ toupper (o.1.headD 0) = o.1.headD 0 := by decide +kernel
    obtain ⟨f, t, hft⟩ := List.exists_cons_of_ne_nil (hne o ho).1
    refine ⟨f, t, hft, ?_⟩
    have hf := (hne o ho).2
    rw [hft] at hf
    exact hf
  obtain ⟨f, t, hft, hf⟩ := hupper o ho
  rw [hft, matched, hf]
  exact if_congr eq_comm rfl rfl

theorem length_word {o : List UInt8 × HttpMethod} (ho : o ∈ methodWords) :
    o.1.length = o.1.tail.length + 1 := by
  have hall : ∀ o ∈ methodWords, o.1.length = o.1.tail.length + 1 := by decide +kernel
  exact hall o ho

/-- Where nothing of a word is at the front there is no method. -/
theorem methodScan_unknown {scan : List UInt8 → LineScan} {w : List UInt8} (hnone : ∀ o ∈ methodWords, ¬BeginsWith w o)
    (hmore : ∀ o ∈ methodWords, matched o.1 w ≠ w.length) :
    methodScan scan w = .fails .GENERAL_METHOD_ERROR := by
  refine (methodScan_of_none hnone).trans (if_neg fun hany => ?_)
  obtain ⟨o, ho, heq⟩ := List.any_eq_true.mp hany
  exact hmore o ho (beq_iff_eq.mp heq)

/-- Where all there is begins a word the scan waits. -/
theorem methodScan_short {scan : List UInt8 → LineScan} {w : List UInt8} {o : List UInt8 × HttpMethod} (ho : o ∈ methodWords)
    (hnone : ∀ o ∈ methodWords, ¬BeginsWith w o) (hshort : matched o.1 w = w.length) :
    methodScan scan w = .waits := by
  have hany : (methodWords.any fun o => matched o.1 w == w.length) = true :=
    List.any_eq_true.mpr ⟨o, ho, beq_iff_eq.mpr hshort⟩
  exact (methodScan_of_none hnone).trans (if_pos hany)

/-- A first byte with one option. -/
theorem methodRead_single {o : List UInt8 × HttpMethod} (ho : o ∈ methodWords) (x : Cell) {io : Io}
    (hhead : o.1.headD 0 = toupper x.1) (huniq : ∀ o' ∈ methodWords, o'.1.headD 0 = toupper x.1 → o' = o)
    (hshows : io.Shows l) (hz : ∀ y ∈ l, y.1 ≠ 0) (he : io.isBufferEmpty = false) (method : HttpMethod) :
    MethodRead method (x :: l) (extractHttpMethodLoop (toupper x.1) [o] method io) := by
  have htail : ∀ o ∈ methodWords, 0 ∉ o.1.tail := by decide +kernel
  have hword := matched_word ho x.1 (l.map Prod.fst)
  have hlen := length_word ho
  have hmatch := matchFormat_scan [toupper x.1] (htail o ho) hz hshows
  rw [if_pos hhead] at hword
  -- Another word has another first byte.
  have hother : ∀ o' ∈ methodWords, o' ≠ o → matched o'.1 (x.1 :: l.map Prod.fst) = 0 := by
    intro o' ho' hne
    rw [matched_word ho' x.1, if_neg fun heq => hne (huniq o' ho' heq)]
  have hnone : matched o.1.tail (l.map Prod.fst) < o.1.tail.length →
      ∀ o' ∈ methodWords, ¬BeginsWith (x.1 :: l.map Prod.fst) o' := by
    intro hpart o' ho' hb
    have hlen' := length_word ho'
    unfold BeginsWith at hb
    by_cases hne : o' = o
    · subst hne
      omega
    · rw [hother o' ho' hne] at hb
      omega
  unfold extractHttpMethodLoop
  rw [if_pos hhead]
  obtain ⟨name, type⟩ := o
  generalize matchFormat _ _ io = r at hmatch ⊢
  cases hmatch with
  | @full io' all shows_ flag =>
    simp only [if_true]
    refine .word (o := (name, type)) ho ?_ ?_ (flag.trans he)
    · change matched name (x.1 :: l.map Prod.fst) = name.length
      rw [hword, all, hlen]
    · change io'.Shows ((x :: l).drop name.length)
      rw [hlen, List.drop_succ_cons]
      exact shows_
  | @miss io' part more shows_ flag =>
    simp only [Bool.false_eq_true, if_false, flag.trans he, extractHttpMethodLoop]
    refine .unknown (hnone part) (fun o' ho' heq => ?_) (flag.trans he)
    rw [List.map_cons, List.length_cons, List.length_map] at heq
    by_cases hne : o' = (name, type)
    · rw [hne, hword] at heq
      omega
    · rw [hother o' ho' hne] at heq
      omega
  | @short io' part none flag =>
    simp only [Bool.false_eq_true, if_false, flag, if_true]
    refine .short ho (hnone part) ?_ flag
    rw [List.map_cons, hword, none, List.length_cons, List.length_map]

/-- The word that is read as `PUT` when `POST` missed after its first byte and `i` others. -/
def putWord (i : Nat) : List UInt8 × HttpMethod := (lit "P" ++ (lit "OST").take i ++ lit "UT", .PUT)

/-- Where `POST` missed no other word than that one goes on. -/
theorem matched_of_post {c : UInt8} {w : List UInt8} {i : Nat} (hc : toupper c = 0x50)
    (hi : matched (lit "OST") w = i) (hpart : i < 3) (hmore : i < w.length) :
    ∀ o ∈ methodWords, o ≠ putWord i → matched o.1 (c :: w) ≤ i + 1 ∧ matched o.1 (c :: w) < o.1.length := by
  have hother : ∀ o ∈ methodWords, o.1.headD 0 ≠ 0x50 →
      matched o.1 (c :: w) ≤ i + 1 ∧ matched o.1 (c :: w) < o.1.length := by
    intro o ho hne
    rw [matched_word ho, hc, if_neg hne, length_word ho]
    exact ⟨Nat.zero_le _, Nat.zero_lt_succ _⟩
  have hwords : ∀ o ∈ methodWords, o.1.headD 0 = 0x50 →
      o = (lit "POST", .POST) ∨ o = putWord 0 ∨ o = putWord 1 ∨ o = putWord 2 := by decide +kernel
  have host : lit "OST" = [0x4f, 0x53, 0x54] := by decide
  have hpost : lit "POST" = [0x50, 0x4f, 0x53, 0x54] := by decide
  have hOU : ¬(0x4f : UInt8) = 0x55 := by decide
  have hSU : ¬(0x53 : UInt8) = 0x55 := by decide
  have hput0 : (putWord 0).1 = [0x50, 0x55, 0x54] := by decide
  have hput1 : (putWord 1).1 = [0x50, 0x4f, 0x55, 0x54] := by decide
  have hput2 : (putWord 2).1 = [0x50, 0x4f, 0x53, 0x55, 0x54] := by decide
  have hP : toupper 0x50 = 0x50 := rfl
  have hO' : toupper 0x4f = 0x4f := rfl
  have hS' : toupper 0x53 = 0x53 := rfl
  have hT' : toupper 0x54 = 0x54 := rfl
  have hU' : toupper 0x55 = 0x55 := rfl
  rw [host] at hi
  intro o ho hne
  by_cases hhead : o.1.headD 0 = 0x50
  · cases w with
    | nil => exact absurd hmore (Nat.not_lt_zero i)
    | cons a w =>
      -- The byte at which `POST` is left decides which misspelling of `PUT` comes next.
      by_cases hO : toupper a = 0x4f
      · cases w with
        | nil =>
          simp only [matched, hO, hO', if_true] at hi
          simp only [List.length_cons, List.length_nil] at hmore
          omega
        | cons b w =>
          by_cases hS : toupper b = 0x53
          · cases w with
            | nil =>
              simp only [matched, hO, hO', hS, hS', if_true] at hi
              simp only [List.length_cons, List.length_nil] at hmore
              omega
            | cons d w =>
              by_cases hT : toupper d = 0x54
              · simp only [matched, hO, hO', hS, hS', hT, hT', if_true] at hi
                omega
              · simp only [matched, hO, hO', hS, hS', hT, hT', if_true, if_false] at hi
                subst hi
                -- Only the words with a `P` in front agree with the beginning of `POST`.
                rcases hwords o ho hhead with rfl | rfl | rfl | rfl
                · simp only [hpost, matched, hc, hP, hO, hO', hS, hS', hT, hT', if_true, if_false]
                  decide
                · simp only [hput0, matched, hc, hP, hO, hU', hOU, if_true, if_false]
                  decide
                · simp only [hput1, matched, hc, hP, hO, hO', hS, hU', hSU, if_true, if_false]
                  decide
                · exact absurd rfl hne
          · simp only [matched, hO, hO', hS, hS', if_true, if_false] at hi
            subst hi
            rcases hwords o ho hhead with rfl | rfl | rfl | rfl
            · simp only [hpost, matched, hc, hP, hO, hO', hS, hS', if_true, if_false]
              decide
            · simp only [hput0, matched, hc, hP, hO, hU', hOU, if_true, if_false]
              decide
            · exact absurd rfl hne
            · simp only [hput2, matched, hc, hP, hO, hO', hS, hS', if_true, if_false]
              decide
      · simp only [matched, hO, hO', if_false] at hi
        subst hi
        rcases hwords o ho hhead with rfl | rfl | rfl | rfl
        · simp only [hpost, matched, hc, hP, hO, hO', if_true, if_false]
          decide
        · exact absurd rfl hne
        · simp only [hput1, matched, hc, hP, hO, hO', if_true, if_false]
          decide
        · simp only [hput2, matched, hc, hP, hO, hO', if_true, if_false]
          decide
  · exact hother o ho hhead

theorem putWord_mem {i : Nat} (hi : i < 3) : putWord i ∈ methodWords := by
  have hall : ∀ i < 3, putWord i ∈ methodWords := by decide +kernel
  exact hall i hi

/-- `P` and one to three letters of `POST`, and then `UT`. -/
theorem length_putWord {i : Nat} (hi : i < 3) : (putWord i).1.length = i + 3 := by
  have hall : ∀ i < 3, (putWord i).1.length = i + 3 := by decide +kernel
  exact hall i hi

/-- Behind a missed `POST` the word that is read as `PUT` is matched from its `UT` on. -/
theorem matched_putWord {c : UInt8} {w : List UInt8} {i : Nat} (hc : toupper c = 0x50)
    (hi : matched (lit "OST") w = i) (hpart : i < 3) :
    matched (putWord i).1 (c :: w) = i + 1 + matched (lit "UT") (w.drop i) := by
  have htake := map_take_matched (lit "OST") w
  have hlen : ((lit "OST").take i).length = i := by
    rw [List.length_take]
    exact Nat.min_eq_left (Nat.le_of_lt hpart)
  rw [hi] at htake
  have hfront : matched ((lit "OST").take i) w = i := by
    refine ((matched_eq_length_iff _ w).mpr ?_).trans hlen
    rw [hlen]
    exact htake
  have hword : matched (lit "P" ++ (lit "OST").take i) (c :: w) = (lit "P" ++ (lit "OST").take i).length := by
    have hfirst : toupper c = toupper 0x50 := hc
    rw [show lit "P" = [0x50] from rfl, List.singleton_append, matched, if_pos hfirst, hfront,
      List.length_cons, hlen]
  have hwlen : (lit "P" ++ (lit "OST").take i).length = i + 1 := by
    rw [List.length_append, hlen]
    exact Nat.add_comm 1 i
  change matched (lit "P" ++ (lit "OST").take i ++ lit "UT") (c :: w) = _
  rw [matched_append_format, if_pos hword, hwlen, List.drop_succ_cons]

/-- A first byte with two options: where `POST` misses, `PUT` is looked for in what follows. -/
theorem methodRead_post (x : Cell) {io : Io} (hx : toupper x.1 = 0x50) (hshows : io.Shows l)
    (hz : ∀ y ∈ l, y.1 ≠ 0) (he : io.isBufferEmpty = false) (method : HttpMethod) :
    MethodRead method (x :: l)
      (extractHttpMethodLoop 0x50 [(lit "POST", .POST), (lit "PUT", .PUT)] method io) := by
  have hmem : (lit "POST", HttpMethod.POST) ∈ methodWords := by decide +kernel
  have hword := matched_word hmem x.1 (l.map Prod.fst)
  rw [hx, if_pos (show (lit "POST").headD 0 = 0x50 from rfl),
    show (lit "POST").tail = lit "OST" from rfl] at hword
  have hmatch := matchFormat_scan [0x50] (show 0 ∉ lit "OST" by decide) hz hshows
  rw [extractHttpMethodLoop, if_pos (show (lit "POST").headD 0 = 0x50 from rfl),
    show (lit "POST").tail = lit "OST" from rfl]
  generalize matchFormat (lit "OST") [0x50] io = r at hmatch ⊢
  cases hmatch with
  | @full io' all shows_ flag =>
    simp only [if_true]
    refine .word hmem ?_ shows_ (flag.trans he)
    exact hword.trans (by rw [all]; rfl)
  | @short io' part none flag =>
    simp only [Bool.false_eq_true, if_false, flag, if_true]
    have hshort : matched (lit "POST") (x.1 :: l.map Prod.fst) = (x.1 :: l.map Prod.fst).length := by
      rw [hword, none, List.length_cons, List.length_map]
    refine .short hmem (fun o ho hb => ?_) hshort flag
    -- A word at the front would be the beginning of `POST`.
    have hpost : ∀ o ∈ methodWords, o.1 <+: lit "POST" → o.1.length = 4 := by decide +kernel
    have hpre := (matched_eq_right_iff _ _).mp hshort
    have hlen := hpost o ho ((hb.map_take ho).symm ▸ ((List.take_prefix _ _).map toupper).trans hpre)
    have hle := hb.length_le
    have hlast : matched (lit "OST") (l.map Prod.fst) < 3 := part
    rw [List.map_cons, List.length_cons, List.length_map] at hle
    omega
  | @miss io' part more shows_ flag =>
    have hlast : matched (lit "OST") (l.map Prod.fst) < 3 := part
    have hothers := matched_of_post (i := matched (lit "OST") (l.map Prod.fst)) hx rfl hlast
      (by rw [List.length_map]; exact more)
    have hput := matched_putWord (i := matched (lit "OST") (l.map Prod.fst)) hx rfl hlast
    have hlen := length_putWord hlast
    have hputMem := putWord_mem hlast
    generalize matched (lit "OST") (l.map Prod.fst) = i at *
    rw [← List.map_drop] at hput
    have he' : io'.isBufferEmpty = false := flag.trans he
    have hrest := matchFormat_scan [0x50] (show 0 ∉ lit "UT" by decide)
      (fun y hy => hz y (List.mem_of_mem_drop hy)) shows_
    -- No word is at the front when `UT` is not there.
    have hnone : matched (lit "UT") ((l.drop i).map Prod.fst) < 2 →
        ∀ o ∈ methodWords, ¬BeginsWith (x.1 :: l.map Prod.fst) o := by
      intro hut o ho hb
      unfold BeginsWith at hb
      by_cases hne : o = putWord i
      · subst hne
        omega
      · have hmiss := (hothers o ho hne).2
        omega
    simp only [Bool.false_eq_true, if_false, he']
    rw [extractHttpMethodLoop, if_pos (show (lit "PUT").headD 0 = 0x50 from rfl),
      show (lit "PUT").tail = lit "UT" from rfl]
    generalize matchFormat (lit "UT") [0x50] io' = r at hrest ⊢
    cases hrest with
    | @full io'' all' shows' flag' =>
      have hall : matched (lit "UT") ((l.drop i).map Prod.fst) = 2 := all'
      simp only [if_true]
      refine .word (o := putWord i) hputMem ?_ ?_ (flag'.trans he')
      · change matched (putWord i).1 (x.1 :: l.map Prod.fst) = (putWord i).1.length
        omega
      · rw [hlen, List.drop_succ_cons, ← List.drop_drop]
        exact shows'
    | @miss io'' part' more' shows' flag' =>
      have hut : matched (lit "UT") ((l.drop i).map Prod.fst) < 2 := part'
      simp only [Bool.false_eq_true, if_false, flag'.trans he', extractHttpMethodLoop]
      refine .unknown (hnone hut) (fun o ho heq => ?_) (flag'.trans he')
      rw [List.length_drop] at more'
      rw [List.map_cons, List.length_cons, List.length_map] at heq
      by_cases hne : o = putWord i
      · rw [hne, hput] at heq
        omega
      · have hmiss := (hothers o ho hne).1
        omega
    | @short io'' part' none' flag' =>
      have hut : matched (lit "UT") ((l.drop i).map Prod.fst) < 2 := part'
      simp only [Bool.false_eq_true, if_false, flag', if_true]
      refine .short hputMem (hnone hut) ?_ flag'
      rw [List.map_cons, hput, none', List.length_drop, List.length_cons, List.length_map]
      omega

/-- Any first byte. -/
theorem methodRead_loop (x : Cell) {io : Io} (hshows : io.Shows l) (hz : ∀ y ∈ l, y.1 ≠ 0)
    (he : io.isBufferEmpty = false) (method : HttpMethod) :
    MethodRead method (x :: l) (extractHttpMethodLoop (toupper x.1) methodOption method io) := by
  rw [extractHttpMethodLoop_filter]
  rcases filter_methodOption (toupper x.1) with ⟨hnone, hfilter⟩ | ⟨o, ho, hhead, huniq, hfilter⟩ | ⟨hx, hfilter⟩
  · have hzero : ∀ o ∈ methodWords, matched o.1 (x.1 :: l.map Prod.fst) = 0 := fun o ho => by
      rw [matched_word ho x.1, if_neg (hnone o ho)]
    rw [hfilter, extractHttpMethodLoop]
    refine .unknown (fun o ho hb => ?_) (fun o ho heq => ?_) he
    · have hlen := length_word ho
      unfold BeginsWith at hb
      rw [List.map_cons, hzero o ho] at hb
      omega
    · rw [List.map_cons, hzero o ho] at heq
      cases heq
  · rw [hfilter]
    exact methodRead_single ho x hhead huniq hshows hz he method
  · rw [hfilter, hx]
    exact methodRead_post x hx hshows hz he method

/-- The target is an absolute one with `http`. -/
def AbsoluteTarget (w : List UInt8) : Prop :=
  ∃ o ∈ methodOption, isSupported o.2 = true ∧ BeginsWith w o ∧
    HttpTarget ((w.drop o.1.length).dropWhile isBlank)

instance decidableAbsoluteTarget (w : List UInt8) : Decidable (AbsoluteTarget w) :=
  inferInstanceAs (Decidable (∃ o ∈ methodOption, _ ∧ BeginsWith w o ∧ (_ : List UInt8) = _))

/-- The method and the blanks behind it, for whatever the target is gone through by. -/
theorem ByParts.method {Run : ReqState → LineScan → Prop} (hrun : ByParts Run) {scan : List UInt8 → LineScan}
    (h : s.Reads l) (hp : s.rData.parserState = .METHOD) (hm : s.rData.method = .UNDEFINED_M) (hline : s.InLine)
    (htarget : ∀ s' l' o, o ∈ methodWords → isSupported o.2 = true → BeginsWith (l.map Prod.fst) o →
      l'.map Prod.fst = ((l.map Prod.fst).drop o.1.length).dropWhile isBlank → s'.Reads l' →
      s'.rData.parserState = .URI → s'.InLine → Run s' (scan (l'.map Prod.fst))) :
    Run s (methodScan (spacesScan scan) (l.map Prod.fst)) := by
  have hne : s.rData.parserState ≠ .LOCALHOST_HEADER_CHECK := by rw [hp]; decide
  have hiter : iteration s = checkCase (extractHttpMethod s) (·.gotoSpaces .URI) := by
    unfold iteration
    rw [hp]
  have hbody := loopBody_checkCase hiter
  unfold extractHttpMethod at hbody
  cases l with
  | nil =>
    simp only [readAndWrite_nil h.shows_, toupper_zero, if_true] at hbody
    exact hrun.waits hbody rfl hne
  | cons x l =>
    have hx : x.1 ≠ 0 := h.nonzero x List.mem_cons_self
    have hz : ∀ y ∈ l, y.1 ≠ 0 := fun y hy => h.nonzero y (List.mem_cons_of_mem x hy)
    have hup : toupper x.1 ≠ 0 := fun h0 => hx (toupper_eq_zero.mp h0)
    have hread := methodRead_loop x (h.shows_.read (s.io.out ++ echoed true x) s.io.isBufferEmpty) hz
      h.notEmpty s.rData.method
    simp only [readAndWrite_cons h.shows_ hx, hup, if_false] at hbody
    generalize extractHttpMethodLoop (toupper x.1) methodOption s.rData.method _ = r at hread hbody
    cases hread with
    | @word io o mem begins shows_ flag =>
      rw [methodScan_of_beginsWith mem begins]
      cases hs : isSupported o.2 with
      | true =>
        simp only [hs, if_true] at hbody
        rw [if_pos rfl]
        have hreads : ∀ y ∈ (x :: l).drop o.1.length, y.1 ≠ 0 := fun y hy =>
          h.nonzero y (List.mem_of_mem_drop hy)
        rw [← List.map_drop]
        refine hrun.goes hbody hne (hrun.spaces ⟨shows_, hreads, flag⟩ rfl fun io' l' hbytes hreads' => ?_)
        rw [List.map_drop] at hbytes
        exact htarget _ l' o mem hs begins hbytes ⟨hreads'.shows_, hreads'.nonzero, hreads'.notEmpty⟩ rfl
          ⟨hline.version, hline.host⟩
      | false =>
        -- A word that is known but not supported is an error of its own.
        have hdefined : ∀ o ∈ methodWords, o.2 ≠ .UNDEFINED_M := by decide +kernel
        simp only [hs, Bool.false_eq_true, if_false] at hbody
        rw [if_neg Bool.false_ne_true]
        refine hrun.fails hbody flag ?_ (by decide) hne
        unfold errorOf
        simp only [hp, hdefined o mem, if_false]
    | @unknown io none more flag =>
      simp only [hm, show isSupported .UNDEFINED_M = false from rfl, Bool.false_eq_true, if_false] at hbody
      rw [methodScan_unknown none more]
      refine hrun.fails hbody flag ?_ (by decide) hne
      unfold errorOf
      simp only [hp, if_true]
    | @short io o mem none short flag =>
      simp only [hm, show isSupported .UNDEFINED_M = false from rfl, Bool.false_eq_true, if_false] at hbody
      rw [methodScan_short mem none short]
      exact hrun.waits hbody flag hne

/-- The loop in `METHOD` does what `lineScan` says. -/
theorem lineRun_method (h : s.Reads l) (hp : s.rData.parserState = .METHOD)
    (hm : s.rData.method = .UNDEFINED_M) (hline : s.InLine)
    (hother : ¬AbsoluteTarget (l.map Prod.fst)) : LineRun s (lineScan (l.map Prod.fst)) := by
  refine LineRun.byParts.method h hp hm hline fun s' l' o mem hs begins hbytes hreads hp' hline' => ?_
  refine lineRun_target hreads hp' hline' fun htarget => ?_
  rw [hbytes] at htarget
  exact hother ⟨o, methodWords_supported o mem hs, hs, begins, htarget⟩

end Parts

/-! ## The loop -/

/-- The loop is past the start line. -/
def ReqState.PastLine (s : ReqState) : Prop := s.rData.parserState = .LOCALHOST_HEADER_CHECK

/-- A loop that has ended does not get past the start line. -/
theorem reaches_pastLine_of_ends {s : ReqState} {r : Bool × ReqState} (hend : loopBody s = .inr r)
    (hp : s.rData.parserState ≠ .LOCALHOST_HEADER_CHECK) :
    ¬∃ s', Loop.Reaches loopBody s s' ∧ s'.PastLine := by
  rintro ⟨s', hreach, hpast⟩
  rcases Relation.ReflTransGen.cases_head hreach with rfl | ⟨s₁, hgo, -⟩
  · exact hp hpast
  · cases hend.symm.trans hgo

namespace LineRun

variable {s : ReqState} {scan : LineScan}

/-- The loop gets past the start line exactly when the scan passes. -/
theorem reaches_iff (h : LineRun s scan) :
    (∃ s', Loop.Reaches loopBody s s' ∧ s'.PastLine) ↔ ∃ rest, scan = .passes rest := by
  induction h with
  | @goes s s₁ r go hp run ih =>
    rw [← ih]
    constructor
    · rintro ⟨s', hreach, hpast⟩
      rcases Relation.ReflTransGen.cases_head hreach with rfl | ⟨s₂, hgo, hrest⟩
      · exact absurd hpast hp
      · obtain rfl : s₁ = s₂ := Sum.inl.inj (go.symm.trans hgo)
        exact ⟨s', hrest, hpast⟩
    · rintro ⟨s', hreach, hpast⟩
      exact ⟨s', hreach.head go, hpast⟩
  | waits ends flag hp =>
    exact iff_of_false (reaches_pastLine_of_ends ends hp) fun ⟨_, heq⟩ => by cases heq
  | fails ends flag error hp =>
    exact iff_of_false (reaches_pastLine_of_ends ends hp) fun ⟨_, heq⟩ => by cases heq
  | @passes s l rest reads bytes hp => exact iff_of_true ⟨s, .refl, hp⟩ ⟨rest, rfl⟩

/-- A scan that does not pass ends the loop. -/
theorem halts (h : LineRun s scan) (hnot : ∀ rest, scan ≠ .passes rest) : Loop.Halts loopBody s := by
  induction h with
  | goes go hp run ih => exact .head (.single go) (ih hnot)
  | waits ends flag hp => exact Loop.halts_of_ends ends
  | fails ends flag error hp => exact Loop.halts_of_ends ends
  | passes reads bytes hp => exact absurd rfl (hnot _)

/-- A loop that does not get past the start line fails: it waits, or it leaves the error. -/
theorem result (h : LineRun s scan) (hnot : ∀ rest, scan ≠ .passes rest) {fuel : Nat}
    {x : Bool × ReqState} (hrun : Loop.run loopBody fuel s = some x) :
    x.1 = false ∧ (scan = .waits ∧ x.2.io.isBufferEmpty = true ∨
      scan = .fails (errorOf x.2) ∧ x.2.io.isBufferEmpty = false) := by
  induction h generalizing fuel with
  | goes go hp run ih =>
    cases fuel with
    | zero => cases hrun
    | succ fuel =>
      rw [Loop.run_succ_of_goes go] at hrun
      exact ih hnot hrun
  | waits ends flag hp =>
    cases fuel with
    | zero => cases hrun
    | succ fuel =>
      rw [Loop.run_succ_of_ends ends] at hrun
      obtain rfl := Option.some.inj hrun
      exact ⟨rfl, .inl ⟨rfl, flag⟩⟩
  | fails ends flag error hp =>
    cases fuel with
    | zero => cases hrun
    | succ fuel =>
      rw [Loop.run_succ_of_ends ends] at hrun
      obtain rfl := Option.some.inj hrun
      exact ⟨rfl, .inr ⟨by rw [error], flag⟩⟩
  | passes reads bytes hp => exact absurd rfl (hnot _)

end LineRun

/-! ## Calls -/

/-- The call on a request received whole gets past the start line. -/
def PassesLine (bIn : Buffer) : Prop :=
  ∃ s, Loop.Reaches loopBody (callStart defaultRequestStruct bIn) s ∧ s.PastLine

/-- The call refuses the start line at the front of `w`. -/
structure RefusesLine (w : List UInt8) (r : RequestResult) : Prop where
  flag : r.isBufferEmpty = false
  error : r.rData.state ∈ [RequestErr.GENERAL_METHOD_ERROR, .UNSUPPORTED_METHOD_ERROR, .VERSION_ERROR,
    .START_LINE_END_ERROR]
  unsupported : r.rData.state = .UNSUPPORTED_METHOD_ERROR ↔
    ∃ o ∈ methodOption, isSupported o.2 = false ∧ BeginsWith w o

/-- The start line is accepted just when it is valid, refused when it is not, and waited for only when
it can still be. -/
structure AcceptsValidLines (bIn bOut : Buffer) : Prop where
  passes : PassesLine bIn ↔ ∃ l, ValidLine l ∧ l <+: bIn.bytes
  others : ¬PassesLine bIn → ∃ r, checkRequest defaultRequestStruct bIn bOut = some r ∧ r.success = false ∧
    (RefusesLine bIn.bytes r ∨ r.isBufferEmpty = true ∧ ∃ v, ValidLine (bIn.bytes ++ v))

/-- What is at the front of `w` is not one of the lines that only the parser takes, nor one of the
words it reads as `PUT`, nor the beginning of a line or a word that it waits for in vain. -/
structure OnlyValidLines (w : List UInt8) : Prop where
  line : ∀ d : LineForm, d.bytes <+: w → d.Strict
  word : ∀ o ∈ [(lit "POUT", HttpMethod.PUT), (lit "POSUT", .PUT)], ¬BeginsWith w o
  more : CanGoOn w → ∃ v, ∃ d : LineForm, d.Strict ∧ w ++ v = d.bytes

/-- The scan passes exactly over the line forms. -/
theorem lineScan_passes_exists {w : List UInt8} :
    (∃ rest, lineScan w = .passes rest) ↔ ∃ d : LineForm, d.bytes <+: w := by
  constructor
  · rintro ⟨rest, h⟩
    obtain ⟨d, hd⟩ := lineScan_passes_iff.mp h
    exact ⟨d, rest, hd.symm⟩
  · rintro ⟨d, rest, hd⟩
    exact ⟨rest, lineScan_passes_iff.mpr ⟨d, hd.symm⟩⟩

section Calls

variable {bIn bOut : Buffer}

/-- A call on a new request does what `lineScan` says. -/
theorem lineRun_callStart (hb : bIn.Wf) (hz : 0 ∉ bIn.bytes) (hother : ¬AbsoluteTarget bIn.bytes) :
    LineRun (callStart defaultRequestStruct bIn) (lineScan bIn.bytes) := by
  have hreads : (callStart defaultRequestStruct bIn).Reads bIn.cells := by
    refine ⟨⟨hb, rfl⟩, fun x hx h0 => hz ?_, rfl⟩
    rw [← Buffer.map_fst_cells, ← h0]
    exact List.mem_map_of_mem hx
  have hhost : defaultRequestStruct.host[0] = 0 := by decide +kernel
  have hrun := lineRun_method hreads rfl rfl ⟨HttpVersion.noConfusion, hhost⟩
  rw [Buffer.map_fst_cells] at hrun
  exact hrun hother

/-- A call on a new request gets past the start line exactly when it begins with a line form. -/
theorem passesLine_iff (hb : bIn.Wf) (hz : 0 ∉ bIn.bytes) (hother : ¬AbsoluteTarget bIn.bytes) :
    PassesLine bIn ↔ ∃ d : LineForm, d.bytes <+: bIn.bytes :=
  (lineRun_callStart hb hz hother).reaches_iff.trans lineScan_passes_exists

/-- A call that does not get past the start line returns. -/
theorem checkRequest_of_not_passesLine (bOut : Buffer) (hb : bIn.Wf) (hz : 0 ∉ bIn.bytes)
    (hother : ¬AbsoluteTarget bIn.bytes) (hnot : ¬PassesLine bIn) :
    ∃ r, checkRequest defaultRequestStruct bIn bOut = some r ∧ r.success = false ∧
      (lineScan bIn.bytes = .waits ∧ r.isBufferEmpty = true ∨
        lineScan bIn.bytes = .fails r.rData.state ∧ r.isBufferEmpty = false) := by
  have hrun := lineRun_callStart hb hz hother
  have hscan : ∀ rest, lineScan bIn.bytes ≠ .passes rest := fun rest heq =>
    hnot (hrun.reaches_iff.mpr ⟨rest, heq⟩)
  obtain ⟨r, hr⟩ := (checkRequest_isSome_iff RequestData.Wf.default bIn bOut).mpr (hrun.halts hscan)
  refine ⟨r, hr, ?_⟩
  obtain ⟨x, hloop, rfl⟩ := checkRequest_eq_some_iff.mp hr
  obtain ⟨hfail, hresult⟩ := hrun.result hscan hloop
  change (reportError x).1 = false ∧ (_ ∧ (reportError x).2.io.isBufferEmpty = true ∨
    _ = LineScan.fails (reportError x).2.rData.state ∧ (reportError x).2.io.isBufferEmpty = false)
  unfold reportError
  rcases hresult with ⟨hwaits, hflag⟩ | ⟨hfails, hflag⟩
  · rw [if_neg fun h => by rw [hflag] at h; cases h.2]
    exact ⟨hfail, .inl ⟨hwaits, hflag⟩⟩
  · rw [if_pos ⟨hfail, hflag⟩]
    exact ⟨hfail, .inr ⟨hfails, hflag⟩⟩

/-- It does not get past the start line when the scan does not pass. -/
theorem not_passesLine_iff (hb : bIn.Wf) (hz : 0 ∉ bIn.bytes) (hother : ¬AbsoluteTarget bIn.bytes) :
    ¬PassesLine bIn ↔ ∀ rest, lineScan bIn.bytes ≠ .passes rest := by
  rw [passesLine_iff hb hz hother, ← lineScan_passes_exists, not_exists]

/-- What the result of a call that does not get past the start line says when it is right. -/
theorem AcceptsValidLines.scan (h : AcceptsValidLines bIn bOut) (hb : bIn.Wf) (hz : 0 ∉ bIn.bytes)
    (hother : ¬AbsoluteTarget bIn.bytes) (hnot : ∀ rest, lineScan bIn.bytes ≠ .passes rest) :
    (∃ e, lineScan bIn.bytes = .fails e ∧ (e = .UNSUPPORTED_METHOD_ERROR ↔
        ∃ o ∈ methodOption, isSupported o.2 = false ∧ BeginsWith bIn.bytes o)) ∨
      lineScan bIn.bytes = .waits ∧ ∃ v, ValidLine (bIn.bytes ++ v) := by
  have hnotPassed := (not_passesLine_iff hb hz hother).mpr hnot
  obtain ⟨r, hr, -, hsaid⟩ := checkRequest_of_not_passesLine bOut hb hz hother hnotPassed
  obtain ⟨r', hr', -, hright⟩ := h.others hnotPassed
  obtain rfl := Option.some.inj (hr.symm.trans hr')
  rcases hsaid with ⟨hwaits, hflag⟩ | ⟨hfails, hflag⟩
  · rcases hright with hrefuses | ⟨-, hvalid⟩
    · cases hflag.symm.trans hrefuses.flag
    · exact .inr ⟨hwaits, hvalid⟩
  · rcases hright with hrefuses | ⟨hempty, -⟩
    · exact .inl ⟨_, hfails, hrefuses.unsupported⟩
    · cases hflag.symm.trans hempty

/-- Where only valid lines are accepted the request is neither one of the other forms nor one of the
words read as `PUT`. -/
theorem AcceptsValidLines.only (h : AcceptsValidLines bIn bOut) (hb : bIn.Wf) (hz : 0 ∉ bIn.bytes)
    (hother : ¬AbsoluteTarget bIn.bytes) : OnlyValidLines bIn.bytes where
  line := fun d hd => by
    obtain ⟨l, hl, hpre⟩ := h.passes.mp ((passesLine_iff hb hz hother).mpr ⟨d, hd⟩)
    obtain ⟨d', hstrict, rfl⟩ := validLine_iff.mp hl
    obtain rfl := LineForm.unique hd hpre
    exact hstrict
  word := fun o ho hbegins => by
    have hmem : ∀ o ∈ [(lit "POUT", HttpMethod.PUT), (lit "POSUT", .PUT)], o ∈ methodWords ∧
        isSupported o.2 = false ∧ o ∉ methodOption := by decide +kernel
    obtain ⟨howords, hs, hnotOption⟩ := hmem o ho
    have hfails := lineScan_unsupported_iff.mpr ⟨o, howords, hs, hbegins⟩
    rcases h.scan hb hz hother fun rest heq => (by cases hfails.symm.trans heq) with
      ⟨e, he, hunsupported⟩ | ⟨hwaits, -⟩
    · obtain ⟨o', ho', -, hbegins'⟩ := hunsupported.mp (LineScan.fails.inj (he.symm.trans hfails))
      obtain rfl := hbegins.unique howords (List.mem_append_left _ ho') hbegins' List.prefix_rfl
      exact hnotOption ho'
    · cases hfails.symm.trans hwaits
  more := fun hgo => by
    have hwaits := lineScan_waits_iff.mpr hgo
    rcases h.scan hb hz hother fun rest heq => (by cases hwaits.symm.trans heq) with
      ⟨e, he, -⟩ | ⟨-, v, hvalid⟩
    · cases hwaits.symm.trans he
    · exact ⟨v, validLine_iff.mp hvalid⟩

/-- Where the words read as `PUT` are left out, what is not supported is a method. -/
theorem OnlyValidLines.unsupported_iff {w : List UInt8} (h : OnlyValidLines w) :
    lineScan w = .fails .UNSUPPORTED_METHOD_ERROR ↔
      ∃ o ∈ methodOption, isSupported o.2 = false ∧ BeginsWith w o := by
  rw [lineScan_unsupported_iff]
  constructor
  · rintro ⟨o, ho, hs, hbegins⟩
    rcases List.mem_append.mp ho with hoption | hword
    · exact ⟨o, hoption, hs, hbegins⟩
    · exact absurd hbegins (h.word o hword)
  · rintro ⟨o, ho, hs, hbegins⟩
    exact ⟨o, List.mem_append_left _ ho, hs, hbegins⟩

/-- Where the request is none of these the parser accepts the valid lines alone. -/
theorem OnlyValidLines.accepts (h : OnlyValidLines bIn.bytes) (bOut : Buffer) (hb : bIn.Wf)
    (hz : 0 ∉ bIn.bytes) (hother : ¬AbsoluteTarget bIn.bytes) : AcceptsValidLines bIn bOut where
  passes := by
    rw [passesLine_iff hb hz hother]
    constructor
    · rintro ⟨d, hd⟩
      exact ⟨d.bytes, validLine_iff.mpr ⟨d, h.line d hd, rfl⟩, hd⟩
    · rintro ⟨l, hl, hpre⟩
      obtain ⟨d, -, rfl⟩ := validLine_iff.mp hl
      exact ⟨d, hpre⟩
  others := fun hnot => by
    obtain ⟨r, hr, hfail, hsaid⟩ := checkRequest_of_not_passesLine bOut hb hz hother hnot
    refine ⟨r, hr, hfail, ?_⟩
    rcases hsaid with ⟨hwaits, hflag⟩ | ⟨hfails, hflag⟩
    · obtain ⟨v, d, hd, heq⟩ := h.more (lineScan_waits_iff.mp hwaits)
      exact .inr ⟨hflag, v, validLine_iff.mpr ⟨d, hd, heq⟩⟩
    · refine .inl ⟨hflag, ?_, ?_⟩
      · rcases lineScan_fails hfails with he | he | he <;> rw [he] <;> decide
      · rw [← h.unsupported_iff, hfails, LineScan.fails.injEq]

/-- On a request received whole whose target is not absolute, the start lines are accepted as they
should be just if what is at the front of the request is none of those that only the parser takes. -/
theorem acceptsValidLines_iff (bOut : Buffer) (hb : bIn.Wf) (hz : 0 ∉ bIn.bytes)
    (hother : ¬AbsoluteTarget bIn.bytes) : AcceptsValidLines bIn bOut ↔ OnlyValidLines bIn.bytes :=
  ⟨fun h => h.only hb hz hother, fun h => h.accepts bOut hb hz hother⟩

/-- A request that begins with a valid start line. -/
theorem onlyValidLines_of_prefix {l w : List UInt8} (hl : ValidLine l) (hpre : l <+: w) :
    OnlyValidLines w := by
  obtain ⟨d, hstrict, rfl⟩ := validLine_iff.mp hl
  obtain ⟨rest, hpass⟩ := lineScan_passes_exists.mpr ⟨d, hpre⟩
  refine ⟨fun d' hd' => ?_, fun o ho hbegins => ?_, fun hgo => ?_⟩
  · obtain rfl := LineForm.unique hpre hd'
    exact hstrict
  · have hmem : ∀ o ∈ [(lit "POUT", HttpMethod.PUT), (lit "POSUT", .PUT)], o ∈ methodWords ∧
        isSupported o.2 = false := by decide +kernel
    obtain ⟨howords, hs⟩ := hmem o ho
    have hfails := lineScan_unsupported_iff.mpr ⟨o, howords, hs, hbegins⟩
    cases hpass.symm.trans hfails
  · cases hpass.symm.trans (lineScan_waits_iff.mpr hgo)

theorem acceptsValidLines_get :
    AcceptsValidLines
      (bufferWriteAll (bufferInitR RESERVED 1024) (lit "get /a HTTP/1.0\r\nHost: a\r\n\r\n"))
      (bufferInit 1024) := by
  have hbytes :
      (bufferWriteAll (bufferInitR RESERVED 1024) (lit "get /a HTTP/1.0\r\nHost: a\r\n\r\n")).bytes =
        lit "get /a HTTP/1.0\r\nHost: a\r\n\r\n" := by decide +kernel
  have hvalid : ValidLine (lit "get /a HTTP/1.0\r\n") :=
    ⟨lit "get", [SP], lit "/a", [SP], lit "HTTP/1.0", by decide +kernel, by decide +kernel, by decide +kernel,
      by decide +kernel, by decide +kernel, by decide +kernel⟩
  refine (acceptsValidLines_iff (bufferInit 1024) ?_ ?_ ?_).mpr ?_
  · exact Buffer.wf_writeAll (Buffer.wf_initR (by decide)) (by decide +kernel)
  · rw [hbytes]
    decide +kernel
  · rw [hbytes]
    decide +kernel
  · rw [hbytes]
    exact onlyValidLines_of_prefix hvalid (by decide +kernel)

/-- A version that is neither of the two. -/
theorem not_acceptsValidLines_version :
    ¬AcceptsValidLines (bufferWriteAll (bufferInitR RESERVED 1024) (lit "GET / HTTP/1.9\r\n"))
      (bufferInit 1024) := by
  intro h
  have hbytes : (bufferWriteAll (bufferInitR RESERVED 1024) (lit "GET / HTTP/1.9\r\n")).bytes =
      lit "GET / HTTP/1.9\r\n" := by decide +kernel
  have honly := h.only (Buffer.wf_writeAll (Buffer.wf_initR (by decide)) (by decide +kernel))
    (by rw [hbytes]; decide +kernel) (by rw [hbytes]; decide +kernel)
  let d : LineForm :=
    { type := .GET, method := lit "GET", gap₁ := [SP], target := lit "/", gap₂ := [SP],
      version := lit "HTTP/1.9", supported := rfl, method_eq := by decide +kernel,
      gap₁_blank := by decide +kernel, target_ne := by decide +kernel, target_ok := by decide +kernel,
      gap₂_ne := by decide +kernel, gap₂_blank := by decide +kernel,
      version_ok := .inr ⟨by decide +kernel, by decide +kernel⟩ }
  have hstrict : d.Strict := honly.line d (by rw [hbytes]; decide +kernel)
  have hneither : ¬(d.version.map toupper = lit "HTTP/1.0" ∨ d.version.map toupper = lit "HTTP/1.1") := by
    decide +kernel
  exact hneither hstrict.version_eq

end Calls

end HttpProxy
