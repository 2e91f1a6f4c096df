import HttpProxy.ResponseBody
import HttpProxy.ResponseCalls

/-!
# Chunked bodies that arrive in fragments

When the input ends in a chunked body the parser pushes back what leads it there again: the digits of a
size, the length still missing, or a chunk of its own in front of a line end. So a chunked body may be cut
anywhere (`ResMachine.resumes_chunks`), and it is passed on as if it had arrived at once
(`resCalls_chunks`).
-/

namespace HttpProxy

/-! ## Interruptible runs -/

namespace ResMachine

/-- A state in which `x` is read, and in which the parser can be interrupted in front of it. -/
structure Awaits (q : ResMachine) (x : Cell) : Prop where
  live : ∀ why unread, q.ctl ≠ .halt why unread
  resumes : q.Resumes [x]

/-- The machine reads `w` from `q` to `q'`, emits `e`, and can be interrupted anywhere in `w`. -/
structure Consumes (q : ResMachine) (w : List UInt8) (e : List Passed) (q' : ResMachine) : Prop where
  run_eq : resMachine.run q (fresh w) = (q', e)
  along : resMachine.Along Awaits q (fresh w)

namespace Consumes

variable {q q' q'' : ResMachine} {v w : List UInt8} {e e' : List Passed} {c : UInt8}

theorem nil (q : ResMachine) : q.Consumes [] [] q := ⟨rfl, trivial⟩

/-- Two parts that are read one after the other. -/
theorem append (h : q.Consumes v e q') (h' : q'.Consumes w e' q'') :
    q.Consumes (v ++ w) (e ++ e') q'' := by
  have hafter : resMachine.stateAfter q (fresh v) = q' := congrArg Prod.fst h.run_eq
  refine ⟨?_, ?_⟩
  · rw [fresh_append]
    exact resMachine.run_append_eq h.run_eq h'.run_eq
  · rw [fresh_append, Transducer.along_append, hafter]
    exact ⟨h.along, h'.along⟩

/-- A byte in front of what is read. -/
theorem cons (hstep : resMachine.step q (c, false) = (q', e)) (hlive : ∀ why unread, q.ctl ≠ .halt why unread)
    (hresumes : q.Resumes [(c, false)]) (h : q'.Consumes w e' q'') :
    q.Consumes (c :: w) (e ++ e') q'' := by
  refine ⟨?_, ⟨hlive, hresumes⟩, ?_⟩
  · rw [fresh_cons, Transducer.run_cons, hstep, h.run_eq]
  · rw [hstep]
    exact h.along

end Consumes

/-! ## The machine over a chunked body -/

/-- What is emitted of the framing of the chunks. -/
def framing (d : ResponseFields) (w : List UInt8) : List Passed :=
  (written (!d.withTransf) w).map (bodyByte d)

theorem framing_append (d : ResponseFields) (v w : List UInt8) :
    framing d (v ++ w) = framing d v ++ framing d w := by
  unfold framing
  rw [written_append, List.map_append]

theorem passesFraming_fresh (d : ResponseFields) (c : UInt8) :
    passesFraming d (c, false) = framing d [c] := by
  unfold passesFraming framing
  rw [echoed_fresh_eq]

/-- The digits of a size, with what was read in front of them. -/
theorem consumes_digits (q : ResMachine) {ds : List UInt8} (hds : ∀ c ∈ ds, isxdigit c = true)
    {n : Option Int} (hn : 0 ≤ n.getD 0) (hlt : Radix.hex.valueFrom (n.getD 0) ds < 2 ^ 31) :
    (q.goto (.chunkSize n)).Consumes ds (framing q.d ds) (q.goto (.chunkSize (numberValue .hex n ds))) := by
  induction ds generalizing n with
  | nil =>
    have hnone : framing q.d [] = [] := by
      unfold framing
      rw [written_nil]
      rfl
    rw [hnone]
    exact .nil _
  | cons c ds ih =>
    have hc : Radix.hex.isDigit c = true := hds c List.mem_cons_self
    have hds' : ∀ d ∈ ds, isxdigit d = true := fun d hd => hds d (List.mem_cons_of_mem c hd)
    have hvalue := Radix.hex_lawful.value_nonneg c hc
    have hmul : 0 ≤ (Radix.hex.base : Int) * n.getD 0 := Int.mul_nonneg (Int.natCast_nonneg _) hn
    have hle := Radix.hex_lawful.le_valueFrom (n := Radix.hex.base * n.getD 0 + Radix.hex.value c) (by omega) hds'
    have hread : toInt32 (Radix.hex.base * n.getD 0 + Radix.hex.value c) =
        Radix.hex.base * n.getD 0 + Radix.hex.value c :=
      toInt32_eq (by omega) (Int.lt_of_le_of_lt hle hlt)
    have hstep : resMachine.step (q.goto (.chunkSize n)) (c, false) =
        (q.goto (.chunkSize (some (toInt32 (Radix.hex.base * n.getD 0 + Radix.hex.value c)))),
          framing q.d [c]) := by
      rw [res_step_of_ne (ne_zero_of_isxdigit (c := c) hc)]
      change (q.goto (.chunkSize n)).stepChunkSize n (c, false) = _
      unfold stepChunkSize stepNumber
      rw [if_pos hc, passesFraming_fresh]
      rfl
    have hrest := ih (n := some (toInt32 (Radix.hex.base * n.getD 0 + Radix.hex.value c))) hds'
      (by rw [hread]; exact Int.add_nonneg hmul hvalue) (by rw [hread]; exact hlt)
    rw [show c :: ds = [c] ++ ds from rfl, framing_append]
    refine .cons hstep (fun _ _ => ResCtl.noConfusion) ⟨hn, fun _ x hx => ?_⟩ hrest
    obtain rfl := Option.some.inj hx
    exact hc

/-- The line end behind a size. -/
theorem consumes_sizeEnd (q : ResMachine) {v : Int} (hv : 0 ≤ v) :
    (q.goto (.chunkSize (some v))).Consumes [CR, LF] (framing q.d [CR, LF])
      ((q.setBodyLength v).goto (chunkCtl { q.d with bodyLength := v })) := by
  have hcr : resMachine.step (q.goto (.chunkSize (some v))) (CR, false) =
      ((q.setBodyLength v).goto (.chunkSizeEnd 1), framing q.d [CR]) := by
    rw [res_step_of_ne (by decide)]
    change (q.goto (.chunkSize (some v))).stepChunkSize (some v) (CR, false) = _
    unfold stepChunkSize stepNumber
    rw [if_neg (by decide)]
    exact Prod.ext rfl (passesFraming_fresh _ CR)
  have hlf : resMachine.step ((q.setBodyLength v).goto (.chunkSizeEnd 1)) (LF, false) =
      ((q.setBodyLength v).goto (chunkCtl { q.d with bodyLength := v }), framing q.d [LF]) := by
    rw [res_step_of_ne (by decide)]
    exact Prod.ext rfl (passesFraming_fresh _ LF)
  rw [show [CR, LF] = [CR] ++ [LF] from rfl, framing_append]
  refine .cons hcr (fun _ _ => ResCtl.noConfusion) ⟨hv, fun hctl => ?_⟩ ?_
  · cases hctl
  · rw [← List.append_nil (framing q.d [LF])]
    exact .cons hlf (fun _ _ => ResCtl.noConfusion) ⟨hv, fun hctl => ResCtl.noConfusion hctl⟩ (.nil _)

/-- The data of a chunk. -/
theorem consumes_data {data : List UInt8} (hne : data ≠ []) (q : ResMachine) :
    ((q.setBodyLength data.length).goto .chunkData).Consumes data (data.map (bodyByte q.d))
      ((q.setBodyLength 0).goto (.chunkEnd false 0)) := by
  induction data with
  | nil => exact absurd rfl hne
  | cons c data ih =>
    have hstep : resMachine.step ((q.setBodyLength (c :: data).length).goto .chunkData) (c, false) =
        ((q.setBodyLength data.length).goto (if (data.length : Int) > 0 then .chunkData else .chunkEnd false 0),
          [bodyByte q.d c]) := by
      refine (step_of_takesZero rfl _).trans ?_
      change stepChunkData _ _ = _
      unfold stepChunkData
      have hlen : ((c :: data).length : Int) - 1 = data.length := by
        rw [List.length_cons]
        omega
      rw [show ((q.setBodyLength ((c :: data).length : Int)).goto .chunkData).d.bodyLength - 1 = data.length
        from hlen]
      rfl
    rw [List.map_cons, ← List.singleton_append]
    refine .cons hstep (fun _ _ => ResCtl.noConfusion) ⟨trivial, fun hctl => ResCtl.noConfusion hctl⟩ ?_
    cases data with
    | nil => exact .nil _
    | cons d data =>
      rw [if_pos (by rw [List.length_cons]; omega)]
      exact ih (List.cons_ne_nil d data)

/-- The line end behind a chunk. -/
theorem consumes_chunkEnd (q : ResMachine) (last : Bool) (hlength : q.d.bodyLength = 0) :
    (q.goto (.chunkEnd last 0)).Consumes [CR, LF] (framing q.d [CR, LF])
      (q.goto (if last then .halt .finished [] else .chunkSize none)) := by
  have hcr : resMachine.step (q.goto (.chunkEnd last 0)) (CR, false) =
      (q.goto (.chunkEnd last 1), framing q.d [CR]) := by
    rw [res_step_of_ne (by decide)]
    exact Prod.ext rfl (passesFraming_fresh _ CR)
  have hlf : resMachine.step (q.goto (.chunkEnd last 1)) (LF, false) =
      (q.goto (if last then .halt .finished [] else .chunkSize none), framing q.d [LF]) := by
    rw [res_step_of_ne (by decide)]
    exact Prod.ext rfl (passesFraming_fresh _ LF)
  rw [show [CR, LF] = [CR] ++ [LF] from rfl, framing_append]
  refine .cons hcr (fun _ _ => ResCtl.noConfusion) ⟨Int.le_of_eq hlength.symm, fun hctl => ResCtl.noConfusion hctl⟩ ?_
  rw [← List.append_nil (framing q.d [LF])]
  exact .cons hlf (fun _ _ => ResCtl.noConfusion) ⟨Int.le_of_eq hlength.symm, fun hctl => ResCtl.noConfusion hctl⟩ (.nil _)

/-- The size of a chunk and its line end. -/
theorem consumes_sizeLine (q : ResMachine) {size : List UInt8} {n : Nat} (h : ChunkSize size n)
    (hn : n < 2 ^ 31) :
    (q.goto (.chunkSize none)).Consumes (size ++ [CR, LF]) (framing q.d (size ++ [CR, LF]))
      ((q.setBodyLength n).goto (chunkCtl { q.d with bodyLength := n })) := by
  have hlt : Radix.hex.valueOf size < 2 ^ 31 := by
    rw [h.value]
    omega
  have hdigits := consumes_digits q h.digits (n := none) (Int.le_refl 0) hlt
  rw [numberValue_of_lt Radix.hex_lawful h.ne_nil h.digits hlt, h.value] at hdigits
  rw [framing_append]
  exact hdigits.append (consumes_sizeEnd q (Int.natCast_nonneg n))

/-- A chunked body is read from its first size to its end, and can be interrupted anywhere. The induction
is on the chunks. -/
theorem consumes_chunks {body content : List UInt8} (h : ChunkedBody false body content) (q : ResMachine) :
    (q.goto (.chunkSize none)).Consumes body
      ((forwarded (!q.d.withTransf) body content).map (bodyByte q.d))
      ((q.setBodyLength 0).goto (.halt .finished [])) := by
  induction h generalizing q with
  | @last size ext trailer number extension behind =>
    obtain rfl : ext = [] := extension.resolve_right fun h => absurd h.1 (by decide)
    obtain rfl : trailer = [] := behind.resolve_right fun h => absurd h.1 (by decide)
    have hall := (consumes_sizeLine q number (by decide)).append
      (consumes_chunkEnd (q.setBodyLength 0) true rfl)
    have hemit : framing q.d (size ++ [CR, LF]) ++ framing q.d [CR, LF] =
        (forwarded (!q.d.withTransf) (size ++ [CR, LF] ++ [CR, LF]) []).map (bodyByte q.d) :=
      (framing_append _ _ _).symm
    have hbytes : size ++ ([] ++ ([CR, LF] ++ ([] ++ [CR, LF]))) = size ++ [CR, LF] ++ [CR, LF] := by
      simp only [List.append_assoc, List.nil_append]
    rw [hbytes, ← hemit]
    exact hall
  | @chunk size ext data body content ne_nil number fits extension _ ih =>
    obtain rfl : ext = [] := extension.resolve_right fun h => absurd h.1 (by decide)
    have hfits := fits.resolve_left (by decide)
    have hline := consumes_sizeLine q number hfits
    have hpos : (data.length : Int) > 0 := by
      have := List.length_pos_iff.mpr ne_nil
      omega
    rw [chunkCtl, if_pos hpos] at hline
    have hall := ((hline.append (consumes_data ne_nil q)).append
      (consumes_chunkEnd (q.setBodyLength 0) false rfl)).append (ih (q.setBodyLength 0))
    have hemit : framing q.d (size ++ [CR, LF]) ++ data.map (bodyByte q.d) ++ framing q.d [CR, LF] ++
        (forwarded (!q.d.withTransf) body content).map (bodyByte q.d) =
          (forwarded (!q.d.withTransf) (size ++ [CR, LF] ++ data ++ [CR, LF] ++ body)
            (data ++ content)).map (bodyByte q.d) := by
      unfold framing forwarded written
      cases q.d.withTransf with
      | true => simp only [Bool.not_true, Bool.false_eq_true, if_false, List.map_nil, List.nil_append,
          List.append_nil, List.map_append]
      | false => simp only [Bool.not_false, if_true, List.map_append]
    have hbytes : size ++ ([] ++ ([CR, LF] ++ (data ++ ([CR, LF] ++ body)))) =
        size ++ [CR, LF] ++ data ++ [CR, LF] ++ body := by
      simp only [List.append_assoc, List.nil_append]
    rw [hbytes, ← hemit]
    exact hall

end ResMachine

/-! ## The calls -/

/-- The parser has come to a chunked body: the rest of its call found nothing to read, or a call is still
to come. -/
structure ResFeed.AtChunks (f : ResFeed) : Prop where
  state : f.rData.state = .RES_OK
  parserState : f.rData.parserState = if f.rData.withTransf then .BODY_TRANSFORMATION else .BODY_NORMAL
  isChunked : f.rData.isChunked = true
  wf : f.bIn.Wf
  room : PUSH_BACK_ROOM ≤ f.bIn.infLimit
  cells : f.bIn.cells = [] ∨ f.bIn.cells = pushedBack (lit "0")

section Chunks

variable {f : ResFeed} {body content : List UInt8}

/-- In front of the first chunk the machine waits for its size. -/
theorem ResFeed.AtChunks.continues (h : f.AtChunks) :
    f.Continues ⟨.chunkSize none, f.rData.toResponseFields⟩ where
  inv := ⟨fun _ => h.state, h.isChunked, nofun⟩
  halts := nofun
  fields := rfl
  parserState := h.parserState
  consistent := consistent_body h.parserState
  wf := h.wf
  room := h.room
  run_eq := by
    intro w hw hcut
    have hmachine : f.rData.machine = ⟨.chunkSize none, f.rData.toResponseFields⟩ := by
      have hctl : ResMachine.bodyCtl f.rData.toResponseFields = .chunkSize none := if_pos h.isChunked
      unfold ResponseData.machine ResponseData.startCtl
      rw [h.parserState]
      cases f.rData.withTransf
      · exact congrArg (ResMachine.mk · _) hctl
      · exact congrArg (ResMachine.mk · _) hctl
    rcases h.cells with hcells | hcells
    · rw [hcells, hmachine, List.nil_append]
    · have hne : fresh w ≠ [] := by simpa only [fresh, ne_eq, List.map_eq_nil_iff] using hw
      have hzero := ResMachine.silent_chunkSize ⟨.chunkSize none, f.rData.toResponseFields⟩ (v := 0)
        (Int.le_refl 0) (by decide)
      rw [hcells, hmachine]
      exact (hzero.run_append _).trans (ResMachine.run_resumed hne hcut.digit)

/-- Where the machine is behind a part of a chunked body and of what follows it: it waits for the next byte
of the body, or the body has ended. -/
theorem ResMachine.chunks_cases (h : ChunkedBody false body content) (d : ResponseFields)
    {extra as bs : List UInt8} (hsplit : body ++ extra = as ++ bs) :
    (as.length < body.length ∧ ∃ c rest, bs = c :: rest ∧
      (resMachine.stateAfter ⟨.chunkSize none, d⟩ (fresh as)).Awaits (c, false)) ∨
    body.length ≤ as.length ∧ resMachine.run ⟨.chunkSize none, d⟩ (fresh as) =
      (⟨.halt .finished (fresh (as.drop body.length)), { d with bodyLength := 0 }⟩,
        (forwarded (!d.withTransf) body content).map (bodyByte d)) := by
  have hconsumes : Consumes ⟨.chunkSize none, d⟩ body ((forwarded (!d.withTransf) body content).map (bodyByte d))
      ⟨.halt .finished [], { d with bodyLength := 0 }⟩ := consumes_chunks h ⟨.chunkSize none, d⟩
  rcases List.append_eq_append_iff.mp hsplit with ⟨m, has, hextra⟩ | ⟨m, hbody, hbs⟩
  · refine .inr ⟨?_, ?_⟩
    · rw [has, List.length_append]
      exact Nat.le_add_right _ _
    · rw [has, List.drop_left, fresh_append, Transducer.run_append_eq resMachine hconsumes.run_eq
        (resMachine_run_halt .finished [] _ (fresh m)), List.append_nil, List.nil_append]
  · cases m with
    | nil =>
      rw [List.append_nil] at hbody
      subst hbody
      refine .inr ⟨Nat.le_refl _, ?_⟩
      rw [List.drop_length, hconsumes.run_eq]
      rfl
    | cons c m =>
      refine .inl ⟨?_, c, m ++ extra, hbs, ?_⟩
      · rw [hbody, List.length_append, List.length_cons]
        omega
      · have halong := (resMachine.along_iff _ _).mp hconsumes.along
        refine halong (fresh as) (c, false) (fresh m) ?_
        rw [hbody, fresh_append, fresh_cons]

/-- Every cut of a chunked body, and of what follows it, is one the parser comes back from. -/
theorem ResMachine.resumes_chunks (h : ChunkedBody false body content) (d : ResponseFields)
    {extra as bs cs : List UInt8} (hsplit : body ++ extra = as ++ (bs ++ cs)) (hbs : bs ≠ []) :
    (resMachine.stateAfter ⟨.chunkSize none, d⟩ (fresh as)).Resumes (fresh bs) := by
  refine Resumes.of_append (l := fresh cs) hbs ?_
  rw [← fresh_append]
  rcases chunks_cases h d hsplit with ⟨-, c, rest, hrest, hawaits⟩ | ⟨-, hrun⟩
  · rw [hrest]
    exact ⟨hawaits.resumes.recalled, fun hctl x hx => hawaits.resumes.digit hctl x hx⟩
  · rw [Transducer.stateAfter, hrun]
    exact ⟨trivial, fun hctl => ResCtl.noConfusion hctl⟩

/-- No zero byte of a chunked body, nor of what follows it, is taken for the end of the input. -/
theorem noNul_chunks (h : ChunkedBody false body content) (d : ResponseFields)
    {extra as bs : List UInt8} (hsplit : body ++ extra = as ++ bs) :
    NoNul ⟨.chunkSize none, d⟩ (fresh as) := by
  intro unread hctl
  rcases ResMachine.chunks_cases h d hsplit with ⟨-, c, rest, -, hawaits⟩ | ⟨-, hrun⟩
  · exact hawaits.live _ _ hctl
  · rw [Transducer.stateAfter, hrun] at hctl
    cases hctl

/-- A chunked body that arrives in fragments, with bytes behind it, is passed on as it is, or by its
content to the transformation; it ends with its last byte, and what is behind it stays unread. -/
theorem resCalls_chunks (hf : f.AtChunks) (h : ChunkedBody false body content) {extra : List UInt8}
    {ws : List (List UInt8)} (hws : ws.flatten = body ++ extra) (hne : ∀ w ∈ ws, w ≠ [])
    (hin : f.bIn.write + ws.flatten.length ≤ f.bIn.limit)
    (hout : f.bOut.write + body.length ≤ f.bOut.limit)
    (htransf : f.bTransf.write + content.length ≤ f.bTransf.limit) (k : Nat) :
    ∃ g, resCalls f (ws.take k) = some g ∧ g.rData.state = .RES_OK ∧
      (g.rData.parserState = .RES_FINISHED ↔ body.length ≤ (ws.take k).flatten.length) ∧
      (g.rData.parserState = .RES_FINISHED →
        g.bOut.bytes = f.bOut.bytes ++ (if f.rData.withTransf then [] else body) ∧
        g.bTransf.bytes = f.bTransf.bytes ++ (if f.rData.withTransf then content else []) ∧
        g.bIn.bytes = (ws.take k).flatten.drop body.length) := by
  have hsplit : body ++ extra = (ws.take k).flatten ++ (ws.drop k).flatten := by
    rw [← List.flatten_append, List.take_append_drop, hws]
  have hlen : (ws.take k).flatten.length ≤ ws.flatten.length := by
    rw [hws, hsplit, List.length_append]
    exact Nat.le_add_right _ _
  have hne' : ∀ w ∈ ws.take k, w ≠ [] := fun w hw => hne w (List.mem_of_mem_take hw)
  have hresumes : ∀ as bs, (ws.take k).flatten = as ++ bs → bs ≠ [] →
      (resMachine.stateAfter ⟨.chunkSize none, f.rData.toResponseFields⟩ (fresh as)).Resumes (fresh bs) := by
    intro as bs hcut hbs
    have hcut' : body ++ extra = as ++ (bs ++ (ws.drop k).flatten) := by
      rw [hsplit, hcut, List.append_assoc]
    exact ResMachine.resumes_chunks h _ hcut' hbs
  obtain ⟨g, hg, hbOut, hbTransf, hgoes, hstops⟩ := hf.continues.calls (ws.take k) hne' (by omega)
    (noNul_chunks h _ hsplit)
    (fun hmore => hresumes [] _ rfl (flatten_ne_nil hne' hmore)) (atEveryCut_fresh _ hne' hresumes)
  have hstate : g.rData.state = .RES_OK := by
    by_contra hstate
    obtain ⟨unread, hafter⟩ := hstops hstate
    rcases ResMachine.chunks_cases h f.rData.toResponseFields hsplit with ⟨-, c, rest, -, hawaits⟩ | ⟨-, hrun⟩
    · exact hawaits.live _ _ (congrArg ResMachine.ctl hafter)
    · rw [Transducer.stateAfter, hrun] at hafter
      cases hafter
  have hcontinues := (hgoes hstate).1
  refine ⟨g, hg, hstate, ?_⟩
  rcases ResMachine.chunks_cases h f.rData.toResponseFields hsplit with ⟨hlt, c, rest, -, hawaits⟩ | ⟨hle, hrun⟩
  · have hp : g.rData.parserState ≠ .RES_FINISHED := by
      rw [hcontinues.parserState]
      exact ResMachine.parserState_of_live hawaits.live
    exact ⟨iff_of_false hp (Nat.not_le.mpr hlt), fun hfinished => absurd hfinished hp⟩
  · rw [Transducer.stateAfter, hrun] at hcontinues
    have hcells := (hcontinues.halts .finished _ rfl).2
    refine ⟨iff_of_true hcontinues.parserState hle, fun _ => ?_⟩
    have hbytes : g.bIn.bytes = (ws.take k).flatten.drop body.length := by
      rw [← Buffer.map_fst_cells, hcells, fresh, List.map_map]
      exact List.map_id _
    rw [Transducer.emitted, hrun] at hbOut hbTransf
    rw [hbOut, hbTransf, ResMachine.outs_bodyByte, ResMachine.transfs_bodyByte]
    cases f.rData.withTransf with
    | true =>
      refine ⟨(List.append_nil _).symm, ?_, hbytes⟩
      exact congrArg Buffer.bytes (Buffer.writeAll_of_le htransf)
    | false =>
      refine ⟨?_, (List.append_nil _).symm, hbytes⟩
      exact congrArg Buffer.bytes (Buffer.writeAll_of_le hout)

end Chunks

/-- A chunk with a zero byte, and the last one. -/
def zeroChunk : List UInt8 :=
  lit "02" ++ ([] ++ ([CR, LF] ++ ([0, 0x62] ++ ([CR, LF] ++
    (lit "0" ++ ([] ++ ([CR, LF] ++ ([] ++ [CR, LF]))))))))

theorem chunkedBody_zeroChunk : ChunkedBody false zeroChunk [0, 0x62] :=
  .chunk (by decide) ⟨by decide, by decide +kernel, by decide⟩ (.inr (by decide)) (.inl rfl)
    (.last ⟨by decide, by decide +kernel, by decide⟩ (.inl rfl) (.inl rfl))

/-- A client whose response has come to a chunked body. -/
def chunksFeed : ResFeed where
  rData := { defaultResponseStruct with parserState := .BODY_NORMAL, isChunked := true }
  bIn := bufferInitR 20 60
  bOut := bufferInit 40
  bTransf := bufferInit 40

theorem atChunks_chunksFeed : chunksFeed.AtChunks where
  state := rfl
  parserState := rfl
  isChunked := rfl
  wf := Buffer.wf_initR (by decide)
  room := by decide
  cells := .inl rfl

/-- `zeroChunk` cut inside its size, its data and both line ends, with a byte behind it. -/
def zeroFragments : List (List UInt8) :=
  [lit "0", lit "2\r", lit "\n\x00", lit "b\r", lit "\n0\r\n", lit "\r\nx"]

theorem resCalls_chunks_zero :
    ∃ g, resCalls chunksFeed zeroFragments = some g ∧ g.rData.state = .RES_OK ∧
      g.rData.parserState = .RES_FINISHED ∧ g.bOut.bytes = zeroChunk ∧ g.bTransf.bytes = [] ∧
      g.bIn.bytes = lit "x" := by
  have hbytes : zeroFragments.flatten = zeroChunk ++ lit "x" := by decide
  obtain ⟨g, hg, hstate, hp, hpassed⟩ := resCalls_chunks atChunks_chunksFeed chunkedBody_zeroChunk hbytes
    (by decide) (by decide) (by decide) (by decide) 6
  have hfinished := hp.mpr (by decide)
  obtain ⟨hout, htransf, hin⟩ := hpassed hfinished
  exact ⟨g, hg, hstate, hfinished, hout, htransf, hin.trans (by decide)⟩

end HttpProxy
