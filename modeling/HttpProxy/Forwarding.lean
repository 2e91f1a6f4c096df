import HttpProxy.MyParserUtilsSpec
import HttpProxy.ProxyRuns

/-!
# What follows the host

Behind the host `client_read` passes on whatever it reads with the parsers' `readAndWrite`, whose 0
means that the buffer is empty. A zero byte of the client means the same to the loop, and is lost.
-/

namespace HttpProxy

/-- The bytes written when cells are passed on: not those pushed back, which were written before. -/
def passedOn (l : List Cell) : List UInt8 := l.flatMap (echoed true)

theorem passedOn_cons (x : Cell) (l : List Cell) :
    passedOn (x :: l) = echoed true x ++ passedOn l := List.flatMap_cons

theorem passedOn_append (l m : List Cell) : passedOn (l ++ m) = passedOn l ++ passedOn m :=
  List.flatMap_append

theorem passedOn_fresh (l : List UInt8) : passedOn (fresh l) = l := by
  induction l with
  | nil => rfl
  | cons c l ih =>
    rw [fresh_cons, passedOn_cons, ih]
    rfl

/-- A byte is passed on when it is there and was not pushed back. -/
theorem mem_passedOn {l : List Cell} {c : UInt8} : c ∈ passedOn l ↔ (c, false) ∈ l := by
  unfold passedOn
  rw [List.mem_flatMap]
  constructor
  · rintro ⟨⟨d, reserved⟩, hmem, hc⟩
    cases reserved with
    | false =>
      obtain rfl := List.mem_singleton.mp hc
      exact hmem
    | true => cases hc
  · exact fun hmem => ⟨_, hmem, List.mem_singleton.mpr rfl⟩

/-! ## The loop behind the parser -/

/-- A zero byte is read and dropped. -/
theorem readAndWrite_zero {io : Io} {reserved : Bool} {l : List Cell}
    (h : io.Shows ((0, reserved) :: l)) :
    readAndWrite io = (0, { io with b := (bufferRead io.b).2 }) := by
  simp only [readAndWrite, Buffer.read_fst_cons h.cells, bne_self_eq_false, Bool.and_false,
    Bool.false_eq_true, if_false]

/-- The loop passes on what stands in front of the first zero byte. -/
theorem drainLoop_append {l m : List Cell} {io : Io} (h : io.Shows (l ++ m))
    (hz : ∀ x ∈ l, x.1 ≠ 0) (fuel : Nat) :
    ∃ io', drainLoop (l.length + fuel) io = drainLoop fuel io' ∧ io'.Shows m ∧
      io.b.Keeps io'.b ∧ io'.out = io.out ++ passedOn l := by
  induction l generalizing io with
  | nil => exact ⟨io, by rw [List.length_nil, Nat.zero_add], h, .refl _, (List.append_nil _).symm⟩
  | cons x l ih =>
    have hx := hz x List.mem_cons_self
    have hread := readAndWrite_cons h hx
    have hshows : Io.Shows { io with
        b := (bufferRead io.b).2, out := io.out ++ echoed true x } (l ++ m) :=
      ⟨Buffer.wf_read h.wf h.cells, Buffer.cells_read h.cells⟩
    obtain ⟨io', hloop, hio', hkeeps, hout⟩ := ih hshows fun y hy => hz y (List.mem_cons_of_mem x hy)
    refine ⟨io', ?_, hio', (Buffer.keeps_read h.wf).trans hkeeps, ?_⟩
    · rw [List.length_cons, Nat.add_right_comm, drainLoop, hread]
      simp only
      rw [if_neg hx, hloop]
    · rw [hout, passedOn_cons, List.append_assoc]

/-- Emptying a buffer without zero bytes passes on all its fresh bytes. -/
theorem drain_nonzero {pre : Buffer} (post : Buffer) (hw : pre.Wf) (hz : ∀ x ∈ pre.cells, x.1 ≠ 0) :
    (drain pre post).1.Wf ∧ (drain pre post).1.cells = [] ∧ pre.Keeps (drain pre post).1 ∧
      (drain pre post).2 = bufferWriteAll post (passedOn pre.cells) := by
  have hshows : Io.Shows ⟨pre, [], false⟩ (pre.cells ++ []) := ⟨hw, (List.append_nil _).symm⟩
  obtain ⟨io', hloop, hio', hkeeps, hout⟩ := drainLoop_append hshows hz 1
  have hend : drainLoop 1 io' = io' := by
    rw [drainLoop, readAndWrite_nil hio']
    rfl
  unfold drain
  rw [← Buffer.length_cells, hloop, hend]
  refine ⟨hio'.wf, hio'.cells, hkeeps, ?_⟩
  simp only
  rw [hout, List.nil_append]

/-- A zero byte is read and ends the loop. -/
theorem drain_zero {pre : Buffer} (post : Buffer) (hw : pre.Wf) {l m : List Cell} {reserved : Bool}
    (hcells : pre.cells = l ++ (0, reserved) :: m) (hz : ∀ x ∈ l, x.1 ≠ 0) :
    (drain pre post).1.cells = m ∧ (drain pre post).2 = bufferWriteAll post (passedOn l) := by
  have hshows : Io.Shows ⟨pre, [], false⟩ (l ++ (0, reserved) :: m) := ⟨hw, hcells⟩
  obtain ⟨io', hloop, hio', -, hout⟩ := drainLoop_append hshows hz (m.length + 2)
  have hend : drainLoop (m.length + 2) io' = { io' with b := (bufferRead io'.b).2 } := by
    rw [drainLoop, readAndWrite_zero hio']
    rfl
  unfold drain
  rw [← Buffer.length_cells, hcells, List.length_append, List.length_cons,
    show l.length + (m.length + 1) + 1 = l.length + (m.length + 2) from rfl, hloop, hend]
  refine ⟨Buffer.cells_read hio'.cells, ?_⟩
  simp only
  rw [hout, List.nil_append]

/-- Cells of which one is zero have a first one. -/
theorem exists_first_zero {l : List Cell} (h : ∃ x ∈ l, x.1 = 0) :
    ∃ front reserved rest, l = front ++ (0, reserved) :: rest ∧ ∀ x ∈ front, x.1 ≠ 0 := by
  induction l with
  | nil =>
    obtain ⟨x, hx, -⟩ := h
    cases hx
  | cons y l ih =>
    by_cases hy : y.1 = 0
    · exact ⟨[], y.2, l, by rw [← hy]; rfl, nofun⟩
    · obtain ⟨x, hx, h0⟩ := h
      have hmem : x ∈ l := by
        rcases List.mem_cons.mp hx with rfl | hx
        · exact absurd h0 hy
        · exact hx
      obtain ⟨front, reserved, rest, rfl, hfront⟩ := ih ⟨x, hmem, h0⟩
      refine ⟨y :: front, reserved, rest, rfl, fun z hz => ?_⟩
      rcases List.mem_cons.mp hz with rfl | hz
      · exact hy
      · exact hfront z hz

namespace Proxy

/-! ## The reads of a client without an origin -/

/-- Reads of client `i`, one after the other. -/
def reads (s : Proxy) (i : ClientId) (rs : List (List UInt8)) : Proxy :=
  rs.foldl (fun s bytes => s.clientRead i (some bytes)) s

/-- `client_read` in front of its loop. -/
def parsed (s : Proxy) (i : ClientId) (bytes : List UInt8) : Proxy :=
  ((s.use i).receive i (some bytes)).parseRequest i

/-- After each read everything the client sent behind its host, from where the parser left it, is in
`post_req_parse_buf`. -/
def Forwards (s : Proxy) (i : ClientId) (bytes : List UInt8) (rs : List (List UInt8)) : Prop :=
  ∀ k ≤ rs.length,
    ((s.reads i (bytes :: rs.take k)).clients i).postReqParseBuf.bytes =
        ((s.parsed i bytes).clients i).postReqParseBuf.bytes ++
          (passedOn ((s.parsed i bytes).clients i).preReqParseBuf.cells ++ (rs.take k).flatten) ∧
      ((s.reads i (bytes :: rs.take k)).clients i).preReqParseBuf.bytes = []

instance (s : Proxy) (i : ClientId) (bytes : List UInt8) (rs : List (List UInt8)) :
    Decidable (s.Forwards i bytes rs) :=
  inferInstanceAs (Decidable (∀ k, k ≤ rs.length → _))

/-- Client `i` is connected and has no origin, and its request parser is at its end, with nothing
pushed back that is zero. -/
structure Headed (s : Proxy) (i : ClientId) : Prop where
  running : s.status = .running
  state : (s.clients i).state = .NO_ORIGIN
  parserState : (s.clients i).reqData.parserState = .FINISHED
  parsed : (s.clients i).reqData.state = .OK
  connected : (s.clients i).clientFd ∈ s.fds
  wf : (s.clients i).preReqParseBuf.Wf
  pushedBack : ∀ x ∈ (s.clients i).preReqParseBuf.cells, x.2 = true → x.1 ≠ 0

variable {s : Proxy} {i : ClientId} {bytes : List UInt8}

/-- Emptying the buffer in front of the parser, as a change of the client. -/
theorem clients_drainRequest (s : Proxy) (i : ClientId) :
    (s.drainRequest i).clients i =
      { s.clients i with
        preReqParseBuf := (drain (s.clients i).preReqParseBuf (s.clients i).postReqParseBuf).1
        postReqParseBuf := (drain (s.clients i).preReqParseBuf (s.clients i).postReqParseBuf).2 } :=
  Function.update_self _ _ _

/-- A `read` that returns `bytes`. -/
theorem sysRead_of_fits {fd : Int} {space : Nat} (hfd : fd ∈ s.fds) (hfits : bytes.length ≤ space) :
    s.sysRead fd (some bytes) space = some bytes := by
  unfold sysRead
  rw [if_pos hfd, Option.map_some, List.take_of_length_le hfits]

/-- `client_read` in front of the end of the head: a read, a call of the parser, and what it
left. -/
theorem clientRead_parsed (hstate : (s.clients i).state = .NO_ORIGIN)
    (hp : (s.clients i).reqData.parserState ≠ .FINISHED)
    (hfd : (s.clients i).clientFd ∈ s.fds) (hne : bytes ≠ [])
    (hfits : (s.clients i).preReqParseBuf.write + bytes.length ≤ (s.clients i).preReqParseBuf.limit)
    (hrun : (s.parsed i bytes).status = .running)
    (hok : ((s.parsed i bytes).clients i).reqData.state = .OK) :
    s.clientRead i (some bytes) = (s.parsed i bytes).drainRequest i := by
  have hlen := List.length_pos_iff.mpr hne
  have hroom : bufferCanWrite (s.clients i).preReqParseBuf = true := by
    unfold bufferCanWrite
    exact decide_eq_true (by omega)
  have hread : (s.use i).sysRead (s.clients i).clientFd (some bytes)
      (bufferWriteSpace (s.clients i).preReqParseBuf) = some bytes := by
    refine sysRead_of_fits (s := s.use i) hfd ?_
    unfold bufferWriteSpace
    omega
  unfold clientRead
  simp only [hstate]
  rw [if_pos hroom, hread, if_neg (Option.some_ne_none _), if_pos hp]
  change (if (s.parsed i bytes).status ≠ .running then _ else
    if ((s.parsed i bytes).clients i).reqData.state ≠ .OK then _ else _) = _
  rw [if_neg (not_not.mpr hrun), if_neg (not_not.mpr hok)]
  rfl

/-- `client_read` behind the head passes on what it read. -/
theorem clientRead_headed (h : Headed s i) (hne : bytes ≠ [])
    (hfits : (s.clients i).preReqParseBuf.write + bytes.length ≤
      (s.clients i).preReqParseBuf.limit) :
    s.clientRead i (some bytes) = ((s.use i).receive i (some bytes)).drainRequest i := by
  have hlen := List.length_pos_iff.mpr hne
  have hroom : bufferCanWrite (s.clients i).preReqParseBuf = true := by
    unfold bufferCanWrite
    exact decide_eq_true (by omega)
  have hread : (s.use i).sysRead (s.clients i).clientFd (some bytes)
      (bufferWriteSpace (s.clients i).preReqParseBuf) = some bytes := by
    refine sysRead_of_fits (s := s.use i) h.connected ?_
    unfold bufferWriteSpace
    omega
  have hok : (((s.use i).receive i (some bytes)).clients i).reqData.state = .OK := by
    rw [clients_receive]
    exact h.parsed
  unfold clientRead
  simp only [h.state]
  rw [if_pos hroom, hread, if_neg (Option.some_ne_none _), if_neg (not_not.mpr h.parserState),
    if_neg (not_not.mpr hok)]
  exact if_neg (not_not.mpr h.running)

/-- What a read leaves when it has no zero byte. -/
structure Passes (i : ClientId) (s t : Proxy) (bytes : List UInt8) : Prop where
  headed : Headed t i
  empty : (t.clients i).preReqParseBuf.cells = []
  infLimit : (t.clients i).preReqParseBuf.infLimit = (s.clients i).preReqParseBuf.infLimit
  limit : (t.clients i).preReqParseBuf.limit = (s.clients i).preReqParseBuf.limit
  post : (t.clients i).postReqParseBuf = bufferWriteAll (s.clients i).postReqParseBuf bytes

/-- Emptying the buffer passes on the bytes that were not pushed back. -/
theorem passes_drain (h : Headed s i) (hz : 0 ∉ passedOn (s.clients i).preReqParseBuf.cells) :
    Passes i s (s.drainRequest i) (passedOn (s.clients i).preReqParseBuf.cells) := by
  have hnonzero : ∀ x ∈ (s.clients i).preReqParseBuf.cells, x.1 ≠ 0 := by
    rintro ⟨c, reserved⟩ hx rfl
    cases reserved with
    | false => exact hz (mem_passedOn.mpr hx)
    | true => exact h.pushedBack _ hx rfl rfl
  obtain ⟨hwf, hcells, hkeeps, hpost⟩ :=
    drain_nonzero (s.clients i).postReqParseBuf h.wf hnonzero
  have hself := clients_drainRequest s i
  constructor
  case headed =>
    refine ⟨h.running, ?_, ?_, ?_, ?_, ?_, ?_⟩ <;> rw [hself]
    · exact h.state
    · exact h.parserState
    · exact h.parsed
    · exact h.connected
    · exact hwf
    · simp only [hcells]
      exact nofun
  case empty =>
    rw [hself]
    exact hcells
  case infLimit =>
    rw [hself]
    exact hkeeps.infLimit
  case limit =>
    rw [hself]
    exact hkeeps.limit
  case post =>
    rw [hself]
    exact hpost

/-- A buffer that was read empty writes from the reserved zone on. -/
theorem write_of_empty {b : Buffer} (hw : b.Wf) (h : b.cells = []) : b.write = b.infLimit := by
  have hb := Buffer.cells_eq_nil.mp h
  rw [Buffer.write, hb, hw.read_of_nil hb]
  rfl

/-- A client that has read into its empty buffer. -/
theorem headed_receive (h : Headed s i) (hempty : (s.clients i).preReqParseBuf.cells = [])
    (hfits : (s.clients i).preReqParseBuf.infLimit + bytes.length ≤
      (s.clients i).preReqParseBuf.limit) :
    Headed ((s.use i).receive i (some bytes)) i ∧
      (((s.use i).receive i (some bytes)).clients i).preReqParseBuf.cells = fresh bytes := by
  have hself : ((s.use i).receive i (some bytes)).clients i =
      { s.clients i with
        preReqParseBuf := bufferWriteAdv (s.clients i).preReqParseBuf bytes } :=
    clients_receive (s.use i) i bytes
  rw [← write_of_empty h.wf hempty] at hfits
  have hadv : bufferWriteAdv (s.clients i).preReqParseBuf bytes =
      bufferWriteAll (s.clients i).preReqParseBuf bytes := (Buffer.writeAll_of_le hfits).symm
  have hcells := Buffer.cells_writeAll h.wf hfits
  rw [hempty, List.nil_append] at hcells
  refine ⟨⟨h.running, ?_, ?_, ?_, ?_, ?_, ?_⟩, ?_⟩ <;> rw [hself]
  · exact h.state
  · exact h.parserState
  · exact h.parsed
  · exact h.connected
  · simp only [hadv]
    exact Buffer.wf_writeAll h.wf hfits
  · simp only [hadv, hcells]
    intro x hx hreserved
    obtain ⟨c, -, rfl⟩ := List.mem_map.mp hx
    cases hreserved
  · simp only [hadv]
    exact hcells

/-- A read without a zero byte is passed on as a whole. -/
theorem passes_clientRead (h : Headed s i) (hempty : (s.clients i).preReqParseBuf.cells = [])
    (hne : bytes ≠ [])
    (hfits : (s.clients i).preReqParseBuf.infLimit + bytes.length ≤
      (s.clients i).preReqParseBuf.limit) (hz : 0 ∉ bytes) :
    Passes i s (s.clientRead i (some bytes)) bytes := by
  obtain ⟨hheaded, hcells⟩ := headed_receive h hempty hfits
  have hself : ((s.use i).receive i (some bytes)).clients i =
      { s.clients i with
        preReqParseBuf := bufferWriteAdv (s.clients i).preReqParseBuf bytes } :=
    clients_receive (s.use i) i bytes
  have hpasses := passes_drain hheaded (by rwa [hcells, passedOn_fresh])
  rw [hcells, passedOn_fresh] at hpasses
  rw [clientRead_headed h hne (by rwa [write_of_empty h.wf hempty])]
  refine ⟨hpasses.headed, hpasses.empty, hpasses.infLimit.trans ?_, hpasses.limit.trans ?_,
    hpasses.post.trans ?_⟩ <;> rw [hself]
  · rfl
  · rfl

/-- The reads behind the head pass on their bytes, one after the other. The induction is on the
reads. -/
theorem passes_reads {rs : List (List UInt8)} (h : Headed s i)
    (hempty : (s.clients i).preReqParseBuf.cells = [])
    (hfits : ∀ bytes ∈ rs, bytes ≠ [] ∧ (s.clients i).preReqParseBuf.infLimit + bytes.length ≤
      (s.clients i).preReqParseBuf.limit) (hz : 0 ∉ rs.flatten) :
    Passes i s (s.reads i rs) rs.flatten := by
  induction rs generalizing s with
  | nil => exact ⟨h, hempty, rfl, rfl, rfl⟩
  | cons bytes rs ih =>
    rw [List.flatten_cons, List.mem_append, not_or] at hz
    obtain ⟨hne, hfit⟩ := hfits bytes List.mem_cons_self
    have hfirst := passes_clientRead h hempty hne hfit hz.1
    have hrest := ih hfirst.headed hfirst.empty (fun w hw => by
      rw [hfirst.infLimit, hfirst.limit]
      exact hfits w (List.mem_cons_of_mem bytes hw)) hz.2
    refine ⟨hrest.headed, hrest.empty, hrest.infLimit.trans hfirst.infLimit,
      hrest.limit.trans hfirst.limit, ?_⟩
    rw [List.flatten_cons, Buffer.writeAll_append, ← hfirst.post]
    exact hrest.post

/-- What was passed on of a read with a zero byte is not all of it. -/
theorem zero_not_passed (h : (s.clients i).preReqParseBuf.Wf)
    (hall : ((s.drainRequest i).clients i).postReqParseBuf.bytes =
      (s.clients i).postReqParseBuf.bytes ++ passedOn (s.clients i).preReqParseBuf.cells)
    (hnone : ((s.drainRequest i).clients i).preReqParseBuf.bytes = []) :
    0 ∉ passedOn (s.clients i).preReqParseBuf.cells := by
  intro hzero
  have hmem := mem_passedOn.mp hzero
  obtain ⟨front, reserved, rest, hcells, hfront⟩ := exists_first_zero ⟨_, hmem, rfl⟩
  obtain ⟨hrest, hpost⟩ := drain_zero (s.clients i).postReqParseBuf h hcells hfront
  rw [clients_drainRequest] at hall hnone
  simp only at hall hnone
  rw [Buffer.cells_eq_nil.mpr hnone] at hrest
  subst hrest
  cases reserved with
  | true =>
    rw [hcells] at hmem
    rcases List.mem_append.mp hmem with hmem | hmem
    · exact hfront _ hmem rfl
    · cases List.mem_singleton.mp hmem
  | false =>
    have hlen := congrArg List.length hall
    rw [hpost, Buffer.writeAll_eq, hcells, passedOn_append] at hlen
    simp only [List.length_append, List.length_take] at hlen
    have hone : (passedOn [((0 : UInt8), false)]).length = 1 := rfl
    omega

/-- Everything behind the host is passed on with every read if and only if there is no zero byte
in it. -/
theorem forwards_iff {rs : List (List UInt8)} (hstate : (s.clients i).state = .NO_ORIGIN)
    (hp : (s.clients i).reqData.parserState ≠ .FINISHED)
    (hfd : (s.clients i).clientFd ∈ s.fds) (hne : bytes ≠ [])
    (hfits : (s.clients i).preReqParseBuf.write + bytes.length ≤ (s.clients i).preReqParseBuf.limit)
    (hend : Headed (s.parsed i bytes) i)
    (hreads : ∀ w ∈ rs, w ≠ [] ∧ ((s.parsed i bytes).clients i).preReqParseBuf.infLimit + w.length ≤
      ((s.parsed i bytes).clients i).preReqParseBuf.limit)
    (hroom : ((s.parsed i bytes).clients i).postReqParseBuf.write +
      (passedOn ((s.parsed i bytes).clients i).preReqParseBuf.cells ++ rs.flatten).length ≤
      ((s.parsed i bytes).clients i).postReqParseBuf.limit) :
    s.Forwards i bytes rs ↔
      0 ∉ passedOn ((s.parsed i bytes).clients i).preReqParseBuf.cells ++ rs.flatten := by
  have hfirst := clientRead_parsed hstate hp hfd hne hfits hend.running hend.parsed
  have hrun : ∀ ws, s.reads i (bytes :: ws) = ((s.parsed i bytes).drainRequest i).reads i ws := by
    intro ws
    rw [← hfirst]
    rfl
  unfold Forwards
  simp only [hrun]
  generalize s.parsed i bytes = u at hend hreads hroom ⊢
  -- As long as no zero byte was read, every byte was passed on and the buffer is empty.
  have hprefix : ∀ ws more, rs = ws ++ more →
      0 ∉ passedOn (u.clients i).preReqParseBuf.cells ++ ws.flatten →
      Passes i u ((u.drainRequest i).reads i ws)
        (passedOn (u.clients i).preReqParseBuf.cells ++ ws.flatten) := by
    rintro ws more rfl hz
    rw [List.mem_append, not_or] at hz
    have hdrain := passes_drain hend hz.1
    have hrest := passes_reads hdrain.headed hdrain.empty (fun w hw => by
      rw [hdrain.infLimit, hdrain.limit]
      exact hreads w (List.mem_append_left more hw)) hz.2
    refine ⟨hrest.headed, hrest.empty, hrest.infLimit.trans hdrain.infLimit,
      hrest.limit.trans hdrain.limit, ?_⟩
    rw [Buffer.writeAll_append, ← hdrain.post]
    exact hrest.post
  constructor
  · intro hall
    -- By induction on the reads: what was forwarded so far shows that none of it is zero.
    have hnone : ∀ k ≤ rs.length,
        0 ∉ passedOn (u.clients i).preReqParseBuf.cells ++ (rs.take k).flatten := by
      intro k
      induction k with
      | zero =>
        intro hk
        obtain ⟨hpost, hpre⟩ := hall 0 hk
        rw [List.take_zero, List.flatten_nil, List.append_nil] at hpost ⊢
        exact zero_not_passed hend.wf hpost hpre
      | succ k ih =>
        intro hk
        have hz := ih (Nat.le_of_succ_le hk)
        have hsplit : rs = rs.take k ++ rs[k] :: rs.drop (k + 1) := by
          rw [List.getElem_cons_drop, List.take_append_drop]
        have hpasses := hprefix (rs.take k) _ hsplit hz
        obtain ⟨hne', hfit⟩ := hreads rs[k] (List.getElem_mem hk)
        rw [← hpasses.infLimit, ← hpasses.limit] at hfit
        have hnext : (u.drainRequest i).reads i (rs.take (k + 1)) =
            ((u.drainRequest i).reads i (rs.take k)).clientRead i (some rs[k]) := by
          unfold reads
          rw [List.take_succ_eq_append_getElem hk, List.foldl_append]
          rfl
        obtain ⟨hpost, hpre⟩ := hall (k + 1) hk
        rw [hnext, clientRead_headed hpasses.headed hne'
          (by rwa [write_of_empty hpasses.headed.wf hpasses.empty])] at hpost hpre
        obtain ⟨hheaded, hcells⟩ := headed_receive hpasses.headed hpasses.empty hfit
        have hlen : (rs.take k).flatten.length ≤ rs.flatten.length := by
          conv_rhs => rw [hsplit]
          rw [List.flatten_append, List.length_append]
          exact Nat.le_add_right _ _
        have hzero := zero_not_passed hheaded.wf ?_ hpre
        · rw [hcells, passedOn_fresh] at hzero
          rw [List.take_succ_eq_append_getElem hk, List.flatten_append, List.flatten_singleton,
            ← List.append_assoc, List.mem_append, not_or]
          exact ⟨hz, hzero⟩
        · rw [hpost, hcells, passedOn_fresh, clients_receive]
          simp only [use, act]
          rw [hpasses.post, Buffer.writeAll_of_le (by rw [List.length_append] at hroom ⊢; omega),
            List.take_succ_eq_append_getElem hk, List.flatten_append, List.flatten_singleton]
          simp only [List.append_assoc]
    have hend' := hnone rs.length (Nat.le_refl _)
    rwa [List.take_length] at hend'
  · intro hz k hk
    have htake : rs.take k ++ rs.drop k = rs := List.take_append_drop k rs
    have hlen : (rs.take k).flatten.length ≤ rs.flatten.length := by
      conv_rhs => rw [← htake]
      rw [List.flatten_append, List.length_append]
      exact Nat.le_add_right _ _
    have hpasses := hprefix (rs.take k) (rs.drop k) htake.symm fun hmem => hz (by
      rw [← htake, List.flatten_append, ← List.append_assoc]
      exact List.mem_append_left _ hmem)
    refine ⟨?_, Buffer.cells_eq_nil.mp hpasses.empty⟩
    rw [hpasses.post, Buffer.writeAll_of_le]
    rw [List.length_append] at hroom ⊢
    omega

/-- A client that has sent nothing yet. -/
def accepted : Proxy := mainLoop.run [.accept ⟨some 7, noPipes⟩]

/-- The head of a request and the first bytes behind its host. -/
def head : List UInt8 := lit "POST / HTTP/1.1\r\nHost: a\r\n\r\n"

theorem forwards_body : accepted.Forwards 0 head [lit "ab", lit "c"] :=
  (forwards_iff (by decide +kernel) (by decide +kernel) (by decide +kernel) (by decide +kernel)
    (by decide +kernel) ⟨by decide +kernel, by decide +kernel, by decide +kernel, by decide +kernel,
      by decide +kernel, ⟨by decide +kernel, by decide +kernel, by decide +kernel⟩,
      by decide +kernel⟩ (by decide +kernel) (by decide +kernel)).mpr (by decide +kernel)

/-- A body with a zero byte: neither it nor what stands behind it is passed on. -/
theorem zero_lost : ¬accepted.Forwards 0 head [[0x61, 0, 0x62]] := by
  decide +kernel

end Proxy

end HttpProxy
