import HttpProxy.Chunks
import HttpProxy.Library.PartialRun

/-!
# The output of a transformation

`transf_read` takes what the transformation program prints and appends it to the response in chunks,
while `client_write` sends the response and makes room (`transformation_handlers.c`,
`client_handlers.c`). The chunk that ends the body is to follow the end of the program's output.

`dump_chunk_from_fd` returns 0 at the end of the output, and also where there is no room to read.
With 5 to 11 bytes of room the empty chunk has room all the same, so `transf_read` ends the body
then wherever the output is. The law here is exact (`endsInTurn_iff`): a body is ended in turn in
every state of a run just when no step of the run meets that room before the end of the output.
-/

namespace HttpProxy

/-- What `transf_read` appended to the response. -/
inductive Piece
  | chunk (bytes : List UInt8)
  | last
deriving DecidableEq, Repr

/-- The client with its transformation: the buffer, the descriptors, and the pipe the program prints
to. -/
structure TransfClient where
  postResParseBuf : Buffer
  /-- Whether `client_fd` is registered; `client_close` frees the buffer. -/
  clientOpen : Bool := true
  /-- Whether `transf_out_fd` is registered; it is -1 from then on. -/
  transfOutOpen : Bool := true
  /-- Whether the interest of `transf_out_fd` is `OP_READ`. -/
  reads : Bool
  /-- Printed, and not read yet. -/
  pipe : List UInt8 := []
  /-- Whether the program closed its output. -/
  exited : Bool := false
  /-- All that was printed. -/
  output : List UInt8 := []
  appended : List Piece := []
deriving DecidableEq, Repr

namespace TransfClient

def space (c : TransfClient) : Nat := bufferWriteSpace c.postResParseBuf

/-- The program's output has reached its end, and all of it was read. -/
def AtEof (c : TransfClient) : Prop := c.pipe = [] ∧ c.exited = true

instance (c : TransfClient) : Decidable c.AtEof := inferInstanceAs (Decidable (_ ∧ _))

/-! ## The handlers -/

/-- The bytes a read took out of the pipe. -/
def taken : ReadResult → List UInt8
  | .error => []
  | .bytes l => l

def transfRead (mallocs : Bool) (r : ReadResult) (c : TransfClient) : TransfClient :=
  if bufferCanWrite c.postResParseBuf then
    let (readBytes, buf) := dumpChunkFromFd mallocs r c.postResParseBuf
    if readBytes < 0 then { c with clientOpen := false }
    else if readBytes = 0 then
      let (written, buf) := writeEmptyChunk buf
      if written > 0 then
        { c with
          postResParseBuf := buf, transfOutOpen := false, appended := c.appended ++ [.last] }
      else c
    else
      { c with
        postResParseBuf := buf
        pipe := c.pipe.drop (taken r).length
        appended := c.appended ++ [.chunk (taken r)] }
  else { c with reads := false }

/-- `written` is what `write` returned; `none` is -1. -/
def clientWrite (written : Option Nat) (c : TransfClient) : TransfClient :=
  if bufferCanRead c.postResParseBuf then
    match written with
    | none => { c with clientOpen := false }
    | some n =>
      { c with
        postResParseBuf := bufferReadAdv c.postResParseBuf n
        reads := if c.transfOutOpen then true else c.reads }
  else if c.transfOutOpen = false then { c with clientOpen := false }
  else c

/-! ## Runs -/

/-- What a read of at most `n` bytes can give: an error, the end of the output, or some of what is in
the pipe. -/
def CanRead (c : TransfClient) (n : Nat) : ReadResult → Prop
  | .error => True
  | .bytes [] => c.AtEof
  | .bytes (x :: l) => x :: l <+: c.pipe ∧ (x :: l).length ≤ n

instance (c : TransfClient) (n : Nat) (r : ReadResult) : Decidable (c.CanRead n r) :=
  match r with
  | .error => isTrue trivial
  | .bytes [] => inferInstanceAs (Decidable c.AtEof)
  | .bytes (_ :: _) => inferInstanceAs (Decidable (_ ∧ _))

inductive Event
  | prints (l : List UInt8)
  | exits
  | transfRead (mallocs : Bool) (r : ReadResult)
  | clientWrite (written : Option Nat)
deriving DecidableEq, Repr

/-- One event. The program prints until it exits, the selector calls the handler of a descriptor that
is registered with its interest, and no handler runs when the buffer was freed. -/
def step (c : TransfClient) : Event → Option TransfClient
  | .prints l =>
    if c.exited = false then some { c with pipe := c.pipe ++ l, output := c.output ++ l } else none
  | .exits => some { c with exited := true }
  | .transfRead mallocs r =>
    if c.clientOpen = true ∧ c.transfOutOpen = true ∧ c.reads = true ∧
        c.CanRead (c.space - MAX_CHUNK_SIZE_DIGITS - 4) r then
      some (transfRead mallocs r c)
    else none
  | .clientWrite written =>
    if c.clientOpen = true ∧ written.getD 0 ≤ c.postResParseBuf.bytes.length then
      some (clientWrite written c)
    else none

/-- The client when the response head is in the buffer and nothing was read of the program. -/
def start (buf : Buffer) (reads : Bool) : TransfClient := { postResParseBuf := buf, reads := reads }

/-! ## What a call of `transf_read` does -/

/-- The five ways of `transf_read`. -/
inductive Reads (mallocs : Bool) (r : ReadResult) (c : TransfClient) : TransfClient → Prop
  | full (room : c.space = 0) : Reads mallocs r c { c with reads := false }
  | waits (room : c.space < 5) : Reads mallocs r c c
  | fails (room : c.space > MAX_CHUNK_SIZE_DIGITS + 4) (failed : mallocs = false ∨ r = .error) :
      Reads mallocs r c { c with clientOpen := false }
  | ends (buf : Buffer) (room : 5 ≤ c.space)
      (zero : c.space ≤ MAX_CHUNK_SIZE_DIGITS + 4 ∨ r = .bytes []) :
      Reads mallocs r c
        { c with
          postResParseBuf := buf, transfOutOpen := false, appended := c.appended ++ [.last] }
  | chunk (x : UInt8) (l : List UInt8) (buf : Buffer)
      (room : c.space > MAX_CHUNK_SIZE_DIGITS + 4) (got : r = .bytes (x :: l)) :
      Reads mallocs r c
        { c with
          postResParseBuf := buf
          pipe := c.pipe.drop (x :: l).length
          appended := c.appended ++ [.chunk (x :: l)] }

/-- The client's buffer can be written when there is room. -/
theorem bufferCanWrite_iff (c : TransfClient) :
    bufferCanWrite c.postResParseBuf = true ↔ 0 < c.space := by
  unfold bufferCanWrite space bufferWriteSpace
  rw [decide_eq_true_iff]
  omega

/-- Where `dump_chunk_from_fd` returned 0. -/
theorem reads_zero {mallocs : Bool} {r : ReadResult} {c : TransfClient} (hpos : 0 < c.space)
    (hzero : c.space ≤ MAX_CHUNK_SIZE_DIGITS + 4 ∨ r = .bytes [])
    (hdump : dumpChunkFromFd mallocs r c.postResParseBuf = (0, c.postResParseBuf)) :
    Reads mallocs r c (transfRead mallocs r c) := by
  unfold transfRead
  rw [if_pos ((bufferCanWrite_iff c).mpr hpos), hdump]
  dsimp only
  rw [if_neg (by decide), if_pos rfl]
  by_cases hroom : 5 ≤ c.space
  · have hwritten : writeEmptyChunk c.postResParseBuf = (5, _) := if_pos hroom
    rw [hwritten]
    exact .ends _ hroom hzero
  · have hwritten : writeEmptyChunk c.postResParseBuf = (0, _) := if_neg hroom
    rw [hwritten]
    exact .waits (Nat.lt_of_not_le hroom)

/-- `transf_read` as one of its ways. -/
theorem transfRead_reads (mallocs : Bool) (r : ReadResult) (c : TransfClient) :
    Reads mallocs r c (transfRead mallocs r c) := by
  by_cases hpos : 0 < c.space
  · by_cases hroom : c.space > MAX_CHUNK_SIZE_DIGITS + 4
    · have hdump : dumpChunkFromFd mallocs r c.postResParseBuf = _ := if_pos hroom
      by_cases hfailed : mallocs = false ∨ r = .error
      · have hfails : dumpChunkFromFd mallocs r c.postResParseBuf = (-1, c.postResParseBuf) := by
          rw [hdump]
          split
          · rfl
          · next hm => rw [hfailed.resolve_left hm]
        unfold transfRead
        rw [if_pos ((bufferCanWrite_iff c).mpr hpos), hfails]
        exact .fails hroom hfailed
      · obtain ⟨hm, hr⟩ := not_or.mp hfailed
        rw [if_neg hm] at hdump
        rcases r with _ | _ | ⟨x, l⟩
        · exact absurd rfl hr
        · exact reads_zero hpos (.inr rfl) hdump
        · have hlen : 0 < (chunkText (x :: l)).length := by
            rw [chunkText]
            simp only [List.length_append, List.length_cons]
            omega
          unfold transfRead
          rw [if_pos ((bufferCanWrite_iff c).mpr hpos), hdump]
          dsimp only
          rw [if_neg (by omega), if_neg (by omega)]
          exact .chunk x l _ hroom rfl
    · exact reads_zero hpos (.inl (Nat.le_of_not_lt hroom)) (if_neg hroom)
  · unfold transfRead
    rw [if_neg (mt (bufferCanWrite_iff c).mp hpos)]
    exact .full (Nat.eq_zero_of_not_pos hpos)

/-! ## What holds in every run -/

/-- What was printed is what was appended and what is in the pipe, and the chunk that ends the body is
appended when the descriptor is closed. -/
def Kept (c : TransfClient) : Prop :=
  ∃ blocks : List (List UInt8),
    c.appended = blocks.map .chunk ++ (if c.transfOutOpen then [] else [.last]) ∧
      c.output = blocks.flatten ++ c.pipe

theorem kept_start (buf : Buffer) (reads : Bool) : (start buf reads).Kept := ⟨[], rfl, rfl⟩

/-- A read of the transformation's output appends a chunk of it, or the last chunk. -/
theorem kept_reads {mallocs : Bool} {r : ReadResult} {c c' : TransfClient} (h : c.Kept)
    (hopen : c.transfOutOpen = true) {n : Nat} (hcan : c.CanRead n r)
    (hreads : Reads mallocs r c c') : c'.Kept := by
  obtain ⟨blocks, happended, houtput⟩ := h
  rw [hopen, if_pos rfl, List.append_nil] at happended
  cases hreads with
  | full | fails => exact ⟨blocks, by simp only [hopen, if_true, List.append_nil, happended], houtput⟩
  | waits => exact ⟨blocks, by rw [hopen, if_pos rfl, List.append_nil, happended], houtput⟩
  | ends => exact ⟨blocks, by rw [happended]; rfl, houtput⟩
  | chunk x l buf room got =>
    rw [got] at hcan
    obtain ⟨rest, hpipe⟩ := hcan.1
    refine ⟨blocks ++ [x :: l], ?_, ?_⟩
    · rw [happended, hopen, List.map_append, if_pos rfl, List.append_nil]
      rfl
    · rw [houtput, ← hpipe, List.drop_left, List.flatten_append, List.flatten_singleton,
        List.append_assoc]

/-- A write to the client takes from the front of what was appended. -/
theorem kept_clientWrite {c : TransfClient} (h : c.Kept) (written : Option Nat) :
    (clientWrite written c).Kept := by
  unfold clientWrite
  split
  · cases written <;> exact h
  · split <;> exact h

/-- Every event keeps what the client gets. -/
theorem kept_step {c c' : TransfClient} {e : Event} (h : c.Kept) (hstep : step c e = some c') :
    c'.Kept := by
  cases e with
  | prints l =>
    obtain ⟨blocks, happended, houtput⟩ := h
    obtain ⟨-, hc⟩ := Option.ite_none_right_eq_some.mp hstep
    obtain rfl := Option.some.inj hc
    exact ⟨blocks, happended, by rw [← List.append_assoc, ← houtput]⟩
  | exits =>
    obtain rfl := Option.some.inj hstep
    exact h
  | transfRead mallocs r =>
    obtain ⟨⟨-, hopen, -, hcan⟩, hc⟩ := Option.ite_none_right_eq_some.mp hstep
    obtain rfl := Option.some.inj hc
    exact kept_reads h hopen hcan (transfRead_reads mallocs r c)
  | clientWrite written =>
    obtain ⟨-, hc⟩ := Option.ite_none_right_eq_some.mp hstep
    obtain rfl := Option.some.inj hc
    exact kept_clientWrite h written

/-- In every run the client gets what was appended. -/
theorem kept_run {c c' : TransfClient} {es : List Event} (h : c.Kept)
    (hrun : PartialRun.run step c es = some c') : c'.Kept :=
  PartialRun.run_invariant (fun _ _ _ => kept_step) h hrun

/-- The last chunk was appended exactly when the output is closed. -/
theorem last_mem_iff {c : TransfClient} (h : c.Kept) :
    .last ∈ c.appended ↔ c.transfOutOpen = false := by
  obtain ⟨blocks, happended, -⟩ := h
  rw [happended, List.mem_append]
  cases c.transfOutOpen <;> simp

/-! ## Ending in turn -/

/-- The body is ended once, at the end of the output and behind all of it; and where the output has
ended a call that has the room ends the body, which there is when the client took what is in the
buffer. -/
structure EndsInTurn (c : TransfClient) : Prop where
  once : c.appended.count .last ≤ 1
  behind : .last ∈ c.appended → c.AtEof ∧ ∃ blocks : List (List UInt8),
    c.appended = blocks.map .chunk ++ [.last] ∧ blocks.flatten = c.output
  ends : c.AtEof → 5 ≤ c.space → .last ∈ (transfRead true (.bytes []) c).appended
  drains : c.AtEof → c.clientOpen = true → c.transfOutOpen = true →
    c.postResParseBuf.bytes ≠ [] → c.postResParseBuf.infLimit + 5 ≤ c.postResParseBuf.limit →
    ∃ c', PartialRun.run step c [.clientWrite (some c.postResParseBuf.bytes.length),
      .transfRead true (.bytes [])] = some c' ∧ .last ∈ c'.appended

/-- The step meets no room of 5 to 11 bytes in front of the end of the output. -/
def InTurn (c : TransfClient) : Event → Prop
  | .transfRead mallocs r =>
    (step c (.transfRead mallocs r)).isSome = true → 5 ≤ c.space →
      c.space ≤ MAX_CHUNK_SIZE_DIGITS + 4 → c.AtEof
  | _ => True

/-- A read that reports the end of the output ends the body where there is room. -/
theorem transfRead_ends {c : TransfClient} (hroom : 5 ≤ c.space) :
    .last ∈ (transfRead true (.bytes []) c).appended := by
  have hreads := transfRead_reads true (.bytes []) c
  generalize transfRead true (.bytes []) c = c' at hreads ⊢
  cases hreads with
  | full room | waits room => omega
  | fails room failed => exact absurd failed (by decide)
  | ends => exact List.mem_append_right _ List.mem_cons_self
  | chunk x l buf room got => cases got

/-- At the end of the output what is still buffered can be written. -/
theorem drains_of_atEof {c : TransfClient} (heof : c.AtEof) (hclient : c.clientOpen = true)
    (htransf : c.transfOutOpen = true) (hne : c.postResParseBuf.bytes ≠ [])
    (hroom : c.postResParseBuf.infLimit + 5 ≤ c.postResParseBuf.limit) :
    ∃ c', PartialRun.run step c [.clientWrite (some c.postResParseBuf.bytes.length),
      .transfRead true (.bytes [])] = some c' ∧ .last ∈ c'.appended := by
  have hcanRead : bufferCanRead c.postResParseBuf = true := by
    unfold bufferCanRead
    rw [List.isEmpty_eq_false_iff.mpr hne]
    rfl
  have hdrained : bufferReadAdv c.postResParseBuf c.postResParseBuf.bytes.length =
      { c.postResParseBuf with read := c.postResParseBuf.infLimit, bytes := [] } := by
    unfold bufferReadAdv bufferCompact
    simp only [Int.toNat_natCast, List.drop_length, List.isEmpty_nil, if_true]
    rw [if_pos (by omega)]
    split
    · next hread => rw [← hread]
    · rfl
  have hwrite : step c (.clientWrite (some c.postResParseBuf.bytes.length)) =
      some { c with
        postResParseBuf :=
          { c.postResParseBuf with read := c.postResParseBuf.infLimit, bytes := [] }
        reads := true } := by
    unfold step
    dsimp only
    rw [if_pos ⟨hclient, Nat.le_refl _⟩]
    unfold clientWrite
    rw [if_pos hcanRead]
    dsimp only
    rw [hdrained, htransf, if_pos rfl]
  rw [PartialRun.run_cons, hwrite, Option.bind_some, PartialRun.run_cons]
  unfold step
  dsimp only
  rw [if_pos ⟨hclient, htransf, rfl, heof⟩]
  refine ⟨_, rfl, transfRead_ends ?_⟩
  unfold space bufferWriteSpace Buffer.write
  dsimp only
  rw [List.length_nil]
  omega

/-- Where the descriptor was closed the output had ended. -/
def Closed (c : TransfClient) : Prop := c.transfOutOpen = false → c.AtEof

/-- A response that is closed ended in turn. -/
theorem endsInTurn_of_closed {c : TransfClient} (hkept : c.Kept) (hclosed : c.Closed) :
    c.EndsInTurn := by
  refine ⟨?_, fun hlast => ?_, fun _ => transfRead_ends, drains_of_atEof⟩
  · obtain ⟨blocks, happended, -⟩ := hkept
    have hchunks : (blocks.map Piece.chunk).count .last = 0 := by
      rw [List.count_eq_zero]
      intro hmem
      obtain ⟨block, -, hblock⟩ := List.mem_map.mp hmem
      cases hblock
    rw [happended, List.count_append, hchunks]
    cases c.transfOutOpen <;> decide
  · have hopen := (last_mem_iff hkept).mp hlast
    have heof := hclosed hopen
    obtain ⟨blocks, happended, houtput⟩ := hkept
    rw [hopen] at happended
    rw [heof.1, List.append_nil] at houtput
    exact ⟨heof, blocks, happended, houtput.symm⟩

/-- A response that is closed in turn stays closed. -/
theorem closed_step {c c' : TransfClient} {e : Event} (h : c.Closed) (hturn : c.InTurn e)
    (hstep : step c e = some c') : c'.Closed := by
  cases e with
  | prints l =>
    obtain ⟨hexited, hc⟩ := Option.ite_none_right_eq_some.mp hstep
    obtain rfl := Option.some.inj hc
    intro hclosed
    have heof := (h hclosed).2
    rw [hexited] at heof
    cases heof
  | exits =>
    obtain rfl := Option.some.inj hstep
    exact fun hclosed => ⟨(h hclosed).1, rfl⟩
  | transfRead mallocs r =>
    have hturn' := hturn (by rw [hstep]; rfl)
    obtain ⟨⟨-, hopen, -, hcan⟩, hc⟩ := Option.ite_none_right_eq_some.mp hstep
    have hreads := transfRead_reads mallocs r c
    rw [Option.some.inj hc] at hreads
    intro hclosed
    cases hreads with
    | full | waits | fails => exact h hclosed
    | ends buf room zero =>
      by_cases hroom : c.space ≤ MAX_CHUNK_SIZE_DIGITS + 4
      · exact hturn' room hroom
      · rw [zero.resolve_left hroom] at hcan
        exact hcan
    | chunk => exact absurd (hopen.symm.trans hclosed) (by decide)
  | clientWrite written =>
    obtain ⟨-, hc⟩ := Option.ite_none_right_eq_some.mp hstep
    obtain rfl := Option.some.inj hc
    unfold clientWrite
    split
    · cases written <;> exact h
    · split <;> exact h

/-- A step out of turn ends the body in front of the end of the output. -/
theorem out_of_turn {c : TransfClient} {e : Event} (h : ¬ c.InTurn e) :
    ∃ c', step c e = some c' ∧ .last ∈ c'.appended ∧ ¬ c'.AtEof := by
  cases e with
  | prints | exits | clientWrite => exact absurd trivial h
  | transfRead mallocs r =>
    unfold InTurn at h
    push Not at h
    obtain ⟨hstep, hroom, hroom', heof⟩ := h
    obtain ⟨c', hc'⟩ := Option.isSome_iff_exists.mp hstep
    obtain ⟨-, hc⟩ := Option.ite_none_right_eq_some.mp hc'
    have hreads := transfRead_reads mallocs r c
    rw [Option.some.inj hc] at hreads
    refine ⟨c', hc', ?_⟩
    cases hreads with
    | full room | waits room | fails room | chunk _ _ _ room => omega
    | ends => exact ⟨List.mem_append_right _ List.mem_cons_self, heof⟩

/-- In every state of a run the body is ended in turn, just when every step of it is in turn. -/
theorem endsInTurn_iff (buf : Buffer) (reads : Bool) (es : List Event) :
    (∀ pre, pre <+: es → ∀ c, PartialRun.run step (start buf reads) pre = some c → c.EndsInTurn) ↔
      PartialRun.Along step InTurn (start buf reads) es := by
  constructor
  · intro h
    refine PartialRun.along_of_prefixes fun pre e hpre c hc => ?_
    by_contra hturn
    obtain ⟨c', hstep, hlast, heof⟩ := out_of_turn hturn
    have hrun : PartialRun.run step (start buf reads) (pre ++ [e]) = some c' := by
      rw [PartialRun.run_append, hc, Option.bind_some, PartialRun.run_cons, hstep]
      rfl
    exact heof ((h (pre ++ [e]) hpre c' hrun).behind hlast).1
  · intro h pre hpre c hc
    have hclosed := (h.initial hpre).invariant (I := Closed) (fun _ _ _ => closed_step)
      (fun hclosed => absurd (hclosed : true = false) (by decide)) hc
    exact endsInTurn_of_closed (kept_run (kept_start buf reads) hc) hclosed

/-- Twenty bytes, of which the first chunk takes eleven: the rest of the output is lost. -/
theorem ended_in_front :
    ∃ c, PartialRun.run step (start (bufferInit 20) true)
        [.prints (lit "abcdef"), .transfRead true (.bytes (lit "abcdef")), .prints (lit "gh"),
          .transfRead true .error] = some c ∧
      c.appended = [.chunk (lit "abcdef"), .last] ∧ c.pipe = lit "gh" ∧ c.exited = false ∧
        ¬ c.EndsInTurn := by
  let c : TransfClient :=
    { postResParseBuf := bufferWriteAdv (bufferInit 20) (lit "6\r\nabcdef\r\n0\r\n\r\n")
      transfOutOpen := false
      reads := true
      pipe := lit "gh"
      output := lit "abcdefgh"
      appended := [.chunk (lit "abcdef"), .last] }
  refine ⟨c, by decide +kernel, rfl, rfl, rfl, fun h => ?_⟩
  have heof := (h.behind (List.mem_cons_of_mem _ List.mem_cons_self)).1
  exact absurd heof.2 Bool.false_ne_true

end TransfClient

end HttpProxy
