import Mathlib.Data.List.Basic
import HttpProxy.BufferDeque
import HttpProxy.Config
import HttpProxy.Logger

/-!
# The lines of the log

The other half of `logger.c`: `log_write` passes the buffer on through a pipe, and `log_thread` takes
the bytes from the pipe one by one into a cache of 2048 bytes, until it finds the zero that ends a
message. It gives up the cache one byte early, at 2046, so a message of up to 2045 bytes is one line.

Messages, handler and thread take turns in any order. In every state of every run the lines that were
logged, and then the messages whose bytes are still on their way, are the messages in the order they
came (`logged_in_order`): none is lost, cut in two, joined with another or logged twice.
-/

namespace HttpProxy

/-! ## The thread -/

/-- What `log_thread` keeps between two bytes, and the lines it passed to `syslog`. -/
structure LogThread where
  cache : Vector UInt8 2048
  position : Nat
  lines : List (List UInt8)
  position_lt : position < 2046

namespace LogThread

/-- The thread when it starts; nothing is stored in `cache` yet. -/
def start (cache : Vector UInt8 2048) : LogThread := ⟨cache, 0, [], by decide⟩

/-- `log_thread` when `read` gives it a byte. -/
def take (t : LogThread) (c : UInt8) : LogThread :=
  have hlt := t.position_lt
  let cache := t.cache.set t.position c (by omega)
  if h : t.position + 1 < 2046 ∧ c = 0 ∨ t.position + 1 = 2046 then
    ⟨.replicate 2048 0, 0, t.lines ++ [stringAt cache.toList], by decide⟩
  else ⟨cache, t.position + 1, t.lines, by omega⟩

/-- The bytes of a line that has not ended. -/
def held (t : LogThread) : List UInt8 := t.cache.toList.take t.position

theorem length_held (t : LogThread) : t.held.length = t.position := by
  have hlt := t.position_lt
  rw [held, List.length_take, Vector.length_toList]
  omega

variable {t : LogThread}

/-- A byte that is stored stands behind the line that is held. -/
theorem toList_set (t : LogThread) (c : UInt8) (h : t.position < 2048) :
    (t.cache.set t.position c h).toList = t.held ++ c :: t.cache.toList.drop (t.position + 1) := by
  rw [Vector.toList_set, List.set_eq_take_append_cons_drop, if_pos (by rwa [Vector.length_toList])]
  rfl

/-- The zero that ends a line. -/
theorem take_zero (hheld : 0 ∉ t.held) :
    (t.take 0).lines = t.lines ++ [t.held] ∧ (t.take 0).held = [] := by
  have hlt := t.position_lt
  have hends : t.position + 1 < 2046 ∧ (0 : UInt8) = 0 ∨ t.position + 1 = 2046 := by
    rcases Nat.lt_or_ge (t.position + 1) 2046 with hfits | hfull
    · exact .inl ⟨hfits, rfl⟩
    · exact .inr (by omega)
  have hline : stringAt (t.cache.set t.position 0 (by omega)).toList = t.held := by
    rw [toList_set, stringAt, List.takeWhile_append_of_pos, List.takeWhile_cons_of_neg (by decide),
      List.append_nil]
    intro c hc
    exact bne_iff_ne.mpr fun h0 => hheld (h0 ▸ hc)
  unfold take
  rw [dif_pos hends]
  exact ⟨congrArg (fun line => t.lines ++ [line]) hline, rfl⟩

/-- Any other byte, of a line for which there is room. -/
theorem take_nonzero {c : UInt8} (hc : c ≠ 0) (hroom : t.held.length < 2045) :
    (t.take c).lines = t.lines ∧ (t.take c).held = t.held ++ [c] := by
  rw [length_held] at hroom
  have hgoes : ¬(t.position + 1 < 2046 ∧ c = 0 ∨ t.position + 1 = 2046) := by
    rintro (⟨-, h0⟩ | hfull)
    · exact hc h0
    · omega
  unfold take
  rw [dif_neg hgoes]
  refine ⟨rfl, ?_⟩
  change (t.cache.set t.position c (by omega)).toList.take (t.position + 1) = _
  have hsplit : t.held ++ c :: t.cache.toList.drop (t.position + 1) =
      (t.held ++ [c]) ++ t.cache.toList.drop (t.position + 1) :=
    (List.append_assoc t.held [c] _).symm
  rw [toList_set, hsplit]
  exact List.take_left' (by rw [List.length_append, length_held, List.length_singleton])

end LogThread

/-! ## Messages and their bytes -/

/-- What is logged of `s` when there is room for `n` bytes with the zero. -/
def keptText (n : Nat) (s : List UInt8) : List UInt8 := if s.length + 1 ≤ n then s else s.take (n - 1)

/-- What `log_send` writes is what it keeps of the message, and a zero. -/
theorem loggedText_eq {n : Nat} (h : n ≠ 0) (s : List UInt8) : loggedText n s = keptText n s ++ [0] := by
  unfold loggedText keptText
  rw [if_neg h]
  split <;> rfl

/-- What is kept of a message is from it. -/
theorem subset_keptText (n : Nat) (s : List UInt8) : keptText n s ⊆ s := by
  unfold keptText
  split
  · exact List.Subset.refl s
  · exact List.take_subset ..

/-- A message that the thread keeps in one line. -/
def IsLine (s : List UInt8) : Prop := 0 ∉ s ∧ s.length ≤ 2045

/-- The messages, each with its zero. -/
def encodeLines (ls : List (List UInt8)) : List UInt8 := ls.flatMap (· ++ [0])

theorem encodeLines_cons (x : List UInt8) (ls : List (List UInt8)) :
    encodeLines (x :: ls) = x ++ 0 :: encodeLines ls := by
  unfold encodeLines
  rw [List.flatMap_cons, List.append_assoc]
  rfl

/-- Messages encoded one after the other are encoded at once. -/
theorem encodeLines_append (ls ls' : List (List UInt8)) :
    encodeLines (ls ++ ls') = encodeLines ls ++ encodeLines ls' :=
  List.flatMap_append

/-- The lines behind `t.lines` are those of `pending`, whose bytes are those held and those of
`rest`. -/
structure LogThread.Awaits (t : LogThread) (rest : List UInt8) (pending : List (List UInt8)) : Prop where
  areLines : ∀ x ∈ pending, IsLine x
  unended : 0 ∉ t.held
  bytes : encodeLines pending = t.held ++ rest

namespace LogThread.Awaits

variable {t : LogThread} {rest : List UInt8} {pending lines : List (List UInt8)} {c : UInt8}

/-- Lines that are appended to what the thread has still to read are awaited behind the others. -/
theorem append (h : t.Awaits rest pending) (hlines : ∀ x ∈ lines, IsLine x) :
    t.Awaits (rest ++ encodeLines lines) (pending ++ lines) where
  areLines x hx := (List.mem_append.mp hx).elim (h.areLines x) (hlines x)
  unended := h.unended
  bytes := by rw [encodeLines_append, h.bytes, List.append_assoc]

/-- The byte behind what is held is the zero of the first line, or stands in that line. -/
theorem first {x held bytes : List UInt8} (hx : 0 ∉ x) (hheld : 0 ∉ held)
    (h : x ++ 0 :: bytes = held ++ c :: rest) :
    c = 0 ∧ x = held ∧ bytes = rest ∨ c ≠ 0 ∧ ∃ y, x = held ++ c :: y := by
  rcases List.append_eq_append_iff.mp h with ⟨as, hsplit, hrest⟩ | ⟨as, hsplit, hrest⟩
  · cases as with
    | nil =>
      obtain ⟨hc, hbytes⟩ := List.cons.inj hrest
      exact .inl ⟨hc.symm, by rw [hsplit, List.append_nil], hbytes⟩
    | cons a as =>
      obtain ⟨rfl, -⟩ := List.cons.inj hrest
      exact absurd (hsplit ▸ List.mem_append_right x List.mem_cons_self) hheld
  · cases as with
    | nil =>
      obtain ⟨hc, hbytes⟩ := List.cons.inj hrest
      exact .inl ⟨hc, by rw [hsplit, List.append_nil], hbytes.symm⟩
    | cons a as =>
      obtain ⟨rfl, -⟩ := List.cons.inj hrest
      refine .inr ⟨?_, as, hsplit⟩
      rintro rfl
      exact hx (hsplit ▸ List.mem_append_right held List.mem_cons_self)

/-- No line is held with its zero. -/
theorem eq_nil (h : t.Awaits [] pending) : pending = [] := by
  cases pending with
  | nil => rfl
  | cons x pending =>
    have hbytes := h.bytes
    rw [encodeLines_cons, List.append_nil] at hbytes
    exact absurd (hbytes ▸ List.mem_append_right x List.mem_cons_self) h.unended

/-- A byte goes from the pipe to the cache, or ends a line. -/
theorem take (h : t.Awaits (c :: rest) pending) :
    ∃ pending', t.lines ++ pending = (t.take c).lines ++ pending' ∧ (t.take c).Awaits rest pending' := by
  have hbytes := h.bytes
  cases pending with
  | nil => exact absurd hbytes.symm (List.append_ne_nil_of_right_ne_nil _ (List.cons_ne_nil _ _))
  | cons x pending =>
    obtain ⟨hx, hlen⟩ := h.areLines x List.mem_cons_self
    rw [encodeLines_cons] at hbytes
    rcases first hx h.unended hbytes with ⟨rfl, rfl, hrest⟩ | ⟨hc, y, rfl⟩
    · obtain ⟨hlines, hheld⟩ := take_zero h.unended
      refine ⟨pending, ?_, fun y hy => h.areLines y (List.mem_cons_of_mem _ hy), ?_, ?_⟩
      · rw [hlines, List.append_assoc]
        rfl
      · rw [hheld]
        exact List.not_mem_nil
      · rw [hheld]
        exact hrest
    · have hroom : t.held.length < 2045 := by
        rw [List.length_append, List.length_cons] at hlen
        omega
      obtain ⟨hlines, hheld⟩ := take_nonzero hc hroom
      refine ⟨(t.held ++ c :: y) :: pending, by rw [hlines], h.areLines, ?_, ?_⟩
      · rw [hheld, List.mem_append, List.mem_singleton]
        rintro (h0 | h0)
        · exact h.unended h0
        · exact hc h0.symm
      · rw [hheld, encodeLines_cons, hbytes, List.append_assoc]
        rfl

end LogThread.Awaits

/-! ## Turns of the three -/

/-- `struct log`, the pipe and the thread that reads it. -/
structure LogPipe where
  logbuf : RawBuffer
  pipe : List UInt8
  thread : LogThread

/-- A message or the handler, with what `write` returns, or the thread, for which `read` returns a byte
if there is one. -/
inductive LogTurn
  | log (ev : LogEvent)
  | take

/-- What happens to the buffer. -/
def logEvents (turns : List LogTurn) : List LogEvent :=
  turns.filterMap fun
    | .log ev => some ev
    | .take => none

namespace LogPipe

def start (data : Nat) (mem : Nat → UInt8) (cache : Vector UInt8 2048) : LogPipe :=
  ⟨.logStart data mem, [], .start cache⟩

def turn (l : LogPipe) : LogTurn → LogPipe
  | .log (.send s) => { l with logbuf := (l.logbuf.logSend s).b }
  | .log (.write written) =>
    { l with
      logbuf := l.logbuf.logWrite written
      pipe := l.pipe ++ l.logbuf.readable.take written.toNat }
  | .take =>
    match l.pipe with
    | [] => l
    | c :: rest => { l with pipe := rest, thread := l.thread.take c }

def run (l : LogPipe) (turns : List LogTurn) : LogPipe := turns.foldl turn l

/-- The bytes between `log_send` and the thread. -/
def underWay (l : LogPipe) : List UInt8 := l.pipe ++ l.logbuf.readable

end LogPipe

namespace RawBuffer

variable {b : RawBuffer}

/-- There is room for the message, and what is kept of it is a line. -/
def KeepsLine (b : RawBuffer) (s : List UInt8) : Prop := b.LogFits s ∧ (keptText b.space s).length ≤ 2045

instance (b : RawBuffer) (s : List UInt8) : Decidable (b.KeepsLine s) :=
  inferInstanceAs (Decidable (_ ∧ _))

/-- What is kept of the messages of a run. -/
def keptTexts : RawBuffer → List LogEvent → List (List UInt8)
  | _, [] => []
  | b, .send s :: evs => keptText b.space s :: keptTexts (b.logSend s).b evs
  | b, .write n :: evs => keptTexts (b.logWrite n) evs

/-- A write takes from the front of the buffer, and `log_write` leaves the rest. -/
theorem readable_logWrite (h : b.Ordered) {n : Int} (hn : n ≤ (b.write - b.read : Nat)) :
    b.readable.take n.toNat ++ (b.logWrite n).readable = b.readable := by
  unfold logWrite
  split
  · have hdrop : (b.readAdv n).readable = b.readable.drop n.toNat :=
      (congrArg Buffer.bytes (toBuffer_readAdv h hn)).trans (Buffer.bytes_readAdv b.toBuffer n)
    rw [hdrop, List.take_append_drop]
  · next hcan =>
    have hempty : b.readable = [] := by
      have hread := h.read_le
      have hwrite : ¬b.read < b.write := fun hlt => hcan (decide_eq_true hlt)
      exact (readable_eq_nil h).mpr (by omega)
    rw [hempty, List.take_nil, List.nil_append]

end RawBuffer

namespace LogPipe

variable {l : LogPipe} {sent : List (List UInt8)}

/-- The messages sent are the lines logged and those on their way, in the order they came. -/
structure InOrder (l : LogPipe) (sent : List (List UInt8)) : Prop where
  ordered : l.logbuf.Ordered
  sent : ∃ pending, sent = l.thread.lines ++ pending ∧ l.thread.Awaits l.underWay pending

/-- Sending a message puts it behind those that were sent. -/
theorem InOrder.send (h : l.InOrder sent) {s : List UInt8} (hs : 0 ∉ s) (hlen : s.length ≤ 2047)
    (hkeeps : l.logbuf.KeepsLine s) :
    (l.turn (.log (.send s))).InOrder (sent ++ [keptText l.logbuf.space s]) := by
  obtain ⟨pending, rfl, hawaits⟩ := h.sent
  have hwithin := (RawBuffer.logsWithin_iff h.ordered hlen).mpr hkeeps.1
  have hline : ∀ x ∈ [keptText l.logbuf.space s], IsLine x := by
    intro x hx
    obtain rfl := List.mem_singleton.mp hx
    exact ⟨fun h0 => hs (subset_keptText _ _ h0), hkeeps.2⟩
  refine ⟨hwithin.ordered, pending ++ [keptText l.logbuf.space s], List.append_assoc .., ?_⟩
  have hway : (l.turn (.log (.send s))).underWay =
      l.underWay ++ encodeLines [keptText l.logbuf.space s] := by
    change l.pipe ++ (l.logbuf.logSend s).b.readable = _
    rw [hwithin.appended, loggedText_eq hkeeps.1.1, encodeLines_cons]
    exact (List.append_assoc ..).symm
  rw [hway]
  exact hawaits.append hline

/-- Writing into the pipe moves bytes from the buffer's front to the pipe's end. -/
theorem InOrder.write (h : l.InOrder sent) {n : Int} (hn : n ≤ (l.logbuf.write - l.logbuf.read : Nat)) :
    (l.turn (.log (.write n))).InOrder sent := by
  obtain ⟨pending, hsent, hawaits⟩ := h.sent
  refine ⟨RawBuffer.ordered_logWrite h.ordered hn, pending, hsent, ?_⟩
  have hway : (l.turn (.log (.write n))).underWay = l.underWay := by
    change (l.pipe ++ l.logbuf.readable.take n.toNat) ++ (l.logbuf.logWrite n).readable = _
    rw [List.append_assoc, RawBuffer.readable_logWrite h.ordered hn]
    rfl
  rw [hway]
  exact hawaits

/-- The thread does not touch the buffer. -/
theorem logbuf_take (l : LogPipe) : (l.turn .take).logbuf = l.logbuf := by
  unfold turn
  dsimp only
  split <;> rfl

/-- A byte that the thread takes leaves the pipe's front, and may end a line. -/
theorem InOrder.take (h : l.InOrder sent) : (l.turn .take).InOrder sent := by
  unfold turn
  dsimp only
  split
  · exact h
  · next c rest hpipe =>
    obtain ⟨pending, hsent, hawaits⟩ := h.sent
    unfold underWay at hawaits
    rw [hpipe] at hawaits
    obtain ⟨pending', hlines, hawaits'⟩ := hawaits.take
    exact ⟨h.ordered, pending', hsent.trans hlines, hawaits'⟩

/-- In every run the messages stay in order. The induction is on the turns. -/
theorem InOrder.run {turns : List LogTurn} (h : l.InOrder sent) (hf : l.logbuf.Feasible (logEvents turns))
    (hkeeps : l.logbuf.Along RawBuffer.KeepsLine (logEvents turns)) :
    (l.run turns).InOrder (sent ++ l.logbuf.keptTexts (logEvents turns)) := by
  induction turns generalizing l sent with
  | nil => exact (List.append_nil sent).symm ▸ h
  | cons turn turns ih =>
    match turn with
    | .log (.send s) =>
      obtain ⟨⟨hs, hlen⟩, hf⟩ := hf
      obtain ⟨hkeep, hkeeps⟩ := hkeeps
      have hsend := h.send hs hlen hkeep
      have hrun := ih hsend (hf hsend.ordered.write_le) (hkeeps hsend.ordered.write_le)
      rwa [List.append_assoc] at hrun
    | .log (.write n) => exact ih (h.write hf.1.2) hf.2 hkeeps
    | .take =>
      have hrun := ih h.take
      rw [logbuf_take] at hrun
      exact hrun hf hkeeps

/-- At the start nothing was sent. -/
theorem inOrder_start (data : Nat) (mem : Nat → UInt8) (cache : Vector UInt8 2048) :
    (start data mem cache).InOrder [] := by
  have hordered := RawBuffer.ordered_logStart data mem
  have hempty : (RawBuffer.logStart data mem).readable = [] := (RawBuffer.readable_eq_nil hordered).mpr rfl
  refine ⟨hordered, [], rfl, fun _ hx => absurd hx List.not_mem_nil, List.not_mem_nil, ?_⟩
  change [] = [] ++ ([] ++ (RawBuffer.logStart data mem).readable)
  rw [hempty]
  rfl

/-- In every state of a run the lines logged, and then those whose bytes are held, in the pipe or in the
buffer, are what was kept of the messages; when nothing is on its way, all of it was logged. -/
theorem logged_in_order (data : Nat) (mem : Nat → UInt8) (cache : Vector UInt8 2048) {turns : List LogTurn}
    (hf : (RawBuffer.logStart data mem).Feasible (logEvents turns))
    (hkeeps : (RawBuffer.logStart data mem).Along RawBuffer.KeepsLine (logEvents turns)) :
    (∃ pending, ((start data mem cache).run turns).thread.lines ++ pending =
        (RawBuffer.logStart data mem).keptTexts (logEvents turns) ∧
      encodeLines pending = ((start data mem cache).run turns).thread.held ++
        ((start data mem cache).run turns).underWay) ∧
      (((start data mem cache).run turns).underWay = [] →
        ((start data mem cache).run turns).thread.lines =
          (RawBuffer.logStart data mem).keptTexts (logEvents turns)) := by
  obtain ⟨pending, hsent, hawaits⟩ := ((inOrder_start data mem cache).run hf hkeeps).sent
  rw [List.nil_append] at hsent
  refine ⟨⟨pending, hsent.symm, hawaits.bytes⟩, fun hempty => ?_⟩
  rw [hempty] at hawaits
  rw [hawaits.eq_nil, List.append_nil] at hsent
  exact hsent.symm

/-- Two messages, of which the thread has read one and the first byte of the other. -/
def twoMessages : List LogTurn :=
  [.log (.send (lit "GET")), .log (.write 2), .take, .log (.send (lit "200")), .log (.write (-1)), .take,
    .log (.write 4), .take, .take, .take]

theorem logged_in_order_two :
    let l := (start 0 (fun _ => 0) (.replicate 2048 0x61)).run twoMessages
    (∃ pending, l.thread.lines ++ pending = [lit "GET", lit "200"] ∧
        encodeLines pending = l.thread.held ++ l.underWay) ∧
      l.thread.lines = [lit "GET"] ∧ l.underWay = lit "00" ++ [0] := by
  have hf : (RawBuffer.logStart 0 fun _ => 0).Feasible (logEvents twoMessages) :=
    ⟨⟨by decide, by decide⟩, fun _ => ⟨by decide, ⟨⟨by decide, by decide⟩, fun _ => ⟨by decide, ⟨by decide,
      trivial⟩⟩⟩⟩⟩
  have hkeeps : (RawBuffer.logStart 0 fun _ => 0).Along RawBuffer.KeepsLine (logEvents twoMessages) :=
    ⟨by decide, fun _ => ⟨by decide, fun _ => trivial⟩⟩
  obtain ⟨⟨pending, hsent, hbytes⟩, -⟩ := logged_in_order 0 (fun _ => 0) (.replicate 2048 0x61) hf hkeeps
  exact ⟨⟨pending, hsent, hbytes⟩, by decide +kernel, by decide +kernel⟩

end LogPipe

end HttpProxy
