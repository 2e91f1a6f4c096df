import HttpProxy.Ownership
import HttpProxy.Transfers

/-!
# Ways through the proxy

The request of a client goes from it to its origin, the response from there to it. On each way (`Path`)
what is read goes through a buffer and a parser into a queue, and from there to the other peer.

`Path.Relays` relates what came out at the end, with what is in the queue, to what was read. All that
other handlers do keeps it (`Path.frame_relays`); what is left for a way is its own parser.
-/

namespace HttpProxy

/-! ## Room in a queue -/

namespace Proxy

/-- All of `l` can be written. -/
def Fits (b : Buffer) (l : List UInt8) : Prop := l.length ≤ bufferWriteSpace b

instance (b : Buffer) (l : List UInt8) : Decidable (Fits b l) := inferInstanceAs (Decidable (_ ≤ _))

/-- `B` holds of nothing, and still holds when `l` is written to a buffer with the room for it. -/
structure Tolerates (room : Buffer → List UInt8 → Prop) (B : List UInt8 → List UInt8 → Prop) : Prop where
  nil : B [] []
  write : ∀ post l a b, room post l → B a b → B (a ++ l.take (bufferWriteSpace post)) (b ++ l)

/-- What was read fits behind what is in the buffer. -/
theorem room_of_sysRead {s : Proxy} {fd : Int} {r : Option (List UInt8)} {b : Buffer} {bytes : List UInt8}
    (hcan : bufferCanWrite b = true) (h : s.sysRead fd r (bufferWriteSpace b) = some bytes) :
    b.write + bytes.length ≤ b.limit := by
  have hwrite : b.write < b.limit := of_decide_eq_true hcan
  have hlen : bytes.length ≤ bufferWriteSpace b := by
    unfold sysRead at h
    split at h
    · obtain ⟨l, -, rfl⟩ := Option.map_eq_some_iff.mp h
      exact List.length_take_le _ _
    · cases h
  unfold bufferWriteSpace at hlen
  omega

/-- Bytes for which there is room are queued as they are. -/
theorem tolerates_eq : Tolerates Fits Eq where
  nil := rfl
  write post l a b hroom hab := by rw [List.take_of_length_le hroom, hab]

/-- Without a promise of room the queue gets some of the bytes, in order. -/
theorem tolerates_sublist : Tolerates (fun _ _ => True) List.Sublist where
  nil := .refl []
  write _ l _ _ _ hab := hab.append (List.take_sublist _ l)

/-- The proxy of `main` with less room in the buffers. -/
def smallBuffers : Proxy :=
  initial (configCreate (cLit "buffers_size") (cLit "300") mainConfigurations).2 [3, 4, 5] [0, 1, 2, 6]

end Proxy

/-! ## Ways -/

/-- The way of a client's bytes from one of its peers to the other. -/
structure Path (α : Type) where
  client : ClientId
  input : Action → List UInt8
  output : Action → List UInt8
  /-- The parser with the buffer in front of it. -/
  parser : Client → α
  queue : Client → Buffer
  quiet : ∀ a, ¬a.Moves → input a = [] ∧ output a = []
  idle : ∀ c c', Client.Idle c c' → parser c' = parser c ∧ queue c' = queue c

namespace Path

open Proxy

variable {α : Type} (p : Path α) {s s' : Proxy} {j : ClientId} {f : Client → Client} {a : Action}

/-- What was read. -/
def read (s : Proxy) : List UInt8 := bytesOf p.input s.trace

/-- What was written. -/
def written (s : Proxy) : List UInt8 := bytesOf p.output s.trace

/-- What was written, and behind it what is queued. -/
def stream (s : Proxy) : List UInt8 := s.stream p.output p.queue p.client

/-- A step that is about nothing on this path. -/
structure Still (s s' : Proxy) : Prop where
  made : s'.made = s.made
  status : s'.status = .running → s.status = .running
  read : p.read s' = p.read s
  written : p.written s' = p.written s
  parser : p.parser (s'.clients p.client) = p.parser (s.clients p.client)
  queue : p.queue (s'.clients p.client) = p.queue (s.clients p.client)

/-- A step that leaves the parser and its input alone, and writes at most what was queued. -/
structure Same (s s' : Proxy) : Prop where
  made : s'.made = s.made
  status : s'.status = .running → s.status = .running
  read : p.read s' = p.read s
  absent : s.made ≤ p.client → p.written s' = p.written s
  parser : p.parser (s'.clients p.client) = p.parser (s.clients p.client)
  stream : p.stream s' = p.stream s

variable {p}

/-- An action adds its bytes to what was read. -/
theorem read_act (s : Proxy) (a : Action) : p.read (s.act a) = p.read s ++ p.input a :=
  bytesOf_cons _ _ _

/-- An action adds its bytes to what was written. -/
theorem written_act (s : Proxy) (a : Action) : p.written (s.act a) = p.written s ++ p.output a :=
  bytesOf_cons _ _ _

namespace Still

theorem refl (s : Proxy) : p.Still s s := ⟨rfl, id, rfl, rfl, rfl, rfl⟩

theorem trans {s'' : Proxy} (h : p.Still s s') (h' : p.Still s' s'') : p.Still s s'' where
  made := h'.made.trans h.made
  status hrun := h.status (h'.status hrun)
  read := h'.read.trans h.read
  written := h'.written.trans h.written
  parser := h'.parser.trans h.parser
  queue := h'.queue.trans h.queue

/-- An action that moves none of the path's bytes. -/
theorem act (s : Proxy) (hinput : p.input a = []) (houtput : p.output a = []) :
    p.Still s (s.act a) where
  made := rfl
  status := id
  read := by rw [read_act, hinput, List.append_nil]
  written := by rw [written_act, houtput, List.append_nil]
  parser := rfl
  queue := rfl

/-- What leaves everything leaves what the relation looks at. -/
theorem same (h : p.Still s s') : p.Same s s' where
  made := h.made
  status := h.status
  read := h.read
  absent _ := h.written
  parser := h.parser
  stream := congrArg₂ (· ++ ·) h.written (congrArg Buffer.bytes h.queue)

end Still

/-- Only another client changes, or what is neither the parser nor the queue. -/
theorem client_modify {β : Type*} {g : Client → β}
    (h : p.client = j → g (f (s.clients j)) = g (s.clients j)) :
    g ((s.modify j f).clients p.client) = g (s.clients p.client) := by
  have hclients : (s.modify j f).clients = Function.update s.clients j (f (s.clients j)) := rfl
  rw [hclients]
  by_cases hj : p.client = j
  · rw [hj, Function.update_self]
    exact h hj
  · rw [Function.update_of_ne hj]

/-- A change of a client that leaves the path's parser and queue. -/
theorem Still.modify (hparser : p.client = j → p.parser (f (s.clients j)) = p.parser (s.clients j))
    (hqueue : p.client = j → p.queue (f (s.clients j)) = p.queue (s.clients j)) :
    p.Still s (s.modify j f) :=
  ⟨rfl, id, rfl, rfl, client_modify hparser, client_modify hqueue⟩

variable (p) in
/-- What goes on beside the requests and the responses is still on the path. -/
theorem frame_still : Frame p.Still where
  refl := Still.refl
  trans _ _ _ := Still.trans
  act s a ha := .act s (p.quiet a ha).1 (p.quiet a ha).2
  modify _ _ _ h := .modify (fun _ => (p.idle _ _ h).1) fun _ => (p.idle _ _ h).2
  frame _ _ hclients htrace hmade _ hstatus := by
    constructor
    case made => exact hmade
    case status => exact hstatus
    case read => unfold Path.read; rw [htrace]
    case written => unfold Path.written; rw [htrace]
    all_goals rw [hclients]

/-- What is written to a peer is the front of its queue, if it is this path's queue at all. -/
theorem same_write (s : Proxy) (n : Nat) (hused : p.input (.used j) = [] ∧ p.output (.used j) = [])
    (hinput : p.input a = []) (houtput : p.output a = [] ∨ p.client = j ∧ p.client < s.made)
    (hparser : p.client = j → p.parser (f (s.clients j)) = p.parser (s.clients j))
    (hqueue : p.client = j →
      p.output a ++ (p.queue (f (s.clients j))).bytes = (p.queue (s.clients j)).bytes) :
    p.Same s (((s.count n).onBuffers j f).act a) where
  made := rfl
  status := id
  read := by
    rw [read_act, hinput, List.append_nil]
    exact (read_act (s.count n) (.used j)).trans (by rw [hused.1, List.append_nil]; rfl)
  absent hle := by
    have hnil : p.output a = [] := houtput.resolve_right fun h => absurd h.2 (Nat.not_lt.mpr hle)
    rw [written_act, hnil, List.append_nil]
    exact (written_act (s.count n) (.used j)).trans (by rw [hused.2, List.append_nil]; rfl)
  parser := client_modify (s := (s.count n).use j) hparser
  stream := stream_write s n hused.2 (fun hj => houtput.resolve_right fun h => hj h.1) hqueue

/-! ## What holds on the way -/

/-- What was written and is queued is to what was read as `B` says, and the parser is ready for
more. -/
structure Relays (p : Path α) (B : List UInt8 → List UInt8 → Prop) (Ready : List UInt8 → α → Prop)
    (s : Proxy) : Prop where
  absent : s.made ≤ p.client → p.read s = [] ∧ p.written s = []
  ready : p.client < s.made → s.status = .running → Ready (p.read s) (p.parser (s.clients p.client))
  stream : p.client < s.made → B (p.stream s) (p.read s)

variable {B : List UInt8 → List UInt8 → Prop} {Ready : List UInt8 → α → Prop}

/-- The relation is read off what it looks at. -/
theorem Relays.same (h : p.Relays B Ready s) (hs : p.Same s s') : p.Relays B Ready s' where
  absent hle := by
    have hle' := hs.made ▸ hle
    rw [hs.read, hs.absent hle']
    exact h.absent hle'
  ready hlt hrun := by
    rw [hs.read, hs.parser]
    exact h.ready (hs.made ▸ hlt) (hs.status hrun)
  stream hlt := by
    rw [hs.stream, hs.read]
    exact h.stream (hs.made ▸ hlt)

variable (p B Ready)

/-- The relation is kept by what goes on beside the requests and the responses. -/
theorem frame_relays : Frame fun s s' => p.Relays B Ready s → p.Relays B Ready s' where
  refl _ := id
  trans _ _ _ h h' := h' ∘ h
  act s a ha hs := hs.same (p.frame_still.act s a ha).same
  modify s j f h hs := hs.same (p.frame_still.modify s j f h).same
  frame s s' hclients htrace hmade hmetrics hstatus hs :=
    hs.same (p.frame_still.frame s s' hclients htrace hmade hmetrics hstatus).same

variable {p B Ready}

/-- `w` was read, and `l` written to the queue as far as there was room. -/
theorem Relays.moves (h : p.Relays B Ready s) (hlt : p.client < s.made) {w l : List UInt8}
    (hmade : s'.made = s.made) (hread : p.read s' = p.read s ++ w) (hwritten : p.written s' = p.written s)
    (hqueue : p.queue (s'.clients p.client) = bufferWriteAll (p.queue (s.clients p.client)) l)
    (hB : B (p.stream s) (p.read s) →
      B (p.stream s ++ l.take (bufferWriteSpace (p.queue (s.clients p.client)))) (p.read s ++ w))
    (hready : s'.status = .running → Ready (p.read s ++ w) (p.parser (s'.clients p.client))) :
    p.Relays B Ready s' where
  absent hle := absurd hlt (Nat.not_lt.mpr (hmade ▸ hle))
  ready _ hrun := hread ▸ hready hrun
  stream _ := by
    have hstream : p.stream s' =
        p.stream s ++ l.take (bufferWriteSpace (p.queue (s.clients p.client))) := by
      change p.written s' ++ (p.queue (s'.clients p.client)).bytes = p.written s ++ _ ++ _
      rw [hwritten, hqueue, Buffer.writeAll_eq, List.append_assoc]
      rfl
    rw [hstream, hread]
    exact hB (h.stream hlt)

/-- A client that was just made. -/
theorem Relays.new (h : p.Relays B Ready s) {c : Client} (hnil : B [] []) (hready : Ready [] (p.parser c))
    (hqueue : (p.queue c).bytes = []) :
    p.Relays B Ready ({ s with made := s.made + 1 }.modify s.made fun _ => c) := by
  have hclients : ({ s with made := s.made + 1 }.modify s.made fun _ => c).clients =
      Function.update s.clients s.made c := rfl
  by_cases hi : p.client = s.made
  · obtain ⟨hread, hwritten⟩ := h.absent hi.ge
    refine ⟨fun hle => absurd (hi ▸ hle) (Nat.not_succ_le_self _), fun _ _ => ?_, fun _ => ?_⟩
    · change Ready (p.read s) _
      rw [hread, hclients, hi, Function.update_self]
      exact hready
    · change B (p.written s ++ _) (p.read s)
      rw [hread, hwritten, hclients, hi, Function.update_self, hqueue]
      exact hnil
  · have hlt (hmade : p.client < s.made + 1) : p.client < s.made :=
      lt_of_le_of_ne (Nat.le_of_lt_succ hmade) hi
    refine ⟨fun hle => h.absent (Nat.le_of_succ_le hle), fun hmade hrun => ?_, fun hmade => ?_⟩
    · rw [hclients, Function.update_of_ne hi]
      exact h.ready (hlt hmade) hrun
    · unfold Path.stream Proxy.stream
      rw [hclients, Function.update_of_ne hi]
      exact h.stream (hlt hmade)

/-- At the start nothing was read. -/
theorem Relays.initial (conf : Config) (registered others : List Int) :
    p.Relays B Ready (initial conf registered others) where
  absent _ := ⟨rfl, rfl⟩
  ready hlt := absurd hlt (Nat.not_lt_zero _)
  stream hlt := absurd hlt (Nat.not_lt_zero _)

/-- What every call keeps holds after every run of the proxy. -/
theorem Relays.run {P : Proxy → Call → Prop}
    (hcall : ∀ s c, p.Relays B Ready s → s.status = .running → Slots s → s.Registered c → P s c →
      p.Relays B Ready (s.call c))
    (hs : Started s) {es : List Event} (hes : Always P s es) : p.Relays B Ready (s.run es) := by
  have hslots := hs.slots
  have hkept := (Slots.preserved.mono (Q := P) fun _ _ _ => trivial).and
    ((p.frame_relays B Ready).preserved (fun h => h)
      fun s c hs hrun hreg hP => hcall s c hs hrun hP.2 hreg hP.1)
  obtain ⟨conf, registered, others, -, rfl⟩ := hs
  exact (hkept.run ⟨hslots, .initial conf registered others⟩ hes).2

end Path

end HttpProxy
