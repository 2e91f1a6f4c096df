import HttpProxy.AdminAnswers

/-!
# Whom the administration answers

The server has one socket for all administrators. `admin_read_handler` keeps the address of the one it
received from in the structure `main` registers the socket with, and `admin_write_handler` sends the
next message of the queue to the address that is there by then.

`delivered_run`: the replies go to those who asked for them in every run in which no other
administrator is heard while there are replies in the queue.
-/

namespace HttpProxy

variable {Peer : Type*}

/-- The server, the `addr` of its `addr_data`, and what is known of a run: who asked for each of the
messages made so far, and what was sent where. -/
structure AdminServer (Peer : Type*) where
  admin : Admin
  addr : Option Peer := none
  owners : List Peer := []
  sent : List (Option Peer × List UInt8) := []

inductive PeerEvent (Peer : Type*)
  /-- `admin_read_handler` receives a datagram of the administrator, in the process as it then is. -/
  | read (env : AdminEnv) (peer : Peer) (datagram : List UInt8)
  /-- `admin_write_handler` is called. -/
  | write

namespace AdminServer

def read (env : AdminEnv) (peer : Peer) (datagram : List UInt8) (s : AdminServer Peer) :
    Option (AdminServer Peer) :=
  (s.admin.handleDatagram env datagram).map fun admin =>
    { s with
      admin := admin
      addr := some peer
      owners := s.owners ++
        List.replicate (admin.queue.values.length - s.admin.queue.values.length) peer }

def write (s : AdminServer Peer) : Option (AdminServer Peer) :=
  s.admin.adminWriteHandler.map fun r =>
    { s with admin := r.2, sent := s.sent ++ r.1.map fun bytes => (s.addr, bytes) }

/-- What happens at an event; `none` if it is undefined. -/
def event (s : AdminServer Peer) : PeerEvent Peer → Option (AdminServer Peer)
  | .read env peer datagram => s.read env peer datagram
  | .write => s.write

def events (s : AdminServer Peer) (es : List (PeerEvent Peer)) : Option (AdminServer Peer) :=
  PartialRun.run event s es

/-! ## Replies and those who asked for them -/

/-- The messages made so far, with who asked for them. -/
def asked (s : AdminServer Peer) : List (Peer × Msg) := s.owners.zip s.admin.queue.values

/-- The messages made for an administrator. -/
def askedBy [DecidableEq Peer] (s : AdminServer Peer) (peer : Peer) : List Msg :=
  (s.asked.filter fun a => a.1 = peer).map Prod.snd

/-- What an administrator was sent. -/
def sentTo [DecidableEq Peer] (s : AdminServer Peer) (peer : Peer) : List (List UInt8) :=
  (s.sent.filter fun b => b.1 = some peer).map Prod.snd

/-- The message was sent as these bytes, to who asked for it. -/
def Answers (a : Peer × Msg) (b : Option Peer × List UInt8) : Prop :=
  b.1 = some a.1 ∧ serializeMsg a.2 = some b.2

/-- Everyone gets the replies they asked for. -/
structure Delivered [DecidableEq Peer] (s : AdminServer Peer) : Prop where
  /-- What was sent are the messages in the order in which they were made, each to who asked for it. -/
  sent : List.Forall₂ Answers (s.asked.take s.sent.length) s.sent
  /-- The other ones are in the queue. -/
  waiting : s.admin.queue.Holds ((s.asked.drop s.sent.length).map Prod.snd)
  /-- When none is left, each administrator has got all the replies they asked for and no others. -/
  all : qIsEmpty s.admin.queue = true →
    ∀ peer, List.Forall₂ (fun m bytes => serializeMsg m = some bytes) (s.askedBy peer) (s.sentTo peer)

/-- Nobody else is heard while there are replies in the queue. -/
def Undisturbed (s : AdminServer Peer) : PeerEvent Peer → Prop
  | .read _ peer _ => qIsEmpty s.admin.queue = true ∨ s.addr = some peer
  | .write => True

instance [DecidableEq Peer] (s : AdminServer Peer) : DecidablePred s.Undisturbed
  | .read _ peer _ => inferInstanceAs (Decidable (qIsEmpty s.admin.queue = true ∨ s.addr = some peer))
  | .write => inferInstanceAs (Decidable True)

/-- Every step of the run is undisturbed. -/
def AlwaysUndisturbed (s : AdminServer Peer) (es : List (PeerEvent Peer)) : Prop :=
  PartialRun.Along event Undisturbed s es

/-! ## The invariant -/

/-- What a run keeps: the replies in the queue are those of the administrator that was heard
last. -/
structure Inv (s : AdminServer Peer) : Prop where
  owners : s.owners.length = s.admin.queue.values.length
  sent : List.Forall₂ Answers (s.asked.take s.sent.length) s.sent
  waiting : s.admin.queue.Holds ((s.asked.drop s.sent.length).map Prod.snd)
  last : ∀ a ∈ s.asked.drop s.sent.length, s.addr = some a.1

variable {s s' : AdminServer Peer}

/-- No more was sent than was asked. -/
theorem Inv.length_sent (h : s.Inv) : s.sent.length ≤ s.asked.length := by
  have hlen := h.sent.length_eq
  rw [List.length_take] at hlen
  omega

/-- Nothing waits exactly when all that was asked was answered. -/
theorem Inv.isEmpty_iff (h : s.Inv) :
    qIsEmpty s.admin.queue = true ↔ s.asked.drop s.sent.length = [] := by
  unfold qIsEmpty
  rw [h.waiting.isEmpty_iff, List.map_eq_nil_iff]

/-- The messages queued for one peer. -/
theorem zip_replicate (peer : Peer) (ms : List Msg) :
    (List.replicate ms.length peer).zip ms = ms.map fun m => (peer, m) := by
  induction ms with
  | nil => rfl
  | cons m ms ih =>
    rw [List.length_cons, List.replicate_succ, List.zip_cons_cons, ih]
    rfl

/-- A datagram that is handled queues its answers behind those that wait. -/
theorem handleDatagram_eq_some {env : AdminEnv} {datagram : List UInt8} {a a' : Admin}
    (h : a.handleDatagram env datagram = some a') {msgs : List Msg} (hq : a.queue.Holds msgs) :
    ∃ ms, a'.queue.Holds (msgs ++ ms) ∧ a'.queue.values = a.queue.values ++ ms := by
  obtain ⟨d, -, hd⟩ := Option.bind_eq_some_iff.mp h
  obtain ⟨conf', hoffers⟩ := Admin.offers_dispatch env d.msg a
  obtain ⟨a'', ms, ha'', -, hq', hvalues, -⟩ := hoffers msgs hq
  cases hd.symm.trans ha''
  exact ⟨ms, hq', hvalues⟩

/-- A datagram that comes when nothing waits is answered to its sender. -/
theorem inv_read (h : s.Inv) {env : AdminEnv} {peer : Peer} {datagram : List UInt8}
    (hcalm : s.Undisturbed (.read env peer datagram)) (hread : s.read env peer datagram = some s') :
    s'.Inv := by
  obtain ⟨admin, hadmin, rfl⟩ := Option.map_eq_some_iff.mp hread
  obtain ⟨ms, hq, hvalues⟩ := handleDatagram_eq_some hadmin h.waiting
  have hcount : admin.queue.values.length - s.admin.queue.values.length = ms.length := by
    rw [hvalues, List.length_append, Nat.add_sub_cancel_left]
  have hasked : (s.owners ++ List.replicate ms.length peer).zip admin.queue.values =
      s.asked ++ ms.map fun m => (peer, m) := by
    rw [hvalues, List.zip_append h.owners, zip_replicate]
    rfl
  have hdrop := @List.drop_append_of_le_length _ s.asked (ms.map fun m => (peer, m)) _ h.length_sent
  rw [hcount]
  constructor
  · simp only [List.length_append, List.length_replicate, hvalues, h.owners]
  · unfold asked
    simp only [hasked]
    rw [List.take_append_of_le_length h.length_sent]
    exact h.sent
  · unfold asked
    simp only [hasked, hdrop, List.map_append, List.map_map, Function.comp_def, List.map_id']
    exact hq
  · unfold asked
    simp only [hasked, hdrop]
    intro a ha
    rcases List.mem_append.mp ha with ha | ha
    · rcases hcalm with hempty | hpeer
      · rw [h.isEmpty_iff.mp hempty] at ha
        cases ha
      · rw [← hpeer]
        exact h.last a ha
    · obtain ⟨m, -, rfl⟩ := List.mem_map.mp ha
      rfl

/-- A write sends nothing when nothing waits, and else the oldest message. -/
theorem adminWriteHandler_eq_some {a a' : Admin} {out : List (List UInt8)}
    (h : a.adminWriteHandler = some (out, a')) :
    (qIsEmpty a.queue = true ∧ out = [] ∧ a' = a) ∨
      ∃ m q bytes, qPoll a.queue = some (m, q) ∧ serializeMsg m = some bytes ∧ out = [bytes] ∧
        a' = { a with queue := q } := by
  unfold Admin.adminWriteHandler at h
  split at h
  · next hempty =>
    cases h
    exact .inl ⟨hempty, rfl, rfl⟩
  · obtain ⟨⟨m, q⟩, hpoll, h⟩ := Option.bind_eq_some_iff.mp h
    obtain ⟨bytes, hbytes, h⟩ := Option.bind_eq_some_iff.mp h
    split at h
    · cases h
      exact .inr ⟨m, q, bytes, hpoll, hbytes, rfl, rfl⟩
    · cases h

/-- A write sends the oldest message to the peer it is for. -/
theorem inv_write (h : s.Inv) (hwrite : s.write = some s') : s'.Inv := by
  obtain ⟨⟨out, admin⟩, hadmin, rfl⟩ := Option.map_eq_some_iff.mp hwrite
  rcases adminWriteHandler_eq_some hadmin with ⟨-, rfl, rfl⟩ | ⟨m, q, bytes, hpoll, hbytes, rfl, rfl⟩
  · simp only [List.map_nil, List.append_nil]
    exact h
  have hvalues : q.values = s.admin.queue.values := LinkedQueue.values_poll hpoll
  cases hrest : s.asked.drop s.sent.length with
  | nil =>
    have hempty : s.admin.queue.first = none := of_decide_eq_true (h.isEmpty_iff.mpr hrest)
    unfold qPoll LinkedQueue.poll at hpoll
    rw [hempty] at hpoll
    cases hpoll
  | cons a rest =>
    have hwaiting := h.waiting
    rw [hrest, List.map_cons] at hwaiting
    obtain ⟨q', hpoll', hq'⟩ := hwaiting.poll
    cases hpoll.symm.trans hpoll'
    have hlast := h.last a (by rw [hrest]; exact List.mem_cons_self)
    have hdrop : s.asked.drop (s.sent.length + 1) = rest := by
      rw [← List.drop_drop, hrest]
      rfl
    have htake : s.asked.take (s.sent.length + 1) = s.asked.take s.sent.length ++ [a] := by
      rw [List.take_add, hrest]
      rfl
    constructor
    · rw [hvalues]
      exact h.owners
    · unfold asked at htake ⊢
      simp only [hvalues, List.length_append, List.map_cons, List.map_nil, List.length_singleton, htake]
      exact List.rel_append h.sent (.cons ⟨hlast, hbytes⟩ .nil)
    · unfold asked at hdrop ⊢
      simp only [hvalues, List.length_append, List.map_cons, List.map_nil, List.length_singleton, hdrop]
      exact hq'
    · unfold asked at hdrop ⊢
      simp only [hvalues, List.length_append, List.map_cons, List.map_nil, List.length_singleton, hdrop]
      intro b hb
      exact h.last b (by rw [hrest]; exact List.mem_cons_of_mem a hb)

/-- Every event that does not disturb keeps the answers with their peers. -/
theorem inv_event (h : s.Inv) {e : PeerEvent Peer} (hcalm : s.Undisturbed e)
    (hevent : s.event e = some s') : s'.Inv := by
  cases e with
  | read env peer datagram => exact inv_read h hcalm hevent
  | write => exact inv_write h hevent

/-- What a peer was sent is what it asked for, in order. -/
theorem forall₂_filter [DecidableEq Peer] {l : List (Peer × Msg)}
    {l' : List (Option Peer × List UInt8)} (h : List.Forall₂ Answers l l') (peer : Peer) :
    List.Forall₂ (fun m bytes => serializeMsg m = some bytes)
      ((l.filter fun a => a.1 = peer).map Prod.snd)
      ((l'.filter fun b => b.1 = some peer).map Prod.snd) := by
  induction h with
  | nil => exact .nil
  | @cons a b l l' hab _ ih =>
    obtain ⟨haddr, hbytes⟩ := hab
    by_cases hpeer : a.1 = peer
    · have hsome : b.1 = some peer := haddr.trans (congrArg some hpeer)
      simp only [List.filter_cons, hpeer, hsome, decide_true, if_true, List.map_cons]
      exact .cons hbytes ih
    · have hsome : b.1 ≠ some peer := fun hb => hpeer (Option.some.inj (haddr.symm.trans hb))
      simp only [List.filter_cons, hpeer, hsome, decide_false, Bool.false_eq_true, if_false]
      exact ih

/-- Where messages were sent that went to who asked for them. -/
theorem addresses_eq {l : List (Peer × Msg)} {l' : List (Option Peer × List UInt8)}
    (h : List.Forall₂ Answers l l') : l'.map Prod.fst = (l.map Prod.fst).map some := by
  induction h with
  | nil => rfl
  | cons hab _ ih => rw [List.map_cons, List.map_cons, List.map_cons, ih, hab.1]

/-- With the answers at their peers every peer gets its own. -/
theorem Inv.delivered [DecidableEq Peer] (h : s.Inv) : s.Delivered := by
  refine ⟨h.sent, h.waiting, fun hempty peer => ?_⟩
  have hall : s.asked.take s.sent.length = s.asked := by
    have hsplit := List.take_append_drop s.sent.length s.asked
    rwa [h.isEmpty_iff.mp hempty, List.append_nil] at hsplit
  have hsent := h.sent
  rw [hall] at hsent
  exact forall₂_filter hsent peer

/-- The server before anything is received. -/
def start (conf : Config) : AdminServer Peer := { admin := { conf := conf } }

/-- At the start nobody asked. -/
theorem inv_start (conf : Config) : (start conf : AdminServer Peer).Inv :=
  ⟨rfl, .nil, LinkedQueue.holds_empty, nofun⟩

/-- In a run in which nobody else is heard while there are replies in the queue, everyone gets the
replies they asked for. -/
theorem delivered_run [DecidableEq Peer] (conf : Config) {es pre : List (PeerEvent Peer)}
    (hcalm : (start conf).AlwaysUndisturbed es) (hpre : pre <+: es)
    (hrun : (start conf).events pre = some s) : s.Delivered := by
  have hinv : s.Inv := (hcalm.initial hpre).invariant (fun _ _ _ hs he => inv_event hs he) (inv_start conf) hrun
  exact hinv.delivered

/-- Two administrators, the second of which asks when the first has its reply. -/
theorem delivered_run_in_turn :
    ∃ s : AdminServer Nat, (start mainConfigurations).events
      [.read .plain 0 [4, 0, 0, 0, 0, 0], .write, .read .plain 1 [3, 0, 0, 0, 0, 0], .write] = some s ∧
        s.Delivered := by
  obtain ⟨s, hs⟩ := Option.isSome_iff_exists.mp (by decide +kernel :
    ((start mainConfigurations : AdminServer Nat).events
      [.read .plain 0 [4, 0, 0, 0, 0, 0], .write, .read .plain 1 [3, 0, 0, 0, 0, 0], .write]).isSome = true)
  have hcalm : (start mainConfigurations : AdminServer Nat).AlwaysUndisturbed
      [.read .plain 0 [4, 0, 0, 0, 0, 0], .write, .read .plain 1 [3, 0, 0, 0, 0, 0], .write] := by
    unfold AlwaysUndisturbed
    decide +kernel
  exact ⟨s, hs, delivered_run mainConfigurations hcalm (List.prefix_refl _) hs⟩

/-- The first asks for the list of the metrics, and the second for one of them before the list is
sent: it goes to the second. -/
theorem not_delivered_overtaken :
    ∃ s : AdminServer Nat, (start mainConfigurations).events
      [.read .plain 0 [1, 0, 0, 0, 0, 0], .read .plain 1 [3, 0, 0, 0, 0, 0], .write] = some s ∧
        ¬s.Delivered := by
  obtain ⟨s, hs, hvalue⟩ := Option.map_eq_some_iff.mp (by decide +kernel :
    ((start mainConfigurations : AdminServer Nat).events
      [.read .plain 0 [1, 0, 0, 0, 0, 0], .read .plain 1 [3, 0, 0, 0, 0, 0], .write]).map
        (fun s => ((s.asked.take s.sent.length).map Prod.fst, s.sent.map Prod.fst)) =
      some ([0], [some 1]))
  refine ⟨s, hs, fun h => ?_⟩
  obtain ⟨hasked, hsent⟩ := Prod.mk.inj hvalue
  have haddresses := addresses_eq h.sent
  rw [hasked, hsent] at haddresses
  exact absurd haddresses (by decide)

end AdminServer

end HttpProxy
