import HttpProxy.Ownership

/-!
# The states of a client

A client is to go from `NO_ORIGIN` over `SEND_REQ` to `READ_RESP`, or to `CLI_ERROR` from any of
them. Two handlers take it back: `client_read` in `SEND_REQ` sets the state from the request
parser's `OK`, which is the number of `NO_ORIGIN`, and `client_block` sets `SEND_REQ` whatever the
state is.
-/

namespace HttpProxy

namespace ClientState

/-- The moves of a client. -/
inductive Moves : ClientState → ClientState → Prop
  | connects : Moves .NO_ORIGIN .SEND_REQ
  | sent : Moves .SEND_REQ .READ_RESP
  | hasNoOrigin : Moves .NO_ORIGIN .CLI_ERROR
  | cannotSend : Moves .SEND_REQ .CLI_ERROR
  | cannotRead : Moves .READ_RESP .CLI_ERROR

/-- Any number of moves. -/
def Forward : ClientState → ClientState → Prop := Relation.ReflTransGen Moves

/-- One of the enumerators. -/
def Named (c : ClientState) : Prop := ∀ n, c ≠ .other n

/-- From every state named in the code a client can move to `CLI_ERROR`. -/
theorem forward_error {c : ClientState} (h : c.Named) : c.Forward .CLI_ERROR := by
  cases c with
  | NO_ORIGIN => exact .single .hasNoOrigin
  | SEND_REQ => exact .single .cannotSend
  | READ_RESP => exact .single .cannotRead
  | CLI_ERROR => exact .refl
  | other n => exact absurd rfl (h n)

/-- No move leads back to `NO_ORIGIN`. -/
theorem Moves.ne_noOrigin {c c' : ClientState} (h : Moves c c') : c' ≠ .NO_ORIGIN := by
  cases h <;> exact ClientState.noConfusion

/-- No moves lead to `NO_ORIGIN`. -/
theorem Forward.eq_of_noOrigin {c : ClientState} (h : c.Forward .NO_ORIGIN) : c = .NO_ORIGIN := by
  generalize hc : ClientState.NO_ORIGIN = c' at h
  cases h with
  | refl => rfl
  | tail _ hlast => exact absurd hc.symm hlast.ne_noOrigin

end ClientState

namespace Proxy

open ClientState

/-- The calls that take no client back. -/
def KeepsForward (s : Proxy) : Call → Prop
  | .clientRead i _ =>
    (s.clients i).state = .SEND_REQ → bufferCanWrite (s.clients i).preReqParseBuf = false
  | .clientBlock _ i o =>
    (s.clients i).host.resolved = true → o.socket ≠ none →
      (s.clients i).state = .NO_ORIGIN ∨ (s.clients i).state = .SEND_REQ
  | _ => True

instance (s : Proxy) : ∀ c, Decidable (s.KeepsForward c)
  | .clientRead _ _ => inferInstanceAs (Decidable (_ → _))
  | .clientBlock _ _ _ => inferInstanceAs (Decidable (_ → _ → _ ∨ _))
  | .accept _ | .clientWrite _ _ | .remoteRead _ _ | .remoteWrite _ _ => .isTrue trivial

/-- The clients moved forward from `s₀` to `s`. -/
structure Advanced (s₀ s : Proxy) : Prop where
  made : s₀.made ≤ s.made
  named : ∀ i, (s.clients i).state.Named
  forward : ∀ i, i < s₀.made → (s₀.clients i).state.Forward (s.clients i).state

variable {s₀ s s' : Proxy} {i : ClientId}

namespace Advanced

/-- What happens to one client takes it forward. -/
theorem client (h : Advanced s₀ s) (hmade : s'.made = s.made)
    (hothers : ∀ j, j ≠ i → (s'.clients j).state = (s.clients j).state)
    (hnamed : (s'.clients i).state.Named)
    (hforward : (s.clients i).state.Forward (s'.clients i).state) : Advanced s₀ s' where
  made := hmade ▸ h.made
  named j := by
    by_cases hj : j = i
    · exact hj ▸ hnamed
    · exact hothers j hj ▸ h.named j
  forward j hj := by
    by_cases hji : j = i
    · subst hji
      exact (h.forward j hj).trans hforward
    · exact hothers j hji ▸ h.forward j hj

/-- The clients and their states stay. -/
theorem same (h : Advanced s₀ s) (hmade : s'.made = s.made)
    (hstate : ∀ j, (s'.clients j).state = (s.clients j).state) : Advanced s₀ s' where
  made := hmade ▸ h.made
  named j := hstate j ▸ h.named j
  forward j hj := hstate j ▸ h.forward j hj

/-- A quiet part leaves the states. -/
theorem quiet (h : Advanced s₀ s) (hq : Quiet i s s') : Advanced s₀ s' := by
  refine h.same hq.made fun j => ?_
  by_cases hj : j = i
  · exact hj ▸ hq.client.state
  · rw [hq.others j hj]

/-- Closing leaves the states. -/
theorem closing (h : Advanced s₀ s) (hc : Closing s s') : Advanced s₀ s' := by
  refine h.same hc.made fun j => ?_
  rw [hc.clients j]

/-- A client's state is set to one that lies ahead. -/
theorem setState (h : Advanced s₀ s) {c : ClientState} {f : Client → Client}
    (hf : (f (s.clients i)).state = c) (hnamed : c.Named)
    (hc : (s.clients i).state.Forward c) : Advanced s₀ (s.modify i f) := by
  refine h.client (i := i) rfl (fun j hj => ?_) ?_ ?_
  · rw [clients_modify_of_ne s f hj]
  · rw [clients_modify_self, hf]
    exact hnamed
  · rw [clients_modify_self, hf]
    exact hc

/-- A client whose host is being asked for waits, or gets an error. -/
theorem setHost (h : Advanced s₀ s)
    (hstate : (s.clients i).state = .NO_ORIGIN ∨ (s.clients i).state = .SEND_REQ)
    (host : List UInt8) (port : Int) : Advanced s₀ (s.clientSetHost i host port) := by
  have hset : Advanced s₀ (s.modify i fun _ => ((s.clients i).setHost host port).2) := by
    unfold Client.setHost
    split
    · split
      · exact h.setState rfl nofun (forward_error (h.named i))
      · refine h.setState rfl nofun ?_
        rcases hstate with hstate | hstate
        · exact hstate ▸ .single .connects
        · exact hstate ▸ .refl
    · split
      · exact h.setState rfl (h.named i) .refl
      · exact h.setState rfl nofun (forward_error (h.named i))
  unfold clientSetHost
  simp only
  split
  · exact hset.same rfl fun _ => rfl
  · exact hset.same rfl fun _ => rfl

/-- The call that may announce a host leads forward. -/
theorem asks (h : Advanced s₀ s)
    (hstate : (s.clients i).state = .NO_ORIGIN ∨ (s.clients i).state = .SEND_REQ)
    (ha : Asks i s s') : Advanced s₀ s' := by
  rcases ha with hq | ⟨s₁, host, port, hq, hrest⟩
  · exact h.quiet hq
  · exact ((h.quiet hq).setHost (hq.client.state.symm ▸ hstate) host port).quiet hrest

/-- `client_read` leads forward, unless it reads in `SEND_REQ`. -/
theorem clientRead (h : Advanced s₀ s) {r : Option (List UInt8)}
    (hP : s.KeepsForward (.clientRead i r)) : Advanced s₀ (s.clientRead i r) := by
  cases hstate : (s.clients i).state with
  | NO_ORIGIN =>
    obtain ⟨s₁, s₂, s₃, hq, hread, hasks, hend⟩ := clientRead_noOrigin hstate r
    have h₂ : Advanced s₀ s₂ ∧ (s₂.clients i).state = .NO_ORIGIN := by
      have h₁ := hq.client.state.trans hstate
      rcases hread with ⟨rfl, -⟩ | ⟨rfl, -⟩
      · exact ⟨h.quiet hq, h₁⟩
      · have hc := closing_unregister s₁ (s.clients i).clientFd
        refine ⟨(h.quiet hq).closing hc, ?_⟩
        rw [hc.clients i]
        exact h₁
    have h₃ := h₂.1.asks (.inl h₂.2) hasks
    rcases hend with hend | hend
    · exact hend ▸ h₃
    · exact hend ▸ h₃.closing (closing_unregister s₃ _)
  | SEND_REQ =>
    rcases clientRead_sendReq hstate r with hasks | ⟨hroom, -⟩
    · exact h.asks (.inr hstate) hasks
    · rw [hP hstate] at hroom
      cases hroom
  | READ_RESP => rwa [clientRead_otherwise (by rw [hstate]; nofun) (by rw [hstate]; nofun)]
  | CLI_ERROR => rwa [clientRead_otherwise (by rw [hstate]; nofun) (by rw [hstate]; nofun)]
  | other n => exact absurd hstate (h.named i n)

/-- `remote_write` leads forward. -/
theorem remoteWrite (h : Advanced s₀ s) (r : Option Nat) : Advanced s₀ (s.remoteWrite i r) := by
  rcases remoteWrite_effect s i r with hq | ⟨hstate, s₁, hq, hend⟩ | ⟨s₁, hq, hend⟩
  · exact h.quiet hq
  · rw [hend]
    refine (h.quiet hq).setState rfl nofun ?_
    rw [hq.client.state, hstate]
    exact .single .sent
  · exact hend ▸ (h.quiet hq).closing (closing_unregister s₁ _)

/-- `client_write` leaves the states. -/
theorem clientWrite (h : Advanced s₀ s) (r : Option Nat) : Advanced s₀ (s.clientWrite i r) := by
  rcases clientWrite_effect s i r with hq | ⟨s₁, hq, -, hend⟩
  · exact h.quiet hq
  · exact hend ▸ (h.quiet hq).closing (closing_unregister s₁ _)

/-- `remote_read` leaves the states. -/
theorem remoteRead (h : Advanced s₀ s) (r : Option (List UInt8)) :
    Advanced s₀ (s.remoteRead i r) := by
  rcases remoteRead_effect s i r with hq | ⟨s₁, hq, hrest⟩
  · exact h.quiet hq
  · exact ((h.quiet hq).closing (closing_unregister s₁ _)).quiet hrest

/-- Connecting leads forward, from in front of the response. -/
theorem connecting (h : Advanced s₀ s) (fd : Int)
    (hstate : (s.clients i).state = .NO_ORIGIN ∨ (s.clients i).state = .SEND_REQ) :
    Advanced s₀ (s.connecting i fd) := by
  have hopen : Advanced s₀ (s.openFd i fd) := h.same rfl fun _ => rfl
  refine hopen.setState rfl nofun ?_
  rcases hstate with hstate | hstate
  · exact hstate ▸ .single .connects
  · exact hstate ▸ .refl

/-- A new client begins in `NO_ORIGIN`, and the others stay. -/
theorem accept (h : Advanced s₀ s) (o : AcceptCalls) : Advanced s₀ (s.listenReadHandler o) := by
  cases ho : o.accept with
  | none =>
    unfold listenReadHandler
    rwa [ho]
  | some fd =>
    have ha := accepts_listenReadHandler (s := s) ho
    refine ⟨ha.made ▸ Nat.le_succ_of_le h.made, fun j => ?_, fun j hj => ?_⟩
    · by_cases hj : j = s.made
      · subst hj
        rw [ha.client.state]
        nofun
      · rw [ha.others j hj]
        exact h.named j
    · rw [ha.others j (Nat.ne_of_lt (Nat.lt_of_lt_of_le hj h.made))]
      exact h.forward j hj

/-- Whatever `client_block` ends in, it leads forward, unless the client is behind its request. -/
theorem blockEnd (h : Advanced s₀ s) {fd : Int} {o : BlockCalls}
    (hP : s.KeepsForward (.clientBlock fd i o)) (he : BlockEnd s i o s') : Advanced s₀ s' := by
  cases he with
  | unresolved _ => exact h.closing (closing_unregister s _)
  | noSocket _ _ => exact h.setState rfl nofun (forward_error (h.named i))
  | unwatched hres hs _ => exact h.connecting _ (hP hres (by rw [hs]; nofun))
  | watched hres hs _ _ _ _ _ =>
    exact (h.connecting _ (hP hres (by rw [hs]; nofun))).same rfl fun _ => rfl
  | refused hres hs _ _ _ _ =>
    exact (h.connecting _ (hP hres (by rw [hs]; nofun))).same rfl fun _ => rfl

/-- That the clients moved forward is preserved by every run whose calls keep forward. -/
theorem preserved (s₀ : Proxy) :
    Preserved (fun s c => s.KeepsForward c ∧ Slots s) (Advanced s₀) where
  call s c h _ hreg hP := by
    cases c with
    | accept o => exact h.accept o
    | clientRead i r => exact h.clientRead hP.1
    | clientWrite i r => exact h.clientWrite r
    | clientBlock fd i o => exact h.blockEnd hP.1 (hP.2.clientBlock hreg o)
    | remoteRead i r => exact h.remoteRead r
    | remoteWrite i r => exact h.remoteWrite r
  clock _ _ h := h.same rfl fun _ => rfl
  resolve s i found h := by
    unfold resolve
    split
    · have hlists : Advanced s₀ { s with
          resolving := s.resolving.erase i, notifying := i :: s.notifying } :=
        h.same rfl fun _ => rfl
      exact hlists.setState rfl (h.named i) .refl
    · exact h
  notify s i h := by
    unfold notify
    split
    · exact h.same rfl fun _ => rfl
    · exact h
  resumed _ _ _ _ _ _ _ h := h.same rfl fun _ => rfl
  cleared _ h := h.same rfl fun _ => rfl
  crashed _ h := h.same rfl fun _ => rfl

end Advanced

variable {es es' : List Event}

/-- In a run whose calls keep clients forward, a client only ever moves forward. -/
theorem state_forward (hs : Started s) (h : Always KeepsForward s (es ++ es'))
    (hi : i < (s.run es).made) :
    ((s.run es).clients i).state.Forward ((s.run (es ++ es')).clients i).state := by
  have hstart : Advanced s s := by
    obtain ⟨conf, registered, others, -, rfl⟩ := hs
    exact ⟨Nat.le_refl _, fun j => nofun, fun j hj => .refl⟩
  have hkept (s₀ : Proxy) := (Slots.preserved.mono (Q := KeepsForward) fun _ _ _ => trivial).and
    (Advanced.preserved s₀)
  obtain ⟨hes, hes'⟩ := always_append.mp h
  obtain ⟨hslots, h₁⟩ := (hkept s).run ⟨hs.slots, hstart⟩ hes
  have hagain : Advanced (s.run es) (s.run es) := ⟨Nat.le_refl _, h₁.named, fun j hj => .refl⟩
  obtain ⟨-, h₂⟩ := (hkept (s.run es)).run ⟨hslots, hagain⟩ hes'
  rw [run_append]
  exact h₂.forward i hi

/-- The request of a client is sent and the response awaited. -/
theorem state_forward_sent :
    ((mainLoop.run (connects 0 7 8)).clients 0).state.Forward
      ((mainLoop.run (connects 0 7 8 ++ [.write 8 (some 100), .write 8 none])).clients 0).state :=
  state_forward started_mainLoop (by decide +kernel) (by decide +kernel)

/-- The origin has taken ten bytes of the request, after which the client can be read again. -/
def sending : List Event := connects 0 7 8 ++ [.write 8 (some 10)]

/-- The end of the request head arrives while the request is sent: the client has no origin any
more. -/
theorem clientRead_goes_back :
    0 < (mainLoop.run sending).made ∧
      ((mainLoop.run sending).sel.fds 7).map (·.interest) = some OP_READ ∧
      ¬((mainLoop.run sending).clients 0).state.Forward
        ((mainLoop.run (sending ++ [.read 7 (some (lit "\n\r\n"))])).clients 0).state := by
  have hsend : ((mainLoop.run sending).clients 0).state = .SEND_REQ := by decide +kernel
  have hback : ((mainLoop.run (sending ++
      [.read 7 (some (lit "\n\r\n"))])).clients 0).state = .NO_ORIGIN := by decide +kernel
  refine ⟨by decide +kernel, by decide +kernel, fun h => ?_⟩
  rw [hsend, hback] at h
  exact absurd h.eq_of_noOrigin (by decide)

end Proxy

end HttpProxy
