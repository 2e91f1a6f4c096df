import HttpProxy.Ownership

/-!
# The origin of a client is watched

`client_block` sets a client's `origin_fd` and its state before it connects, and registers the
descriptor only when `connect` is in progress: after a `connect` that succeeds or fails at once
nobody watches the origin. Everything else keeps the clients and the selector's table coherent.
-/

namespace HttpProxy

namespace Proxy

/-- The origin's descriptor of every client is registered for it. -/
def Watched (s : Proxy) : Prop :=
  ∀ i, (s.clients i).originFd ≠ -1 →
    s.sel.handlerAt (s.clients i).originFd = some (.remote i)

/-- The calls of `client_block` that connect find the connection in progress. -/
def ConnectsInProgress (s : Proxy) : Call → Prop
  | .clientBlock _ i o =>
    (s.clients i).host.resolved = true → o.socket ≠ none → o.connect = .inProgress
  | _ => True

instance (s : Proxy) : ∀ c, Decidable (s.ConnectsInProgress c)
  | .clientBlock _ _ _ => inferInstanceAs (Decidable (_ → _ → _))
  | .accept _ | .clientRead _ _ | .clientWrite _ _ | .remoteRead _ _ | .remoteWrite _ _ =>
    .isTrue trivial

variable {s s' : Proxy} {i : ClientId}

namespace Watched

theorem same (h : Watched s) (hsel : s'.sel.handlerAt = s.sel.handlerAt)
    (horigin : ∀ j, (s'.clients j).originFd = (s.clients j).originFd) : Watched s' := by
  intro j hj
  rw [horigin j] at hj ⊢
  rw [hsel]
  exact h j hj

theorem modify (h : Watched s) {f : Client → Client}
    (hf : (f (s.clients i)).originFd = (s.clients i).originFd) : Watched (s.modify i f) := by
  refine h.same rfl fun j => ?_
  by_cases hj : j = i
  · subst hj
    rw [clients_modify_self, hf]
  · rw [clients_modify_of_ne s f hj]

theorem quiet (h : Watched s) (hq : Quiet i s s') : Watched s' := by
  refine h.same hq.handlers fun j => ?_
  by_cases hj : j = i
  · exact hj ▸ hq.client.originFd
  · rw [hq.others j hj]

theorem setHost (h : Watched s) (host : List UInt8) (port : Int) :
    Watched (s.clientSetHost i host port) := by
  have hset := h.modify (f := fun _ => ((s.clients i).setHost host port).2)
    (originFd_setHost (s.clients i) host port)
  refine hset.same (congrArg Selector.handlerAt (sel_clientSetHost s i host port)) fun j => ?_
  rw [clients_clientSetHost]
  rfl

theorem unsetOrigin (h : Watched s) (i : ClientId) :
    Watched (s.modify i fun c => { c with originFd := -1 }) := by
  intro j hj
  by_cases hji : j = i
  · subst hji
    rw [clients_modify_self] at hj
    exact absurd rfl hj
  · rw [clients_modify_of_ne s _ hji] at hj ⊢
    exact h j hj

/-- A slot that is no origin's is emptied. -/
theorem clear (h : Watched s) {fd : Int}
    (hfd : ∀ j, (s.clients j).originFd ≠ -1 → (s.clients j).originFd ≠ fd) :
    Watched { s with sel := s.sel.clear fd } := by
  intro j hj
  change (s.sel.clear fd).handlerAt (s.clients j).originFd = _
  rw [Selector.handlerAt_clear, Function.update_of_ne (hfd j hj)]
  exact h j hj

/-- A slot in which `h` finds another handler is no origin's. -/
theorem ne_of_slot (h : Watched s) {fd : Int} {j : ClientId} (hj : (s.clients j).originFd ≠ -1)
    (hslot : s.sel.handlerAt fd ≠ some (.remote j)) : (s.clients j).originFd ≠ fd := by
  intro heq
  exact hslot (heq ▸ h j hj)

theorem unregisterAt (depth : Nat) (h : Watched s) (fd : Int) :
    Watched (unregisterAt depth s fd) := by
  induction depth generalizing s fd with
  | zero => exact h
  | succ depth ih =>
    unfold Proxy.unregisterAt
    split
    · exact h
    · split
      · exact h
      · next handlers hslot =>
        cases handlers with
        | client i =>
          have hend : Watched (clientClose (Proxy.unregisterAt depth) s i) := by
            unfold clientClose clientFreeResources
            simp only
            split
            · have hclosed : Watched (({ s with
                  metrics := metricCloseConnection (s.clients i).initTime s.now s.metrics } :
                  Proxy).closeFd i (s.clients i).originFd) := h.same rfl fun _ => rfl
              exact ((ih hclosed _).unsetOrigin i).same rfl fun _ => rfl
            · exact h.same rfl fun _ => rfl
          have hslots := (Closing.clientClose (Closing.unregisterAt depth) s i).handlers fd
          refine hend.clear fun j hj => hend.ne_of_slot hj ?_
          rcases hslots with hslots | hslots
          · rw [hslots, hslot]
            intro heq
            cases heq
          · rw [hslots]
            exact (Option.some_ne_none _).symm
        | remote i =>
          have hclosed : Watched (s.closeFd i (s.clients i).originFd) := h.same rfl fun _ => rfl
          refine (hclosed.unsetOrigin i).clear fun j hj => ?_
          by_cases hji : j = i
          · subst hji
            rw [clients_modify_self] at hj
            exact absurd rfl hj
          · rw [clients_modify_of_ne _ _ hji] at hj ⊢
            refine h.ne_of_slot hj ?_
            rw [hslot]
            intro heq
            exact hji (Handlers.remote.inj (Option.some.inj heq)).symm
        | other =>
          refine h.clear fun j hj => h.ne_of_slot hj ?_
          rw [hslot]
          intro heq
          cases heq

theorem accept (h : Watched s) (o : AcceptCalls) :
    Watched (s.listenReadHandler o) := by
  cases ho : o.accept with
  | none =>
    unfold listenReadHandler
    rwa [ho]
  | some fd =>
    have ha := accepts_listenReadHandler (s := s) ho
    intro j hj
    by_cases hjm : j = s.made
    · subst hjm
      exact absurd ha.client.originFd hj
    · rw [ha.others j hjm] at hj ⊢
      rcases Selector.register_eq s.sel fd (.client s.made) OP_READ with
        ⟨-, hfree, -, hsel, -⟩ | ⟨-, -, hsel⟩
      · have hne : (s.clients j).originFd ≠ fd := by
          refine h.ne_of_slot hj ?_
          rw [hfree]
          exact (Option.some_ne_none _).symm
        rw [ha.sel, hsel, Function.update_of_ne hne]
        exact h j hj
      · rw [ha.sel, hsel]
        exact h j hj

theorem blockEnd (h : Watched s) {fd : Int} {o : BlockCalls}
    (hP : s.ConnectsInProgress (.clientBlock fd i o)) (he : BlockEnd s i o s')
    (hrun : s'.status = .running) : Watched s' := by
  cases he with
  | unresolved _ => exact h.unregisterAt 2 _
  | noSocket _ _ => exact h.modify rfl
  | unwatched hres hs hc => exact absurd (hP hres (by rw [hs]; nofun)) hc
  | @watched _ x _ _ _ hfree sel hsel _ =>
    intro j hj
    change sel.handlerAt _ = _
    rw [hsel]
    by_cases hji : j = i
    · subst hji
      change Function.update _ _ _ ((s.connecting j x).clients j).originFd = _
      unfold connecting
      rw [clients_modify_self]
      exact Function.update_self _ _ _
    · have hother : ((s.connecting i x).clients j) = s.clients j := clients_modify_of_ne _ _ hji
      change ((s.connecting i x).clients j).originFd ≠ -1 at hj
      change Function.update _ _ _ ((s.connecting i x).clients j).originFd = _
      rw [hother] at hj ⊢
      have hne : (s.clients j).originFd ≠ x := by
        refine h.ne_of_slot hj ?_
        rw [hfree]
        exact (Option.some_ne_none _).symm
      rw [Function.update_of_ne hne]
      exact h j hj
  | refused _ _ _ _ _ _ => cases hrun

end Watched

/-- What keeps the origins watched while the process runs. -/
theorem preserved_watched : Preserved (fun s c => s.ConnectsInProgress c ∧ Slots s)
    fun s => s.status = .running → Watched s where
  call s c h hrun hreg hP hrun' := by
    have hs := h hrun
    have hun : ∀ (t : Proxy) (fd : Int), Watched t → Watched (t.unregister fd) :=
      fun _ fd ht => ht.unregisterAt 2 fd
    cases c with
    | accept o => exact hs.accept o
    | clientRead i r =>
      exact keeps_clientRead (i := i) (fun _ _ h hq => h.quiet hq)
        (fun _ host port h => h.setHost host port) (fun _ _ h => h.modify rfl)
        (fun t h => hun t _ h) hs r
    | clientWrite i r =>
      exact keeps_clientWrite (i := i) (fun _ _ h hq => h.quiet hq) (fun t h => hun t _ h) hs r
    | clientBlock fd i o => exact hs.blockEnd hP.1 (hP.2.clientBlock hreg o) hrun'
    | remoteRead i r =>
      exact keeps_remoteRead (i := i) (fun _ _ h hq => h.quiet hq) (fun t h => hun t _ h) hs r
    | remoteWrite i r =>
      exact keeps_remoteWrite (i := i) (fun _ _ h hq => h.quiet hq) (fun _ _ h => h.modify rfl)
        (fun t h => hun t _ h) hs r
  clock _ _ h hrun := (h hrun).same rfl fun _ => rfl
  resolve s i found h := by
    unfold resolve
    split
    · intro hrun
      have hlists : Watched { s with
          resolving := s.resolving.erase i, notifying := i :: s.notifying } :=
        (h hrun).same rfl fun _ => rfl
      exact hlists.modify rfl
    · exact h
  notify s i h := by
    unfold notify
    split
    · exact fun hrun => (h hrun).same rfl fun _ => rfl
    · exact h
  resumed _ _ _ _ _ _ _ h hrun := (h hrun).same rfl fun _ => rfl
  cleared _ h hrun := (h hrun).same rfl fun _ => rfl
  crashed _ _ hrun := by cases hrun

/-- In a run in which `connect` is always in progress, the origin of a client that sends or waits
is registered for that client. -/
theorem origin_watched (hs : Started s) {es : List Event} (h : Always ConnectsInProgress s es)
    (hrun : (s.run es).status = .running)
    (hstate : ((s.run es).clients i).state = .SEND_REQ ∨ ((s.run es).clients i).state = .READ_RESP)
    (horigin : ((s.run es).clients i).originFd ≠ -1) :
    (s.run es).sel.handlerAt ((s.run es).clients i).originFd = some (.remote i) := by
  have hstart : s.status = .running → Watched s := by
    obtain ⟨conf, registered, others, -, rfl⟩ := hs
    exact fun _ j hj => absurd rfl hj
  have hkept := (Slots.preserved.mono (Q := ConnectsInProgress) fun _ _ _ => trivial).and
    preserved_watched
  exact (hkept.run ⟨hs.slots, hstart⟩ h).2 hrun i horigin

/-- A connection in progress. -/
theorem origin_watched_connects :
    (mainLoop.run (connects 0 7 8)).sel.handlerAt
      ((mainLoop.run (connects 0 7 8)).clients 0).originFd = some (.remote 0) :=
  origin_watched started_mainLoop (by decide +kernel) (by decide +kernel)
    (.inl (by decide +kernel)) (by decide +kernel)

/-- Client `i` connects to an origin that answers at once. -/
def connectsAtOnce (i : ClientId) (fd origin : Int) : List Event :=
  (connects i fd origin).dropLast ++ [.notifications [⟨some origin, .success⟩]]

/-- The connection is there at once, and nobody watches it. -/
theorem origin_unwatched :
    (mainLoop.run (connectsAtOnce 0 7 8)).status = .running ∧
      ((mainLoop.run (connectsAtOnce 0 7 8)).clients 0).state = .SEND_REQ ∧
      ((mainLoop.run (connectsAtOnce 0 7 8)).clients 0).originFd ≠ -1 ∧
      (mainLoop.run (connectsAtOnce 0 7 8)).sel.handlerAt
        ((mainLoop.run (connectsAtOnce 0 7 8)).clients 0).originFd ≠ some (.remote 0) := by
  decide +kernel

end Proxy

end HttpProxy
