import HttpProxy.Ownership

/-!
# Whose resolution resumes a client

A thread of the resolver leaves a job that names the descriptor of its client. When the job is done
the descriptor may be another client's: the one may have been closed in between and the other
accepted. Nothing else mixes up the clients.
-/

namespace HttpProxy

namespace Proxy

/-- The clients with a resolution that has not resumed them. -/
def pending (s : Proxy) : List ClientId := s.resolving ++ s.notifying ++ s.jobs.map (·.owner)

/-- A pending resolution is with the resolver, notifying or waiting as a job. -/
theorem mem_pending {s : Proxy} {o : ClientId} :
    o ∈ s.pending ↔ o ∈ s.resolving ∨ o ∈ s.notifying ∨ ∃ j ∈ s.jobs, j.owner = o := by
  unfold pending
  rw [List.mem_append, List.mem_append, List.mem_map, or_assoc]

/-- No connection is accepted on the descriptor of a client with a pending resolution. -/
def SparesPending (s : Proxy) : Call → Prop
  | .accept o => ∀ i ∈ s.pending, o.accept ≠ some (s.clients i).clientFd
  | _ => True

instance (s : Proxy) : ∀ c, Decidable (s.SparesPending c)
  | .accept _ => inferInstanceAs (Decidable (∀ i ∈ s.pending, _))
  | .clientBlock _ _ _ | .clientRead _ _ | .clientWrite _ _ | .remoteRead _ _ | .remoteWrite _ _ =>
    .isTrue trivial

/-- What leads a resolution to its client. -/
structure Delivers (s : Proxy) : Prop where
  made : ∀ o ∈ s.pending, o < s.made
  job : ∀ j ∈ s.jobs, j.fd = (s.clients j.owner).clientFd
  slot : ∀ o ∈ s.pending, ∀ k,
    s.sel.handlerAt (s.clients o).clientFd = some (.client k) → k = o
  resumed : ∀ o k, .resumed o k ∈ s.trace → o = k

variable {s s' : Proxy} {i : ClientId}

namespace Delivers

/-- What is left of the resolutions and of the clients' slots. -/
theorem fewer (h : Delivers s) (hmade : s.made ≤ s'.made)
    (hfd : ∀ o, o < s.made → (s'.clients o).clientFd = (s.clients o).clientFd)
    (hpending : ∀ o ∈ s'.pending, o ∈ s.pending) (hjobs : ∀ j ∈ s'.jobs, j ∈ s.jobs)
    (hslots : ∀ o ∈ s.pending, ∀ k, s'.sel.handlerAt (s.clients o).clientFd = some (.client k) →
      s.sel.handlerAt (s.clients o).clientFd = some (.client k))
    (htrace : ∀ o k, .resumed o k ∈ s'.trace → .resumed o k ∈ s.trace) : Delivers s' where
  made o ho := Nat.lt_of_lt_of_le (h.made o (hpending o ho)) hmade
  job j hj := by
    have hold := hjobs j hj
    rw [hfd j.owner (h.made j.owner (mem_pending.mpr (.inr (.inr ⟨j, hold, rfl⟩))))]
    exact h.job j hold
  slot o ho k hk := by
    have hold := hpending o ho
    rw [hfd o (h.made o hold)] at hk
    exact h.slot o hold k (hslots o hold k hk)
  resumed o k hk := h.resumed o k (htrace o k hk)

/-- Where the clients, their descriptors and the resolutions stay, with no new slot. -/
theorem same (h : Delivers s) (hmade : s'.made = s.made)
    (hfd : ∀ j, (s'.clients j).clientFd = (s.clients j).clientFd)
    (hresolving : s'.resolving = s.resolving) (hnotifying : s'.notifying = s.notifying)
    (hjobs : s'.jobs = s.jobs)
    (hslots : ∀ fd k, s'.sel.handlerAt fd = some (.client k) →
      s.sel.handlerAt fd = some (.client k))
    (htrace : ∃ l, s'.trace = l ++ s.trace ∧ ∀ o k, .resumed o k ∉ l) : Delivers s' := by
  have hpending : s'.pending = s.pending := by
    unfold pending
    rw [hresolving, hnotifying, hjobs]
  obtain ⟨l, hl, hnone⟩ := htrace
  refine h.fewer (Nat.le_of_eq hmade.symm) (fun o _ => hfd o) (fun o ho => hpending ▸ ho)
    (fun j hj => hjobs ▸ hj) (fun o _ k => hslots _ k) fun o k hk => ?_
  rw [hl] at hk
  exact (List.mem_append.mp hk).resolve_left (hnone o k)

/-- A quiet part delivers nothing. -/
theorem quiet (h : Delivers s) (hq : Quiet i s s') : Delivers s' := by
  obtain ⟨l, hl, hquiet⟩ := hq.trace
  refine h.same hq.made (fun j => ?_) hq.resolving hq.notifying hq.jobs
    (fun fd k hk => hq.handlers ▸ hk) ⟨l, hl, fun o k hk => hquiet _ hk⟩
  by_cases hj : j = i
  · exact hj ▸ hq.client.clientFd
  · rw [hq.others j hj]

/-- Closing empties slots, and the resolutions stay. -/
theorem closing (h : Delivers s) (hc : Closing s s') : Delivers s' := by
  obtain ⟨l, hl, hclosing⟩ := hc.trace
  refine h.same hc.made (fun j => ?_) hc.resolving hc.notifying hc.jobs (fun fd k hk => ?_)
    ⟨l, hl, fun o k hk => hclosing _ hk⟩
  · rw [hc.clients j]
  · rcases hc.handlers fd with heq | heq
    · exact heq ▸ hk
    · exact absurd (heq.symm.trans hk) (Option.some_ne_none _).symm

/-- A change of one client that leaves its descriptor. -/
theorem modify (h : Delivers s) {f : Client → Client}
    (hf : (f (s.clients i)).clientFd = (s.clients i).clientFd) : Delivers (s.modify i f) := by
  refine h.same rfl (fun j => ?_) rfl rfl rfl (fun _ _ => id) ⟨[], rfl, fun _ _ => List.not_mem_nil⟩
  by_cases hj : j = i
  · subst hj
    rw [clients_modify_self, hf]
  · rw [clients_modify_of_ne s f hj]

/-- An action other than the resumption of a client. -/
theorem act (h : Delivers s) {a : Action} (ha : ∀ o k, a ≠ .resumed o k) : Delivers (s.act a) :=
  h.same rfl (fun _ => rfl) rfl rfl rfl (fun _ _ => id)
    ⟨[a], rfl, fun o k hk => ha o k (List.mem_singleton.mp hk).symm⟩

/-- A client whose slot is its own, or nobody's, asks for a host. -/
theorem asked (h : Delivers s) (hi : i < s.made)
    (hslot : ∀ k, s.sel.handlerAt (s.clients i).clientFd = some (.client k) → k = i) :
    Delivers { s with resolving := i :: s.resolving } where
  made o ho := by
    rcases List.mem_cons.mp ho with rfl | ho
    · exact hi
    · exact h.made o ho
  job := h.job
  slot o ho := by
    rcases List.mem_cons.mp ho with rfl | ho
    · exact hslot
    · exact h.slot o ho
  resumed := h.resumed

end Delivers

/-- Between the statements of a handler of client `i`. -/
structure DeliversTo (i : ClientId) (s : Proxy) : Prop where
  delivers : Delivers s
  made : i < s.made
  slot : ∀ k, s.sel.handlerAt (s.clients i).clientFd = some (.client k) → k = i

namespace DeliversTo

/-- A quiet part of the handler. -/
theorem quiet (h : DeliversTo i s) (hq : Quiet i s s') : DeliversTo i s' where
  delivers := h.delivers.quiet hq
  made := hq.made ▸ h.made
  slot := by
    rw [hq.handlers, hq.client.clientFd]
    exact h.slot

/-- Closing inside the handler. -/
theorem closing (h : DeliversTo i s) (hc : Closing s s') : DeliversTo i s' where
  delivers := h.delivers.closing hc
  made := hc.made ▸ h.made
  slot := by
    intro k hk
    rw [hc.clients i] at hk
    rcases hc.handlers (s.clients i).clientFd with heq | heq
    · exact h.slot k (heq ▸ hk)
    · exact absurd (heq.symm.trans hk) (Option.some_ne_none _).symm

/-- A change of the client inside its handler. -/
theorem modify (h : DeliversTo i s) {f : Client → Client}
    (hf : (f (s.clients i)).clientFd = (s.clients i).clientFd) : DeliversTo i (s.modify i f) where
  delivers := h.delivers.modify hf
  made := h.made
  slot := by
    rw [clients_modify_self, hf]
    exact h.slot

/-- Giving the client its host starts a resolution for the client itself. -/
theorem setHost (h : DeliversTo i s) (host : List UInt8) (port : Int) :
    DeliversTo i (s.clientSetHost i host port) := by
  have hused : DeliversTo i (s.use i) := ⟨h.delivers.act nofun, h.made, h.slot⟩
  have hset : DeliversTo i ((s.use i).modify i fun _ => ((s.clients i).setHost host port).2) :=
    hused.modify (clientFd_setHost (s.clients i) host port)
  unfold clientSetHost
  simp only
  split
  · exact ⟨(hset.delivers.asked hset.made hset.slot).act nofun, hset.made, hset.slot⟩
  · exact hset

end DeliversTo

namespace Delivers

/-- A connection accepted on the descriptor of no client with a resolution. -/
theorem accept (h : Delivers s) {o : AcceptCalls} (hP : s.SparesPending (.accept o)) :
    Delivers (s.listenReadHandler o) := by
  cases ho : o.accept with
  | none =>
    unfold listenReadHandler
    rwa [ho]
  | some fd =>
    have ha := accepts_listenReadHandler (s := s) ho
    obtain ⟨l, hl, hpiped⟩ := (piped_transformationsNew (s.openFd s.made fd) s.made o.transf).trace
    have hpending : (s.listenReadHandler o).pending = s.pending := by
      unfold pending
      rw [ha.resolving, ha.notifying, ha.jobs]
    refine h.fewer (ha.made ▸ Nat.le_succ _) (fun k hk => ?_) (fun k hk => hpending ▸ hk)
      (fun j hj => ha.jobs ▸ hj) (fun k hk c hc => ?_) fun k c hc => ?_
    · rw [ha.others k (Nat.ne_of_lt hk)]
    · have hne : (s.clients k).clientFd ≠ fd := by
        intro heq
        exact hP k hk (heq ▸ ho)
      rcases Selector.register_eq s.sel fd (.client s.made) OP_READ with
        ⟨-, -, -, hsel, -⟩ | ⟨-, -, hsel⟩
      · rwa [ha.sel, hsel, Function.update_of_ne hne] at hc
      · rwa [ha.sel, hsel] at hc
    · rw [ha.trace, hl] at hc
      rcases List.mem_cons.mp hc with hc | hc
      · cases hc
      · rcases List.mem_append.mp hc with hc | hc
        · rcases hpiped _ hc with ⟨_, heq⟩ | ⟨_, heq⟩ <;> cases heq
        · exact (List.mem_cons.mp hc).resolve_left nofun

/-- Connecting an origin starts no resolution. -/
theorem connecting (h : Delivers s) (fd : Int) : Delivers (s.connecting i fd) := by
  have hopen : Delivers (s.openFd i fd) :=
    h.same rfl (fun _ => rfl) rfl rfl rfl (fun _ _ => id)
      ⟨[.opened i fd], rfl, fun _ _ hmem => by cases List.mem_singleton.mp hmem⟩
  exact hopen.modify rfl

/-- Whatever `client_block` ends in, it starts no resolution. -/
theorem blockEnd (h : Delivers s) {o : BlockCalls} (he : BlockEnd s i o s') : Delivers s' := by
  have hsel : ∀ (t : Proxy) (sel : Selector Handlers), Delivers t →
      (∀ fd k, sel.handlerAt fd = some (.client k) → t.sel.handlerAt fd = some (.client k)) →
      Delivers { t with sel := sel } := fun _ _ ht hslots =>
    ht.same rfl (fun _ => rfl) rfl rfl rfl hslots ⟨[], rfl, fun _ _ => List.not_mem_nil⟩
  cases he with
  | unresolved _ => exact h.closing (closing_unregister s _)
  | noSocket _ _ => exact h.modify rfl
  | unwatched _ _ _ => exact h.connecting _
  | @watched _ fd _ _ _ _ sel hslots _ =>
    refine hsel _ sel (h.connecting fd) fun fd' k hk => ?_
    rw [hslots] at hk
    by_cases hfd : fd' = fd
    · subst hfd
      rw [Function.update_self] at hk
      cases hk
    · rwa [Function.update_of_ne hfd] at hk
  | @refused _ fd _ _ sel hslots _ _ =>
    have hstop := hsel _ sel (h.connecting (i := i) fd) fun fd' k hk => hslots ▸ hk
    exact hstop.same rfl (fun _ => rfl) rfl rfl rfl (fun _ _ => id)
      ⟨[], rfl, fun _ _ => List.not_mem_nil⟩

/-- Every handler leaves the resolutions on their way, when `accept` spares their descriptors. -/
theorem call (h : Delivers s) (hslots : Slots s) {c : Call} (hreg : s.Registered c)
    (hP : s.SparesPending c) : Delivers (s.call c) := by
  have hun : ∀ (t : Proxy) (fd : Int), Delivers t → Delivers (t.unregister fd) :=
    fun t fd ht => ht.closing (closing_unregister t fd)
  cases c with
  | accept o => exact h.accept hP
  | clientRead i r =>
    obtain ⟨fd, hfd⟩ := hreg
    obtain ⟨hown, hi⟩ := hslots.client fd i hfd
    have hto : DeliversTo i s := by
      refine ⟨h, hi, fun k hk => ?_⟩
      rw [hown, hfd] at hk
      exact (Handlers.client.inj (Option.some.inj hk)).symm
    have hread := keeps_clientRead (i := i) (fun _ _ h hq => DeliversTo.quiet h hq)
      (fun _ host port h => h.setHost host port) (fun _ _ h => h.modify rfl)
      (fun t h => h.closing (closing_unregister t _)) hto r
    exact hread.delivers
  | clientWrite i r =>
    exact keeps_clientWrite (i := i) (fun _ _ h hq => h.quiet hq) (fun t h => hun t _ h) h r
  | clientBlock fd i o => exact h.blockEnd (hslots.clientBlock hreg o)
  | remoteRead i r =>
    exact keeps_remoteRead (i := i) (fun _ _ h hq => h.quiet hq) (fun t h => hun t _ h) h r
  | remoteWrite i r =>
    exact keeps_remoteWrite (i := i) (fun _ _ h hq => h.quiet hq) (fun _ _ h => h.modify rfl)
      (fun t h => hun t _ h) h r

/-- A resolver that ends leaves the client to be notified. -/
theorem resolve (h : Delivers s) (i : ClientId) (found : Bool) : Delivers (s.resolve i found) := by
  unfold Proxy.resolve
  split
  · next hi =>
    have hlists : Delivers { s with
        resolving := s.resolving.erase i, notifying := i :: s.notifying } := by
      refine h.fewer (Nat.le_refl _) (fun _ _ => rfl) (fun o ho => ?_) (fun _ hj => hj)
        (fun _ _ _ => id) fun _ _ => id
      rcases mem_pending.mp ho with ho | ho | ho
      · exact mem_pending.mpr (.inl (List.mem_of_mem_erase ho))
      · rcases List.mem_cons.mp ho with rfl | ho
        · exact mem_pending.mpr (.inl hi)
        · exact mem_pending.mpr (.inr (.inl ho))
      · exact mem_pending.mpr (.inr (.inr ho))
    exact hlists.modify rfl
  · exact h

/-- A notification becomes a job on the client's own descriptor. -/
theorem notify (h : Delivers s) (i : ClientId) : Delivers (s.notify i) := by
  unfold Proxy.notify
  split
  · next hi =>
    have hpending : ∀ o ∈ Proxy.pending { s with
        notifying := s.notifying.erase i
        jobs := ⟨(s.clients i).clientFd, i⟩ :: s.jobs }, o ∈ s.pending := by
      intro o ho
      rcases mem_pending.mp ho with ho | ho | ⟨j, hj, howner⟩
      · exact mem_pending.mpr (.inl ho)
      · exact mem_pending.mpr (.inr (.inl (List.mem_of_mem_erase ho)))
      · rcases List.mem_cons.mp hj with rfl | hj
        · exact mem_pending.mpr (.inr (.inl (howner ▸ hi)))
        · exact mem_pending.mpr (.inr (.inr ⟨j, hj, howner⟩))
    refine ⟨fun o ho => h.made o (hpending o ho), fun j hj => ?_,
      fun o ho => h.slot o (hpending o ho), h.resumed⟩
    rcases List.mem_cons.mp hj with rfl | hj
    · rfl
    · exact h.job j hj
  · exact h

/-- That resolutions lead to their clients is preserved by every run in which `accept` spares their
descriptors. -/
theorem preserved : Preserved (fun s c => s.SparesPending c ∧ Slots s) Delivers where
  call _ _ h _ hreg hP := h.call hP.2 hreg hP.1
  clock _ _ h := ⟨h.made, h.job, h.slot, h.resumed⟩
  resolve _ i found h := h.resolve i found
  notify _ i h := h.notify i
  resumed s s' j i h hj hi h' := by
    refine ⟨h'.made, h'.job, h'.slot, fun o k hk => ?_⟩
    rcases List.mem_cons.mp hk with heq | hk
    · obtain ⟨rfl, rfl⟩ := Action.resumed.inj heq
      have howner := mem_pending.mpr (.inr (.inr ⟨j, hj, rfl⟩))
      exact (h.slot j.owner howner k (h.job j hj ▸ hi)).symm
    · exact h'.resumed o k hk
  cleared s h := by
    refine h.fewer (Nat.le_refl _) (fun _ _ => rfl) (fun o ho => ?_) (fun j hj => ?_)
      (fun _ _ _ => id) fun _ _ => id
    · rcases mem_pending.mp ho with ho | ho | ⟨j, hj, -⟩
      · exact mem_pending.mpr (.inl ho)
      · exact mem_pending.mpr (.inr (.inl ho))
      · exact absurd hj List.not_mem_nil
    · exact absurd hj List.not_mem_nil
  crashed _ h := ⟨h.made, h.job, h.slot, h.resumed⟩

end Delivers

/-- In a run that accepts no connection on the descriptor of a client with a pending resolution,
every job resumes the client that asked. -/
theorem resumed_by_own (hs : Started s) {es : List Event} (h : Always SparesPending s es)
    (o k : ClientId) : .resumed o k ∈ (s.run es).trace → o = k := by
  have hstart : Delivers s := by
    obtain ⟨conf, registered, others, -, rfl⟩ := hs
    exact ⟨nofun, nofun, nofun, nofun⟩
  have hkept := (Slots.preserved.mono (Q := SparesPending) fun _ _ _ => trivial).and
    Delivers.preserved
  exact (hkept.run ⟨hs.slots, hstart⟩ h).2.resumed o k

/-- Of two clients that connect, the one is not resumed by the other's resolution. -/
theorem resumed_by_own_connects :
    .resumed 1 0 ∉ (mainLoop.run (connects 0 7 8 ++ connects 1 9 10)).trace := by
  intro hmem
  have howner := resumed_by_own started_mainLoop (by decide +kernel) 1 0 hmem
  exact absurd howner (by decide)

/-- The lowest descriptor that is not open. -/
def lowestFree (fds : List Int) : Int :=
  (((List.range (fds.length + 1)).map Int.ofNat).find? (· ∉ fds)).getD 0

/-- The system hands out the lowest free descriptor. -/
def AcceptsLowest (s : Proxy) : Call → Prop
  | .accept o => ∀ fd ∈ o.accept, fd = lowestFree s.fds
  | _ => True

instance (s : Proxy) : ∀ c, Decidable (s.AcceptsLowest c)
  | .accept _ => inferInstanceAs (Decidable (∀ fd ∈ _, _))
  | .clientBlock _ _ _ | .clientRead _ _ | .clientWrite _ _ | .remoteRead _ _ | .remoteWrite _ _ =>
    .isTrue trivial

/-- Client 0 asks for a host and leaves, client 1 comes, the host of client 0 is resolved. -/
def leavesEarly : List Event :=
  (connects 0 7 8).take 2 ++ [.read 7 none, .accept ⟨some 7, noPipes⟩, .resolved 0 true,
    .notified 0, .notifications []]

/-- The resolution of client 0 resumes client 1, which never asked. -/
theorem resumed_by_other : Always AcceptsLowest mainLoop leavesEarly ∧
    .resumed 0 1 ∈ (mainLoop.run leavesEarly).trace ∧
    .asked 1 ∉ (mainLoop.run leavesEarly).trace ∧ .ended 1 0 ∈ (mainLoop.run leavesEarly).trace := by
  decide +kernel

end Proxy

end HttpProxy
