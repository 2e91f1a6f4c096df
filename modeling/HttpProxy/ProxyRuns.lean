import HttpProxy.ProxyEffects

/-!
# Runs of the proxy

An event leads to calls of handlers (`Call`); a property of runs is one of every call and the state
it finds (`Always`, `Meets`). `Preserved` is what keeps an invariant through every run: each handler
keeps it, and so do the few steps that are no handler's.

`OsCall` is what the operating system promises: the descriptors a call returns are not open.
-/

namespace HttpProxy

/-- What happens to the proxy, with what the system calls return. -/
inductive Event
  /-- Time passes. -/
  | clock (now : Int)
  | accept (o : AcceptCalls)
  /-- `handle_read` is called for a descriptor. -/
  | read (fd : Int) (r : Option (List UInt8))
  | write (fd : Int) (r : Option Nat)
  /-- `handle_block` is called for a descriptor, whatever resolutions there are. -/
  | block (fd : Int) (o : BlockCalls)
  | resolved (i : ClientId) (found : Bool)
  | notified (i : ClientId)
  | notifications (os : List BlockCalls)
deriving DecidableEq, Repr

/-- A call of a handler. -/
inductive Call
  | accept (o : AcceptCalls)
  | clientRead (i : ClientId) (r : Option (List UInt8))
  | clientWrite (i : ClientId) (r : Option Nat)
  | clientBlock (fd : Int) (i : ClientId) (o : BlockCalls)
  | remoteRead (i : ClientId) (r : Option (List UInt8))
  | remoteWrite (i : ClientId) (r : Option Nat)
deriving DecidableEq, Repr

/-- The descriptors the calls of `transformations_new` return. -/
def TransfCalls.fds (t : TransfCalls) : List Int :=
  (t.pipeIn.elim [] fun p => [p.1, p.2]) ++ (t.pipeOut.elim [] fun p => [p.1, p.2]) ++
    t.errorFd.toList

namespace Proxy

def handleRead (s : Proxy) (fd : Int) (r : Option (List UInt8)) : Proxy :=
  match s.sel.handlerAt fd with
  | some (.client i) => s.clientRead i r
  | some (.remote i) => s.remoteRead i r
  | _ => s

def handleWrite (s : Proxy) (fd : Int) (r : Option Nat) : Proxy :=
  match s.sel.handlerAt fd with
  | some (.client i) => s.clientWrite i r
  | some (.remote i) => s.remoteWrite i r
  | _ => s

def handle (s : Proxy) : Event → Proxy
  | .clock now => { s with now := now }
  | .accept o => s.listenReadHandler o
  | .read fd r => s.handleRead fd r
  | .write fd r => s.handleWrite fd r
  | .block fd o => s.handleBlock fd o
  | .resolved i found => s.resolve i found
  | .notified i => s.notify i
  | .notifications os => s.handleBlockNotifications os

/-- A process that ended or hangs handles nothing. -/
def step (s : Proxy) (e : Event) : Proxy := if s.status = .running then s.handle e else s

def run (s : Proxy) (es : List Event) : Proxy := es.foldl step s

/-- The proxy when it enters its loop, with the descriptors it has open by then: those it registers
and the others. -/
def initial (conf : Config) (registered others : List Int) : Proxy where
  config := conf
  sel := registered.foldl (fun sel fd => (sel.register fd .other OP_READ).2) {}
  fds := registered ++ others

/-- The proxy enters its loop. -/
def Started (s : Proxy) : Prop :=
  ∃ conf registered others, (∀ fd ∈ registered ++ others, 0 ≤ fd) ∧
    s = initial conf registered others

def call (s : Proxy) : Call → Proxy
  | .accept o => s.listenReadHandler o
  | .clientRead i r => s.clientRead i r
  | .clientWrite i r => s.clientWrite i r
  | .clientBlock fd i o => s.clientBlock fd i o
  | .remoteRead i r => s.remoteRead i r
  | .remoteWrite i r => s.remoteWrite i r

/-! ## Properties of the calls of a run -/

/-- `P` holds of the call of `handle_block` for a descriptor. -/
def BlockMeets (P : Proxy → Call → Prop) (s : Proxy) (fd : Int) (o : BlockCalls) : Prop :=
  ∀ i, s.sel.handlerAt fd = some (.client i) → P s (.clientBlock fd i o)

/-- `P` holds of the calls for the jobs of `handle_block_notifications`. -/
def JobsMeet (P : Proxy → Call → Prop) (s : Proxy) : List Job → List BlockCalls → Prop
  | [], _ => True
  | j :: jobs, os =>
    BlockMeets P s j.fd (os.headD ⟨none, .failed⟩) ∧
      ((s.handleJob j (os.headD ⟨none, .failed⟩)).status = .running →
        JobsMeet P (s.handleJob j (os.headD ⟨none, .failed⟩)) jobs os.tail)

/-- `P` holds of the calls an event leads to. -/
def Meets (P : Proxy → Call → Prop) (s : Proxy) : Event → Prop
  | .accept o => P s (.accept o)
  | .read fd r =>
    (∀ i, s.sel.handlerAt fd = some (.client i) → P s (.clientRead i r)) ∧
      ∀ i, s.sel.handlerAt fd = some (.remote i) → P s (.remoteRead i r)
  | .write fd r =>
    (∀ i, s.sel.handlerAt fd = some (.client i) → P s (.clientWrite i r)) ∧
      ∀ i, s.sel.handlerAt fd = some (.remote i) → P s (.remoteWrite i r)
  | .block fd o => BlockMeets P s fd o
  | .notifications os => JobsMeet P s s.jobs os
  | .clock _ | .resolved _ _ | .notified _ => True

/-- `P` holds of every call of a run. -/
def Always (P : Proxy → Call → Prop) (s : Proxy) : List Event → Prop
  | [] => True
  | e :: es => (s.status = .running → Meets P s e) ∧ Always P (s.step e) es

/-- A call is for the client that its descriptor is registered with. -/
def Registered (s : Proxy) : Call → Prop
  | .accept _ => True
  | .clientRead i _ | .clientWrite i _ => ∃ fd, s.sel.handlerAt fd = some (.client i)
  | .clientBlock fd i _ => s.sel.handlerAt fd = some (.client i)
  | .remoteRead i _ | .remoteWrite i _ => ∃ fd, s.sel.handlerAt fd = some (.remote i)

/-- What keeps `I` through every run whose calls meet `P`. -/
structure Preserved (P : Proxy → Call → Prop) (I : Proxy → Prop) : Prop where
  call : ∀ s c, I s → s.status = .running → s.Registered c → P s c → I (s.call c)
  clock : ∀ s now, I s → I { s with now := now }
  resolve : ∀ s i found, I s → I (s.resolve i found)
  notify : ∀ s i, I s → I (s.notify i)
  resumed : ∀ s s' j i, I s → j ∈ s.jobs → s.sel.handlerAt j.fd = some (.client i) → I s' →
    I (s'.act (.resumed j.owner i))
  cleared : ∀ s, I s → I { s with jobs := [] }
  crashed : ∀ s, I s → I (s.stop .crashed)

/-- The system returns descriptors that are not open, each once. -/
def OsCall (s : Proxy) : Call → Prop
  | .accept o =>
    ∀ fd ∈ o.accept, (fd :: o.transf.fds).Nodup ∧ ∀ x ∈ fd :: o.transf.fds, 0 ≤ x ∧ x ∉ s.fds
  | .clientBlock _ _ o => ∀ fd ∈ o.socket, 0 ≤ fd ∧ fd ∉ s.fds
  | _ => True

instance (s : Proxy) : ∀ c, Decidable (s.OsCall c)
  | .accept _ => inferInstanceAs (Decidable (∀ fd ∈ _, _ ∧ ∀ x ∈ _, _))
  | .clientBlock _ _ _ => inferInstanceAs (Decidable (∀ fd ∈ _, _))
  | .clientRead _ _ | .clientWrite _ _ | .remoteRead _ _ | .remoteWrite _ _ => .isTrue trivial

variable {P : Proxy → Call → Prop} {I : Proxy → Prop} {s : Proxy}

namespace Preserved

/-- What `I` is needed for when `J` is kept. -/
theorem and {J : Proxy → Prop} (h : Preserved P I) (h' : Preserved (fun s c => P s c ∧ I s) J) :
    Preserved P fun s => I s ∧ J s where
  call s c hs hrun hreg hP := ⟨h.call s c hs.1 hrun hreg hP, h'.call s c hs.2 hrun hreg ⟨hP, hs.1⟩⟩
  clock s now hs := ⟨h.clock s now hs.1, h'.clock s now hs.2⟩
  resolve s i found hs := ⟨h.resolve s i found hs.1, h'.resolve s i found hs.2⟩
  notify s i hs := ⟨h.notify s i hs.1, h'.notify s i hs.2⟩
  resumed s s' j i hs hj hi hs' :=
    ⟨h.resumed s s' j i hs.1 hj hi hs'.1, h'.resumed s s' j i hs.2 hj hi hs'.2⟩
  cleared s hs := ⟨h.cleared s hs.1, h'.cleared s hs.2⟩
  crashed s hs := ⟨h.crashed s hs.1, h'.crashed s hs.2⟩

/-- An invariant preserved under weaker conditions is preserved under stronger ones. -/
theorem mono {Q : Proxy → Call → Prop} (h : Preserved P I) (hQ : ∀ s c, Q s c → P s c) :
    Preserved Q I :=
  { h with call := fun s c hs hrun hreg hP => h.call s c hs hrun hreg (hQ s c hP) }

/-- An invariant is preserved under any name. -/
theorem congr {J : Proxy → Prop} (h : Preserved P I) (hIJ : ∀ s, J s ↔ I s) : Preserved P J := by
  obtain rfl : J = I := funext fun s => propext (hIJ s)
  exact h

/-- The handler of a job preserves what handlers preserve. -/
theorem handleBlock (h : Preserved P I) (hs : I s) (hrun : s.status = .running) {fd : Int}
    {o : BlockCalls} (hP : BlockMeets P s fd o) : I (s.handleBlock fd o) := by
  unfold Proxy.handleBlock
  split
  · exact hs
  · exact hs
  · exact h.crashed s hs
  · next i hi => exact h.call s (.clientBlock fd i o) hs hrun hi (hP i hi)

/-- Handling a job takes down no other. -/
theorem jobs_handleBlock (s : Proxy) (fd : Int) (o : BlockCalls) :
    (s.handleBlock fd o).jobs = s.jobs := by
  unfold Proxy.handleBlock
  split
  · rfl
  · rfl
  · rfl
  · exact jobs_clientBlock s _ _ _

theorem jobs_handleJob (s : Proxy) (j : Job) (o : BlockCalls) : (s.handleJob j o).jobs = s.jobs := by
  unfold Proxy.handleJob
  split <;> exact jobs_handleBlock s _ _

/-- A job of the list preserves what handlers preserve. -/
theorem handleJob (h : Preserved P I) (hs : I s) (hrun : s.status = .running) {j : Job}
    (hj : j ∈ s.jobs) {o : BlockCalls} (hP : BlockMeets P s j.fd o) : I (s.handleJob j o) := by
  unfold Proxy.handleJob
  split
  · next i hi => exact h.resumed _ _ j i hs hj hi (h.handleBlock hs hrun hP)
  · exact h.handleBlock hs hrun hP

/-- The jobs taken down preserve, one after the other, what handlers preserve. The induction is on the
list. -/
theorem handleJobs (h : Preserved P I) {jobs : List Job} (hs : I s) (hrun : s.status = .running)
    (hjobs : ∀ j ∈ jobs, j ∈ s.jobs) {os : List BlockCalls} (hP : JobsMeet P s jobs os) :
    I (s.handleJobs jobs os) := by
  induction jobs generalizing s os with
  | nil => exact h.cleared s hs
  | cons j jobs ih =>
    have hjob := h.handleJob hs hrun (hjobs j List.mem_cons_self) hP.1
    unfold Proxy.handleJobs
    simp only
    split
    · exact hjob
    · next hstatus =>
      have hrunning := not_not.mp hstatus
      refine ih hjob hrunning ?_ (hP.2 hrunning)
      intro j' hj'
      rw [jobs_handleJob]
      exact hjobs j' (List.mem_cons_of_mem j hj')

/-- Every event preserves what handlers preserve. -/
theorem handle (h : Preserved P I) (hs : I s) (hrun : s.status = .running) {e : Event}
    (hP : Meets P s e) : I (s.handle e) := by
  cases e with
  | clock now => exact h.clock s now hs
  | accept o => exact h.call s (.accept o) hs hrun trivial hP
  | read fd r =>
    change I (s.handleRead fd r)
    unfold handleRead
    split
    · next i hi => exact h.call s (.clientRead i r) hs hrun ⟨fd, hi⟩ (hP.1 i hi)
    · next i hi => exact h.call s (.remoteRead i r) hs hrun ⟨fd, hi⟩ (hP.2 i hi)
    · exact hs
  | write fd r =>
    change I (s.handleWrite fd r)
    unfold handleWrite
    split
    · next i hi => exact h.call s (.clientWrite i r) hs hrun ⟨fd, hi⟩ (hP.1 i hi)
    · next i hi => exact h.call s (.remoteWrite i r) hs hrun ⟨fd, hi⟩ (hP.2 i hi)
    · exact hs
  | block fd o => exact h.handleBlock hs hrun hP
  | resolved i found => exact h.resolve s i found hs
  | notified i => exact h.notify s i hs
  | notifications os => exact h.handleJobs hs hrun (fun _ hj => hj) hP

/-- Every step preserves what handlers preserve: a process that has ended does nothing. -/
theorem step (h : Preserved P I) (hs : I s) {e : Event}
    (hP : s.status = .running → Meets P s e) : I (s.step e) := by
  unfold Proxy.step
  split
  · next hrun => exact h.handle hs hrun (hP hrun)
  · exact hs

/-- What the handlers keep holds after every run. -/
theorem run (h : Preserved P I) {es : List Event} (hs : I s) (hes : Always P s es) :
    I (s.run es) := by
  induction es generalizing s with
  | nil => exact hs
  | cons e es ih => exact ih (h.step hs hes.1) hes.2

end Preserved

/-- A condition on the handler of a job can be weakened. -/
theorem BlockMeets.imp {Q : Proxy → Call → Prop} (h : ∀ s c, P s c → Q s c) {fd : Int}
    {o : BlockCalls} (hP : BlockMeets P s fd o) : BlockMeets Q s fd o :=
  fun i hi => h _ _ (hP i hi)

/-- A condition on the jobs can be weakened. -/
theorem JobsMeet.imp {Q : Proxy → Call → Prop} (h : ∀ s c, P s c → Q s c) {jobs : List Job}
    {os : List BlockCalls} (hP : JobsMeet P s jobs os) : JobsMeet Q s jobs os := by
  induction jobs generalizing s os with
  | nil => trivial
  | cons j jobs ih => exact ⟨hP.1.imp h, fun hrun => ih (hP.2 hrun)⟩

/-- A condition on an event can be weakened. -/
theorem Meets.imp {Q : Proxy → Call → Prop} (h : ∀ s c, P s c → Q s c) {e : Event}
    (hP : Meets P s e) : Meets Q s e := by
  cases e with
  | accept o => exact h _ _ hP
  | read fd r => exact ⟨fun i hi => h _ _ (hP.1 i hi), fun i hi => h _ _ (hP.2 i hi)⟩
  | write fd r => exact ⟨fun i hi => h _ _ (hP.1 i hi), fun i hi => h _ _ (hP.2 i hi)⟩
  | block fd o => exact BlockMeets.imp h hP
  | notifications os => exact JobsMeet.imp h hP
  | clock _ | resolved _ _ | notified _ => trivial

/-- A condition on a run can be weakened. -/
theorem Always.imp {Q : Proxy → Call → Prop} (h : ∀ s c, P s c → Q s c) {es : List Event}
    (hP : Always P s es) : Always Q s es := by
  induction es generalizing s with
  | nil => trivial
  | cons e es ih => exact ⟨fun hrun => (hP.1 hrun).imp h, ih hP.2⟩

/-- Events one after the other are a run and a run from its end. -/
theorem run_append (s : Proxy) (es es' : List Event) : s.run (es ++ es') = (s.run es).run es' :=
  List.foldl_append

/-- A condition on two runs is one on each. -/
theorem always_append {P : Proxy → Call → Prop} {es es' : List Event} :
    Always P s (es ++ es') ↔ Always P s es ∧ Always P (s.run es) es' := by
  induction es generalizing s with
  | nil => exact ⟨fun h => ⟨trivial, h⟩, fun h => h.2⟩
  | cons e es ih =>
    constructor
    · intro h
      obtain ⟨hes, hes'⟩ := ih.mp h.2
      exact ⟨⟨h.1, hes⟩, hes'⟩
    · intro h
      exact ⟨h.1.1, ih.mpr ⟨h.1.2, h.2⟩⟩

/-- A condition that always holds is met by every run. -/
theorem always_of_forall (h : ∀ s c, P s c) (s : Proxy) (es : List Event) : Always P s es := by
  have hjobs : ∀ (jobs : List Job) (t : Proxy) (os : List BlockCalls), JobsMeet P t jobs os := by
    intro jobs
    induction jobs with
    | nil => exact fun _ _ => trivial
    | cons j jobs ih => exact fun t os => ⟨fun _ _ => h _ _, fun _ => ih _ _⟩
  induction es generalizing s with
  | nil => trivial
  | cons e es ih =>
    refine ⟨fun _ => ?_, ih _⟩
    cases e with
    | accept o => exact h _ _
    | read fd r => exact ⟨fun _ _ => h _ _, fun _ _ => h _ _⟩
    | write fd r => exact ⟨fun _ _ => h _ _, fun _ _ => h _ _⟩
    | block fd o => exact fun _ _ => h _ _
    | notifications os => exact hjobs _ _ _
    | clock _ | resolved _ _ | notified _ => trivial

/-! ## Deciding a property of a run -/

instance decidableOfClient (s : Proxy) (fd : Int) (Q : ClientId → Prop) [∀ i, Decidable (Q i)] :
    Decidable (∀ i, s.sel.handlerAt fd = some (.client i) → Q i) :=
  match s.sel.handlerAt fd with
  | some (.client i) =>
    decidable_of_iff (Q i)
      ⟨fun hQ _ hj => Handlers.client.inj (Option.some.inj hj) ▸ hQ, fun hQ => hQ i rfl⟩
  | none => .isTrue fun _ hj => nomatch hj
  | some (.remote _) | some .other => .isTrue fun _ hj => nomatch Option.some.inj hj

instance decidableOfRemote (s : Proxy) (fd : Int) (Q : ClientId → Prop) [∀ i, Decidable (Q i)] :
    Decidable (∀ i, s.sel.handlerAt fd = some (.remote i) → Q i) :=
  match s.sel.handlerAt fd with
  | some (.remote i) =>
    decidable_of_iff (Q i)
      ⟨fun hQ _ hj => Handlers.remote.inj (Option.some.inj hj) ▸ hQ, fun hQ => hQ i rfl⟩
  | none => .isTrue fun _ hj => nomatch hj
  | some (.client _) | some .other => .isTrue fun _ hj => nomatch Option.some.inj hj

section Decide

variable [∀ s c, Decidable (P s c)]

instance (s : Proxy) (fd : Int) (o : BlockCalls) : Decidable (BlockMeets P s fd o) :=
  decidableOfClient s fd _

instance decidableJobsMeet :
    ∀ (jobs : List Job) (s : Proxy) (os : List BlockCalls), Decidable (JobsMeet P s jobs os)
  | [], _, _ => .isTrue trivial
  | j :: jobs, s, os =>
    have := decidableJobsMeet jobs (s.handleJob j (os.headD ⟨none, .failed⟩)) os.tail
    inferInstanceAs (Decidable (_ ∧ (_ → _)))

instance (s : Proxy) : ∀ e, Decidable (Meets P s e)
  | .accept o => inferInstanceAs (Decidable (P s (.accept o)))
  | .read _ _ | .write _ _ => inferInstanceAs (Decidable (_ ∧ _))
  | .block fd o => inferInstanceAs (Decidable (BlockMeets P s fd o))
  | .notifications os => decidableJobsMeet s.jobs s os
  | .clock _ | .resolved _ _ | .notified _ => .isTrue trivial

instance decidableAlways : ∀ (es : List Event) (s : Proxy), Decidable (Always P s es)
  | [], _ => .isTrue trivial
  | e :: es, s =>
    have := decidableAlways es (s.step e)
    inferInstanceAs (Decidable ((_ → _) ∧ _))

end Decide

/-! ## A run -/

/-- The proxy of `main`, with its sockets and the log's pipe. -/
def mainLoop : Proxy := initial mainConfigurations [3, 4, 5] [0, 1, 2, 6]

/-- The proxy as `main` starts it is a state to start from. -/
theorem started_mainLoop : Started mainLoop := ⟨_, _, _, by decide, rfl⟩

/-- `transformations_new` without a pipe. -/
def noPipes : TransfCalls := ⟨none, none, none, false⟩

/-- Client `i` connects, asks for a host and gets a connection to it. -/
def connects (i : ClientId) (fd origin : Int) : List Event :=
  [.accept ⟨some fd, noPipes⟩, .read fd (some (lit "GET / HTTP/1.1\r\nHost: a\r")),
    .resolved i true, .notified i, .notifications [⟨some origin, .inProgress⟩]]

end Proxy

end HttpProxy
