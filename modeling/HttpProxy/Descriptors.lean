import HttpProxy.Asking

/-!
# The clients' descriptors

Each descriptor opened for a client is closed once, by the end of its `client_close`, in the runs
that avoid four things: a transformation, whose ends nobody closes; `transformations_new` failing
behind its pipes without closing them; a client closed while its origin is registered, when
`client_free_resources` closes the origin and `remote_close` closes it again; and a client that is
given a new origin while it has one.
-/

namespace HttpProxy

/-- How often a descriptor was opened for a client. -/
def opens (i : ClientId) (fd : Int) (trace : List Action) : Nat := trace.count (.opened i fd)

/-- How often a client closed a descriptor. -/
def closes (i : ClientId) (fd : Int) (trace : List Action) : Nat := trace.count (.closed i fd)

section Count

variable (i j : ClientId) (fd x seconds : Int) (trace : List Action)

@[simp] theorem opens_opened : opens j x (.opened i fd :: trace) =
    opens j x trace + if i = j ∧ fd = x then 1 else 0 := by
  simp [opens, List.count_cons]

@[simp] theorem opens_closed : opens j x (.closed i fd :: trace) = opens j x trace := by
  simp [opens]

@[simp] theorem opens_ended : opens j x (.ended i seconds :: trace) = opens j x trace := by
  simp [opens]

@[simp] theorem closes_opened : closes j x (.opened i fd :: trace) = closes j x trace := by
  simp [closes]

@[simp] theorem closes_closed : closes j x (.closed i fd :: trace) =
    closes j x trace + if i = j ∧ fd = x then 1 else 0 := by
  simp [closes, List.count_cons]

@[simp] theorem closes_ended : closes j x (.ended i seconds :: trace) = closes j x trace := by
  simp [closes]

end Count

/-- A client closes a descriptor at most as often as it was opened for it, and when its close is
over just as often; newest first. -/
structure Balanced (trace : List Action) : Prop where
  once : ∀ t, t <:+ trace → ∀ i fd, closes i fd t ≤ opens i fd t
  freed : ∀ i seconds t, .ended i seconds :: t <:+ trace → ∀ fd, opens i fd t = closes i fd t

/-- Neither opens nor closes a descriptor, nor the end of a client. -/
def Action.Still (a : Action) : Prop :=
  (∀ i fd, a ≠ .opened i fd) ∧ (∀ i fd, a ≠ .closed i fd) ∧ ∀ i seconds, a ≠ .ended i seconds

namespace Action.Still

variable {a : Action} {i : ClientId} {fd : Int} {trace : List Action}

/-- An action that opens nothing is not counted. -/
theorem opens_cons (h : a.Still) : opens i fd (a :: trace) = opens i fd trace :=
  List.count_cons_of_ne (h.1 i fd)

/-- An action that closes nothing is not counted. -/
theorem closes_cons (h : a.Still) : closes i fd (a :: trace) = closes i fd trace :=
  List.count_cons_of_ne (h.2.1 i fd)

/-- Actions that open nothing are not counted. -/
theorem opens_append {l : List Action} (h : ∀ a ∈ l, a.Still) :
    opens i fd (l ++ trace) = opens i fd trace := by
  induction l with
  | nil => rfl
  | cons a l ih =>
    rw [List.cons_append, (h a List.mem_cons_self).opens_cons]
    exact ih fun b hb => h b (List.mem_cons_of_mem a hb)

/-- Actions that close nothing are not counted. -/
theorem closes_append {l : List Action} (h : ∀ a ∈ l, a.Still) :
    closes i fd (l ++ trace) = closes i fd trace := by
  induction l with
  | nil => rfl
  | cons a l ih =>
    rw [List.cons_append, (h a List.mem_cons_self).closes_cons]
    exact ih fun b hb => h b (List.mem_cons_of_mem a hb)

/-- What a handler does on its client's buffers opens and closes nothing. -/
theorem of_quiet (h : a.Quiet i) : a.Still := by
  cases a with
  | used j => exact ⟨nofun, nofun, nofun⟩
  | received j bytes => exact ⟨nofun, nofun, nofun⟩
  | sent j bytes => exact ⟨nofun, nofun, nofun⟩
  | fetched j bytes => exact ⟨nofun, nofun, nofun⟩
  | delivered j bytes => exact ⟨nofun, nofun, nofun⟩
  | _ => exact h.elim

end Action.Still

namespace Balanced

variable {trace : List Action} {i : ClientId} {fd : Int}

theorem nil : Balanced [] where
  once t ht i fd := by
    rw [List.suffix_nil.mp ht]
    exact Nat.le_refl _
  freed i seconds t ht := by
    have hnil := List.suffix_nil.mp ht
    cases hnil

/-- An action that is no client's end. -/
theorem cons (h : Balanced trace) {a : Action} (hend : ∀ i seconds, a ≠ .ended i seconds)
    (hcount : ∀ i fd, closes i fd (a :: trace) ≤ opens i fd (a :: trace)) :
    Balanced (a :: trace) where
  once t ht := by
    rcases List.suffix_cons_iff.mp ht with rfl | ht
    · exact hcount
    · exact h.once t ht
  freed i seconds t ht := by
    rcases List.suffix_cons_iff.mp ht with heq | ht
    · exact absurd (List.cons.inj heq).1.symm (hend i seconds)
    · exact h.freed i seconds t ht

/-- An action that opens and closes nothing keeps the balance. -/
theorem still (h : Balanced trace) {a : Action} (ha : a.Still) : Balanced (a :: trace) := by
  refine h.cons ha.2.2 fun i fd => ?_
  rw [ha.opens_cons, ha.closes_cons]
  exact h.once trace (List.suffix_refl _) i fd

/-- Actions that open and close nothing keep the balance. -/
theorem append_still (h : Balanced trace) {l : List Action} (hl : ∀ a ∈ l, a.Still) :
    Balanced (l ++ trace) := by
  induction l with
  | nil => exact h
  | cons a l ih =>
    exact (ih fun b hb => hl b (List.mem_cons_of_mem a hb)).still (hl a List.mem_cons_self)

/-- A descriptor that is opened can be closed once more. -/
theorem opened (h : Balanced trace) (i : ClientId) (fd : Int) :
    Balanced (.opened i fd :: trace) := by
  refine h.cons nofun fun j x => ?_
  rw [closes_opened, opens_opened]
  exact (h.once trace (List.suffix_refl _) j x).trans (Nat.le_add_right _ _)

/-- A descriptor that was opened more often than closed can be closed. -/
theorem closed (h : Balanced trace) (hopen : closes i fd trace < opens i fd trace) :
    Balanced (.closed i fd :: trace) := by
  refine h.cons nofun fun j x => ?_
  rw [closes_closed, opens_closed]
  split
  · next hsame =>
    obtain ⟨rfl, rfl⟩ := hsame
    exact hopen
  · exact h.once trace (List.suffix_refl _) j x

/-- A client's close is over when all it opened is closed. -/
theorem ended (h : Balanced trace) (hfreed : ∀ fd, opens i fd trace = closes i fd trace)
    (seconds : Int) : Balanced (.ended i seconds :: trace) where
  once t ht := by
    rcases List.suffix_cons_iff.mp ht with rfl | ht
    · intro j x
      rw [closes_ended, opens_ended]
      exact h.once trace (List.suffix_refl _) j x
    · exact h.once t ht
  freed j d t ht := by
    rcases List.suffix_cons_iff.mp ht with heq | ht
    · obtain ⟨hhead, rfl⟩ := List.cons.inj heq
      obtain ⟨rfl, -⟩ := Action.ended.inj hhead
      exact hfreed
    · exact h.freed j d t ht

end Balanced

/-- `transformations_new` fails where it closes what it opened: at a `pipe` or at `fork`. -/
def TransfCalls.FailsClean (t : TransfCalls) (conf : Config) : Prop :=
  t.pipeIn = none ∨ t.pipeOut = none ∨
    configGet (cLit "error_file") conf ≠ none ∧ t.errorFd ≠ none ∧ t.fork = false

instance (t : TransfCalls) (conf : Config) : Decidable (t.FailsClean conf) :=
  inferInstanceAs (Decidable (_ ∨ _ ∨ _ ∧ _ ∧ _))

namespace Proxy

/-- The calls that conserve descriptors. -/
def Conserving (s : Proxy) : Call → Prop
  | .accept o => o.accept ≠ none → o.transf.FailsClean s.config
  | .clientRead i r => s.ReadFails i r → s.sel.handlerAt (s.clients i).originFd = none
  | .clientWrite i r => s.WriteFails i r → s.sel.handlerAt (s.clients i).originFd = none
  | .clientBlock _ i o =>
    (s.clients i).host.resolved = true → o.socket ≠ none → (s.clients i).originFd = -1
  | .remoteRead _ _ | .remoteWrite _ _ => True

instance (s : Proxy) : ∀ c, Decidable (s.Conserving c)
  | .accept _ | .clientRead _ _ | .clientWrite _ _ => inferInstanceAs (Decidable (_ → _))
  | .clientBlock _ _ _ => inferInstanceAs (Decidable (_ → _ → _))
  | .remoteRead _ _ | .remoteWrite _ _ => .isTrue trivial

variable {s s' : Proxy} {i j : ClientId}

/-! ## `transformations_new` -/

/-- Descriptors opened for a client, one after the other. -/
def openFds (s : Proxy) (i : ClientId) (l : List Int) : Proxy := l.foldl (·.openFd i ·) s

/-- Descriptors closed by a client, one after the other. -/
def closeFds (s : Proxy) (i : ClientId) (l : List Int) : Proxy := l.foldl (·.closeFd i ·) s

/-- Opening keeps the balance. -/
theorem balanced_openFds (l : List Int) (h : Balanced s.trace) :
    Balanced (s.openFds i l).trace := by
  induction l generalizing s with
  | nil => exact h
  | cons fd l ih => exact ih (s := s.openFd i fd) (h.opened i fd)

/-- Closing what is open keeps the balance, when nothing is closed twice. -/
theorem balanced_closeFds {l : List Int} (hl : l.Nodup)
    (hopen : ∀ x ∈ l, closes i x s.trace < opens i x s.trace) (h : Balanced s.trace) :
    Balanced (s.closeFds i l).trace := by
  induction l generalizing s with
  | nil => exact h
  | cons fd l ih =>
    obtain ⟨hfd, hl⟩ := List.nodup_cons.mp hl
    refine ih (s := s.closeFd i fd) hl (fun x hx => ?_) (h.closed (hopen fd List.mem_cons_self))
    have hne : ¬fd = x := fun heq => hfd (heq ▸ hx)
    change closes i x (.closed i fd :: s.trace) < opens i x (.closed i fd :: s.trace)
    rw [closes_closed, opens_closed, if_neg fun h => hne h.2]
    exact hopen x (List.mem_cons_of_mem fd hx)

/-- What was opened is counted for its client alone. -/
theorem counts_openFds (s : Proxy) (i j : ClientId) (l : List Int) (x : Int) :
    opens j x (s.openFds i l).trace = opens j x s.trace + (if i = j then l.count x else 0) ∧
      closes j x (s.openFds i l).trace = closes j x s.trace := by
  induction l generalizing s with
  | nil => exact ⟨by simp [openFds], rfl⟩
  | cons fd l ih =>
    obtain ⟨hopens, hcloses⟩ := ih (s.openFd i fd)
    refine ⟨hopens.trans ?_, hcloses.trans (closes_opened _ _ _ _ _)⟩
    change opens j x (.opened i fd :: s.trace) + _ = _
    rw [opens_opened, List.count_cons]
    by_cases hij : i = j
    · simp only [hij, true_and, if_true, beq_iff_eq]
      omega
    · simp only [hij, false_and, if_false]

/-- What was closed is counted for its client alone. -/
theorem counts_closeFds (s : Proxy) (i j : ClientId) (l : List Int) (x : Int) :
    opens j x (s.closeFds i l).trace = opens j x s.trace ∧
      closes j x (s.closeFds i l).trace =
        closes j x s.trace + (if i = j then l.count x else 0) := by
  induction l generalizing s with
  | nil => exact ⟨rfl, by simp [closeFds]⟩
  | cons fd l ih =>
    obtain ⟨hopens, hcloses⟩ := ih (s.closeFd i fd)
    refine ⟨hopens.trans (opens_closed _ _ _ _ _), hcloses.trans ?_⟩
    change closes j x (.closed i fd :: s.trace) + _ = _
    rw [closes_closed, List.count_cons]
    by_cases hij : i = j
    · simp only [hij, true_and, if_true, beq_iff_eq]
      omega
    · simp only [hij, false_and, if_false]

/-- What was opened is open. -/
theorem mem_fds_openFds (s : Proxy) (i : ClientId) (l : List Int) (x : Int) :
    x ∈ (s.openFds i l).fds ↔ x ∈ l ∨ x ∈ s.fds := by
  induction l generalizing s with
  | nil => exact (or_iff_right List.not_mem_nil).symm
  | cons fd l ih =>
    refine (ih (s.openFd i fd)).trans ?_
    rw [List.mem_cons, show (s.openFd i fd).fds = fd :: s.fds from rfl, List.mem_cons]
    tauto

/-- What was closed is not open. -/
theorem mem_fds_closeFds (s : Proxy) (i : ClientId) (l : List Int) (x : Int) :
    x ∈ (s.closeFds i l).fds ↔ x ∉ l ∧ x ∈ s.fds := by
  induction l generalizing s with
  | nil => exact (and_iff_right List.not_mem_nil).symm
  | cons fd l ih =>
    refine (ih (s.closeFd i fd)).trans ?_
    rw [List.mem_cons, show (s.closeFd i fd).fds = s.fds.filter (· ≠ fd) from rfl,
      List.mem_filter, decide_eq_true_iff]
    tauto

/-- What was opened for a client is closed again. -/
structure Restores (s s' : Proxy) : Prop where
  balanced : Balanced s.trace → Balanced s'.trace
  counts : ∀ j x, opens j x s'.trace + closes j x s.trace = closes j x s'.trace + opens j x s.trace
  fds : ∀ x, x ∈ s'.fds ↔ x ∈ s.fds

/-- Descriptors that were not open, opened and then closed in any order, leave everything as it
was. -/
theorem restores_closeFds (s : Proxy) (i : ClientId) {l l' : List Int} (hl : l.Nodup)
    (hnew : ∀ x ∈ l, x ∉ s.fds) (hperm : l'.Perm l) :
    Restores s ((s.openFds i l).closeFds i l') where
  balanced h := by
    refine balanced_closeFds (hperm.nodup_iff.mpr hl) (fun x hx => ?_) (balanced_openFds l h)
    obtain ⟨hopens, hcloses⟩ := counts_openFds s i i l x
    have hmem : 0 < l.count x := List.count_pos_iff.mpr (hperm.mem_iff.mp hx)
    have honce := h.once s.trace (List.suffix_refl _) i x
    rw [hopens, hcloses, if_pos rfl]
    omega
  counts j x := by
    obtain ⟨hopens, hcloses⟩ := counts_closeFds (s.openFds i l) i j l' x
    obtain ⟨hopens', hcloses'⟩ := counts_openFds s i j l x
    rw [hopens, hcloses, hopens', hcloses', hperm.count_eq]
    omega
  fds x := by
    rw [mem_fds_closeFds, mem_fds_openFds, hperm.mem_iff]
    constructor
    · exact fun h => h.2.resolve_left h.1
    · exact fun h => ⟨fun hx => hnew x hx h, .inr h⟩

/-- `transformations_new` that fails where it closes its pipes leaves everything as it was. -/
theorem restores_transformationsNew (s : Proxy) (i : ClientId) {t : TransfCalls}
    (hnodup : t.fds.Nodup) (hnew : ∀ x ∈ t.fds, x ∉ s.fds) (ht : t.FailsClean s.config) :
    Restores s (s.transformationsNew i t).2 := by
  obtain ⟨pin, pout, error, fork⟩ := t
  unfold TransfCalls.fds at hnodup hnew
  cases pin with
  | none => exact ⟨id, fun _ _ => Nat.add_comm _ _, fun _ => Iff.rfl⟩
  | some pin =>
    cases pout with
    | none =>
      have hin := (List.nodup_append.mp (List.nodup_append.mp hnodup).1).1
      have hfree : ∀ x ∈ [pin.1, pin.2], x ∉ s.fds :=
        fun x hx => hnew x (List.mem_append_left _ (List.mem_append_left _ hx))
      exact restores_closeFds s i hin hfree (.refl _)
    | some pout =>
      obtain ⟨hfile, herror, rfl⟩ := (ht.resolve_left nofun).resolve_left nofun
      cases error with
      | none => exact absurd rfl herror
      | some error =>
        have hall : transformationsNew s i ⟨some pin, some pout, some error, false⟩ =
            (none, (s.openFds i [pin.1, pin.2, pout.1, pout.2, error]).closeFds i
              [pout.1, pout.2, pin.1, pin.2, error]) := by
          unfold transformationsNew
          simp only
          exact if_neg hfile
        rw [hall]
        refine restores_closeFds s i hnodup hnew ?_
        have hswap : ([pout.1, pout.2] ++ [pin.1, pin.2]).Perm ([pin.1, pin.2] ++ [pout.1, pout.2]) :=
          List.perm_append_comm
        exact hswap.append_right [error]

/-- `transformations_new` leaves no descriptor open where it fails if and only if it fails at a
`pipe` or at `fork`. -/
theorem transformationsNew_failing (s : Proxy) (i : ClientId) {t : TransfCalls}
    (hnodup : t.fds.Nodup) (hnew : ∀ x ∈ t.fds, x ∉ s.fds)
    (hfail : (s.transformationsNew i t).1 = none) :
    (∀ x, x ∈ (s.transformationsNew i t).2.fds ↔ x ∈ s.fds) ↔ t.FailsClean s.config := by
  refine ⟨fun hfds => ?_, fun ht => (restores_transformationsNew s i hnodup hnew ht).fds⟩
  obtain ⟨pin, pout, error, fork⟩ := t
  cases pin with
  | none => exact .inl rfl
  | some pin =>
    cases pout with
    | none => exact .inr (.inl rfl)
    | some pout =>
      have hnotin : pin.1 ∉ s.fds := hnew _ List.mem_cons_self
      unfold transformationsNew at hfail hfds
      simp only at hfail hfds
      split at hfds
      · exact absurd ((hfds pin.1).mp (by simp [openFd, act])) hnotin
      · next hfile =>
        cases error with
        | none => exact absurd ((hfds pin.1).mp (by simp [openFd, act])) hnotin
        | some error =>
          cases fork with
          | false => exact .inr (.inr ⟨hfile, Option.some_ne_none _, rfl⟩)
          | true =>
            rw [if_neg hfile] at hfail
            cases hfail

/-! ## Runs -/

/-- The descriptor of a client or of its origin. -/
def HeldBy (s : Proxy) (i : ClientId) (x : Int) : Prop :=
  s.Live i ∧ ((s.clients i).clientFd = x ∨ (s.clients i).originFd = x ∧ x ≠ -1)

/-- A client holds the same when it is as alive and has the same two descriptors. -/
theorem heldBy_congr (hlive : s'.Live j ↔ s.Live j)
    (hclient : (s'.clients j).clientFd = (s.clients j).clientFd)
    (horigin : (s'.clients j).originFd = (s.clients j).originFd) (x : Int) :
    s'.HeldBy j x ↔ s.HeldBy j x := by
  unfold HeldBy
  rw [hlive, hclient, horigin]

/-- What is open for the clients, over the descriptors in `base`. -/
structure Conserves (base : List Int) (s : Proxy) : Prop where
  balanced : Balanced s.trace
  held : ∀ j x, s.HeldBy j x → opens j x s.trace = closes j x s.trace + 1
  free : ∀ j x, ¬s.HeldBy j x → opens j x s.trace = closes j x s.trace
  fds : ∀ x ∈ s.fds, x ∈ base ∨ ∃ j, s.HeldBy j x

variable {base : List Int}

namespace Conserves

/-- The clients' descriptors stay as they are. -/
theorem same (h : Conserves base s) {l : List Action} (hlive : ∀ j, s'.Live j ↔ s.Live j)
    (hclient : ∀ j, (s'.clients j).clientFd = (s.clients j).clientFd)
    (horigin : ∀ j, (s'.clients j).originFd = (s.clients j).originFd)
    (htrace : s'.trace = l ++ s.trace) (hl : ∀ a ∈ l, a.Still) (hfds : s'.fds = s.fds) :
    Conserves base s' := by
  have hheld : ∀ j x, s'.HeldBy j x ↔ s.HeldBy j x :=
    fun j => heldBy_congr (hlive j) (hclient j) (horigin j)
  constructor
  case balanced => exact htrace ▸ h.balanced.append_still hl
  case held =>
    intro j x hj
    rw [htrace, Action.Still.opens_append hl, Action.Still.closes_append hl]
    exact h.held j x ((hheld j x).mp hj)
  case free =>
    intro j x hj
    rw [htrace, Action.Still.opens_append hl, Action.Still.closes_append hl]
    exact h.free j x fun hx => hj ((hheld j x).mpr hx)
  case fds =>
    intro x hx
    simp only [hheld]
    exact h.fds x (hfds ▸ hx)

/-- A quiet part opens and closes nothing. -/
theorem quiet (h : Conserves base s) (hq : Quiet i s s') : Conserves base s' := by
  obtain ⟨l, hl, hquiet⟩ := hq.trace
  have hclients : ∀ j, (s'.clients j).clientFd = (s.clients j).clientFd ∧
      (s'.clients j).originFd = (s.clients j).originFd := by
    intro j
    by_cases hj : j = i
    · exact hj ▸ ⟨hq.client.clientFd, hq.client.originFd⟩
    · rw [hq.others j hj]
      exact ⟨rfl, rfl⟩
  exact h.same (fun j => not_ended_append (fun _ hmem => hquiet _ hmem) s s' hl hq.made)
    (fun j => (hclients j).1) (fun j => (hclients j).2) hl
    (fun a ha => Action.Still.of_quiet (hquiet a ha)) hq.fds

/-- An action that opens and closes nothing conserves the descriptors. -/
theorem act (h : Conserves base s) {a : Action} (ha : a.Still) : Conserves base (s.act a) := by
  have hstill : ∀ b ∈ [a], b.Still := fun b hb => List.mem_singleton.mp hb ▸ ha
  refine h.same (fun j => ?_) (fun _ => rfl) (fun _ => rfl) rfl hstill rfl
  exact not_ended_append (fun seconds hmem => (hstill _ hmem).2.2 j seconds rfl) s _ rfl rfl

/-- A change of one client that leaves its descriptors. -/
theorem modify (h : Conserves base s) {f : Client → Client}
    (hclient : (f (s.clients i)).clientFd = (s.clients i).clientFd)
    (horigin : (f (s.clients i)).originFd = (s.clients i).originFd) :
    Conserves base (s.modify i f) := by
  refine h.same (l := []) (fun _ => Iff.rfl) (fun j => ?_) (fun j => ?_) rfl nofun rfl
  · by_cases hj : j = i
    · subst hj
      rw [clients_modify_self, hclient]
    · rw [clients_modify_of_ne s f hj]
  · by_cases hj : j = i
    · subst hj
      rw [clients_modify_self, horigin]
    · rw [clients_modify_of_ne s f hj]

/-- Giving a client its host opens and closes nothing. -/
theorem setHost (h : Conserves base s) (i : ClientId) (host : List UInt8) (port : Int) :
    Conserves base (s.clientSetHost i host port) := by
  have hused : Conserves base (s.use i) := h.act ⟨nofun, nofun, nofun⟩
  have hset : Conserves base
      ((s.use i).modify i fun _ => ((s.clients i).setHost host port).2) :=
    hused.modify (clientFd_setHost (s.clients i) host port)
      (originFd_setHost (s.clients i) host port)
  unfold clientSetHost
  simp only
  split
  · have hlist : Conserves base
        { (s.use i).modify i (fun _ => ((s.clients i).setHost host port).2) with
          resolving := i :: (s.use i).resolving } :=
      hset.same (l := []) (fun _ => Iff.rfl) (fun _ => rfl) (fun _ => rfl) rfl nofun rfl
    exact hlist.act ⟨nofun, nofun, nofun⟩
  · exact hset

/-- One descriptor of a client that is not closed is closed. -/
theorem closed (h : Conserves base s) {x : Int} (hx : s.HeldBy i x)
    (htrace : s'.trace = .closed i x :: s.trace)
    (hheld : ∀ j y, s'.HeldBy j y ↔ s.HeldBy j y ∧ ¬(i = j ∧ x = y))
    (hfds : ∀ y ∈ s'.fds, y ∈ s.fds ∧ y ≠ x) : Conserves base s' := by
  have hone := h.held i x hx
  constructor
  case balanced =>
    rw [htrace]
    refine h.balanced.closed ?_
    omega
  case held =>
    intro j y hj
    obtain ⟨hj, hne⟩ := (hheld j y).mp hj
    rw [htrace, opens_closed, closes_closed, if_neg hne]
    exact h.held j y hj
  case free =>
    intro j y hj
    rw [htrace, opens_closed, closes_closed]
    split
    · next hij =>
      obtain ⟨rfl, rfl⟩ := hij
      exact hone
    · next hij => exact h.free j y fun hy => hj ((hheld j y).mpr ⟨hy, hij⟩)
  case fds =>
    intro y hy
    obtain ⟨hy, hne⟩ := hfds y hy
    rcases h.fds y hy with hbase | ⟨j, hj⟩
    · exact .inl hbase
    · exact .inr ⟨j, (hheld j y).mpr ⟨hj, fun hij => hne hij.2.symm⟩⟩

/-- A client whose origin is not registered is closed. -/
theorem ends (h : Conserves base s) (howned : Owned s) (hi : s.Live i) (he : Ends i s s')
    (hnone : s.sel.handlerAt (s.clients i).originFd = none) : Conserves base s' := by
  have hclient : s.HeldBy i (s.clients i).clientFd := ⟨hi, .inl rfl⟩
  have hheld : ∀ j x, s'.HeldBy j x ↔ s.HeldBy j x ∧ j ≠ i := by
    intro j x
    unfold HeldBy
    rw [he.live j]
    by_cases hj : j = i
    · simp [hj]
    · rw [he.others j hj]
      simp [hj]
  have hmine : ∀ x, x ≠ (s.clients i).clientFd → x ≠ (s.clients i).originFd →
      opens i x s.trace = closes i x s.trace := by
    intro x hc ho
    refine h.free i x ?_
    rintro ⟨-, heq | ⟨heq, -⟩⟩
    · exact hc heq.symm
    · exact ho heq.symm
  have hone := h.held i _ hclient
  have hcounts : Balanced (s.originCloses i ++ s.trace) ∧
      (∀ x, opens i x (s.originCloses i ++ s.trace) =
        closes i x (s.originCloses i ++ s.trace) +
          if (s.clients i).clientFd = x then 1 else 0) ∧
      ∀ j, j ≠ i → ∀ x, opens j x (s.originCloses i ++ s.trace) = opens j x s.trace ∧
        closes j x (s.originCloses i ++ s.trace) = closes j x s.trace := by
    -- The origin is closed first, where there is one: then it is not the descriptor of the client.
    unfold originCloses
    split
    · next horigin =>
      refine ⟨h.balanced, fun x => ?_, fun _ _ _ => ⟨rfl, rfl⟩⟩
      split
      · next hx => exact hx ▸ hone
      · next hx =>
        refine h.free i x ?_
        rintro ⟨-, heq | ⟨heq, hne⟩⟩
        · exact hx heq
        · exact hne (heq.symm.trans horigin)
    · next horigin =>
      have hremote : s.Holds (.remote i) (s.clients i).originFd := ⟨hi, rfl, horigin⟩
      have hdistinct : (s.clients i).clientFd ≠ (s.clients i).originFd := by
        intro heq
        have hsame := howned.unique (.client i) (.remote i) _ ⟨hi, heq⟩ hremote
        cases hsame
      have htwo := h.held i _ ⟨hi, .inr hremote.2⟩
      refine ⟨?_, fun x => ?_, fun j hj x => ?_⟩
      · refine h.balanced.closed ?_
        omega
      · rw [List.cons_append, List.nil_append, opens_closed, closes_closed]
        by_cases ho : (s.clients i).originFd = x
        · subst ho
          rw [if_pos ⟨rfl, rfl⟩, if_neg hdistinct]
          exact htwo
        · rw [if_neg fun hx => ho hx.2]
          by_cases hc : (s.clients i).clientFd = x
          · subst hc
            rw [if_pos rfl]
            exact hone
          · rw [if_neg hc]
            exact hmine x (Ne.symm hc) (Ne.symm ho)
      · rw [List.cons_append, List.nil_append, opens_closed, closes_closed]
        rw [if_neg fun hx => hj hx.1.symm]
        exact ⟨rfl, rfl⟩
  obtain ⟨hbalanced, hcount, hothers⟩ := hcounts
  have hlast := hcount (s.clients i).clientFd
  rw [if_pos rfl] at hlast
  -- With the client's own descriptor closed, nothing is left that `i` opened and did not close.
  have hfreed : ∀ x, opens i x (.closed i (s.clients i).clientFd ::
      (s.originCloses i ++ s.trace)) = closes i x (.closed i (s.clients i).clientFd ::
      (s.originCloses i ++ s.trace)) := by
    intro x
    rw [opens_closed, closes_closed, hcount x]
    simp only [true_and]
  have hstays : ∀ j, j ≠ i → ∀ x, opens j x s'.trace = opens j x s.trace ∧
      closes j x s'.trace = closes j x s.trace := by
    intro j hj x
    rw [he.trace, opens_ended, opens_closed, closes_ended, closes_closed,
      if_neg fun hx => hj hx.1.symm]
    exact hothers j hj x
  constructor
  case balanced =>
    rw [he.trace]
    refine (hbalanced.closed ?_).ended hfreed _
    omega
  case held =>
    intro j x hj
    obtain ⟨hj, hji⟩ := (hheld j x).mp hj
    rw [(hstays j hji x).1, (hstays j hji x).2]
    exact h.held j x hj
  case free =>
    intro j x hj
    by_cases hji : j = i
    · subst hji
      rw [he.trace, opens_ended, closes_ended]
      exact hfreed x
    · rw [(hstays j hji x).1, (hstays j hji x).2]
      exact h.free j x fun hx => hj ((hheld j x).mpr ⟨hx, hji⟩)
  case fds =>
    intro x hx
    obtain ⟨hx, hc, ho⟩ := (he.fds x).mp hx
    rcases h.fds x hx with hbase | ⟨j, hj⟩
    · exact .inl hbase
    · refine .inr ⟨j, (hheld j x).mpr ⟨hj, ?_⟩⟩
      rintro rfl
      rcases hj with ⟨-, heq | ⟨heq, -⟩⟩
      · exact hc heq.symm
      · exact ho heq.symm

/-- Closing a client whose origin is not registered closes each of its descriptors once. -/
theorem unregister (h : Conserves base s) (ho : OwnedBy i s)
    (hnone : s.sel.handlerAt (s.clients i).originFd = none) :
    Conserves base (s.unregister (s.clients i).clientFd) := by
  rcases ho.unregister with heq | ⟨hi, he⟩
  · rwa [heq]
  · exact h.ends ho.owned hi he hnone

/-- Closing an origin closes its descriptor once. -/
theorem unregister_origin (h : Conserves base s) (howned : Owned s) (hslots : Slots s)
    (i : ClientId) : Conserves base (s.unregister (s.clients i).originFd) := by
  rcases howned.unregister_origin hslots i with heq | ⟨-, hi, hne, heq⟩
  · rwa [heq]
  · have hdistinct : (s.clients i).clientFd ≠ (s.clients i).originFd := by
      intro hfd
      have hsame := howned.unique (.client i) (.remote i) _ ⟨hi, hfd⟩ ⟨hi, rfl, hne⟩
      cases hsame
    rw [heq]
    refine h.closed (i := i) (x := (s.clients i).originFd) ⟨hi, .inr ⟨rfl, hne⟩⟩ rfl ?_ ?_
    · intro j y
      have hlive : Live { s.remoteClose i with sel := s.sel.clear (s.clients i).originFd } j ↔
          s.Live j := not_ended_append (l := [.closed i (s.clients i).originFd])
        (fun _ hmem => by cases List.mem_singleton.mp hmem) s _ rfl rfl
      have hclient := (Closing.remoteClose s i).clientFd j
      unfold HeldBy
      rw [hlive]
      change s.Live j ∧ (((s.remoteClose i).clients j).clientFd = y ∨
        ((s.remoteClose i).clients j).originFd = y ∧ y ≠ -1) ↔ _
      rw [hclient]
      by_cases hj : j = i
      · subst hj
        rw [originFd_remoteClose]
        constructor
        · rintro ⟨hl, hfd | ⟨hfd, hy⟩⟩
          · exact ⟨⟨hl, .inl hfd⟩, fun hx => hdistinct (hfd.trans hx.2.symm)⟩
          · exact absurd hfd.symm hy
        · rintro ⟨⟨hl, hfd | ⟨hfd, -⟩⟩, hx⟩
          · exact ⟨hl, .inl hfd⟩
          · exact absurd ⟨rfl, hfd⟩ hx
      · rw [clients_remoteClose_of_ne s hj]
        exact (and_iff_left fun hx => hj hx.1.symm).symm
    · intro y hy
      obtain ⟨hy, hne⟩ := List.mem_filter.mp hy
      exact ⟨hy, of_decide_eq_true hne⟩

/-- A client without an origin is given a socket. -/
theorem connected (h : Conserves base s) (howned : Owned s) (hi : s.Live i) {x : Int} (hx : 0 ≤ x)
    (hfresh : x ∉ s.fds) (horigin : (s.clients i).originFd = -1) :
    Conserves base (s.connecting i x) := by
  have hheld : ∀ j y, (s.connecting i x).HeldBy j y ↔ s.HeldBy j y ∨ i = j ∧ x = y := by
    intro j y
    have hlive : (s.connecting i x).Live j ↔ s.Live j := not_ended_append (l := [.opened i x])
      (fun _ hmem => by cases List.mem_singleton.mp hmem) s _ rfl rfl
    unfold HeldBy
    rw [hlive]
    by_cases hj : j = i
    · subst hj
      rw [clients_connecting_self, horigin]
      constructor
      · rintro ⟨hl, hfd | ⟨hfd, -⟩⟩
        · exact .inl ⟨hl, .inl hfd⟩
        · exact .inr ⟨rfl, hfd⟩
      · rintro (⟨hl, hfd | ⟨hfd, hy⟩⟩ | ⟨-, rfl⟩)
        · exact ⟨hl, .inl hfd⟩
        · exact absurd hfd.symm hy
        · exact ⟨hi, .inr ⟨rfl, fun heq => absurd (heq ▸ hx) (by decide)⟩⟩
    · rw [clients_connecting_of_ne s x hj]
      exact (or_iff_left fun hx => hj hx.1.symm).symm
  have hnew : ¬s.HeldBy i x := by
    rintro ⟨hl, hfd | ⟨hfd, hne⟩⟩
    · exact hfresh (howned.opened (.client i) x ⟨hl, hfd⟩)
    · exact hfresh (howned.opened (.remote i) x ⟨hl, hfd, hne⟩)
  have htrace : (s.connecting i x).trace = .opened i x :: s.trace := rfl
  constructor
  case balanced => exact h.balanced.opened i x
  case held =>
    intro j y hj
    rw [htrace, opens_opened, closes_opened]
    split
    · next hij =>
      obtain ⟨rfl, rfl⟩ := hij
      rw [h.free i x hnew]
    · next hij => exact h.held j y (((hheld j y).mp hj).resolve_right hij)
  case free =>
    intro j y hj
    rw [htrace, opens_opened, closes_opened, if_neg fun hij => hj ((hheld j y).mpr (.inr hij))]
    exact h.free j y fun hy => hj ((hheld j y).mpr (.inl hy))
  case fds =>
    intro y hy
    rcases List.mem_cons.mp hy with rfl | hy
    · exact .inr ⟨i, (hheld i y).mpr (.inr ⟨rfl, rfl⟩)⟩
    · rcases h.fds y hy with hbase | ⟨j, hj⟩
      · exact .inl hbase
      · exact .inr ⟨j, (hheld j y).mpr (.inl hj)⟩

/-- A new connection is held by its client, and the pipes of a transformation that failed are
closed. -/
theorem accepted (h : Conserves base s) (howned : Owned s) {o : AcceptCalls}
    (hos : s.OsCall (.accept o)) (hP : s.Conserving (.accept o)) :
    Conserves base (s.listenReadHandler o) := by
  cases ho : o.accept with
  | none =>
    unfold listenReadHandler
    rwa [ho]
  | some fd =>
    have ha := accepts_listenReadHandler (s := s) ho
    obtain ⟨hnodup, hnew⟩ := hos fd ho
    obtain ⟨hfd, hnodup⟩ := List.nodup_cons.mp hnodup
    have hfresh := (hnew fd List.mem_cons_self).2
    -- What `transformations_new` opens beside the accepted descriptor it closes again.
    have hrest := restores_transformationsNew (s.openFd s.made fd) s.made hnodup (fun x hx hmem => by
      rcases List.mem_cons.mp hmem with rfl | hmem
      · exact hfd hx
      · exact (hnew x (List.mem_cons_of_mem fd hx)).2 hmem) (hP (by rw [ho]; nofun))
    generalize s.listenReadHandler o = t at ha ⊢
    have hmadeStill : (Action.made s.made).Still := ⟨nofun, nofun, nofun⟩
    -- Besides the accepted descriptor every count grows by as much as was opened and closed.
    have hcounts : ∀ j x, opens j x t.trace + closes j x s.trace =
        closes j x t.trace + (opens j x s.trace + if s.made = j ∧ fd = x then 1 else 0) := by
      intro j x
      have hcount := hrest.counts j x
      rw [show (s.openFd s.made fd).trace = .opened s.made fd :: s.trace from rfl, opens_opened,
        closes_opened] at hcount
      rw [ha.trace, hmadeStill.opens_cons, hmadeStill.closes_cons]
      exact hcount
    have hlive := howned.live_accepts ha
    have hheld : ∀ j x, t.HeldBy j x ↔ s.HeldBy j x ∨ s.made = j ∧ fd = x := by
      intro j x
      unfold HeldBy
      rw [hlive]
      by_cases hj : j = s.made
      · subst hj
        rw [ha.client.clientFd, ha.client.originFd]
        constructor
        · rintro ⟨-, hx | ⟨hx, hne⟩⟩
          · exact .inr ⟨rfl, hx⟩
          · exact absurd hx.symm hne
        · rintro (⟨hmade, -⟩ | ⟨-, rfl⟩)
          · exact absurd hmade.1 (Nat.lt_irrefl _)
          · exact ⟨.inr rfl, .inl rfl⟩
      · rw [ha.others j hj, or_iff_left hj]
        exact (or_iff_left fun hx => hj hx.1.symm).symm
    constructor
    case balanced =>
      rw [ha.trace]
      exact (hrest.balanced (h.balanced.opened s.made fd)).still hmadeStill
    case held =>
      intro j x hj
      have hcount := hcounts j x
      split at hcount
      · next hij =>
        obtain ⟨rfl, rfl⟩ := hij
        have hnone := h.free s.made fd fun hmade => Nat.lt_irrefl _ hmade.1.1
        omega
      · next hij =>
        have hone := h.held j x (((hheld j x).mp hj).resolve_right hij)
        omega
    case free =>
      intro j x hj
      have hcount := hcounts j x
      rw [if_neg fun hij => hj ((hheld j x).mpr (.inr hij))] at hcount
      have hnone := h.free j x fun hx => hj ((hheld j x).mpr (.inl hx))
      omega
    case fds =>
      intro x hx
      rw [ha.fds] at hx
      rcases List.mem_cons.mp ((hrest.fds x).mp hx) with rfl | hx
      · exact .inr ⟨s.made, (hheld _ x).mpr (.inr ⟨rfl, rfl⟩)⟩
      · rcases h.fds x hx with hbase | ⟨j, hj⟩
        · exact .inl hbase
        · exact .inr ⟨j, (hheld j x).mpr (.inl hj)⟩

end Conserves

/-- Between the statements of a handler of a client without an origin. -/
structure Unconnected (base : List Int) (i : ClientId) (s : Proxy) : Prop where
  conserves : Conserves base s
  ownedBy : OwnedBy i s
  origin : (s.clients i).originFd = -1

namespace Unconnected

/-- A quiet part leaves the client without an origin. -/
theorem quiet (h : Unconnected base i s) (hq : Quiet i s s') : Unconnected base i s' :=
  ⟨h.conserves.quiet hq, h.ownedBy.quiet hq, hq.client.originFd.trans h.origin⟩

/-- Giving the client its host leaves it without an origin. -/
theorem setHost (h : Unconnected base i s) (host : List UInt8) (port : Int) :
    Unconnected base i (s.clientSetHost i host port) where
  conserves := h.conserves.setHost i host port
  ownedBy := h.ownedBy.setHost host port
  origin := by
    rw [clients_clientSetHost, Function.update_self, originFd_setHost]
    exact h.origin

/-- Setting the client's state leaves it without an origin. -/
theorem setState (h : Unconnected base i s) (g : Client → ClientState) :
    Unconnected base i (s.modify i fun c => { c with state := g c }) where
  conserves := h.conserves.modify rfl rfl
  ownedBy := h.ownedBy.setState g
  origin := by
    rw [clients_modify_self]
    exact h.origin

/-- Closing a client without an origin closes its own descriptor. -/
theorem unregister (h : Unconnected base i s) :
    Unconnected base i (s.unregister (s.clients i).clientFd) where
  conserves := by
    refine h.conserves.unregister h.ownedBy ?_
    rw [h.origin]
    exact h.ownedBy.slots.handlerAt_neg_one
  ownedBy := h.ownedBy.of_unregister
  origin := by
    rcases originFd_unregisterAt 2 s (s.clients i).clientFd i with heq | heq
    · exact heq.trans h.origin
    · exact heq

end Unconnected

namespace Conserves

/-- `client_read` conserves the descriptors, when it closes no client whose origin is registered. -/
theorem clientRead (h : Conserves base s) (hknown : Known s) {fd : Int}
    (hfd : s.sel.handlerAt fd = some (.client i)) {r : Option (List UInt8)}
    (hrun : s.status = .running) (hP : s.Conserving (.clientRead i r)) :
    Conserves base (s.clientRead i r) := by
  have hown := hknown.owned.ownedBy hknown.slots hfd
  by_cases horigin : (s.clients i).originFd = -1
  · exact (keeps_clientRead (fun _ _ h hq => Unconnected.quiet h hq)
      (fun _ host port h => h.setHost host port) (fun _ g h => h.setState g)
      (fun _ h => h.unregister) ⟨h, hown, horigin⟩ r).conserves
  · have hp := hknown.told.finished_of_resolved (hknown.told.connected i horigin)
    have hok := hknown.fine hrun i (hknown.owned.live_of_slot hfd)
    have hquiet : ∀ {t t'}, Conserves base t → Quiet i t t' → Conserves base t' :=
      fun ht hq => ht.quiet hq
    by_cases hnone : (s.clients i).state = .NO_ORIGIN
    · rcases clientRead_ended hnone hp hok r with ⟨hq, -⟩ | ⟨hfails, s₁, hq, hrest⟩
      · exact h.quiet hq
      · rw [← hq.client.clientFd] at hrest
        refine Conserves.quiet (Conserves.unregister (h.quiet hq) (hown.quiet hq) ?_) hrest
        rw [hq.handlers, hq.client.originFd]
        exact hP hfails
    · by_cases hsend : (s.clients i).state = .SEND_REQ
      · have hasked : ∀ {t}, Asks i s t → Conserves base t := fun ha =>
          keeps_asks (fun _ _ h hq => h.quiet hq) (fun _ host port h => h.setHost i host port) h ha
        rcases clientRead_sendReq hsend r with ha | ⟨-, s₁, ha, hrest⟩
        · exact hasked ha
        · exact ((hasked ha).modify rfl rfl).quiet hrest
      · rwa [clientRead_otherwise hnone hsend]

/-- `client_write` conserves the descriptors, when it closes no client whose origin is
registered. -/
theorem clientWrite (h : Conserves base s) (hknown : Known s) {fd : Int}
    (hfd : s.sel.handlerAt fd = some (.client i)) {r : Option Nat}
    (hP : s.Conserving (.clientWrite i r)) : Conserves base (s.clientWrite i r) := by
  have hown := hknown.owned.ownedBy hknown.slots hfd
  rcases clientWrite_effect s i r with hq | ⟨s₁, hq, hwhy, hend⟩
  · exact h.quiet hq
  · rw [hend, ← hq.client.clientFd]
    refine (h.quiet hq).unregister (hown.quiet hq) ?_
    rw [hq.handlers, hq.client.originFd]
    rcases hwhy with hfails | horigin | htransf
    · exact hP hfails
    · rw [horigin]
      exact hknown.slots.handlerAt_neg_one
    · rw [hknown.plain i] at htransf
      cases htransf

/-- `client_block` conserves the descriptors, when the client has no origin yet. -/
theorem blockEnd (h : Conserves base s) (hknown : Known s) {fd : Int}
    (hfd : s.sel.handlerAt fd = some (.client i)) {o : BlockCalls}
    (hos : s.OsCall (.clientBlock fd i o)) (hP : s.Conserving (.clientBlock fd i o))
    (he : BlockEnd s i o s') : Conserves base s' := by
  have hi := hknown.owned.live_of_slot hfd
  have hconn : ∀ x, (s.clients i).host.resolved = true → o.socket = some x →
      Conserves base (s.connecting i x) := by
    intro x hres hs
    obtain ⟨hx, hfresh⟩ := hos x hs
    exact h.connected hknown.owned hi hx hfresh (hP hres (by rw [hs]; nofun))
  have hsame : ∀ {t t' : Proxy}, Conserves base t → t'.clients = t.clients → t'.fds = t.fds →
      t'.trace = t.trace → t'.made = t.made → Conserves base t' := by
    intro t t' ht hclients hfds htrace hmade
    refine ht.same (l := []) (fun j => ?_) (fun j => by rw [hclients]) (fun j => by rw [hclients])
      htrace nofun hfds
    exact not_ended_append (l := []) (fun _ => List.not_mem_nil) t t' htrace hmade
  cases he with
  | unresolved hres =>
    refine h.unregister (hknown.owned.ownedBy hknown.slots hfd) ?_
    have horigin : (s.clients i).originFd = -1 := by
      by_contra hne
      rw [hknown.told.connected i hne] at hres
      cases hres
    rw [horigin]
    exact hknown.slots.handlerAt_neg_one
  | noSocket _ _ => exact h.modify rfl rfl
  | unwatched hres hs _ => exact hconn _ hres hs
  | watched hres hs _ _ _ _ _ => exact hsame (hconn _ hres hs) rfl rfl rfl rfl
  | refused hres hs _ _ _ _ => exact hsame (hconn _ hres hs) rfl rfl rfl rfl

/-- Every call that conserves descriptors does so. -/
theorem call (h : Conserves base s) (hknown : Known s) {c : Call} (hrun : s.status = .running)
    (hreg : s.Registered c) (hos : s.OsCall c) (hP : s.Conserving c) :
    Conserves base (s.call c) := by
  have hserving : ∀ (i : ClientId) (t : Proxy), Conserves base t ∧ Owned t ∧ Slots t →
      Conserves base (t.unregister (t.clients i).originFd) ∧
        Owned (t.unregister (t.clients i).originFd) ∧
        Slots (t.unregister (t.clients i).originFd) := fun i t ht =>
    ⟨ht.1.unregister_origin ht.2.1 ht.2.2 i, ht.2.1.of_unregister_origin ht.2.2 i,
      ht.2.2.closing (closing_unregister t _)⟩
  cases c with
  | accept o => exact h.accepted hknown.owned hos hP
  | clientRead i r =>
    obtain ⟨fd, hfd⟩ := hreg
    exact h.clientRead hknown hfd hrun hP
  | clientWrite i r =>
    obtain ⟨fd, hfd⟩ := hreg
    exact h.clientWrite hknown hfd hP
  | clientBlock fd i o =>
    exact h.blockEnd hknown hreg hos hP (hknown.slots.clientBlock hreg o)
  | remoteRead i r =>
    exact (keeps_remoteRead (i := i) (J := fun t => Conserves base t ∧ Owned t ∧ Slots t)
      (fun _ _ h hq => ⟨h.1.quiet hq, h.2.1.quiet hq, h.2.2.quiet hq⟩) (hserving i)
      ⟨h, hknown.owned, hknown.slots⟩ r).1
  | remoteWrite i r =>
    exact (keeps_remoteWrite (i := i) (J := fun t => Conserves base t ∧ Owned t ∧ Slots t)
      (fun _ _ h hq => ⟨h.1.quiet hq, h.2.1.quiet hq, h.2.2.quiet hq⟩)
      (fun _ _ h => ⟨h.1.modify rfl rfl, h.2.1.modify rfl rfl, h.2.2.modify rfl⟩) (hserving i)
      ⟨h, hknown.owned, hknown.slots⟩ r).1

/-- The descriptors are conserved by every run of such calls. -/
theorem preserved :
    Preserved (fun s c => (s.OsCall c ∧ s.Conserving c) ∧ Known s) (Conserves base) where
  call _ _ h hrun hreg hP := h.call hP.2 hrun hreg hP.1.1 hP.1.2
  clock _ _ h := h.same (l := []) (fun _ => Iff.rfl) (fun _ => rfl) (fun _ => rfl) rfl nofun rfl
  resolve s i found h := by
    unfold Proxy.resolve
    split
    · have hlists : Conserves base { s with
          resolving := s.resolving.erase i, notifying := i :: s.notifying } :=
        h.same (l := []) (fun _ => Iff.rfl) (fun _ => rfl) (fun _ => rfl) rfl nofun rfl
      exact hlists.modify rfl rfl
    · exact h
  notify s i h := by
    unfold Proxy.notify
    split
    · exact h.same (l := []) (fun _ => Iff.rfl) (fun _ => rfl) (fun _ => rfl) rfl nofun rfl
    · exact h
  resumed _ _ _ _ _ _ _ h := h.act ⟨nofun, nofun, nofun⟩
  cleared _ h := h.same (l := []) (fun _ => Iff.rfl) (fun _ => rfl) (fun _ => rfl) rfl nofun rfl
  crashed _ h := h.same (l := []) (fun _ => Iff.rfl) (fun _ => rfl) (fun _ => rfl) rfl nofun rfl

end Conserves

/-- In a run whose calls conserve descriptors, no client closes one that it has not open, a closed
client has closed all of its own, and what is open was open at the start or is held by a client.
`transformations_new` fails without leaving anything open if and only if it fails at a `pipe` or at
`fork`. -/
theorem descriptors_conserved (hs : Started s) {es : List Event}
    (h : Always (fun s c => s.OsCall c ∧ s.Conserving c) s es) :
    Balanced (s.run es).trace ∧
      (∀ x ∈ (s.run es).fds, x ∈ s.fds ∨ ∃ j, (s.run es).HeldBy j x) ∧
      ∀ (t : Proxy) (i : ClientId) (calls : TransfCalls), calls.fds.Nodup →
        (∀ x ∈ calls.fds, x ∉ t.fds) → (t.transformationsNew i calls).1 = none →
        ((∀ x, x ∈ (t.transformationsNew i calls).2.fds ↔ x ∈ t.fds) ↔
          calls.FailsClean t.config) := by
  have hstart : Conserves s.fds s := by
    obtain ⟨conf, registered, others, -, rfl⟩ := hs
    refine ⟨.nil, fun j x hj => absurd hj.1.1 (Nat.not_lt_zero j), fun _ _ _ => rfl,
      fun x hx => .inl hx⟩
  have hconserves : Preserved _ (Conserves s.fds) := Conserves.preserved
  have hkept := (preserved_known fun s c (h : s.OsCall c ∧ s.Conserving c) => h.1).and hconserves
  have hend := (hkept.run ⟨hs.known, hstart⟩ h).2
  exact ⟨hend.balanced, hend.fds, fun t i calls => transformationsNew_failing t i⟩

/-- A client whose origin goes away, and that goes away then. -/
def bothLeave (i : ClientId) (fd origin : Int) : List Event :=
  connects i fd origin ++ [.write origin none, .read fd (some [10]), .read fd none]

theorem descriptors_conserved_bothLeave :
    Balanced (mainLoop.run (bothLeave 0 7 8)).trace ∧
      (∀ x ∈ (mainLoop.run (bothLeave 0 7 8)).fds,
        x ∈ mainLoop.fds ∨ ∃ j, (mainLoop.run (bothLeave 0 7 8)).HeldBy j x) ∧
      ∀ (t : Proxy) (i : ClientId) (calls : TransfCalls), calls.fds.Nodup →
        (∀ x ∈ calls.fds, x ∉ t.fds) → (t.transformationsNew i calls).1 = none →
        ((∀ x, x ∈ (t.transformationsNew i calls).2.fds ↔ x ∈ t.fds) ↔
          calls.FailsClean t.config) :=
  descriptors_conserved started_mainLoop (by decide +kernel)

/-- A client with a transformation that goes away at once. -/
def leavesTransformation : List Event :=
  [.accept ⟨some 7, ⟨some (8, 9), some (10, 11), some 12, true⟩⟩, .read 7 none]

/-- The ends of the transformation's pipes are still open when `client_close` returns. -/
theorem descriptors_leaked : Always OsCall mainLoop leavesTransformation ∧
    ¬Balanced (mainLoop.run leavesTransformation).trace := by
  refine ⟨by decide +kernel, fun h => ?_⟩
  have hfreed := h.freed 0 0 ((mainLoop.run leavesTransformation).trace.drop 4)
    (by decide +kernel) 9
  exact absurd hfreed (by decide +kernel)

end Proxy

end HttpProxy
