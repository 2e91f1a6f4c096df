import HttpProxy.ProxyRuns

/-!
# The loop of `main`

`selector_select` waits for descriptors, goes through the table of the selector from its first item to
the last one it had when it began, calls the handlers of the items that are ready and still interested,
and then those of the finished resolutions; `main` does so until it fails. Between two calls of handlers
the threads of the resolutions go on.

For an item the loop keeps `key.data` from before `handle_read`, and looks the item up again for
`handle_write`. By then the item may be gone, but it is never another's (`KeepsSlot.callHandleRead`), so
every number of rounds is a run of events, in which each handler is called for a descriptor that is
registered with it and interested at that time (`serve_reaches`). What holds of runs holds of the loop.
-/

namespace HttpProxy

open SelectorStatus

/-- What happens outside the loop's thread. -/
inductive Background
  | clock (now : Int)
  | resolved (i : ClientId) (found : Bool)
  | notified (i : ClientId)
deriving DecidableEq, Repr

def Background.event : Background → Event
  | .clock now => .clock now
  | .resolved i found => .resolved i found
  | .notified i => .notified i

/-- What the calls of a descriptor's handlers return, and what happens before each of the two. -/
structure Turn where
  before : List Background := []
  read : Option (List UInt8) := none
  /-- For the socket that listens. -/
  accept : Option AcceptCalls := none
  between : List Background := []
  write : Option Nat := none

/-- What `pselect` returns. -/
inductive SelectOutcome
  /-- `EAGAIN` or `EINTR`. -/
  | interrupted
  /-- `EBADF`. -/
  | badDescriptor
  | failed
  | ready (slaveR slaveW : Int → Bool) (turns : Int → Turn)

/-- A round of the loop. -/
structure Round where
  waiting : List Background := []
  outcome : SelectOutcome
  finishing : List Background := []
  blocks : List BlockCalls := []

/-- `data` of an item. -/
def Handlers.data : Handlers → Option ClientId
  | .client i | .remote i => some i
  | .other => none

namespace Proxy

def background (s : Proxy) (bs : List Background) : Proxy := s.run (bs.map Background.event)

/-- `item->handler->handle_read(&key)`. -/
def callHandleRead (s : Proxy) (handler : Handlers) (data : Option ClientId) (t : Turn) : Proxy :=
  match handler, data with
  | .client _, some i => s.clientRead i t.read
  | .remote _, some i => s.remoteRead i t.read
  | .other, _ => t.accept.elim s s.listenReadHandler
  | _, none => s

/-- `item->handler->handle_write(&key)`. -/
def callHandleWrite (s : Proxy) (handler : Handlers) (data : Option ClientId) (t : Turn) : Proxy :=
  match handler, data with
  | .client _, some i => s.clientWrite i t.write
  | .remote _, some i => s.remoteWrite i t.write
  | _, _ => s

/-- What `handle_iteration` does for an item. -/
def handleItem (s : Proxy) (slaveR slaveW : Int → Bool) (fd : Int) (t : Turn) : Proxy :=
  let s := s.background t.before
  if s.status ≠ .running then s
  else
    match s.sel.fds fd with
    | none => s
    | some item =>
      let data := item.handler.data
      let s := if slaveR fd && item.interest.OP_READ then s.callHandleRead item.handler data t else s
      let s := s.background t.between
      if s.status ≠ .running then s
      else
        match s.sel.fds fd with
        -- `selector_unregister_fd` leaves no interest.
        | none => s
        | some item =>
          if slaveW fd && item.interest.OP_WRITE then s.callHandleWrite item.handler data t else s

def handleIteration (s : Proxy) (slaveR slaveW : Int → Bool) (turns : Int → Turn) : Proxy :=
  (List.range (s.sel.maxFd.toNat + 1)).foldl
    (fun s (i : Nat) => s.handleItem slaveR slaveW i (turns i)) s

def selectorSelect (s : Proxy) (r : Round) : SelectorStatus × Proxy :=
  let s := s.background r.waiting
  let finish (s : Proxy) := (s.background r.finishing).step (.notifications r.blocks)
  match r.outcome with
  | .interrupted => (SELECTOR_SUCCESS, finish s)
  | .badDescriptor | .failed => ( SELECTOR_IO, s)
  | .ready slaveR slaveW turns => (SELECTOR_SUCCESS, finish (s.handleIteration slaveR slaveW turns))

/-- The loop of `main`, as many rounds as there are. -/
def serve (s : Proxy) : List Round → Proxy
  | [] => s
  | r :: rounds =>
    if s.status ≠ .running then s
    else
      match s.selectorSelect r with
      | (SELECTOR_SUCCESS, s) => s.serve rounds
      | (_, s) => if s.status ≠ .running then s else s.stop (.exited 2)

/-! ## Calls for what is registered -/

/-- A descriptor is registered with `handler`, has the interest, and is one of those that are
`ready`. -/
def Watches (s : Proxy) (ready : Int → Handlers → Prop) (wants : FdInterest → Bool) (handler : Handlers) :
    Prop :=
  ∃ fd item, s.sel.fds fd = some item ∧ item.handler = handler ∧ wants item.interest = true ∧ ready fd handler

/-- A handler is called for a descriptor that is registered with it, has the interest and is
ready. -/
def ServesReady (readyR readyW : Int → Handlers → Prop) (s : Proxy) : Call → Prop
  | .accept _ => s.Watches readyR FdInterest.OP_READ .other
  | .clientRead i _ => s.Watches readyR FdInterest.OP_READ (.client i)
  | .clientWrite i _ => s.Watches readyW FdInterest.OP_WRITE (.client i)
  | .remoteRead i _ => s.Watches readyR FdInterest.OP_READ (.remote i)
  | .remoteWrite i _ => s.Watches readyW FdInterest.OP_WRITE (.remote i)
  | .clientBlock fd i _ => s.sel.handlerAt fd = some (.client i)

/-- `s'` is the end of a run of such calls. -/
def Reaches (readyR readyW : Int → Handlers → Prop) (s s' : Proxy) : Prop :=
  ∃ es, Always (ServesReady readyR readyW) s es ∧ s.run es = s'

variable {readyR readyW : Int → Handlers → Prop} {s s' s'' : Proxy} {fd : Int} {handler : Handlers}
  {item : Item Handlers} {slaveR slaveW : Int → Bool}

namespace Reaches

theorem refl (s : Proxy) : Reaches readyR readyW s s := ⟨[], trivial, rfl⟩

/-- A run behind a run is a run. -/
theorem trans (h : Reaches readyR readyW s s') (h' : Reaches readyR readyW s' s'') :
    Reaches readyR readyW s s'' := by
  obtain ⟨es, hes, rfl⟩ := h
  obtain ⟨es', hes', rfl⟩ := h'
  exact ⟨es ++ es', always_append.mpr ⟨hes, hes'⟩, run_append s es es'⟩

/-- An event whose call is for a descriptor that is ready is a run. -/
theorem step {e : Event} (h : s.status = .running → Meets (ServesReady readyR readyW) s e) :
    Reaches readyR readyW s (s.step e) :=
  ⟨[e], ⟨h, trivial⟩, rfl⟩

/-- An event that is handled is a run. -/
theorem handle (hrun : s.status = .running) {e : Event} (h : Meets (ServesReady readyR readyW) s e) :
    Reaches readyR readyW s (s.handle e) := by
  have hstep : s.step e = s.handle e := if_pos hrun
  exact hstep ▸ step fun _ => h

/-- What happens outside the loop's thread is a run. -/
theorem background (s : Proxy) (bs : List Background) : Reaches readyR readyW s (s.background bs) := by
  induction bs generalizing s with
  | nil => exact refl s
  | cons b bs ih =>
    have hstep : Reaches readyR readyW s (s.step b.event) := step fun _ => by cases b <;> trivial
    exact hstep.trans (ih (s.step b.event))

/-- The end of the resolutions is a run: no descriptor is looked at. -/
theorem notifications (s : Proxy) (os : List BlockCalls) :
    Reaches readyR readyW s (s.step (.notifications os)) := by
  refine step fun _ => ?_
  have hjobs : ∀ (jobs : List Job) (t : Proxy) (os : List BlockCalls),
      JobsMeet (ServesReady readyR readyW) t jobs os := by
    intro jobs
    induction jobs with
    | nil => exact fun _ _ => trivial
    | cons j jobs ih => exact fun t os => ⟨fun _ hi => hi, fun _ => ih _ _⟩
  exact hjobs s.jobs s os

end Reaches

/-- An item gives its slot the handlers it has. -/
theorem handlerAt_of_item (h : s.sel.fds fd = some item) : s.sel.handlerAt fd = some item.handler := by
  unfold Selector.handlerAt
  rw [h]
  rfl

/-- An item is one of those its handlers may be called for. -/
theorem watches_of_item {ready : Int → Handlers → Prop} {wants : FdInterest → Bool}
    (h : s.sel.fds fd = some item) (hwants : wants item.interest = true) (hready : ready fd item.handler)
    (hhandler : s.sel.handlerAt fd = some handler) : s.Watches ready wants handler := by
  obtain rfl : item.handler = handler := Option.some.inj ((handlerAt_of_item h).symm.trans hhandler)
  exact ⟨fd, item, h, rfl, hwants, hready⟩

/-- `handle_read` of an item that is ready and interested is a run. -/
theorem reaches_callHandleRead (hrun : s.status = .running) (h : s.sel.fds fd = some item)
    (hread : item.interest.OP_READ = true) (hready : readyR fd item.handler) (t : Turn) :
    Reaches readyR readyW s (s.callHandleRead item.handler item.handler.data t) := by
  have hat := handlerAt_of_item h
  have hmeets : Meets (ServesReady readyR readyW) s (.read fd t.read) :=
    ⟨fun _ => watches_of_item h hread hready, fun _ => watches_of_item h hread hready⟩
  have hreaches : Reaches readyR readyW s (s.handleRead fd t.read) := Reaches.handle hrun hmeets
  unfold handleRead at hreaches
  rw [hat] at hreaches
  cases hhandler : item.handler with
  | client i =>
    rw [hhandler] at hreaches
    exact hreaches
  | remote i =>
    rw [hhandler] at hreaches
    exact hreaches
  | other =>
    unfold callHandleRead
    cases t.accept with
    | none => exact Reaches.refl s
    | some o =>
      rw [hhandler] at hat
      exact Reaches.handle hrun (e := .accept o) (watches_of_item h hread hready hat)

/-- `handle_write` of an item that is ready and interested is a run. -/
theorem reaches_callHandleWrite (hrun : s.status = .running) (h : s.sel.fds fd = some item)
    (hwrite : item.interest.OP_WRITE = true) (hready : readyW fd item.handler) (t : Turn) :
    Reaches readyR readyW s (s.callHandleWrite item.handler item.handler.data t) := by
  have hat := handlerAt_of_item h
  have hmeets : Meets (ServesReady readyR readyW) s (.write fd t.write) :=
    ⟨fun _ => watches_of_item h hwrite hready, fun _ => watches_of_item h hwrite hready⟩
  have hreaches : Reaches readyR readyW s (s.handleWrite fd t.write) := Reaches.handle hrun hmeets
  unfold handleWrite at hreaches
  rw [hat] at hreaches
  cases hhandler : item.handler with
  | client i =>
    rw [hhandler] at hreaches
    exact hreaches
  | remote i =>
    rw [hhandler] at hreaches
    exact hreaches
  | other => exact Reaches.refl s

/-! ## What a handler leaves of an item -/

/-- A descriptor is registered with `handlers`, or with nothing any more. -/
def KeepsSlot (fd : Int) (handlers : Option Handlers) (s : Proxy) : Prop :=
  s.sel.handlerAt fd = handlers ∨ s.sel.handlerAt fd = none

namespace KeepsSlot

variable {handlers : Option Handlers}

/-- A slot with the same handlers. -/
theorem same (h : KeepsSlot fd handlers s) (hsel : s'.sel.handlerAt = s.sel.handlerAt) :
    KeepsSlot fd handlers s' := by
  unfold KeepsSlot
  rw [hsel]
  exact h

/-- What is still registered there is what was. -/
theorem eq_of_handlerAt (h : KeepsSlot fd handlers s) (hat : s.sel.handlerAt fd = some handler) :
    handlers = some handler := by
  rcases h with hsame | hnone
  · exact hsame.symm.trans hat
  · exact absurd (hat.symm.trans hnone) (Option.some_ne_none _)

/-- Closing empties slots, and gives none to others. -/
theorem closing (h : KeepsSlot fd handlers s) (hc : Closing s s') : KeepsSlot fd handlers s' := by
  rcases hc.handlers fd with hsame | hnone
  · unfold KeepsSlot
    rw [hsame]
    exact h
  · exact .inr hnone

/-- Giving a client its host leaves the slots. -/
theorem setHost (h : KeepsSlot fd handlers s) (i : ClientId) (host : List UInt8) (port : Int) :
    KeepsSlot fd handlers (s.clientSetHost i host port) := by
  exact h.same (congrArg Selector.handlerAt (sel_clientSetHost s i host port))

/-- What happens outside the loop's thread leaves the slots. -/
theorem background (h : KeepsSlot fd handlers s) (bs : List Background) :
    KeepsSlot fd handlers (s.background bs) := by
  induction bs generalizing s with
  | nil => exact h
  | cons b bs ih =>
    have hsel : (s.step b.event).sel = s.sel := by
      unfold step
      split
      · cases b with
        | clock now => rfl
        | resolved i found =>
          change (s.resolve i found).sel = s.sel
          unfold resolve
          split <;> rfl
        | notified i =>
          change (s.notify i).sel = s.sel
          unfold notify
          split <;> rfl
      · rfl
    exact ih (h.same (congrArg Selector.handlerAt hsel))

/-- Another descriptor is accepted, or the slot of this one is taken and stays as it is. -/
theorem accept (h : KeepsSlot fd handlers s) (o : AcceptCalls)
    (hother : o.accept ≠ some fd ∨ s.sel.handlerAt fd ≠ none) :
    KeepsSlot fd handlers (s.listenReadHandler o) := by
  cases ho : o.accept with
  | none =>
    unfold listenReadHandler
    rw [ho]
    exact h
  | some fd' =>
    have hsel := (accepts_listenReadHandler (s := s) ho).sel
    unfold KeepsSlot
    rw [hsel]
    rcases Selector.register_eq s.sel fd' (.client s.made) OP_READ with
      ⟨-, hfree, -, hregistered, -⟩ | ⟨-, -, hsame⟩
    · have hne : fd ≠ fd' := by
        rintro rfl
        rcases hother with haccept | htaken
        · exact haccept ho
        · exact htaken hfree
      rw [hregistered, Function.update_of_ne hne]
      exact h
    · rw [hsame]
      exact h

/-- `handle_read` leaves the slot to its handlers or empties it, unless a connection is accepted with
its number. -/
theorem callHandleRead (h : KeepsSlot fd handlers s) (handler : Handlers) (t : Turn)
    (hother : ∀ o ∈ t.accept, o.accept ≠ some fd ∨ s.sel.handlerAt fd ≠ none) :
    KeepsSlot fd handlers (s.callHandleRead handler handler.data t) := by
  cases handler with
  | client i =>
    exact keeps_clientRead (fun _ _ hs hq => hs.same hq.handlers)
      (fun _ host port hs => hs.setHost i host port) (fun _ _ hs => hs.same rfl)
      (fun t hs => hs.closing (closing_unregister t _)) h t.read
  | remote i =>
    exact keeps_remoteRead (fun _ _ hs hq => hs.same hq.handlers)
      (fun t hs => hs.closing (closing_unregister t _)) h t.read
  | other =>
    unfold Proxy.callHandleRead
    cases haccept : t.accept with
    | none => exact h
    | some o => exact accept h o (hother o haccept)

/-- `handle_write` leaves the slot to its handlers or empties it. -/
theorem callHandleWrite (h : KeepsSlot fd handlers s) (handler : Handlers) (t : Turn) :
    KeepsSlot fd handlers (s.callHandleWrite handler handler.data t) := by
  cases handler with
  | client i =>
    exact keeps_clientWrite (fun _ _ hs hq => hs.same hq.handlers)
      (fun t hs => hs.closing (closing_unregister t _)) h t.write
  | remote i =>
    exact keeps_remoteWrite (fun _ _ hs hq => hs.same hq.handlers) (fun _ _ hs => hs.same rfl)
      (fun t hs => hs.closing (closing_unregister t _)) h t.write
  | other => exact h

end KeepsSlot

/-! ## The turn of an item -/

/-- What the turn of an item does: calls for it alone, while every slot is kept that is not given to a
descriptor it accepts. -/
structure Turns (readyR readyW : Int → Handlers → Prop) (t : Turn) (s s' : Proxy) : Prop where
  reaches : Reaches readyR readyW s s'
  keeps : ∀ fd handlers, (∀ o ∈ t.accept, o.accept ≠ some fd) → KeepsSlot fd handlers s →
    KeepsSlot fd handlers s'

namespace Turns

variable {t : Turn}

/-- Turns one after the other are turns. -/
theorem trans (h : Turns readyR readyW t s s') (h' : Turns readyR readyW t s' s'') :
    Turns readyR readyW t s s'' where
  reaches := h.reaches.trans h'.reaches
  keeps fd handlers hother hs := h'.keeps fd handlers hother (h.keeps fd handlers hother hs)

theorem refl (s : Proxy) : Turns readyR readyW t s s := ⟨.refl s, fun _ _ _ hs => hs⟩

/-- What happens outside the loop's thread, between two turns. -/
theorem background (s : Proxy) (bs : List Background) : Turns readyR readyW t s (s.background bs) :=
  ⟨.background s bs, fun _ _ _ hs => hs.background bs⟩

end Turns

/-- The read of an item, if it is selected and interested. -/
theorem turns_read (hrun : s.status = .running) (hitem : s.sel.fds fd = some item)
    (hready : slaveR fd = true → readyR fd item.handler) (t : Turn) :
    Turns readyR readyW t s (if slaveR fd && item.interest.OP_READ then
        s.callHandleRead item.handler item.handler.data t else s) ∧
      KeepsSlot fd (some item.handler) (if slaveR fd && item.interest.OP_READ then
        s.callHandleRead item.handler item.handler.data t else s) := by
  have hat := handlerAt_of_item hitem
  split
  · next hselected =>
    obtain ⟨hslave, hwants⟩ := (Bool.and_eq_true _ _).mp hselected
    have htaken : s.sel.handlerAt fd ≠ none := hat ▸ Option.some_ne_none _
    constructor
    · exact ⟨reaches_callHandleRead hrun hitem hwants (hready hslave) t,
        fun _ _ hother hs => hs.callHandleRead _ t fun o ho => .inl (hother o ho)⟩
    · exact KeepsSlot.callHandleRead (.inl hat) _ t fun _ _ => .inr htaken
  · exact ⟨.refl s, .inl hat⟩

/-- The write of an item, if it is selected and interested. -/
theorem turns_write (hrun : s.status = .running) (hitem : s.sel.fds fd = some item)
    (hready : slaveW fd = true → readyW fd item.handler) (t : Turn) :
    Turns readyR readyW t s (if slaveW fd && item.interest.OP_WRITE then
      s.callHandleWrite item.handler item.handler.data t else s) := by
  split
  · next hselected =>
    obtain ⟨hslave, hwants⟩ := (Bool.and_eq_true _ _).mp hselected
    exact ⟨reaches_callHandleWrite hrun hitem hwants (hready hslave) t,
      fun _ _ _ hs => hs.callHandleWrite _ t⟩
  · exact .refl s

/-- The two calls of an item. The second looks the item up again, and finds it with its handlers or
not at all. -/
theorem turns_handleItem (t : Turn)
    (hreadyR : slaveR fd = true → ∀ handler, s.sel.handlerAt fd = some handler → readyR fd handler)
    (hreadyW : slaveW fd = true → ∀ handler, s.sel.handlerAt fd = some handler → readyW fd handler) :
    Turns readyR readyW t s (s.handleItem slaveR slaveW fd t) := by
  unfold handleItem
  have hbefore : Turns readyR readyW t s (s.background t.before) := .background s t.before
  have hstart : KeepsSlot fd (s.sel.handlerAt fd) (s.background t.before) := .background (.inl rfl) t.before
  generalize s.background t.before = s₁ at hbefore hstart ⊢
  dsimp only
  split
  · exact hbefore
  · next hrun =>
    split
    · exact hbefore
    · next item hitem =>
      have hold : s.sel.handlerAt fd = some item.handler := hstart.eq_of_handlerAt (handlerAt_of_item hitem)
      have hread : Turns readyR readyW t s₁ _ ∧ KeepsSlot fd (some item.handler) _ :=
        turns_read (not_not.mp hrun) hitem (fun hslave => hreadyR hslave _ hold) t
      generalize (if (slaveR fd && item.interest.OP_READ) = true then
        s₁.callHandleRead item.handler item.handler.data t else s₁) = s₂ at hread ⊢
      have hbetween := hbefore.trans (hread.1.trans (.background s₂ t.between))
      have hslot := hread.2.background t.between
      generalize s₂.background t.between = s₃ at hbetween hslot ⊢
      split
      · exact hbetween
      · next hrun₃ =>
        split
        · exact hbetween
        · next item' hitem' =>
          -- The item is still the one whose `data` the loop has.
          have hsame : item.handler = item'.handler :=
            Option.some.inj (hslot.eq_of_handlerAt (handlerAt_of_item hitem'))
          rw [hsame] at hold ⊢
          exact hbetween.trans (turns_write (not_not.mp hrun₃) hitem' (fun hslave => hreadyW hslave _ hold) t)

/-! ## Rounds -/

/-- What a descriptor is registered with when `pselect` returns. -/
def selected (s : Proxy) (slave : Int → Bool) (fd : Int) (handler : Handlers) : Prop :=
  slave fd = true ∧ s.sel.handlerAt fd = some handler

/-- What is accepted in a round has not the number of a descriptor that was ready: the system may give a
number back only when an earlier turn of the same round closed it. -/
def AcceptsOthers (slaveR slaveW : Int → Bool) (turns : Int → Turn) : Prop :=
  ∀ fd, ∀ o ∈ (turns fd).accept, ∀ fd' ∈ o.accept, slaveR fd' = false ∧ slaveW fd' = false

/-- A round calls a handler only for what was registered with it when `pselect` returned, was ready then,
and is registered and interested still. -/
theorem iteration_selected (s : Proxy) {turns : Int → Turn} (h : AcceptsOthers slaveR slaveW turns) :
    ∃ es, Always (ServesReady (s.selected slaveR) (s.selected slaveW)) s es ∧
      s.run es = s.handleIteration slaveR slaveW turns := by
  have hround : Reaches (s.selected slaveR) (s.selected slaveW) s (s.handleIteration slaveR slaveW turns) ∧
      ∀ fd, slaveR fd = true ∨ slaveW fd = true →
        KeepsSlot fd (s.sel.handlerAt fd) (s.handleIteration slaveR slaveW turns) := by
    refine List.foldlRecOn (motive := fun t => Reaches (s.selected slaveR) (s.selected slaveW) s t ∧
      ∀ fd, slaveR fd = true ∨ slaveW fd = true → KeepsSlot fd (s.sel.handlerAt fd) t) _ _
      ⟨.refl s, fun _ _ => .inl rfl⟩ fun t ht i _ => ?_
    have hitem : Turns (s.selected slaveR) (s.selected slaveW) (turns i) t
        (t.handleItem slaveR slaveW i (turns i)) :=
      turns_handleItem (turns i)
        (fun hslave _ hat => ⟨hslave, (ht.2 i (.inl hslave)).eq_of_handlerAt hat⟩)
        (fun hslave _ hat => ⟨hslave, (ht.2 i (.inr hslave)).eq_of_handlerAt hat⟩)
    refine ⟨ht.1.trans hitem.reaches, fun fd hslave => ?_⟩
    refine hitem.keeps fd _ (fun o ho haccept => ?_) (ht.2 fd hslave)
    obtain ⟨hR, hW⟩ := h i o ho fd haccept
    rcases hslave with hslave | hslave
    · exact Bool.false_ne_true (hR.symm.trans hslave)
    · exact Bool.false_ne_true (hW.symm.trans hslave)
  exact hround.1

/-- A client is accepted on one socket while the origin of another takes twenty bytes. -/
def acceptingTurns (fd : Int) : Turn :=
  if fd = 3 then { accept := some ⟨some 9, noPipes⟩ } else { write := some 20 }

theorem iteration_selected_accepting :
    let s := mainLoop.run (connects 0 7 8)
    let slaveR : Int → Bool := (· == 3)
    let slaveW : Int → Bool := (· == 8)
    (∃ es, Always (ServesReady (s.selected slaveR) (s.selected slaveW)) s es ∧
        s.run es = s.handleIteration slaveR slaveW acceptingTurns) ∧
      (s.handleIteration slaveR slaveW acceptingTurns).made = 2 ∧
      (s.handleIteration slaveR slaveW acceptingTurns).sel.handlerAt 9 = some (.client 1) := by
  refine ⟨iteration_selected _ ?_, by decide +kernel, by decide +kernel⟩
  intro fd o ho fd' hfd'
  unfold acceptingTurns at ho
  split at ho
  · obtain rfl := Option.some.inj ho
    obtain rfl := Option.some.inj hfd'
    exact ⟨by decide, by decide⟩
  · exact absurd ho.symm (Option.some_ne_none o)

/-- Any descriptor, whatever it is registered with. -/
def anything (_ : Int) (_ : Handlers) : Prop := True

/-- A round of the items is a run. -/
theorem reaches_handleIteration (s : Proxy) (slaveR slaveW : Int → Bool) (turns : Int → Turn) :
    Reaches anything anything s (s.handleIteration slaveR slaveW turns) :=
  List.foldlRecOn (motive := Reaches anything anything s) _ _ (.refl s) fun t ht i _ =>
    ht.trans (turns_handleItem (s := t) (turns i) (fun _ _ _ => trivial) (fun _ _ _ => trivial)).reaches

/-- A round of `selector_select` is a run. -/
theorem reaches_selectorSelect (s : Proxy) (r : Round) :
    Reaches anything anything s (s.selectorSelect r).2 := by
  have hwaiting : Reaches anything anything s (s.background r.waiting) := .background s r.waiting
  have hfinish : ∀ t, Reaches anything anything s t →
      Reaches anything anything s ((t.background r.finishing).step (.notifications r.blocks)) := fun t ht =>
    ht.trans ((Reaches.background t r.finishing).trans (.notifications _ r.blocks))
  unfold selectorSelect
  dsimp only
  split
  · exact hfinish _ hwaiting
  · exact hwaiting
  · exact hwaiting
  · exact hfinish _ (hwaiting.trans (reaches_handleIteration ..))

/-- After any number of rounds the proxy is where a run of events leads to, of which each calls a handler
for a descriptor that is registered with it and interested; or it left the loop there. -/
theorem serve_reaches (s : Proxy) (rounds : List Round) :
    ∃ es, Always (ServesReady anything anything) s es ∧
      (s.serve rounds = s.run es ∨ s.serve rounds = (s.run es).stop (.exited 2)) := by
  suffices h : ∀ rounds s₁, Reaches anything anything s s₁ → ∃ t, Reaches anything anything s t ∧
      (s₁.serve rounds = t ∨ s₁.serve rounds = t.stop (.exited 2)) by
    obtain ⟨t, ⟨es, hes, rfl⟩, hserve⟩ := h rounds s (.refl s)
    exact ⟨es, hes, hserve⟩
  intro rounds
  induction rounds with
  | nil => exact fun s₁ h => ⟨s₁, h, .inl rfl⟩
  | cons r rounds ih =>
    intro s₁ h
    have hround := h.trans (reaches_selectorSelect s₁ r)
    unfold serve
    split
    · exact ⟨s₁, h, .inl rfl⟩
    · split
      · next s₂ hselect =>
        rw [hselect] at hround
        exact ih s₂ hround
      · next status s₂ _ hselect =>
        rw [hselect] at hround
        split
        · exact ⟨s₂, hround, .inl rfl⟩
        · exact ⟨s₂, hround, .inr rfl⟩

end Proxy

end HttpProxy
