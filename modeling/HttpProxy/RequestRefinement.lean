import HttpProxy.RequestMachine
import HttpProxy.RequestTermination

/-!
# The request parser refines its machine

Each function of the parser is one phase of `reqMachine`. `iteration_move` says what one iteration
of the loop of `checkRequestInner` is to the machine, and `requestLoop_run` follows the loop: a
call that starts in any state and returns leaves the parser where the machine's run over the
readable cells of the input ends, with the machine's emissions written, and a call does not
return exactly when that run ends in `spin`.

The input has no zero byte, which the parser takes for the end of its input.
-/

namespace HttpProxy

open ReqMachine (optionsFor)

/-- The machine in control state `ctl` with what the code knows in `s`. -/
def ReqState.machineAt (s : ReqState) (ctl : ReqCtl) : ReqMachine :=
  ⟨ctl, s.rData.toRequestFields, s.calls⟩

/-- The parser is between two functions, with `l` to read. -/
structure ReqState.Reads (s : ReqState) (l : List Cell) : Prop where
  shows_ : s.io.Shows l
  nonzero : ∀ x ∈ l, x.1 ≠ 0
  notEmpty : s.io.isBufferEmpty = false

/-- A control state the code can rest in until there is more input. -/
def ReqCtl.Rests : ReqCtl → Prop
  | .portEnd | .halt _ _ => False
  | _ => True

/-- The request data of a parser resting in the machine's state `q`. -/
structure RestsIn (q : ReqMachine) (rd : RequestData) : Prop where
  rests : q.ctl.Rests
  fields : rd.toRequestFields = q.d
  parserState : rd.parserState = q.ctl.parserState
  next : ∀ n, q.ctl = .space n → rd.next = n.parserState

/-- Two states that differ in what was read, not in the parser's own state. -/
structure ReqState.SameCtl (s s' : ReqState) : Prop where
  parserState : s'.rData.parserState = s.rData.parserState
  next : s'.rData.next = s.rData.next

/-- A call of one of the parser's functions, from the machine's state `q` with `l` to read. It
returns `true` with the machine in `done s'`, where `s'` is what it left; it returns `false` because
it ran out of input, or with the machine in `failed s'`. -/
inductive CallMove (done failed : ReqState → ReqMachine) (q : ReqMachine) (s : ReqState)
    (l : List Cell) : Bool × ReqState → Prop
  | done {s' : ReqState} {l' : List Cell} (same : s.SameCtl s') (reads : s'.Reads l')
      (adv : Advance reqMachine id q s.io l (done s') s'.io l') :
      CallMove done failed q s l (true, s')
  | failed {s' : ReqState} {l' : List Cell} (same : s.SameCtl s') (reads : s'.Reads l')
      (adv : Advance reqMachine id q s.io l (failed s') s'.io l') :
      CallMove done failed q s l (false, s')
  | waits {s' : ReqState} (ctl : ReqCtl) (same : s.SameCtl s') (rests : ctl.Rests)
      (parserState : ctl.parserState = s.rData.parserState)
      (next : ∀ n, ctl = .space n → s.rData.next = n.parserState)
      (waits : Waits reqMachine id q s.io l (s'.machineAt ctl) s'.io (s'.machineAt ctl).pushBack) :
      CallMove done failed q s l (false, s')

namespace ReqState

theorem SameCtl.refl (s : ReqState) : s.SameCtl s := ⟨rfl, rfl⟩

/-- Two changes that leave the parser's own state are one. -/
theorem SameCtl.trans {s s' s'' : ReqState} (h : s.SameCtl s') (h' : s'.SameCtl s'') :
    s.SameCtl s'' :=
  ⟨h'.parserState.trans h.parserState, h'.next.trans h.next⟩

/-- A function that reads leaves the parser with the rest to read. -/
theorem Reads.of_advance {q q' : ReqMachine} {s s' : ReqState} {l l' : List Cell}
    (h : s.Reads l) (adv : Advance reqMachine id q s.io l q' s'.io l')
    (he : s'.io.isBufferEmpty = s.io.isBufferEmpty) : s'.Reads l' :=
  ⟨adv.shows_, fun x hx => h.nonzero x (adv.suffix.subset hx), he.trans h.notEmpty⟩

end ReqState

/-! ## The utilities in the request machine -/

/-- A byte that is written as it is read is one step of the machine. -/
theorem advance_read {q q' : ReqMachine} {io : Io} {x : Cell} {l : List Cell}
    (h : io.Shows (x :: l)) (hx : x.1 ≠ 0) (hs : q.step x = (q', echoed true x)) :
    Advance reqMachine id q io (x :: l) q'
      { io with b := (bufferRead io.b).2, out := io.out ++ echoed true x } l := by
  rw [← readByte_cons true h hx]
  exact Advance.read true h hx (hs.trans (by rw [List.map_id]))

/-- A match in the parser is a run of the machine through its states inside the format. -/
theorem matchFormat_req (q done miss : ReqMachine) (format pre : List UInt8)
    (inside : Nat → ReqCtl) (hne : format ≠ []) (hnz : 0 ∉ format)
    (hstep : ∀ i < format.length, ∀ x, (q.goto (inside i)).step x =
      q.stepMatch format i inside done miss.step x)
    {io : Io} {l : List Cell} (h : io.Shows l) :
    MatchMove reqMachine id format pre (fun i => q.goto (inside i)) done miss (q.goto (inside 0))
      io l (matchFormat format pre io) := by
  refine matchFormat_move pre hne hnz (fun i hi x _ => ?_) h
  simp only [List.map_id]
  exact hstep i hi x

/-! ## Spaces -/

/-- The control state behind a run of blanks. -/
def AfterSpaces.ctl : AfterSpaces → ReqCtl
  | .uri => .uri 0
  | .version => .version 0
  | .host => .host .header 0

/-- In front of a state blanks are skipped, and anything else is read by it. -/
theorem step_space (s : ReqState) (n : AfterSpaces) (x : Cell) :
    (s.machineAt (.space n)).step x =
      (s.machineAt (.space n)).stepSpace n (s.machineAt n.ctl).step x := by
  cases n <;> rfl

/-- `checkSpaces` goes to the state behind the blanks, or runs out in them. -/
theorem checkSpaces_move {s : ReqState} {l : List Cell} (h : s.Reads l) (n : AfterSpaces)
    (hp : s.rData.parserState = .SPACE_TRANSITION) (hn : s.rData.next = n.parserState) :
    CallMove (fun s' => s'.machineAt n.ctl) (fun s' => s'.machineAt n.ctl)
      (s.machineAt (.space n)) s l (checkSpaces s) := by
  have hstep := step_space s n
  have hblank : ∀ x : Cell, isBlank x.1 = true →
      reqMachine.step (s.machineAt (.space n)) x = (s.machineAt (.space n), []) := by
    intro x hx
    refine (hstep x).trans ?_
    rw [ReqMachine.stepSpace, if_pos hx]
    rfl
  obtain ⟨b', l', hmove, hadv, hhead⟩ := moveThroughSpaces_spec (ι := id) hblank h.shows_
  have hreads : ({ s with io := { s.io with b := b' } } : ReqState).Reads l' :=
    h.of_advance hadv rfl
  unfold checkSpaces
  simp only [hmove]
  cases l' with
  | nil =>
    simp only [List.head?_nil, Option.elim_none, if_true]
    exact .waits (.space n) ⟨rfl, rfl⟩ trivial hp.symm (fun m hm => by cases hm; exact hn)
      (hadv.waits (Waits.here hadv.shows_ []))
  | cons x l' =>
    have hx : x.1 ≠ 0 := hreads.nonzero x List.mem_cons_self
    have hb := hhead x rfl
    simp only [List.head?_cons, Option.elim_some, hx, if_false]
    have hins : reqMachine.step (s.machineAt (.space n)) x =
        (((s.machineAt n.ctl).step x).1, [SP].map id ++ ((s.machineAt n.ctl).step x).2) := by
      refine (hstep x).trans ?_
      rw [ReqMachine.stepSpace, hb]
      rfl
    have hadv' := hadv.trans (Advance.insert [SP] hadv.shows_ hins)
    exact .done ⟨rfl, rfl⟩ ⟨hadv'.shows_, hreads.nonzero, h.notEmpty⟩ hadv'

/-! ## The method -/

/-- The byte behind a method is read by what the method leads to. -/
theorem step_afterMethod (q : ReqMachine) (m : HttpMethod) (x : Cell) :
    (q.afterMethod m).step x = q.stepAfterMethod m x := by
  unfold ReqMachine.afterMethod ReqMachine.stepAfterMethod
  by_cases hm : isSupported m = true
  · simp only [hm, if_true]; rfl
  · simp only [hm, if_false, Bool.false_eq_true, ReqMachine.afterMethod]; rfl

/-- Inside a method the machine does not look at its control state. -/
theorem stepMethodIn_goto (q : ReqMachine) (ctl : ReqCtl) (c : UInt8)
    (opts : List (List UInt8 × HttpMethod)) (i : Nat) (x : Cell) :
    (q.goto ctl).stepMethodIn c opts i x = q.stepMethodIn c opts i x := by
  induction opts generalizing i with
  | nil => rfl
  | cons o opts ih =>
    simp only [ReqMachine.stepMethodIn]
    by_cases ho : o.1.headD 0 = c
    · rw [if_pos ho, if_pos ho]
      simp only [ReqMachine.stepMatch, HttpProxy.stepMatch, ih 0]
      rfl
    · rw [if_neg ho, if_neg ho]; exact ih 0

/-- Methods that begin with another byte are not tried. -/
theorem stepMethodIn_optionsFor (q : ReqMachine) (c : UInt8)
    (opts : List (List UInt8 × HttpMethod)) (x : Cell) :
    q.stepMethodIn c opts 0 x = q.stepMethodIn c (optionsFor c opts) 0 x := by
  induction opts with
  | nil => rfl
  | cons o opts ih =>
    by_cases ho : o.1.headD 0 = c
    · simp only [optionsFor, List.dropWhile_cons, ho, bne_self_eq_false, Bool.false_eq_true, if_false]
    · rw [ReqMachine.stepMethodIn, if_neg ho, ih]
      simp only [optionsFor, List.dropWhile_cons, bne_iff_ne, ne_eq, ho, not_false_eq_true, if_true]

/-- What the loop over the method options is to the machine, from `q` in front of the first
option for `c`. -/
inductive MethodMove (q₀ : ReqMachine) (c : UInt8) (q : ReqMachine) (io : Io) (l : List Cell) :
    HttpMethod × Io → Prop
  | found {m : HttpMethod} {io' : Io} {l' : List Cell}
      (empty : io'.isBufferEmpty = io.isBufferEmpty)
      (adv : Advance reqMachine id q io l (q₀.afterMethod m) io' l') : MethodMove q₀ c q io l (m, io')
  | waits {io' : Io} {opts : List (List UInt8 × HttpMethod)} {i : Nat}
      (waits : Waits reqMachine id q io l (q₀.goto (.methodIn c opts i)) io'
        (q₀.goto (.methodIn c opts i)).pushBack) : MethodMove q₀ c q io l (q₀.d.method, io')

/-- What was read in front belongs to the move. -/
theorem MethodMove.prepend {q₀ q q' : ReqMachine} {c : UInt8} {io io' : Io} {l l' : List Cell}
    {r : HttpMethod × Io} (h : Advance reqMachine id q io l q' io' l')
    (he : io'.isBufferEmpty = io.isBufferEmpty) (m : MethodMove q₀ c q' io' l' r) :
    MethodMove q₀ c q io l r := by
  cases m with
  | found empty adv => exact .found (empty.trans he) (h.trans adv)
  | waits w => exact .waits (h.waits w)

/-- Without an option for `c` the loop changes nothing. -/
theorem extractHttpMethodLoop_of_nil {c : UInt8} {opts : List (List UInt8 × HttpMethod)}
    (h : optionsFor c opts = []) (m : HttpMethod) (io : Io) :
    extractHttpMethodLoop c opts m io = (m, io) := by
  induction opts with
  | nil => rfl
  | cons o opts ih =>
    by_cases hc : o.1.headD 0 = c
    · simp only [optionsFor, List.dropWhile_cons, hc, bne_self_eq_false, Bool.false_eq_true,
        if_false, reduceCtorEq] at h
    · simp only [optionsFor, List.dropWhile_cons, bne_iff_ne, ne_eq, hc, not_false_eq_true,
        if_true] at h
      simp only [extractHttpMethodLoop, hc, if_false]
      exact ih h

/-- The methods are tried as the machine tries them. The induction is on those still to try. -/
theorem extractHttpMethodLoop_move (q : ReqMachine) {c : UInt8}
    {opts : List (List UInt8 × HttpMethod)}
    (hopts : ∀ o ∈ opts, o.1.tail ≠ [] ∧ 0 ∉ o.1.tail)
    {io : Io} {l : List Cell} (h : io.Shows l) (hz : ∀ x ∈ l, x.1 ≠ 0)
    (he : io.isBufferEmpty = false) (hne : optionsFor c opts ≠ []) :
    MethodMove q c (q.goto (.methodIn c (optionsFor c opts) 0)) io l
      (extractHttpMethodLoop c opts q.d.method io) := by
  induction opts generalizing io l with
  | nil => exact absurd rfl hne
  | cons o rest ih =>
    obtain ⟨name, m⟩ := o
    have hrest : ∀ o ∈ rest, o.1.tail ≠ [] ∧ 0 ∉ o.1.tail :=
      fun o ho => hopts o (List.mem_cons_of_mem _ ho)
    by_cases hc : name.headD 0 = c
    · have hopt : optionsFor c ((name, m) :: rest) = (name, m) :: rest := by
        simp only [optionsFor, List.dropWhile_cons, hc, bne_self_eq_false, Bool.false_eq_true,
          if_false]
      obtain ⟨htail, hnz⟩ := hopts (name, m) List.mem_cons_self
      rw [hopt]
      simp only [extractHttpMethodLoop, hc, if_true]
      -- After the last option the code stops with the byte that missed still to read.
      have hmiss : ∀ x, q.stepMethodIn c rest 0 x =
          (if optionsFor c rest = [] then q.afterMethod q.d.method
            else q.goto (.methodIn c (optionsFor c rest) 0)).step x := by
        intro x
        rw [stepMethodIn_optionsFor]
        by_cases hr : optionsFor c rest = []
        · rw [if_pos hr, hr, step_afterMethod]; rfl
        · rw [if_neg hr]; exact (stepMethodIn_goto q _ c _ 0 x).symm
      have hmove := matchFormat_req q (q.afterMethod m)
        (if optionsFor c rest = [] then q.afterMethod q.d.method
          else q.goto (.methodIn c (optionsFor c rest) 0))
        _ [c] (.methodIn c ((name, m) :: rest)) htail hnz
        (fun i _ x => by
          refine (stepMethodIn_goto q _ c _ i x).trans ?_
          rw [ReqMachine.stepMethodIn, if_pos hc]
          congr 1
          exact funext hmiss) h
      generalize matchFormat name.tail [c] io = r at hmove ⊢
      cases hmove with
      | full empty adv => exact .found empty adv
      | miss empty more adv =>
        simp only [empty.trans he, Bool.false_eq_true, if_false]
        by_cases hr : optionsFor c rest = []
        · rw [if_pos hr] at adv
          rw [extractHttpMethodLoop_of_nil hr]
          exact .found empty adv
        · rw [if_neg hr] at adv
          exact MethodMove.prepend adv empty
            (ih hrest adv.shows_ (fun x hx => hz x (adv.suffix.subset hx)) (empty.trans he) hr)
      | short lt w =>
        simp only [w.isBufferEmpty, Bool.false_eq_true, if_false, if_true]
        exact .waits w
      | nul lt meets => exact absurd hz meets.ne_zero
    · have hopt : optionsFor c ((name, m) :: rest) = optionsFor c rest := by
        simp only [optionsFor, List.dropWhile_cons, bne_iff_ne, ne_eq, hc, not_false_eq_true, if_true]
      rw [hopt] at hne ⊢
      simp only [extractHttpMethodLoop, hc, if_false]
      exact ih hrest h hz he hne

/-- Behind its first byte a method is matched by bytes, none of them zero. -/
theorem methodOption_tail : ∀ o ∈ methodOption, o.1.tail ≠ [] ∧ 0 ∉ o.1.tail := by decide

/-- The error of a method that is none of the supported ones. -/
def methodError (m : HttpMethod) : RequestErr :=
  if m = .UNDEFINED_M then .GENERAL_METHOD_ERROR else .UNSUPPORTED_METHOD_ERROR

/-- Behind a supported method come the blanks in front of the target. -/
theorem afterMethod_of_supported {q : ReqMachine} {m : HttpMethod} (h : isSupported m = true) :
    q.afterMethod m = { q with ctl := .space .uri, d := { q.d with method := m } } := by
  unfold ReqMachine.afterMethod
  simp only [h, if_true]
  rfl

/-- Behind any other method the request is rejected. -/
theorem afterMethod_of_not {q : ReqMachine} {m : HttpMethod} (h : isSupported m = false) :
    q.afterMethod m =
      ReqMachine.reject { q with d := { q.d with method := m } } (methodError m) := by
  unfold ReqMachine.afterMethod
  simp only [h, Bool.false_eq_true, if_false]
  rfl

/-- `extractHttpMethod` goes on to the blanks in front of the target, rejects the request, or runs
out. -/
theorem extractHttpMethod_move {s : ReqState} {l : List Cell} (h : s.Reads l)
    (hp : s.rData.parserState = .METHOD) (hm : isSupported s.rData.method = false) :
    CallMove (fun s' => s'.machineAt (.space .uri))
      (fun s' => (s'.machineAt .method).reject (methodError s'.rData.method))
      (s.machineAt .method) s l (extractHttpMethod s) := by
  unfold extractHttpMethod
  cases l with
  | nil =>
    simp only [readAndWrite_nil h.shows_, toupper_zero, if_true]
    exact .waits .method ⟨rfl, rfl⟩ trivial hp.symm (fun _ hn => by cases hn)
      (Waits.here h.shows_ [])
  | cons x l =>
    have hx : x.1 ≠ 0 := h.nonzero x List.mem_cons_self
    have hc : toupper x.1 ≠ 0 := fun h0 => hx (toupper_eq_zero.mp h0)
    have hl : ∀ y ∈ l, y.1 ≠ 0 := fun y hy => h.nonzero y (List.mem_cons_of_mem _ hy)
    simp only [readAndWrite_cons h.shows_ hx, hc, if_false]
    have hadv : Advance reqMachine id (s.machineAt .method) s.io (x :: l)
        ((s.machineAt .method).step x).1 (readByte true s.io) l :=
      Advance.read true h.shows_ hx (by simp only [List.map_id]; rfl)
    rw [readByte_cons true h.shows_ hx] at hadv
    generalize hio : ({ s.io with b := _, out := _ } : Io) = io at hadv ⊢
    have he : io.isBufferEmpty = false := by rw [← hio]; exact h.notEmpty
    by_cases ho : optionsFor (toupper x.1) methodOption = []
    · rw [show ((s.machineAt .method).step x).1 = (s.machineAt .method).afterMethod s.rData.method
        from if_pos ho, afterMethod_of_not hm] at hadv
      simp only [extractHttpMethodLoop_of_nil ho, hm]
      exact .failed ⟨rfl, rfl⟩ ⟨hadv.shows_, hl, he⟩ hadv
    · rw [show ((s.machineAt .method).step x).1 =
        (s.machineAt .method).goto (.methodIn (toupper x.1) (optionsFor (toupper x.1) methodOption) 0)
        from if_neg ho] at hadv
      have hloop := extractHttpMethodLoop_move (s.machineAt .method) methodOption_tail hadv.shows_
        hl he ho
      rw [show (s.machineAt .method).d.method = s.rData.method from rfl] at hloop
      generalize extractHttpMethodLoop _ _ _ _ = r at hloop ⊢
      cases hloop with
      | @found m io' l' empty adv =>
        have hadv' := hadv.trans adv
        have hl' : ∀ y ∈ l', y.1 ≠ 0 := fun y hy => hl y (adv.suffix.subset hy)
        cases hs : isSupported m with
        | true =>
          rw [afterMethod_of_supported hs] at hadv'
          exact .done ⟨rfl, rfl⟩ ⟨hadv'.shows_, hl', empty.trans he⟩ hadv'
        | false =>
          rw [afterMethod_of_not hs] at hadv'
          exact .failed ⟨rfl, rfl⟩ ⟨hadv'.shows_, hl', empty.trans he⟩ hadv'
      | @waits io' opts i w =>
        rw [show (s.machineAt .method).d.method = s.rData.method from rfl]
        simp only [hm]
        exact .waits (.methodIn _ opts i) ⟨rfl, rfl⟩ trivial hp.symm
          (fun _ hn => by cases hn) (hadv.waits w)

/-! ## The target -/

/-- The loop over a relative target stops in front of the first blank, or at the end of the
input. -/
theorem cleanRelativeUriLoop_spec {q : ReqMachine}
    (hword : ∀ x, isBlank x.1 = false → reqMachine.step q x = (q, echoed true x))
    {io : Io} {l : List Cell} (h : io.Shows l) (hz : ∀ x ∈ l, x.1 ≠ 0) :
    ∃ io' l', cleanRelativeUriLoop l.length io = (l'.head?.elim 0 Prod.fst, io') ∧
      io'.isBufferEmpty = io.isBufferEmpty ∧ Advance reqMachine id q io l q io' l' ∧
      ∀ x ∈ l'.head?, isBlank x.1 = true := by
  induction l generalizing io with
  | nil =>
    refine ⟨io, [], ?_, rfl, Advance.refl h, fun x hx => absurd hx (Option.not_mem_none x)⟩
    simp only [List.length_nil, cleanRelativeUriLoop, h.peek_nil, List.head?_nil, Option.elim_none]
  | cons x l ih =>
    have hx : x.1 ≠ 0 := hz x List.mem_cons_self
    cases hb : isBlank x.1 with
    | false =>
      have hread : Advance reqMachine id q io (x :: l) q (readByte true io) l :=
        Advance.read true h hx (by rw [hword x hb, List.map_id])
      obtain ⟨io', l', hl, he, hadv, hhead⟩ :=
        ih hread.shows_ (fun y hy => hz y (List.mem_cons_of_mem _ hy))
      refine ⟨io', l', ?_, he.trans (by rw [readByte_cons true h hx]), hread.trans hadv, hhead⟩
      simp only [List.length_cons, cleanRelativeUriLoop, h.peek, hx, hb, ne_eq, not_false_eq_true,
        and_self, if_true]
      exact hl
    | true =>
      refine ⟨io, x :: l, ?_, rfl, Advance.refl h, ?_⟩
      · simp only [List.length_cons, cleanRelativeUriLoop, h.peek, hb, Bool.true_eq_false,
          and_false, if_false, List.head?_cons, Option.elim_some]
      · intro y hy
        obtain rfl : x = y := Option.some.inj hy
        exact hb

/-- A relative target is gone through up to the blank behind it. -/
theorem cleanRelativeUri_move {s : ReqState} {l : List Cell} (h : s.Reads l) {ctl : ReqCtl}
    (done : ReqState → ReqMachine) (hctl : ctl = .relative ∨ ctl = .refused)
    (hp : s.rData.parserState = .RELATIVE_URI)
    (hword : ∀ x, isBlank x.1 = false →
      (s.machineAt ctl).step x = (s.machineAt ctl, echoed true x))
    (hblank : ∀ io x, isBlank x.1 = true →
      (s.machineAt ctl).step x = (done { s with io := io }).step x) :
    CallMove done done (s.machineAt ctl) s l (cleanRelativeUri s) := by
  obtain ⟨io', l', hl, he, hadv, hhead⟩ :=
    cleanRelativeUriLoop_spec (q := s.machineAt ctl) hword h.shows_ h.nonzero
  have hreads : ({ s with io := io' } : ReqState).Reads l' := h.of_advance hadv he
  unfold cleanRelativeUri
  rw [h.shows_.length, hl]
  cases l' with
  | nil =>
    simp only [List.head?_nil, Option.elim_none, if_true]
    refine .waits ctl ⟨rfl, rfl⟩ ?_ ?_ ?_ (hadv.waits ?_)
    · rcases hctl with rfl | rfl <;> trivial
    · rcases hctl with rfl | rfl <;> exact hp.symm
    · rcases hctl with rfl | rfl <;> exact fun _ hn => by cases hn
    · rcases hctl with rfl | rfl <;> exact Waits.here hadv.shows_ []
  | cons x l' =>
    have hx : x.1 ≠ 0 := hreads.nonzero x List.mem_cons_self
    simp only [List.head?_cons, Option.elim_some, hx, if_false]
    exact .done ⟨rfl, rfl⟩ hreads
      (hadv.trans (Advance.handOver hadv.shows_ (hblank io' x (hhead x rfl))))

/-! ## Hosts -/

/-- A store inside the array, with and without the proof that it is. -/
theorem set_eq_setIfInBounds {n i : Nat} (v : Vector UInt8 n) (c : UInt8) (h : i < n) :
    v.set i c h = v.setIfInBounds i c := by
  ext j hj
  rw [Vector.getElem_set, Vector.getElem_setIfInBounds]

/-- How the loop over a host ends: at the end of the input, at a byte that belongs to no host, or
with the array full. -/
inductive HostLoopMove (place : HostPlace) (s : ReqState) (q : ReqMachine) (io : Io)
    (l : List Cell) : HostLoop → Prop
  | ended {t : HostLoop} (lt : t.i < HOST_MAX_SIZE) (c : t.c = 0)
      (empty : t.io.isBufferEmpty = io.isBufferEmpty)
      (adv : Advance reqMachine id q io l ((s.withHost t).machineAt (.host place t.i)) t.io []) :
      HostLoopMove place s q io l t
  | stopped {t : HostLoop} {x : Cell} {l' : List Cell} (lt : t.i < HOST_MAX_SIZE)
      (c : t.c = tolower x.1) (host : isHostChar t.c = false)
      (userinfo : ¬(place ≠ .header ∧ t.c = 0x40)) (empty : t.io.isBufferEmpty = io.isBufferEmpty)
      (adv : Advance reqMachine id q io l ((s.withHost t).machineAt (.host place t.i)) t.io
        (x :: l')) :
      HostLoopMove place s q io l t
  | full {t : HostLoop} {l' : List Cell} (i : t.i = HOST_MAX_SIZE) (c : isHostChar t.c = true)
      (empty : t.io.isBufferEmpty = io.isBufferEmpty)
      (adv : Advance reqMachine id q io l
        (((s.withHost t).machineAt (.host place 0)).noHost place) t.io l') :
      HostLoopMove place s q io l t

/-- What was read in front belongs to the move. -/
theorem HostLoopMove.prepend {place : HostPlace} {s : ReqState} {q q' : ReqMachine} {io io' : Io}
    {l l' : List Cell} {t : HostLoop} (h : Advance reqMachine id q io l q' io' l')
    (he : io'.isBufferEmpty = io.isBufferEmpty) (m : HostLoopMove place s q' io' l' t) :
    HostLoopMove place s q io l t := by
  cases m with
  | ended lt c empty adv => exact .ended lt c (empty.trans he) (h.trans adv)
  | stopped lt c host userinfo empty adv =>
    exact .stopped lt c host userinfo (empty.trans he) (h.trans adv)
  | full i c empty adv => exact .full i c (empty.trans he) (h.trans adv)

/-- Storing a byte of the host in the code is storing it in the machine. -/
theorem machineAt_set (s : ReqState) (t : HostLoop) {i j : Nat} {c c' : UInt8} {io : Io}
    (h : i < HOST_MAX_SIZE) (ctl : ReqCtl) :
    (s.withHost ⟨j, c', t.host.set i c h, io⟩).machineAt ctl =
      ((s.withHost t).machineAt ctl).setHost i c := by
  rw [set_eq_setIfInBounds]; rfl

/-- A byte of a host is stored and written; the host ends where the array does. -/
theorem stepHost_of_isHostChar {q : ReqMachine} (place : HostPlace) (i : Nat) {x : Cell}
    (h : isHostChar (tolower x.1) = true) :
    q.stepHost place i x =
      (if i + 1 < HOST_MAX_SIZE then (q.setHost i (tolower x.1)).goto (.host place (i + 1))
        else (q.setHost i (tolower x.1)).noHost place, echoed true x) := by
  rw [ReqMachine.stepHost]
  simp only [h, if_true]

/-- A `@` begins the host anew, in a target. -/
theorem stepHost_of_at {q : ReqMachine} {place : HostPlace} (i : Nat) {x : Cell}
    (hp : place ≠ .header) (h : tolower x.1 = 0x40) :
    q.stepHost place i x = ((q.setHost 0 0).goto (.host place 0), echoed true x) := by
  rw [ReqMachine.stepHost]
  simp only [h, hp, ne_eq, not_false_eq_true, and_self, if_true,
    show isHostChar 0x40 = false from rfl, Bool.false_eq_true, if_false]

/-- A `:` ends the host and begins its port. -/
theorem stepHost_of_colon {q : ReqMachine} (place : HostPlace) (i : Nat) {x : Cell}
    (h : tolower x.1 = 0x3a) :
    q.stepHost place i x = (q.goto (.port place i none), echoed true x) := by
  rw [ReqMachine.stepHost]
  simp only [h, show isHostChar 0x3a = false from rfl, Bool.false_eq_true, if_false, if_true,
    show ¬(place ≠ .header ∧ (0x3a : UInt8) = 0x40) from fun hc => absurd hc.2 (by decide)]

/-- The bytes of a host are copied as the machine copies them. The induction is on the fuel. -/
theorem hostLoop_move (place : HostPlace) (s : ReqState) (l : List Cell) (fuel : Nat)
    (t : HostLoop) (hf : l.length < fuel) (hi : t.i < HOST_MAX_SIZE) (h : t.io.Shows l)
    (hz : ∀ x ∈ l, x.1 ≠ 0) :
    HostLoopMove place s ((s.withHost t).machineAt (.host place t.i)) t.io l
      (hostLoop (decide (place ≠ .header)) fuel t) := by
  induction l generalizing fuel t with
  | nil =>
    obtain ⟨fuel, rfl⟩ := Nat.exists_eq_succ_of_ne_zero (Nat.ne_of_gt hf)
    have hp : peekDownChar t.io.b = 0 := by rw [peekDownChar, h.peek_nil, tolower_zero]
    rw [hostLoop, dif_pos hi]
    simp only [hp, if_true]
    exact .ended hi rfl rfl (Advance.refl h)
  | cons x l ih =>
    obtain ⟨fuel, rfl⟩ := Nat.exists_eq_succ_of_ne_zero (Nat.ne_of_gt (Nat.zero_lt_of_lt hf))
    have hx : x.1 ≠ 0 := hz x List.mem_cons_self
    have hz' : ∀ y ∈ l, y.1 ≠ 0 := fun y hy => hz y (List.mem_cons_of_mem _ hy)
    have hp : peekDownChar t.io.b = tolower x.1 := by rw [peekDownChar, h.peek]
    have hc : tolower x.1 ≠ 0 := fun h0 => hx (tolower_eq_zero.mp h0)
    have hread := readByte_cons true h hx
    have hlen : l.length < fuel := Nat.lt_of_succ_lt_succ hf
    rw [hostLoop, dif_pos hi]
    simp only [hp, hc, if_false]
    by_cases hh : isHostChar (tolower x.1) = true
    · simp only [hh, if_true]
      -- The state of the loop after the character.
      generalize ht' : (⟨t.i + 1, tolower x.1, t.host.set t.i (tolower x.1) hi,
        (readAndWrite t.io).2⟩ : HostLoop) = t'
      have hio : t'.io = readByte true t.io := by rw [← ht']; rfl
      have he : t'.io.isBufferEmpty = t.io.isBufferEmpty := by rw [hio, hread]
      have hset : ∀ ctl, (s.withHost t').machineAt ctl =
          ((s.withHost t).machineAt ctl).setHost t.i (tolower x.1) := by
        rw [← ht']; exact machineAt_set s t hi
      by_cases hlast : t.i + 1 < HOST_MAX_SIZE
      · have hadv : Advance reqMachine id ((s.withHost t).machineAt (.host place t.i)) t.io (x :: l)
            ((s.withHost t').machineAt (.host place t'.i)) (readByte true t.io) l := by
          refine Advance.read true h hx (Eq.trans (stepHost_of_isHostChar place t.i hh) ?_)
          rw [if_pos hlast, List.map_id, hset, ← ht']
          rfl
        rw [← hio] at hadv
        exact HostLoopMove.prepend hadv he
          (ih fuel t' hlen (by rw [← ht']; exact hlast) hadv.shows_ hz')
      · have hadv : Advance reqMachine id ((s.withHost t).machineAt (.host place t.i)) t.io (x :: l)
            (((s.withHost t').machineAt (.host place 0)).noHost place) (readByte true t.io) l := by
          refine Advance.read true h hx (Eq.trans (stepHost_of_isHostChar place t.i hh) ?_)
          rw [if_neg hlast, List.map_id, hset]
          cases place <;> rfl
        have hstop : hostLoop (decide (place ≠ .header)) fuel t' = t' := by
          have hi' : ¬ t'.i < HOST_MAX_SIZE := by rw [← ht']; exact hlast
          cases fuel with
          | zero => rfl
          | succ fuel => rw [hostLoop, dif_neg hi']
        rw [hstop]
        rw [← hio] at hadv
        have hi255 : t'.i = HOST_MAX_SIZE := by rw [← ht']; show t.i + 1 = HOST_MAX_SIZE; omega
        exact .full hi255 (by rw [← ht']; exact hh) he hadv
    · simp only [hh, Bool.false_eq_true, if_false]
      by_cases hu : place ≠ .header ∧ tolower x.1 = 0x40
      · have hu' : decide (place ≠ .header) = true ∧ tolower x.1 = 0x40 := ⟨decide_eq_true hu.1, hu.2⟩
        rw [if_pos hu']
        generalize ht' : (⟨0, tolower x.1, t.host.set 0 0, (readAndWrite t.io).2⟩ : HostLoop) = t'
        have hio : t'.io = readByte true t.io := by rw [← ht']; rfl
        have he : t'.io.isBufferEmpty = t.io.isBufferEmpty := by rw [hio, hread]
        have hadv : Advance reqMachine id ((s.withHost t).machineAt (.host place t.i)) t.io (x :: l)
            ((s.withHost t').machineAt (.host place t'.i)) (readByte true t.io) l := by
          refine Advance.read true h hx (Eq.trans (stepHost_of_at t.i hu.1 hu.2) ?_)
          rw [List.map_id, ← ht', machineAt_set s t (by decide)]
          rfl
        rw [← hio] at hadv
        exact HostLoopMove.prepend hadv he
          (ih fuel t' hlen (by rw [← ht']; exact Nat.zero_lt_succ _) hadv.shows_ hz')
      · have hu' : ¬(decide (place ≠ .header) = true ∧ tolower x.1 = 0x40) := by
          rwa [decide_eq_true_iff]
        rw [if_neg hu']
        exact .stopped (t := { t with c := tolower x.1 }) hi rfl (by simpa only [Bool.not_eq_true] using hh)
          hu rfl (Advance.refl h)

/-- The byte behind what is no host is read by what the machine does without one. -/
theorem step_noHost (q : ReqMachine) (place : HostPlace) (x : Cell) :
    (q.noHost place).step x = q.stepNoHost place x := by
  cases place with
  | uri => exact apply_ite (fun q => ReqMachine.step q x) _ _ _
  | uriHost => exact apply_ite (fun q => ReqMachine.step q x) _ _ _
  | header => exact apply_ite (fun q => ReqMachine.step q x) _ _ _

/-- Where the machine is when the port of a host was read. -/
def ReqState.portDone (s : ReqState) (place : HostPlace) : ReqMachine :=
  if place = .header then s.machineAt .portEnd else (s.machineAt .portEnd).accept

/-- A call of `readHost`: it ran out of input, it read a host and stopped in front of a byte that
is neither part of it nor a `:`, it read a port, or it refused what it read. -/
inductive HostMove (place : HostPlace) (s : ReqState) (l : List Cell) :
    Option (Nat × Bool) × ReqState → Prop
  | waits {s' : ReqState} (ctl : ReqCtl) (same : s.SameCtl s') (rests : ctl.Rests)
      (parserState : ctl.parserState = (ReqCtl.host place 0).parserState)
      (space : ∀ n, ctl ≠ .space n)
      (waits : Waits reqMachine id (s.machineAt (.host place 0)) s.io l (s'.machineAt ctl) s'.io
        (s'.machineAt ctl).pushBack) :
      HostMove place s l (none, s')
  | host {s' : ReqState} {i : Nat} {x : Cell} {l' : List Cell} (lt : i < HOST_MAX_SIZE)
      (same : s.SameCtl s') (reads : s'.Reads (x :: l'))
      (hostChar : isHostChar (tolower x.1) = false)
      (userinfo : ¬(place ≠ .header ∧ tolower x.1 = 0x40)) (colon : tolower x.1 ≠ 0x3a)
      (adv : Advance reqMachine id (s.machineAt (.host place 0)) s.io l
        (s'.machineAt (.host place i)) s'.io (x :: l')) :
      HostMove place s l (some (i, true), s')
  | port {s' : ReqState} {i : Nat} {l' : List Cell} (lt : i < HOST_MAX_SIZE) (same : s.SameCtl s')
      (reads : s'.Reads l') (more : l' ≠ [])
      (adv : Advance reqMachine id (s.machineAt (.host place 0)) s.io l (s'.portDone place)
        s'.io l') :
      HostMove place s l (some (i, true), s')
  | refused {s' : ReqState} {i : Nat} {v : Bool} {l' : List Cell}
      (invalid : ¬(i < HOST_MAX_SIZE ∧ v = true)) (same : s.SameCtl s') (reads : s'.Reads l')
      (adv : Advance reqMachine id (s.machineAt (.host place 0)) s.io l
        ((s'.machineAt (.host place 0)).noHost place) s'.io l') :
      HostMove place s l (some (i, v), s')

/-- Where the machine is when the port `v` was read after a host. -/
def ReqMachine.portDone (q : ReqMachine) (place : HostPlace) (v : Int) : ReqMachine :=
  if place = .header then (q.setPort v).goto .portEnd else (q.setPort v).accept

/-- A port is a number of the machine, and behind it the host is done. -/
theorem step_port (q : ReqMachine) (place : HostPlace) (i : Nat) (n : Option Int) (x : Cell) :
    (q.goto (.port place i n)).step x =
      HttpProxy.stepNumber .dec n (fun n => q.goto (.port place i n))
        (fun v => (q.portDone place v).step) (q.noHost place).step (echoed true) x := by
  show (q.goto (.port place i n)).stepPort place i n x = _
  unfold ReqMachine.stepPort HttpProxy.stepNumber
  by_cases hd : Radix.dec.isDigit x.1 = true
  · rw [if_pos hd, if_pos hd]; rfl
  · rw [if_neg hd, if_neg hd]
    cases n with
    | none =>
      refine Eq.trans ?_ (step_noHost q place x).symm
      cases place <;> rfl
    | some v => cases place <;> rfl

/-- `readHost` is a run through the host and its port, or runs out in one of them. -/
theorem readHost_move (place : HostPlace) {s : ReqState} {l : List Cell} (h : s.Reads l) :
    HostMove place s l (readHost (decide (place ≠ .header)) s) := by
  have hloop := hostLoop_move place s l (l.length + 1) ⟨0, 0, s.rData.host, s.io⟩
    (Nat.lt_succ_self _) (Nat.zero_lt_succ _) h.shows_ h.nonzero
  have hstart : (s.withHost ⟨0, 0, s.rData.host, s.io⟩).machineAt (.host place 0) =
      s.machineAt (.host place 0) := rfl
  simp only [hstart] at hloop
  unfold readHost readPort
  rw [h.shows_.length]
  generalize hostLoop _ _ _ = t at hloop ⊢
  cases hloop with
  | ended lt c empty adv =>
    simp only [c, show (0 : UInt8) ≠ 0x3a by decide, if_false, true_or, if_true]
    refine .waits (.host place t.i) ⟨rfl, rfl⟩ trivial ?_ (fun _ hn => by cases hn)
      (adv.waits ?_)
    · cases place <;> rfl
    · exact Waits.here adv.shows_ _
  | @stopped x l' lt c host userinfo empty adv =>
    have hreads : (s.withHost t).Reads (x :: l') := h.of_advance adv empty
    have hx : x.1 ≠ 0 := hreads.nonzero x List.mem_cons_self
    have h0 : t.c ≠ 0 := by rw [c]; exact fun h0 => hx (tolower_eq_zero.mp h0)
    by_cases hc : t.c = 0x3a
    · -- The colon is read, and then a number.
      have hx' : tolower x.1 = 0x3a := c.symm.trans hc
      have hcolon : Advance reqMachine id ((s.withHost t).machineAt (.host place t.i)) t.io (x :: l')
          (((s.withHost t).machineAt (.host place t.i)).goto (.port place t.i none))
          (readByte true t.io) l' := by
        refine Advance.read true adv.shows_ hx (Eq.trans (stepHost_of_colon place t.i hx') ?_)
        rw [List.map_id]
      have hnum := getNumber_move (M := reqMachine) (ι := id) (r := .dec) true (lit ":")
        (fun n => ((s.withHost t).machineAt (.host place t.i)).goto (.port place t.i n))
        (((s.withHost t).machineAt (.host place t.i)).portDone place)
        (((s.withHost t).machineAt (.host place t.i)).noHost place)
        (fun n x _ => by simp only [List.map_id]; exact step_port _ place t.i n x)
        hcolon.shows_
      have hempty : (readByte true t.io).isBufferEmpty = t.io.isBufferEmpty := by
        rw [readByte_cons true adv.shows_ hx]
      have hnumber : getNumberWith .dec true (lit ":") (readByte true t.io) =
        getNumber (lit ":") (readAndWrite t.io).2 := rfl
      simp only [hc, if_true, ReqState.io_withHost]
      rw [hnumber] at hnum
      generalize getNumber (lit ":") (readAndWrite t.io).2 = r at hnum ⊢
      have hadv := adv.trans hcolon
      cases hnum with
      | @number v io' l'' empty' more adv' =>
        simp only [show (0x3a : UInt8) ≠ 0 by decide, Bool.true_eq_false, false_and, or_self,
          if_false]
        refine .port lt ⟨rfl, rfl⟩ (h.of_advance (hadv.trans adv') ?_) more ?_
        · exact (empty'.trans hempty).trans empty
        · exact hadv.trans adv'
      | @refused io' l'' empty' more adv' =>
        have he : io'.isBufferEmpty = false := ((empty'.trans hempty).trans empty).trans h.notEmpty
        simp only [show (0x3a : UInt8) ≠ 0 by decide, he, Bool.false_eq_true, and_false, or_self,
          if_false]
        refine .refused (fun hv => Bool.false_ne_true hv.2) ⟨rfl, rfl⟩
          (h.of_advance (hadv.trans adv') ((empty'.trans hempty).trans empty)) ?_
        exact hadv.trans adv'
      | @short io' n w =>
        simp only [w.isBufferEmpty, and_self, or_true, if_true]
        -- The host is pushed back in front of the colon and the digits.
        refine .waits (.port place t.i n) ⟨rfl, rfl⟩ trivial ?_ (fun _ hn => by cases hn) ?_
        · cases place <;> rfl
        · have hw := (hadv.waits w).prepend (t.host.toList.take t.i)
          rw [← List.append_assoc, w.isBufferEmpty] at hw
          exact hw
      | nul meets => exact absurd (fun y hy => hreads.nonzero y (List.mem_cons_of_mem _ hy)) meets.ne_zero
    · simp only [hc, h0, if_false, Bool.true_eq_false, false_and, or_self]
      exact .host lt ⟨rfl, rfl⟩ hreads (c ▸ host) (c ▸ userinfo) (c ▸ hc) adv
  | full i c empty adv =>
    have hcolon : t.c ≠ 0x3a := by rintro hc; rw [hc] at c; exact absurd c (by decide)
    have h0 : t.c ≠ 0 := by rintro hc; rw [hc] at c; exact absurd c (by decide)
    simp only [hcolon, h0, if_false, Bool.true_eq_false, false_and, or_self]
    refine .refused (fun hv => Nat.ne_of_lt hv.1 i) ⟨rfl, rfl⟩ ?_ adv
    exact h.of_advance adv empty

/-- Any other byte ends the host. -/
theorem stepHost_of_not {q : ReqMachine} {place : HostPlace} (i : Nat) {x : Cell}
    (hostChar : isHostChar (tolower x.1) = false)
    (userinfo : ¬(place ≠ .header ∧ tolower x.1 = 0x40)) (colon : tolower x.1 ≠ 0x3a) :
    q.stepHost place i x = q.stepHostEnd place x := by
  rw [ReqMachine.stepHost]
  simp only [hostChar, userinfo, colon, Bool.false_eq_true, if_false]

/-- The host of an absolute target. -/
theorem checkUriForHost_move (place : HostPlace) (hplace : place ≠ .header) {s : ReqState}
    {l : List Cell} (h : s.Reads l) (hp : s.rData.parserState = .URI_HOST) :
    CallMove (fun s' => (s'.machineAt .portEnd).accept)
      (fun s' => (s'.machineAt (.host place 0)).noHost place) (s.machineAt (.host place 0)) s l
      (checkUriForHost s) := by
  have hmove := readHost_move place h
  rw [decide_eq_true hplace] at hmove
  unfold checkUriForHost
  generalize readHost true s = r at hmove ⊢
  cases hmove with
  | waits ctl same rests parserState space w =>
    refine .waits ctl same rests (parserState.trans ?_) (fun n hn => absurd hn (space n)) w
    rw [hp]
    cases place with
    | header => exact absurd rfl hplace
    | _ => rfl
  | @host s' i x l' lt same reads hostChar userinfo colon adv =>
    simp only [lt, decide_true, Bool.and_self]
    refine .done same reads (adv.trans (Advance.handOver reads.shows_ ?_))
    refine (stepHost_of_not i hostChar userinfo colon).trans ?_
    cases place with
    | header => exact absurd rfl hplace
    | _ => rfl
  | port lt same reads more adv =>
    simp only [lt, decide_true, Bool.and_self]
    rw [ReqState.portDone, if_neg hplace] at adv
    exact .done same reads adv
  | @refused s' i v l' invalid same reads adv =>
    have hv : (decide (i < HOST_MAX_SIZE) && v) = false := by
      rw [Bool.eq_false_iff, ne_eq, Bool.and_eq_true, decide_eq_true_iff]
      exact invalid
    simp only [hv]
    exact .failed same reads adv

/-- The value of a `Host` header, which a blank or a CR has to end. -/
theorem extractHost_move {s : ReqState} {l : List Cell} (h : s.Reads l)
    (hp : s.rData.parserState = .HOST) :
    CallMove (fun s' => (s'.machineAt .portEnd).accept)
      (fun s' => (s'.machineAt (.host .header 0)).noHost .header) (s.machineAt (.host .header 0)) s l
      (extractHost s) := by
  have hmove := readHost_move .header h
  rw [show decide (HostPlace.header ≠ .header) = false from rfl] at hmove
  unfold extractHost
  generalize readHost false s = r at hmove ⊢
  cases hmove with
  | waits ctl same rests parserState space w =>
    exact .waits ctl same rests (parserState.trans hp.symm) (fun n hn => absurd hn (space n)) w
  | @host s' i x l' lt same reads hostChar userinfo colon adv =>
    simp only [lt, decide_true, Bool.and_self, reads.shows_.peek, Bool.true_and]
    have hstep : (s'.machineAt (.host .header i)).step x = _ :=
      stepHost_of_not i hostChar userinfo colon
    cases hb : isBlank x.1 || x.1 == CR with
    | true =>
      rw [ReqMachine.stepHostEnd, if_pos hb] at hstep
      exact .done same reads (adv.trans (Advance.handOver reads.shows_ hstep))
    | false =>
      rw [ReqMachine.stepHostEnd, if_neg (Bool.eq_false_iff.mp hb)] at hstep
      refine .failed same reads (adv.trans (Advance.handOver reads.shows_ (hstep.trans ?_)))
      -- With no host copied the parser tries again on the same byte, for ever.
      refine Eq.trans ?_ (step_noHost _ .header x).symm
      rw [ReqMachine.stepNoHost, stepHost_of_not 0 hostChar userinfo colon, ReqMachine.stepHostEnd,
        if_neg (Bool.eq_false_iff.mp hb)]
      by_cases h0 : s'.rData.host[0] ≠ 0
      · exact (if_pos h0).trans (if_pos h0).symm
      · exact (if_neg h0).trans ((if_neg h0).trans (if_neg h0)).symm
  | @port s' i l' lt same reads more adv =>
    rw [ReqState.portDone, if_pos rfl] at adv
    obtain ⟨y, l'', rfl⟩ := List.exists_cons_of_ne_nil more
    simp only [lt, decide_true, Bool.and_self, reads.shows_.peek, Bool.true_and]
    have hstep : (s'.machineAt .portEnd).step y = _ := rfl
    cases hb : isBlank y.1 || y.1 == CR with
    | true =>
      exact .done same reads (adv.trans (Advance.handOver reads.shows_ (if_pos hb)))
    | false =>
      refine .failed same reads (adv.trans (Advance.handOver reads.shows_ ?_))
      exact (if_neg (Bool.eq_false_iff.mp hb)).trans (step_noHost _ .header y).symm
  | @refused s' i v l' invalid same reads adv =>
    have hv : (decide (i < HOST_MAX_SIZE) && v) = false := by
      rw [Bool.eq_false_iff, ne_eq, Bool.and_eq_true, decide_eq_true_iff]
      exact invalid
    simp only [hv, Bool.false_and]
    exact .failed same reads adv

/-! ## Iterations -/

/-- The machine stopped with the error the code reports for `s`. -/
def ReqState.stopped (s : ReqState) (why : Halt) : ReqMachine :=
  ⟨.halt why [], { s.rData.toRequestFields with state := errorOf s }, s.calls⟩

/-- What an iteration of the loop that starts with the machine in `q` and `l` to read is to the
machine: it goes on with the machine in the start of its next state, waits for more input, stops
with input left, or is in `FINISHED`. -/
inductive IterMove (q : ReqMachine) (io : Io) (l : List Cell) : LoopFlags × ReqState → Prop
  | goes (s' : ReqState) {l' : List Cell} (reads : s'.Reads l')
      (adv : Advance reqMachine id q io l s'.machine s'.io l') : IterMove q io l ({}, s')
  | waits {s' : ReqState} {q' : ReqMachine} (rests : RestsIn q' s'.rData)
      (calls : q'.calls = s'.calls) (waits : Waits reqMachine id q io l q' s'.io q'.pushBack) :
      IterMove q io l ({ success := false }, s')
  | stops {s' : ReqState} {l' : List Cell} (why : Halt) (reads : s'.Reads l')
      (parserState : s'.rData.parserState ≠ .FINISHED)
      (rejected : why = .rejected ∧ errorOf s' ≠ .OK ∨
        why = .stalled ∧ errorOf s' = s'.rData.state)
      (adv : Advance reqMachine id q io l (s'.stopped why) s'.io l') :
      IterMove q io l ({ success := false }, s')
  | finished {s' : ReqState} {l' : List Cell} (reads : s'.Reads l')
      (parserState : s'.rData.parserState = .FINISHED)
      (adv : Advance reqMachine id q io l s'.machine s'.io l') :
      IterMove q io l ({ active := false }, s')

/-- What was read in front belongs to the move. -/
theorem IterMove.prepend {q q' : ReqMachine} {io io' : Io} {l l' : List Cell}
    {r : LoopFlags × ReqState} (h : Advance reqMachine id q io l q' io' l')
    (m : IterMove q' io' l' r) : IterMove q io l r := by
  cases m with
  | goes s' reads adv => exact .goes s' reads (h.trans adv)
  | waits rests calls w => exact .waits rests calls (h.waits w)
  | stops why reads hp rejected adv => exact .stops why reads hp rejected (h.trans adv)
  | finished reads parserState adv => exact .finished reads parserState (h.trans adv)

/-- A call that ran out of input ends the iteration. -/
theorem IterMove.of_waits {q : ReqMachine} {io : Io} {l : List Cell} {s s' : ReqState}
    (ctl : ReqCtl) (same : s.SameCtl s') (rests : ctl.Rests) (hp : ctl.parserState = s.rData.parserState)
    (next : ∀ n, ctl = .space n → s.rData.next = n.parserState)
    (w : Waits reqMachine id q io l (s'.machineAt ctl) s'.io (s'.machineAt ctl).pushBack) :
    IterMove q io l ({ success := false }, s') :=
  .waits ⟨rests, rfl, same.parserState.trans hp.symm, fun n hn => same.next.trans (next n hn)⟩ rfl w

/-- The rest of a target in which no host was found. A host that was copied before it was refused
stops the iteration. -/
theorem checkUriRelative_move {s : ReqState} {l : List Cell} (h : s.Reads l) {ctl : ReqCtl}
    (hctl : s.rData.host[0] ≠ 0 ∧ ctl = .refused ∨ s.rData.host[0] = 0 ∧ ctl = .relative) :
    IterMove (s.machineAt ctl) s.io l (hostCase (checkUriRelative s) (·.gotoSpaces .VERSION)) := by
  have hreads : (s.goto .RELATIVE_URI).Reads l := ⟨h.shows_, h.nonzero, h.notEmpty⟩
  have hdata := cleanRelativeUri_rData (s.goto .RELATIVE_URI)
  have hword : ∀ x, isBlank x.1 = false →
      ((s.goto .RELATIVE_URI).machineAt ctl).step x =
        ((s.goto .RELATIVE_URI).machineAt ctl, echoed true x) := by
    intro x hx
    rcases hctl with ⟨-, rfl⟩ | ⟨-, rfl⟩
    · exact (if_neg (Bool.eq_false_iff.mp hx)).trans rfl
    · exact (if_neg (Bool.eq_false_iff.mp hx)).trans rfl
  unfold checkUriRelative hostCase
  rcases hctl with ⟨h0, rfl⟩ | ⟨h0, rfl⟩
  · have hmove := cleanRelativeUri_move hreads (fun s' => s'.stopped .stalled) (.inr rfl) rfl
      hword (fun io x hx => (if_pos hx).trans rfl)
    generalize cleanRelativeUri (s.goto .RELATIVE_URI) = r at hmove hdata ⊢
    have h0' : r.2.rData.host[0] ≠ 0 := by rw [hdata]; exact h0
    simp only [h0', ne_eq, not_false_eq_true, true_or, and_self, if_true]
    cases hmove with
    | @done s' l' same reads adv =>
      have hp : s'.rData.parserState = .RELATIVE_URI := same.parserState
      refine .stops .stalled reads (by rw [hp]; decide) (.inr ⟨rfl, ?_⟩) adv
      simp only [errorOf, same.parserState]
      rfl
    | @failed s' l' same reads adv =>
      have hp : s'.rData.parserState = .RELATIVE_URI := same.parserState
      refine .stops .stalled reads (by rw [hp]; decide) (.inr ⟨rfl, ?_⟩) adv
      simp only [errorOf, same.parserState]
      rfl
    | waits ctl same rests hp next w => exact .of_waits ctl same rests hp next w
  · have hmove := cleanRelativeUri_move hreads (fun s' => s'.machineAt (.space .version))
      (.inl rfl) rfl hword (fun io x hx => (if_pos hx).trans rfl)
    generalize cleanRelativeUri (s.goto .RELATIVE_URI) = r at hmove hdata ⊢
    have h0' : r.2.rData.host[0] = 0 := by rw [hdata]; exact h0
    simp only [h0', ne_eq, not_true, false_or, true_and, Bool.false_eq_true, if_false]
    cases hmove with
    | @done s' l' same reads adv =>
      simp only [reads.notEmpty, Bool.false_eq_true, if_false]
      exact .goes (s'.gotoSpaces .VERSION) ⟨reads.shows_, reads.nonzero, reads.notEmpty⟩ adv
    | @failed s' l' same reads adv =>
      simp only [reads.notEmpty, Bool.false_eq_true, if_false]
      exact .goes (s'.gotoSpaces .VERSION) ⟨reads.shows_, reads.nonzero, reads.notEmpty⟩ adv
    | waits ctl same rests hp next w =>
      simp only [w.isBufferEmpty, if_true]
      exact .of_waits ctl same rests hp next w

/-- Out of input the case of a host stops. -/
theorem hostCase_of_empty {s : ReqState} (h : s.io.isBufferEmpty = true)
    (otherwise : ReqState → ReqState) :
    hostCase (false, s) otherwise = ({ success := false }, s) :=
  if_pos ⟨rfl, .inr h⟩

/-- The `URI` case. -/
theorem checkUri_move {s : ReqState} {l : List Cell} (h : s.Reads l)
    (hp : s.rData.parserState = .URI) (h0 : s.rData.host[0] = 0) :
    IterMove (s.machineAt (.uri 0)) s.io l (hostCase (checkUri s) (·.gotoSpaces .VERSION)) := by
  have hhttp := matchFormat_req (s.machineAt (.uri 0)) (s.machineAt (.uriSep 0))
    (s.machineAt .relative) (lit "HTTP") [] .uri (by decide) (by decide) (fun i _ x => rfl) h.shows_
  unfold checkUri
  generalize matchFormat (lit "HTTP") [] s.io = r at hhttp ⊢
  cases hhttp with
  | @full io l' empty adv =>
    have hreads : ({ s with io := io } : ReqState).Reads l' := h.of_advance adv empty
    have hsep := matchFormat_req (s.machineAt (.uri 0)) (s.machineAt (.host .uri 0))
      (s.machineAt .relative) (lit "://") (lit "HTTP") .uriSep (by decide) (by decide)
      (fun i _ x => rfl) hreads.shows_
    simp only [if_true]
    generalize matchFormat (lit "://") (lit "HTTP") io = r at hsep ⊢
    cases hsep with
    | @full io' l'' empty' adv' =>
      have hadv := adv.trans adv'
      have hreads' : (({ s with io := io' } : ReqState).goto .URI_HOST).Reads l'' :=
        h.of_advance hadv (empty'.trans empty)
      have hhost := checkUriForHost_move .uri (by decide) hreads' rfl
      simp only [if_true]
      generalize checkUriForHost _ = r at hhost ⊢
      cases hhost with
      | @done s' l' same reads adv'' =>
        refine IterMove.prepend (hadv.trans adv'') ?_
        exact .goes ((hostCallback s').goto .FINISHED)
          ⟨reads.shows_, reads.nonzero, reads.notEmpty⟩ (Advance.refl reads.shows_)
      | @failed s' l' same reads adv'' =>
        simp only [reads.notEmpty, Bool.false_eq_true, if_false]
        refine IterMove.prepend (hadv.trans adv'') ?_
        -- What was copied of the host decides whether the relative target is refused.
        by_cases hh : s'.rData.host[0] ≠ 0
        · have := checkUriRelative_move reads (.inl ⟨hh, rfl⟩)
          rwa [show s'.machineAt .refused = (s'.machineAt (.host .uri 0)).noHost .uri from
            (if_pos hh).symm] at this
        · have := checkUriRelative_move reads (.inr ⟨not_not.mp hh, rfl⟩)
          rwa [show s'.machineAt .relative = (s'.machineAt (.host .uri 0)).noHost .uri from
            (if_neg hh).symm] at this
      | waits ctl same rests hp' next w =>
        simp only [w.isBufferEmpty, Bool.false_eq_true, if_false, if_true]
        rw [hostCase_of_empty w.isBufferEmpty]
        exact IterMove.prepend hadv (.of_waits ctl same rests hp' next w)
    | @miss io' l'' empty' more adv' =>
      have hadv := adv.trans adv'
      have hreads' : ({ s with io := io' } : ReqState).Reads l'' :=
        h.of_advance hadv (empty'.trans empty)
      have he : io'.isBufferEmpty = false := hreads'.notEmpty
      simp only [he, Bool.false_eq_true, if_false]
      exact IterMove.prepend hadv (checkUriRelative_move hreads' (.inr ⟨h0, rfl⟩))
    | @short io' i lt w =>
      simp only [w.isBufferEmpty, Bool.false_eq_true, if_false, if_true]
      rw [hostCase_of_empty w.isBufferEmpty]
      exact .of_waits (.uriSep i) (s := s) ⟨rfl, rfl⟩ trivial hp.symm (fun _ hn => by cases hn)
        (adv.waits w)
    | nul lt meets => exact absurd hreads.nonzero meets.ne_zero
  | @miss io l' empty more adv =>
    have hreads : ({ s with io := io } : ReqState).Reads l' := h.of_advance adv empty
    have he : io.isBufferEmpty = false := hreads.notEmpty
    simp only [he, Bool.false_eq_true, if_false]
    exact IterMove.prepend adv (checkUriRelative_move hreads (.inr ⟨h0, rfl⟩))
  | @short io i lt w =>
    simp only [w.isBufferEmpty, Bool.false_eq_true, if_false, if_true]
    rw [hostCase_of_empty w.isBufferEmpty]
    exact .of_waits (.uri i) (s := s) ⟨rfl, rfl⟩ trivial hp.symm (fun _ hn => by cases hn) w
  | nul lt meets => exact absurd h.nonzero meets.ne_zero

/-- The `URI_HOST` and the `HOST` case. -/
theorem hostCase_move {place : HostPlace} {q : ReqMachine} {s : ReqState} {l : List Cell}
    {r : Bool × ReqState} {otherwise : ReqState → ReqState} (hplace : place ≠ .uri)
    (hp : s.rData.parserState = .URI_HOST ∨ s.rData.parserState = .HOST)
    (hother : ∀ s' : ReqState, s.SameCtl s' → s'.rData.host[0] = 0 →
      (otherwise s').io = s'.io ∧
        (otherwise s').machine = (s'.machineAt (.host place 0)).noHost place)
    (m : CallMove (fun s' => (s'.machineAt .portEnd).accept)
      (fun s' => (s'.machineAt (.host place 0)).noHost place) q s l r) :
    IterMove q s.io l (hostCase r otherwise) := by
  unfold hostCase
  cases m with
  | @done s' l' same reads adv =>
    simp only [Bool.true_eq_false, false_and, if_false, if_true]
    exact .goes ((hostCallback s').goto .FINISHED)
      ⟨reads.shows_, reads.nonzero, reads.notEmpty⟩ adv
  | @failed s' l' same reads adv =>
    by_cases h0 : s'.rData.host[0] = 0
    · obtain ⟨hio, hmachine⟩ := hother s' same h0
      simp only [h0, ne_eq, not_true, reads.notEmpty, Bool.false_eq_true, or_self, and_false,
        if_false]
      refine .goes (otherwise s') ⟨?_, reads.nonzero, ?_⟩ ?_
      · rw [hio]; exact reads.shows_
      · rw [hio]; exact reads.notEmpty
      · rw [hio, hmachine]; exact adv
    · simp only [h0, ne_eq, not_false_eq_true, true_or, and_self, if_true]
      have herr : errorOf s' = .HOST_ERROR := by
        unfold errorOf
        rcases hp with hp | hp <;> rw [same.parserState, hp]
      have hno : (s'.machineAt (.host place 0)).noHost place =
          (s'.machineAt (.host place 0)).reject .HOST_ERROR := by
        cases place with
        | uri => exact absurd rfl hplace
        | uriHost => exact if_pos h0
        | header => exact if_pos h0
      simp only [hno] at adv
      have hne : s'.rData.parserState ≠ .FINISHED := by
        rcases hp with hp | hp <;> rw [same.parserState, hp] <;> decide
      refine .stops .rejected reads hne (.inl ⟨rfl, by rw [herr]; decide⟩) ?_
      rw [ReqState.stopped, herr]
      exact adv
  | waits ctl same rests hp' next w =>
    simp only [w.isBufferEmpty, or_true, and_self, if_true]
    exact .of_waits ctl same rests hp' next w

/-! ## The end of the start line -/

/-- The byte behind the version is read by what the version leads to. -/
theorem step_afterVersion (q : ReqMachine) (x : Cell) :
    q.afterVersion.step x = q.stepAfterVersion x :=
  apply_ite (fun q => ReqMachine.step q x) _ _ _

/-- Behind a version that was read, now or preset, comes the end of the line. -/
theorem afterVersion_of_read {ctl : ReqCtl} {d : RequestFields} {calls : List (List UInt8 × Int)}
    (h : d.version ≠ .undefined) :
    (⟨ctl, d, calls⟩ : ReqMachine).afterVersion = ⟨.startLineEnd 0, d, calls⟩ :=
  if_neg h

/-- `extractHttpVersion` goes on to the end of the line, rejects the request, or runs out. -/
theorem extractHttpVersion_move {s : ReqState} {l : List Cell} (h : s.Reads l)
    (hp : s.rData.parserState = .VERSION) :
    CallMove (fun s' => s'.machineAt (.startLineEnd 0))
      (fun s' => (s'.machineAt (.version 0)).reject .VERSION_ERROR) (s.machineAt (.version 0)) s l
      (extractHttpVersion s) := by
  have hmatch := matchFormat_req (s.machineAt (.version 0)) (s.machineAt .versionDigit)
    (s.machineAt (.version 0)).afterVersion (lit "HTTP/1.") [] .version (by decide) (by decide)
    (fun i _ x => by
      rw [show ((s.machineAt (.version 0)).afterVersion).step =
        (s.machineAt (.version 0)).stepAfterVersion from funext (step_afterVersion _)]
      rfl) h.shows_
  unfold extractHttpVersion
  generalize matchFormat (lit "HTTP/1.") [] s.io = r at hmatch ⊢
  cases hmatch with
  | @full io l' empty adv =>
    have hreads : ({ s with io := io } : ReqState).Reads l' := h.of_advance adv empty
    simp only [if_true]
    cases l' with
    | nil =>
      simp only [readAndWrite_nil adv.shows_, ne_eq, not_true, if_false]
      refine .waits .versionDigit ⟨rfl, rfl⟩ trivial hp.symm (fun _ hn => by cases hn)
        (adv.waits ?_)
      exact Waits.here adv.shows_ (lit "HTTP/1.")
    | cons x l' =>
      have hx : x.1 ≠ 0 := hreads.nonzero x List.mem_cons_self
      have hadv := adv.trans (advance_read (q := s.machineAt .versionDigit) adv.shows_ hx rfl)
      simp only [readAndWrite_cons adv.shows_ hx, hx, ne_eq, not_false_eq_true, if_true]
      generalize hv : (if x.1 = 0x30 then HttpVersion.v1_0 else if x.1 = 0x31 then .v1_1
        else s.rData.version) = v
      have hset : (s.machineAt .versionDigit).setVersion x.1 =
          ⟨.versionDigit, { s.rData.toRequestFields with version := v }, s.calls⟩ := by
        rw [← hv]; rfl
      rw [hset] at hadv
      have hl : ∀ y ∈ l', y.1 ≠ 0 := fun y hy => hreads.nonzero y (List.mem_cons_of_mem _ hy)
      by_cases hu : v = .undefined
      · simp only [hu, not_true, decide_false]
        simp only [hu] at hadv
        exact .failed ⟨rfl, rfl⟩ ⟨hadv.shows_, hl, hreads.notEmpty⟩ hadv
      · rw [afterVersion_of_read hu] at hadv
        simp only [hu, not_false_eq_true, decide_true]
        exact .done ⟨rfl, rfl⟩ ⟨hadv.shows_, hl, hreads.notEmpty⟩ hadv
  | @miss io l' empty more adv =>
    have hreads : ({ s with io := io } : ReqState).Reads l' := h.of_advance adv empty
    have he : io.isBufferEmpty = false := hreads.notEmpty
    simp only [he, Bool.false_eq_true, if_false]
    by_cases hv : s.rData.version = .undefined
    · rw [show (s.machineAt (.version 0)).afterVersion = _ from if_pos hv] at adv
      simp only [hv, ne_eq, not_true, decide_false]
      exact .failed ⟨rfl, rfl⟩ hreads adv
    · rw [show (s.machineAt (.version 0)).afterVersion = _ from afterVersion_of_read hv] at adv
      simp only [hv, ne_eq, not_false_eq_true, decide_true]
      exact .done ⟨rfl, rfl⟩ hreads adv
  | @short io i lt w =>
    simp only [w.isBufferEmpty, Bool.false_eq_true, if_false, if_true]
    exact .waits (.version i) ⟨rfl, rfl⟩ trivial hp.symm (fun _ hn => by cases hn) w
  | nul lt meets => exact absurd h.nonzero meets.ne_zero

/-- `checkStartLineEnd` goes on to the first header, rejects the request, or runs out. -/
theorem checkStartLineEnd_move {s : ReqState} {l : List Cell} (h : s.Reads l)
    (hp : s.rData.parserState = .START_LINE_END) :
    CallMove (fun s' => s'.machineAt .localHost)
      (fun s' => (s'.machineAt (.startLineEnd 0)).reject .START_LINE_END_ERROR)
      (s.machineAt (.startLineEnd 0)) s l (checkStartLineEnd s) := by
  have hmatch := matchFormat_req (s.machineAt (.startLineEnd 0)) (s.machineAt .localHost)
    ((s.machineAt (.startLineEnd 0)).reject .START_LINE_END_ERROR) [CR, LF] [] .startLineEnd
    (by decide) (by decide) (fun i _ x => rfl) h.shows_
  unfold checkStartLineEnd checkCRLF
  generalize matchFormat [CR, LF] [] s.io = r at hmatch ⊢
  cases hmatch with
  | full empty adv => exact .done ⟨rfl, rfl⟩ (h.of_advance adv empty) adv
  | miss empty more adv => exact .failed ⟨rfl, rfl⟩ (h.of_advance adv empty) adv
  | @short io i lt w =>
    exact .waits (.startLineEnd i) ⟨rfl, rfl⟩ trivial hp.symm (fun _ hn => by cases hn) w
  | nul lt meets => exact absurd h.nonzero meets.ne_zero

/-! ## Headers -/

/-- `checkLocalHost` accepts a request to the proxy itself, goes on to the headers, or runs out. -/
theorem checkLocalHost_move {s : ReqState} {l : List Cell} (h : s.Reads l)
    (hp : s.rData.parserState = .LOCALHOST_HEADER_CHECK) (hl : s.rData.isLocalHost = false) :
    CallMove (fun s' => (s'.machineAt .localHost).accept) (fun s' => s'.machineAt .headers)
      (s.machineAt .localHost) s l (checkLocalHost s) := by
  unfold checkLocalHost
  have hchecked : ∀ ctl x, (s.machineAt ctl).stepChecked x = (s.machineAt .headers).step x := by
    intro ctl x
    rw [ReqMachine.stepChecked]
    exact if_neg (Bool.eq_false_iff.mp hl)
  cases l with
  | nil =>
    simp only [peekUpChar, h.shows_.peek_nil, toupper_zero, if_true]
    exact .waits .localHost ⟨rfl, rfl⟩ trivial hp.symm (fun _ hn => by cases hn)
      (Waits.here h.shows_ [])
  | cons x l =>
    have hx : x.1 ≠ 0 := h.nonzero x List.mem_cons_self
    have hc : toupper x.1 ≠ 0 := fun h0 => hx (toupper_eq_zero.mp h0)
    simp only [peekUpChar, h.shows_.peek, hc, if_false]
    by_cases hX : toupper x.1 = 0x58
    · have hstep : (s.machineAt .localHost).step x = (s.machineAt (.localName 0)).step x :=
        if_neg (not_not.mpr hX)
      have hname : Advance reqMachine id (s.machineAt .localHost) s.io (x :: l)
          ((s.machineAt .localHost).goto (.localName 0)) s.io (x :: l) :=
        Advance.handOver h.shows_ hstep
      have hmatch := matchFormat_req (s.machineAt .localHost)
        (ReqMachine.accept { s.machineAt .localHost with
          d := { s.rData.toRequestFields with isLocalHost := true } })
        (s.machineAt .headers) (lit "X-LOCALHOST:") [] .localName (by decide) (by decide)
        (fun i _ x => by
          rw [show (s.machineAt .headers).step = (s.machineAt (.localName i)).stepChecked from
            funext fun x => (hchecked _ x).symm]
          rfl) h.shows_
      simp only [hX, ne_eq, not_true, if_false]
      generalize matchFormat (lit "X-LOCALHOST:") [] s.io = r at hmatch ⊢
      cases hmatch with
      | full empty adv => exact .done ⟨rfl, rfl⟩ (h.of_advance adv empty) (hname.trans adv)
      | @miss io l' empty more adv =>
        have he : io.isBufferEmpty = false := empty.trans h.notEmpty
        simp only [he, Bool.false_eq_true, if_false, hl]
        exact .failed ⟨rfl, rfl⟩ (h.of_advance adv empty) (hname.trans adv)
      | @short io i lt w =>
        simp only [w.isBufferEmpty, Bool.false_eq_true, if_false, if_true]
        exact .waits (.localName i) ⟨rfl, rfl⟩ trivial hp.symm (fun _ hn => by cases hn)
          (hname.waits w)
      | nul lt meets => exact absurd h.nonzero meets.ne_zero
    · simp only [hX, ne_eq, not_false_eq_true, if_true, hl]
      have hstep : (s.machineAt .localHost).step x =
          (((s.machineAt .headers).step x).1,
            lit "X-LOCALHOST: TRUE\r\n" ++ ((s.machineAt .headers).step x).2) := by
        refine (if_pos hX).trans ?_
        rw [hchecked]
      have hadv : Advance reqMachine id (s.machineAt .localHost) s.io (x :: l)
          (s.machineAt .headers) (writeToBuf (lit "X-LOCALHOST: TRUE\r\n") s.io) (x :: l) :=
        Advance.insert _ h.shows_ (by rw [List.map_id]; exact hstep)
      exact .failed ⟨rfl, rfl⟩ ⟨hadv.shows_, h.nonzero, h.notEmpty⟩ hadv

/-- How the loop of `checkHostHeader` ends, for the machine. -/
inductive HeaderMove (q₀ q : ReqMachine) (io : Io) (l : List Cell) : HostHeaderEnd × Io → Prop
  | hostHeader {io' : Io} {l' : List Cell} (empty : io'.isBufferEmpty = io.isBufferEmpty)
      (adv : Advance reqMachine id q io l (q₀.goto (.space .host)) io' l') :
      HeaderMove q₀ q io l (.hostHeader, io')
  | headersEnd {io' : Io} {l' : List Cell} (empty : io'.isBufferEmpty = io.isBufferEmpty)
      (adv : Advance reqMachine id q io l (q₀.reject .HOST_ERROR) io' l') :
      HeaderMove q₀ q io l (.headersEnd, io')
  | bufferEmpty {io' : Io} (ctl : ReqCtl) (rests : ctl.Rests) (parserState : ctl.parserState = .HEADERS)
      (waits : Waits reqMachine id q io l (q₀.goto ctl) { io' with isBufferEmpty := true }
        (q₀.goto ctl).pushBack) : HeaderMove q₀ q io l (.bufferEmpty, io')

/-- What was read in front belongs to the move. -/
theorem HeaderMove.prepend {q₀ q q' : ReqMachine} {io io' : Io} {l l' : List Cell}
    {r : HostHeaderEnd × Io} (h : Advance reqMachine id q io l q' io' l')
    (he : io'.isBufferEmpty = io.isBufferEmpty) (m : HeaderMove q₀ q' io' l' r) :
    HeaderMove q₀ q io l r := by
  cases m with
  | hostHeader empty adv => exact .hostHeader (empty.trans he) (h.trans adv)
  | headersEnd empty adv => exact .headersEnd (empty.trans he) (h.trans adv)
  | bufferEmpty ctl rests parserState w => exact .bufferEmpty ctl rests parserState (h.waits w)

/-- The loop over the headers finds the Host header or the end as the machine does. The induction is
on the fuel. -/
theorem checkHostHeaderLoop_move (q : ReqMachine) (fuel : Nat) {io : Io} {l : List Cell}
    (hf : l.length < fuel) (h : io.Shows l) (hz : ∀ x ∈ l, x.1 ≠ 0)
    (he : io.isBufferEmpty = false) :
    HeaderMove q (q.goto .headers) io l (checkHostHeaderLoop fuel io) := by
  induction fuel generalizing io l with
  | zero => exact absurd hf (Nat.not_lt_zero _)
  | succ fuel ih =>
    cases l with
    | nil =>
      simp only [checkHostHeaderLoop, readAndWrite_nil h, toupper_zero, if_true]
      exact .bufferEmpty .headers trivial rfl (Waits.here h [])
    | cons x l =>
      have hx : x.1 ≠ 0 := hz x List.mem_cons_self
      have hz' : ∀ y ∈ l, y.1 ≠ 0 := fun y hy => hz y (List.mem_cons_of_mem _ hy)
      have hc : toupper x.1 ≠ 0 := fun h0 => hx (toupper_eq_zero.mp h0)
      have hlen : l.length < fuel := Nat.lt_of_succ_lt_succ hf
      rw [checkHostHeaderLoop]
      simp only [readAndWrite_cons h hx, hc, if_false]
      have hread : Advance reqMachine id (q.goto .headers) io (x :: l)
          (q.goto (if toupper x.1 = 0x48 then .hostName 0 else if toupper x.1 = CR then .cr 0
            else .headers)) _ l :=
        advance_read h hx rfl
      generalize hio : ({ io with b := _, out := _ } : Io) = io₁ at hread ⊢
      have he₁ : io₁.isBufferEmpty = io.isBufferEmpty := by rw [← hio]
      -- Every miss goes back to the loop with no more to read than behind `x`.
      have hagain : ∀ {io₂ : Io} {l₂ : List Cell}, io₂.isBufferEmpty = io₁.isBufferEmpty →
          Advance reqMachine id (q.goto .headers) io (x :: l) (q.goto .headers) io₂ l₂ →
          l₂ <:+ l → HeaderMove q (q.goto .headers) io (x :: l) (checkHostHeaderLoop fuel io₂) := by
        intro io₂ l₂ he₂ hadv hl₂
        refine HeaderMove.prepend hadv (he₂.trans he₁) (ih ?_ hadv.shows_ ?_ ?_)
        · exact Nat.lt_of_le_of_lt hl₂.length_le hlen
        · exact fun y hy => hz' y (hl₂.subset hy)
        · exact (he₂.trans he₁).trans he
      by_cases hH : toupper x.1 = 0x48
      · rw [if_pos hH] at hread
        have hmatch := matchFormat_req q (q.goto (.space .host)) (q.goto .headers) (lit "OST:")
          (lit "H") .hostName (by decide) (by decide) (fun i _ x => rfl) hread.shows_
        simp only [hH, if_true]
        generalize matchFormat (lit "OST:") (lit "H") io₁ = r at hmatch ⊢
        cases hmatch with
        | full empty adv => exact .hostHeader (empty.trans he₁) (hread.trans adv)
        | @miss io₂ l₂ empty more adv =>
          have he₂ : io₂.isBufferEmpty = false := (empty.trans he₁).trans he
          simp only [he₂, Bool.false_eq_true, if_false]
          exact hagain empty (hread.trans adv) adv.suffix
        | @short io₂ i lt w =>
          have hw := hread.waits w
          simp only [w.isBufferEmpty, Bool.false_eq_true, if_false, if_true]
          refine .bufferEmpty (.hostName i) trivial rfl ?_
          rw [← w.isBufferEmpty]
          exact hw
        | nul lt meets => exact absurd hz' meets.ne_zero
      · rw [if_neg hH] at hread
        simp only [hH, if_false]
        by_cases hCR : toupper x.1 = CR
        · rw [if_pos hCR] at hread
          have hlf := matchFormat_req q (q.goto (.crlf 0)) (q.goto .headers) [LF] [CR] .cr
            (by decide) (by decide) (fun i _ x => rfl) hread.shows_
          simp only [hCR, if_true, checkHeadersEnd, checkLF]
          obtain ⟨r, hr⟩ : ∃ r, matchFormat [LF] [CR] io₁ = r := ⟨_, rfl⟩
          simp only [hr] at hlf ⊢
          clear hr
          cases hlf with
          | @full io₂ l₂ empty adv =>
            have hadv := hread.trans adv
            have hcrlf := matchFormat_req q (q.reject .HOST_ERROR) (q.goto .headers) [CR, LF]
              [CR, LF] .crlf (by decide) (by decide) (fun i _ x => rfl) adv.shows_
            simp only [if_true, checkCRLF]
            generalize matchFormat [CR, LF] [CR, LF] io₂ = r at hcrlf ⊢
            cases hcrlf with
            | full empty' adv' =>
              exact .headersEnd ((empty'.trans empty).trans he₁) (hadv.trans adv')
            | @miss io₃ l₃ empty' more adv' =>
              have he₃ : io₃.isBufferEmpty = false := ((empty'.trans empty).trans he₁).trans he
              simp only [he₃, Bool.false_eq_true, if_false]
              exact hagain (empty'.trans empty) (hadv.trans adv') (adv'.suffix.trans adv.suffix)
            | @short io₃ i lt w =>
              have hw := hadv.waits w
              simp only [w.isBufferEmpty, Bool.false_eq_true, if_false, if_true]
              refine .bufferEmpty (.crlf i) trivial rfl ?_
              rw [← w.isBufferEmpty]
              exact hw
            | nul lt meets =>
              exact absurd (fun y hy => hz' y (adv.suffix.subset hy)) meets.ne_zero
          | @miss io₂ l₂ empty more adv =>
            have he₂ : io₂.isBufferEmpty = false := (empty.trans he₁).trans he
            simp only [he₂, Bool.false_eq_true, if_false]
            exact hagain empty (hread.trans adv) adv.suffix
          | @short io₂ i lt w =>
            have hw := hread.waits w
            simp only [w.isBufferEmpty, Bool.false_eq_true, if_false, if_true]
            refine .bufferEmpty (.cr i) trivial rfl ?_
            rw [← w.isBufferEmpty]
            exact hw
          | nul lt meets => exact absurd hz' meets.ne_zero
        · rw [if_neg hCR] at hread
          simp only [hCR, if_false]
          exact hagain rfl hread List.suffix_rfl

/-- `checkHostHeader` goes on to the blanks behind `Host:`, rejects the request, or runs out. -/
theorem checkHostHeader_move {s : ReqState} {l : List Cell} (h : s.Reads l)
    (hp : s.rData.parserState = .HEADERS) :
    CallMove (fun s' => s'.machineAt (.space .host))
      (fun s' => (s'.machineAt .headers).reject .HOST_ERROR) (s.machineAt .headers) s l
      (checkHostHeader s) := by
  have hloop := checkHostHeaderLoop_move (s.machineAt .headers) (l.length + 1)
    (Nat.lt_succ_self _) h.shows_ h.nonzero h.notEmpty
  unfold checkHostHeader
  rw [h.shows_.length]
  generalize checkHostHeaderLoop _ _ = r at hloop ⊢
  cases hloop with
  | hostHeader empty adv => exact .done ⟨rfl, rfl⟩ (h.of_advance adv empty) adv
  | headersEnd empty adv => exact .failed ⟨rfl, rfl⟩ (h.of_advance adv empty) adv
  | @bufferEmpty io ctl rests hctl w =>
    refine .waits ctl ⟨rfl, rfl⟩ rests (hctl.trans hp.symm) (fun n hn => ?_) w
    rw [hn] at hctl
    cases hctl

/-! ## The loop -/

/-- A case that goes on when what it checks is there, as a move. -/
theorem checkCase_move {q : ReqMachine} {s : ReqState} {l : List Cell} {r : Bool × ReqState}
    {next : ReqState → ReqState} {done failed : ReqState → ReqMachine}
    (hp : s.rData.parserState ≠ .FINISHED)
    (hnext : ∀ s' : ReqState, s.SameCtl s' → (next s').io = s'.io ∧ (next s').machine = done s')
    (hfail : ∀ s' : ReqState, s.SameCtl s' → r = (false, s') → s'.io.isBufferEmpty = false →
      s'.stopped .rejected = failed s' ∧ errorOf s' ≠ .OK)
    (m : CallMove done failed q s l r) : IterMove q s.io l (checkCase r next) := by
  cases m with
  | @done s' l' same reads adv =>
    obtain ⟨hio, hmachine⟩ := hnext s' same
    refine .goes (next s') ⟨?_, reads.nonzero, ?_⟩ ?_
    · rw [hio]; exact reads.shows_
    · rw [hio]; exact reads.notEmpty
    · rw [hio, hmachine]; exact adv
  | @failed s' l' same reads adv =>
    obtain ⟨hstopped, herr⟩ := hfail s' same rfl reads.notEmpty
    exact .stops .rejected reads (by rw [same.parserState]; exact hp) (.inl ⟨rfl, herr⟩)
      (hstopped ▸ adv)
  | waits ctl same rests hp next w => exact .of_waits ctl same rests hp next w

/-- Blanks are not found only where the input ends. -/
theorem checkSpaces_false {s : ReqState} (h : (checkSpaces s).1 = false) :
    (checkSpaces s).2.io.isBufferEmpty = true := by
  unfold checkSpaces at *
  simp only at h ⊢
  split
  · rfl
  · next hc => rw [if_neg hc] at h; cases h

/-- A relative target is not found only where the input ends. -/
theorem cleanRelativeUri_false {s : ReqState} (h : (cleanRelativeUri s).1 = false) :
    (cleanRelativeUri s).2.io.isBufferEmpty = true := by
  unfold cleanRelativeUri at *
  simp only at h ⊢
  split
  · rfl
  · next hc => rw [if_neg hc] at h; cases h

/-- An iteration of the loop, as a move of the machine. -/
theorem iteration_move {s : ReqState} {l : List Cell} (h : s.Reads l) (hw : s.rData.Wf) :
    IterMove s.machine s.io l (iteration s) := by
  unfold iteration ReqState.machine RequestData.startCtl
  cases hp : s.rData.parserState with
  | SPACE_TRANSITION =>
    -- The target, the version or the host stands behind the blanks.
    obtain ⟨n, hn⟩ : ∃ n : AfterSpaces, s.rData.next = n.parserState := by
      rcases hw.next hp with hn | hn | hn
      · exact ⟨.uri, hn⟩
      · exact ⟨.version, hn⟩
      · exact ⟨.host, hn⟩
    simp only
    rw [show afterSpaces s.rData.next = n by rw [hn]; cases n <;> rfl]
    refine checkCase_move (by rw [hp]; decide) (fun s' same => ⟨rfl, ?_⟩) (fun s' _ hf he => ?_)
      (checkSpaces_move h n hp hn)
    · rw [same.next, hn]
      cases n <;> rfl
    · have := checkSpaces_false (congrArg Prod.fst hf)
      rw [hf, he] at this
      cases this
  | METHOD =>
    refine checkCase_move (by rw [hp]; decide) (fun s' _ => ⟨rfl, rfl⟩) (fun s' same _ _ => ?_)
      (extractHttpMethod_move h hp (hw.method hp))
    have herr : errorOf s' = methodError s'.rData.method := by
      simp only [errorOf, same.parserState, hp]
      rfl
    refine ⟨by rw [ReqState.stopped, herr]; rfl, ?_⟩
    rw [herr, methodError]
    split <;> decide
  | URI => exact checkUri_move h hp (hw.host (.inr (.inl hp)))
  | URI_HOST =>
    exact hostCase_move (by decide) (.inl hp) (fun s' _ h0 => ⟨rfl, (if_neg (not_not.mpr h0)).symm⟩)
      (checkUriForHost_move .uriHost (by decide) h hp)
  | RELATIVE_URI =>
    refine checkCase_move (by rw [hp]; decide) (fun s' _ => ⟨rfl, rfl⟩) (fun s' _ hf he => ?_)
      (cleanRelativeUri_move h (fun s' => s'.machineAt (.space .version)) (.inl rfl) hp
        (fun x hx => (if_neg (Bool.eq_false_iff.mp hx)).trans rfl)
        (fun io x hx => (if_pos hx).trans rfl))
    have := cleanRelativeUri_false (congrArg Prod.fst hf)
    rw [hf, he] at this
    cases this
  | VERSION =>
    refine checkCase_move (by rw [hp]; decide) (fun s' _ => ⟨rfl, rfl⟩) (fun s' same _ _ => ?_) (extractHttpVersion_move h hp)
    have herr : errorOf s' = .VERSION_ERROR := by simp only [errorOf, same.parserState, hp]
    exact ⟨by rw [ReqState.stopped, herr]; rfl, by rw [herr]; decide⟩
  | START_LINE_END =>
    refine checkCase_move (by rw [hp]; decide) (fun s' _ => ⟨rfl, rfl⟩) (fun s' same _ _ => ?_) (checkStartLineEnd_move h hp)
    have herr : errorOf s' = .START_LINE_END_ERROR := by simp only [errorOf, same.parserState, hp]
    exact ⟨by rw [ReqState.stopped, herr]; rfl, by rw [herr]; decide⟩
  | LOCALHOST_HEADER_CHECK =>
    have hl := hw.isLocalHost (by rw [hp]; decide)
    have hmove := checkLocalHost_move h hp hl
    simp only
    generalize checkLocalHost s = r at hmove ⊢
    cases hmove with
    | @done s' l' same reads adv =>
      exact .goes ((hostCallback s').goto .FINISHED)
        ⟨reads.shows_, reads.nonzero, reads.notEmpty⟩ adv
    | @failed s' l' same reads adv =>
      simp only [localHostCase, reads.notEmpty, Bool.false_eq_true, if_false]
      exact .goes (s'.goto .HEADERS) ⟨reads.shows_, reads.nonzero, reads.notEmpty⟩ adv
    | waits ctl same rests hp' next w =>
      simp only [localHostCase, w.isBufferEmpty, Bool.false_eq_true, if_false, if_true]
      exact .of_waits ctl same rests hp' next w
  | HEADERS =>
    refine checkCase_move (by rw [hp]; decide) (fun s' _ => ⟨rfl, rfl⟩) (fun s' same _ _ => ?_) (checkHostHeader_move h hp)
    have herr : errorOf s' = .HOST_ERROR := by simp only [errorOf, same.parserState, hp]
    exact ⟨by rw [ReqState.stopped, herr]; rfl, by rw [herr]; decide⟩
  | HOST =>
    refine hostCase_move (by decide) (.inr hp) (fun s' same h0 => ⟨rfl, ?_⟩) (extractHost_move h hp)
    -- A `Host` field in which no host was read is tried again, and the machine goes nowhere.
    refine Eq.trans ?_ (if_neg (not_not.mpr h0)).symm
    rw [id_eq, ReqState.machine, RequestData.startCtl, same.parserState, hp]
    rfl
  | FINISHED =>
    refine .finished h hp ?_
    rw [ReqState.machine, RequestData.startCtl, hp]
    exact Advance.refl h.shows_

/-- How the loop of a call that starts with the machine in `q` and `l` to read ends, after its
error was reported. -/
inductive LoopEnd (q : ReqMachine) (io : Io) (l : List Cell) (s' : ReqState) : Prop
  | waits {q' : ReqMachine} (rests : RestsIn q' s'.rData) (calls : q'.calls = s'.calls)
      (waits : Waits reqMachine id q io l q' s'.io q'.pushBack)
  | halts {l' : List Cell} (why : Halt) (spin : why ≠ .spin)
      (parserState : s'.rData.parserState = .FINISHED ↔ why = .accepted)
      (state : why = .rejected → s'.rData.state ≠ .OK)
      (adv : Advance reqMachine id q io l ⟨.halt why [], s'.rData.toRequestFields, s'.calls⟩
        s'.io l')

/-- What was read in front belongs to the end of the loop. -/
theorem LoopEnd.prepend {q q' : ReqMachine} {io io' : Io} {l l' : List Cell} {s' : ReqState}
    (h : Advance reqMachine id q io l q' io' l') (m : LoopEnd q' io' l' s') : LoopEnd q io l s' := by
  cases m with
  | waits rests calls w => exact .waits rests calls (h.waits w)
  | halts why spin parserState state adv => exact .halts why spin parserState state (h.trans adv)

/-- Out of input no error is reported. -/
theorem reportError_of_empty {r : Bool × ReqState} (h : r.2.io.isBufferEmpty = true) :
    reportError r = r :=
  if_neg fun hc => Bool.false_ne_true (hc.2.symm.trans h)

/-- The loop of a call, as a move of the machine: what one iteration is carries over by induction
on the iterations. -/
theorem requestLoop_move {fuel : Nat} {s : ReqState} {r : Bool × ReqState}
    (hr : requestLoop fuel s = some r) {l : List Cell} (h : s.Reads l) (hw : s.rData.Wf) :
    LoopEnd s.machine s.io l (reportError r).2 := by
  refine Loop.run_induction
    (P := fun s r => ∀ l, s.Reads l → s.rData.Wf → LoopEnd s.machine s.io l (reportError r).2)
    ?_ ?_ hr l h hw
  · intro s r hend l h hw
    have hmove := iteration_move h hw
    unfold loopBody at hend
    generalize iteration s = i at hmove hend
    cases hmove with
    | goes => cases hend
    | waits rests calls w =>
      obtain rfl := Sum.inr.inj hend
      rw [reportError_of_empty w.isBufferEmpty]
      exact .waits rests calls w
    | @stops s' l' why reads hp rejected adv =>
      obtain rfl := Sum.inr.inj hend
      have hreport : reportError (false, s') =
          (false, { s' with rData := { s'.rData with state := errorOf s' } }) :=
        if_pos ⟨rfl, reads.notEmpty⟩
      rw [hreport]
      refine .halts why ?_ ?_ ?_ adv
      · rcases rejected with ⟨rfl, -⟩ | ⟨rfl, -⟩ <;> decide
      · refine iff_of_false hp ?_
        rcases rejected with ⟨rfl, -⟩ | ⟨rfl, -⟩ <;> decide
      · intro hwhy
        rcases rejected with ⟨-, herr⟩ | ⟨rfl, -⟩
        · exact herr
        · cases hwhy
    | @finished s' l' reads parserState adv =>
      obtain rfl := Sum.inr.inj hend
      rw [reportError_of_success rfl]
      have hmachine : s'.machine = ⟨.halt .accepted [], s'.rData.toRequestFields, s'.calls⟩ := by
        rw [ReqState.machine, RequestData.startCtl, parserState]
      rw [hmachine] at adv
      exact .halts .accepted (by decide) (iff_of_true parserState rfl) (by rintro ⟨⟩) adv
  · intro s s' r hgo ih l h hw
    have hmove := iteration_move h hw
    have hwf := iteration_wf hw
    obtain ⟨hflags, rfl⟩ := loopBody_eq_inl.mp hgo
    generalize iteration s = i at *
    cases hmove with
    | goes s' reads adv => exact LoopEnd.prepend adv (ih _ reads hwf)
    | waits => cases hflags
    | stops => cases hflags
    | finished => cases hflags

/-! ## The call -/

/-- A machine that has halted reads on without doing anything. -/
theorem run_halt (why : Halt) (unread : List Cell) (d : RequestFields)
    (calls : List (List UInt8 × Int)) (l : List Cell) :
    reqMachine.run ⟨.halt why unread, d, calls⟩ l = (⟨.halt why (unread ++ l), d, calls⟩, []) := by
  induction l generalizing unread with
  | nil => rw [Transducer.run_nil, List.append_nil]
  | cons x l ih =>
    have hstep : reqMachine.step ⟨.halt why unread, d, calls⟩ x =
        (⟨.halt why (unread ++ [x]), d, calls⟩, []) := rfl
    rw [Transducer.run_cons, hstep, ih, List.append_assoc]
    rfl

/-- In front of the byte it is stuck at, the machine spins. -/
theorem run_stuck {s : ReqState} {l : List Cell} (h : s.Reads l) (hs : s.Stuck) :
    ∃ unread, (reqMachine.run s.machine l).1.ctl = .halt .spin unread := by
  obtain ⟨hp, h0, hc, hhost, hcolon, hend⟩ := hs
  cases l with
  | nil => exact absurd (by rw [peekDownChar, h.shows_.peek_nil]; rfl) hc
  | cons x l =>
    rw [peekDownChar, h.shows_.peek] at hc hhost hcolon
    rw [h.shows_.peek] at hend
    have hmachine : s.machine = s.machineAt (.host .header 0) := by
      rw [ReqState.machine, RequestData.startCtl, hp]
      rfl
    have hstep : reqMachine.step s.machine x = ((s.machineAt (.halt .spin [x])), []) := by
      rw [hmachine]
      refine (stepHost_of_not 0 hhost (fun hu => hu.1 rfl) hcolon).trans ?_
      rw [ReqMachine.stepHostEnd, if_neg (Bool.eq_false_iff.mp hend)]
      exact if_neg (not_not.mpr h0)
    rw [Transducer.run_cons, hstep]
    exact ⟨_, congrArg (fun r => r.1.ctl) (run_halt .spin [x] _ _ l)⟩

/-- A loop that does not end is one in which the machine spins. -/
theorem run_of_not_halts {s : ReqState} {l : List Cell} (h : s.Reads l) (hs : s.Running)
    (hnot : ¬Loop.Halts loopBody s) :
    ∃ unread, (reqMachine.run s.machine l).1.ctl = .halt .spin unread := by
  rw [Loop.halts_iff loopBody_stuck loopBody_progress hs] at hnot
  push Not at hnot
  obtain ⟨s', hreach, hstuck⟩ := hnot
  induction hreach using Relation.ReflTransGen.head_induction_on generalizing l with
  | refl => exact run_stuck h hstuck
  | @head a b hgo hreach ih =>
    have hmove := iteration_move h hs.1
    have hwf := iteration_wf hs.1
    obtain ⟨hflags, rfl⟩ := loopBody_eq_inl.mp hgo
    generalize iteration a = i at *
    cases hmove with
    | goes s' reads adv =>
      obtain ⟨unread, hunread⟩ := ih reads ⟨hwf, reads.notEmpty⟩
      obtain ⟨e, -, hy⟩ := adv.emits
      exact ⟨unread, by rw [hy.run_eq]; exact hunread⟩
    | waits => cases hflags
    | stops => cases hflags
    | finished => cases hflags

/-- What a call of `checkRequest` on the cells `l` is: the machine's run over them. The call waits
for more input in the state the run ends in, halts with what it left unread, or does not return. -/
inductive CallEnd (q : ReqMachine) (bIn bOut : Buffer) (l : List Cell) : Option RequestResult → Prop
  | waits {r : RequestResult} (rests : RestsIn (reqMachine.stateAfter q l) r.rData)
      (calls : (reqMachine.stateAfter q l).calls = r.calls)
      (wf : r.bIn.Wf) (keeps : bIn.Keeps r.bIn)
      (cells : r.bIn.cells =
        pushedBack (Buffer.clip bIn.infLimit (reqMachine.stateAfter q l).pushBack))
      (out : r.bOut = bufferWriteAll bOut (reqMachine.emitted q l)) : CallEnd q bIn bOut l (some r)
  | halts {r : RequestResult} (why : Halt) (unread : List Cell) (spin : why ≠ .spin)
      (parserState : r.rData.parserState = .FINISHED ↔ why = .accepted)
      (state : why = .rejected → r.rData.state ≠ .OK)
      (after : reqMachine.stateAfter q l = ⟨.halt why unread, r.rData.toRequestFields, r.calls⟩)
      (out : r.bOut = bufferWriteAll bOut (reqMachine.emitted q l)) : CallEnd q bIn bOut l (some r)
  | spins {unread : List Cell} (after : (reqMachine.stateAfter q l).ctl = .halt .spin unread) :
      CallEnd q bIn bOut l none

/-- A call of `checkRequest` leaves the parser where the machine's run over the readable cells ends,
when none of them is a zero. -/
theorem checkRequest_move {rd : RequestData} {bIn : Buffer} (bOut : Buffer) (hw : rd.Wf)
    {l : List Cell} (hwf : bIn.Wf) (hl : bIn.cells = l) (hz : ∀ x ∈ l, x.1 ≠ 0) :
    CallEnd (callStart rd bIn).machine bIn bOut l (checkRequest rd bIn bOut) := by
  have hreads : (callStart rd bIn).Reads l := ⟨⟨hwf, hl⟩, hz, rfl⟩
  have hrunning := running_callStart hw bIn
  cases hr : checkRequest rd bIn bOut with
  | none =>
    have hnot : ¬Loop.Halts loopBody (callStart rd bIn) := by
      rw [← checkRequest_isSome_iff hw bIn bOut, hr]
      exact fun ⟨_, hsome⟩ => (nomatch hsome)
    obtain ⟨unread, hunread⟩ := run_of_not_halts hreads hrunning hnot
    exact .spins hunread
  | some r =>
    obtain ⟨r', hloop, rfl⟩ := checkRequest_eq_some_iff.mp hr
    have hmove := requestLoop_move hloop hreads hrunning.1
    cases hmove with
    | @waits q' rests calls w =>
      obtain ⟨e, he, hy⟩ := w.emits
      have hemit : reqMachine.emitted (callStart rd bIn).machine l = e := by
        rw [hy.emitted_eq, List.map_id, Transducer.emitted_nil, List.append_nil]
      have hafter : reqMachine.stateAfter (callStart rd bIn).machine l = q' := hy.stateAfter_eq
      rw [← hafter] at rests calls w
      refine .waits rests calls w.shows_.wf w.keeps w.shows_.cells ?_
      rw [hemit]
      exact congrArg (bufferWriteAll bOut) he
    | @halts l' why spin parserState state adv =>
      obtain ⟨e, he, hy⟩ := adv.emits
      have hhalt := run_halt why [] (reportError r').2.rData.toRequestFields (reportError r').2.calls l'
      have hemit : reqMachine.emitted (callStart rd bIn).machine l = e := by
        rw [hy.emitted_eq, List.map_id, Transducer.emitted, hhalt, List.append_nil]
      refine .halts why l' spin parserState state ?_ ?_
      · rw [hy.stateAfter_eq, Transducer.stateAfter, hhalt]
        rfl
      · rw [hemit]
        exact congrArg (bufferWriteAll bOut) he

end HttpProxy
