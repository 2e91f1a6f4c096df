import HttpProxy.Admin
import HttpProxy.Library.BoundedArray

/-!
# The command line of the administrator

The loop of `main` in the admin client: it reads up to `MAX_READ` bytes over what the buffer holds, looks
at the first byte for an option, and copies what stands behind it to one array or two. A function of the
loop is `none` when it uses an index outside its array.

Nothing ends the buffer, and the loops that look for the end of the blanks do not count. A command needs
something behind its blanks; one that sets a configuration needs a value behind a second run of them; and
what is no command is taken for credentials from its first byte on, so that without a line end the
terminator is stored behind the array (`LineFits`).
-/

namespace HttpProxy

inductive CommandState
  | START
  | CRED
  | GMETRIC
  | GCONFIG
  | SCONFIG
  | PROTERROR
  | CLOSE
deriving DecidableEq, Repr

/-- What is asked of the server. -/
inductive AdminRequest
  | sendCredentials (pass : List UInt8)
  | reqListMetrics
  | reqListConfigs
  | reqGetMetric (metric : UInt8)
  | reqGetConfig (config : UInt8)
  | reqSetConfig (config : UInt8) (value : List UInt8)
deriving DecidableEq, Repr

/-- The character that chooses an option. -/
def optionChar (t : MsgType) : UInt8 := t.code + 0x30

/-- `CLOSE + '0'`, where `CLOSE` is the state. -/
def closeChar : UInt8 := 0x36

/-- An `int` passed on as an `unsigned char`. -/
def toUnsignedChar (n : Int) : UInt8 := UInt8.ofNat (n % 2 ^ 8).toNat

structure CommandLoop where
  state : CommandState := .START
  i : Nat := 0
  j : Nat := 0
  buffer : Vector UInt8 MAX_READ
  param1 : Vector UInt8 MAX_READ
  param2 : Vector UInt8 MAX_READ
  shouldClose : Bool := false
  /-- The requests made so far. -/
  requests : List AdminRequest := []

/-- `read` of `input` into the buffer, over what it holds. -/
def readOver (buffer : Vector UInt8 MAX_READ) (input : List UInt8) : Vector UInt8 MAX_READ :=
  Vector.ofFn fun k => input.getD k buffer[k]

namespace CommandLoop

variable (s : CommandLoop)

def request (r : AdminRequest) : CommandLoop := { s with requests := s.requests ++ [r], state := .START }

/-- `i` moves over the blanks. -/
def skipSpaces (next : CommandState) : Option CommandLoop :=
  (BoundedArray.scan (· == SP) (s.buffer.toList.drop s.i) s.i).map fun i =>
    { s with i := i, state := next }

/-- What stands up to `stop`, copied to `param` and ended with a zero, with both counters. -/
def word (stop : UInt8) (param : Vector UInt8 MAX_READ) : Option (Nat × Nat × Vector UInt8 MAX_READ) :=
  (BoundedArray.copy (· == stop) (s.buffer.toList.drop s.i) s.i 0 param).bind fun r =>
    (BoundedArray.store r.2.2 r.2.1 0).map fun param => (r.1, r.2.1, param)

def copyParam1 (stop : UInt8) : Option CommandLoop :=
  (s.word stop s.param1).map fun r => { s with i := r.1, j := r.2.1, param1 := r.2.2 }

def copyParam2 (stop : UInt8) : Option CommandLoop :=
  (s.word stop s.param2).map fun r => { s with i := r.1, j := r.2.1, param2 := r.2.2 }

def cred : Option CommandLoop :=
  (s.copyParam1 LF).map fun s => s.request (.sendCredentials (stringAt s.param1.toList))

def getMetric : Option CommandLoop :=
  (s.copyParam1 LF).map fun s => s.request (.reqGetMetric (toUnsignedChar (atoi s.param1.toList)))

def getConfig : Option CommandLoop :=
  (s.copyParam1 LF).map fun s => s.request (.reqGetConfig (toUnsignedChar (atoi s.param1.toList)))

def setConfig : Option CommandLoop :=
  (s.copyParam1 SP).bind fun s =>
    (skipSpaces { s with i := s.i + 1 } .SCONFIG).bind fun s =>
      (s.copyParam2 LF).map fun s =>
        s.request (.reqSetConfig (toUnsignedChar (atoi s.param1.toList)) (stringAt s.param2.toList))

/-- `input` is read, and the line begins. -/
def withInput (input : List UInt8) : CommandLoop := { s with buffer := readOver s.buffer input, i := 0, j := 0 }

/-- What is done with the first byte of a line. -/
def choose (option : UInt8) : Option CommandLoop :=
  if option = optionChar .SEND_CRED then skipSpaces { s with i := 1 } .CRED
  else if option = optionChar .LIST_METRICS then some (s.request .reqListMetrics)
  else if option = optionChar .LIST_CONFIGS then some (s.request .reqListConfigs)
  else if option = optionChar .GET_METRIC then skipSpaces { s with i := 1 } .GMETRIC
  else if option = optionChar .GET_CONFIG then skipSpaces { s with i := 1 } .GCONFIG
  else if option = optionChar .SET_CONFIG then skipSpaces { s with i := 1 } .SCONFIG
  else if option = closeChar then some { s with state := .CLOSE }
  -- No other option ends the case, and it goes on with the next one.
  else s.cred

/-- An iteration in `START`, in which `input` is read. -/
def start (input : List UInt8) : Option CommandLoop :=
  let s := s.withInput input
  s.choose s.buffer[0]

/-- An iteration in any other state. -/
def iterate : Option CommandLoop :=
  match s.state with
  | .CRED => s.cred
  | .GMETRIC => s.getMetric
  | .GCONFIG => s.getConfig
  | .SCONFIG => s.setConfig
  | .CLOSE => some { s with shouldClose := true }
  | .START | .PROTERROR => some s

/-- The iterations that deal with one command. -/
def command (input : List UInt8) : Option CommandLoop :=
  (s.start input).bind fun s => if s.state = .START then some s else s.iterate

/-- The loop, for as long as there is something to read. -/
def run (s : CommandLoop) : List (List UInt8) → Option CommandLoop
  | [] => some s
  | input :: inputs => (s.command input).bind fun s => if s.shouldClose then some s else s.run inputs

end CommandLoop

/-! ## What a line needs -/

/-- The buffer has what the option in it goes over. -/
structure LineFits (buffer : Vector UInt8 MAX_READ) : Prop where
  /-- A word, behind the blanks. -/
  word : buffer[0] = optionChar .SEND_CRED ∨ buffer[0] = optionChar .GET_METRIC ∨
    buffer[0] = optionChar .GET_CONFIG → ∃ x ∈ buffer.toList.drop 1, x ≠ SP
  /-- A configuration and a value, each behind its blanks. -/
  config : buffer[0] = optionChar .SET_CONFIG →
    ∃ x y, x ≠ SP ∧ y ≠ SP ∧ [x, SP, y].Sublist (buffer.toList.drop 1)
  /-- The end of the line, behind what is no option. -/
  credentials : (∀ t, buffer[0] ≠ optionChar t) → buffer[0] ≠ closeChar → LF ∈ buffer.toList

/-- Every command up to the one that closes meets a buffer that has what it needs. -/
def LinesFit (buffer : Vector UInt8 MAX_READ) : List (List UInt8) → Prop
  | [] => True
  | input :: inputs =>
    LineFits (readOver buffer input) ∧
      ((readOver buffer input)[0] ≠ closeChar → LinesFit (readOver buffer input) inputs)

namespace CommandLoop

variable {s s' : CommandLoop} {input : List UInt8} {stop : UInt8} {next : CommandState}

/-- What is left of the buffer. -/
def left (s : CommandLoop) : List UInt8 := s.buffer.toList.drop s.i

/-- What no iteration changes but the one that closes. -/
structure Keeps (s s' : CommandLoop) : Prop where
  buffer : s'.buffer = s.buffer
  shouldClose : s'.shouldClose = s.shouldClose

/-- Two steps that stay inside the buffers are one. -/
theorem Keeps.trans {s'' : CommandLoop} (h : Keeps s s') (h' : Keeps s' s'') : Keeps s s'' :=
  ⟨h'.buffer.trans h.buffer, h'.shouldClose.trans h.shouldClose⟩

/-! ### The blanks -/

/-- The blanks have an end exactly when anything else is left. -/
theorem skipSpaces_isSome_iff : (s.skipSpaces next).isSome ↔ ∃ x ∈ s.left, x ≠ SP := by
  unfold skipSpaces left
  rw [Option.isSome_map, Option.isSome_iff_ne_none, Ne, BoundedArray.scan_eq_none]
  simp only [not_forall, exists_prop, beq_iff_eq, Ne]

/-- Behind the blanks the loop stands on the first byte that is none. -/
theorem skipSpaces_eq_some (h : s.skipSpaces next = some s') :
    Keeps s s' ∧ s'.state = next ∧ s.i ≤ s'.i ∧
      ∃ x rest, x ≠ SP ∧ s'.left = x :: rest ∧ s.left = s.left.takeWhile (· == SP) ++ x :: rest := by
  unfold skipSpaces at h
  obtain ⟨i, hscan, rfl⟩ := Option.map_eq_some_iff.mp h
  obtain ⟨x, rest, hl, hx, rfl⟩ := BoundedArray.scan_eq_some hscan
  refine ⟨⟨rfl, rfl⟩, rfl, Nat.le_add_right _ _, x, rest, fun hsp => ?_, ?_, hl⟩
  · rw [hsp, beq_self_eq_true] at hx
    cases hx
  · unfold left
    rw [← List.drop_drop]
    nth_rewrite 2 [hl]
    rw [List.drop_left]

/-! ### The words -/

/-- What is left is the buffer from `i` on. -/
theorem length_left : s.left.length = MAX_READ - s.i := by
  rw [left, List.length_drop, Vector.length_toList]

/-- A word is no longer than what is left. -/
theorem length_word_le (s : CommandLoop) (stop : UInt8) : (s.left.takeWhile (· != stop)).length ≤ MAX_READ - s.i := by
  rw [← length_left]
  exact (List.takeWhile_sublist _).length_le

/-- A word is copied up to its end; what is left to do is to end it. -/
theorem word_eq (stop : UInt8) (param : Vector UInt8 MAX_READ) : ∃ dst,
    s.word stop param = (BoundedArray.store dst (s.left.takeWhile (· != stop)).length 0).map fun param' =>
      (s.i + (s.left.takeWhile (· != stop)).length, (s.left.takeWhile (· != stop)).length, param') := by
  have hroom : 0 + (s.left.takeWhile (· != stop)).length ≤ MAX_READ := by
    have hle := length_word_le s stop
    omega
  obtain ⟨dst, hcopy, -⟩ := BoundedArray.copy_eq_some (· == stop) s.i param hroom
  refine ⟨dst, ?_⟩
  change (BoundedArray.copy (· == stop) s.left s.i 0 param).bind _ = _
  rw [hcopy, Option.bind_some, Nat.zero_add]
  rfl

/-- A word stays in its array just if it does not fill it. -/
theorem word_isSome_iff_lt (stop : UInt8) (param : Vector UInt8 MAX_READ) :
    (s.word stop param).isSome ↔ (s.left.takeWhile (· != stop)).length < MAX_READ := by
  obtain ⟨dst, hword⟩ := word_eq (s := s) stop param
  rw [hword, Option.isSome_map, BoundedArray.store_isSome_iff]

/-- Behind the option there is room for every word. -/
theorem word_isSome_of_pos (stop : UInt8) (param : Vector UInt8 MAX_READ) (hi : 0 < s.i) :
    (s.word stop param).isSome := by
  apply (word_isSome_iff_lt stop param).mpr
  have hle := length_word_le s stop
  have hread : 0 < MAX_READ := by decide
  omega

/-- From the option on there is room for a word that ends before the buffer does. -/
theorem word_isSome_iff_mem (stop : UInt8) (param : Vector UInt8 MAX_READ) (hi : s.i = 0) :
    (s.word stop param).isSome ↔ stop ∈ s.buffer.toList := by
  have hleft : s.buffer.toList = s.left := by rw [left, hi, List.drop_zero]
  have hlen : s.left.length = MAX_READ := by rw [length_left, hi, Nat.sub_zero]
  have hpre : s.left.takeWhile (· != stop) <+: s.left := List.takeWhile_prefix _
  rw [word_isSome_iff_lt, hleft, ← hlen]
  constructor
  · intro hlt
    by_contra hmem
    have hself : s.left.takeWhile (· != stop) = s.left :=
      List.takeWhile_eq_self_iff.mpr fun c hc => bne_iff_ne.mpr fun heq => hmem (heq ▸ hc)
    rw [hself] at hlt
    exact Nat.lt_irrefl _ hlt
  · intro hmem
    apply Nat.lt_of_le_of_ne hpre.length_le
    intro heq
    have hall := List.takeWhile_eq_self_iff.mp (hpre.eq_of_length heq) stop hmem
    rw [bne_self_eq_false] at hall
    cases hall

/-! ### What an iteration needs -/

/-- It is over inside the arrays just if they hold what it needs, and then it keeps the buffer. -/
structure Goes (needs : Prop) (s : CommandLoop) (r : Option CommandLoop) : Prop where
  isSome_iff : r.isSome ↔ needs
  keeps : ∀ s', r = some s' → Keeps s s'

variable {needs needs' : Prop} {r : Option CommandLoop}

/-- A step that stays inside needs nothing. -/
theorem Goes.of_keeps (h : Keeps s s') (hneeds : needs) : Goes needs s (some s') where
  isSome_iff := iff_of_true rfl hneeds
  keeps := by
    intro s'' h'
    cases h'
    exact h

/-- What a step needs, said in another way. -/
theorem Goes.congr (h : Goes needs s r) (hiff : needs ↔ needs') : Goes needs' s r :=
  ⟨h.isSome_iff.trans hiff, h.keeps⟩

/-- What goes on behind something that needs less. -/
theorem Goes.bind {f : CommandLoop → Option CommandLoop} (h : Goes needs s r) (hless : needs' → needs)
    (hf : ∀ s', r = some s' → Goes needs' s' (f s')) : Goes needs' s (r.bind f) := by
  cases r with
  | none => exact ⟨iff_of_false Bool.false_ne_true fun hneeds => Bool.false_ne_true (h.isSome_iff.mpr (hless hneeds)),
      fun s' hs' => by cases hs'⟩
  | some s₁ =>
    obtain ⟨hiff, hkeeps⟩ := hf s₁ rfl
    exact ⟨hiff, fun s' hs' => (h.keeps s₁ rfl).trans (hkeeps s' hs')⟩

/-- Skipping blanks needs something else behind them. -/
theorem skipSpaces_goes (s : CommandLoop) (next : CommandState) :
    Goes (∃ x ∈ s.left, x ≠ SP) s (s.skipSpaces next) :=
  ⟨skipSpaces_isSome_iff, fun _ h => (skipSpaces_eq_some h).1⟩

/-- A word up to the end of the line, which is asked for. -/
theorem asked_goes (f : CommandLoop → AdminRequest) (hneeds : (s.word LF s.param1).isSome ↔ needs) :
    Goes needs s ((s.copyParam1 LF).map fun s => s.request (f s)) where
  isSome_iff := by
    rw [Option.isSome_map, copyParam1, Option.isSome_map]
    exact hneeds
  keeps := by
    intro s' h
    obtain ⟨s₁, hcopy, rfl⟩ := Option.map_eq_some_iff.mp h
    obtain ⟨r, -, rfl⟩ := Option.map_eq_some_iff.mp hcopy
    exact ⟨rfl, rfl⟩

/-- A configuration is set with what stands behind the next blanks. -/
theorem setConfig_goes (hi : 0 < s.i) : Goes (∃ y, y ≠ SP ∧ [SP, y].Sublist s.left) s s.setConfig := by
  obtain ⟨r, hword⟩ := Option.isSome_iff_exists.mp (word_isSome_of_pos SP s.param1 hi)
  obtain ⟨dst, heq⟩ := word_eq (s := s) SP s.param1
  rw [hword] at heq
  obtain ⟨param, -, rfl⟩ := Option.map_eq_some_iff.mp heq.symm
  let k := s.i + (s.left.takeWhile (· != SP)).length
  let s₁ : CommandLoop :=
    { s with i := k + 1, j := (s.left.takeWhile (· != SP)).length, param1 := param }
  have hset : s.setConfig = (s₁.skipSpaces .SCONFIG).bind fun s => (s.copyParam2 LF).map fun s =>
      s.request (.reqSetConfig (toUnsignedChar (atoi s.param1.toList)) (stringAt s.param2.toList)) := by
    unfold setConfig copyParam1
    rw [hword]
    rfl
  have hleft : s₁.left = s.left.drop ((s.left.takeWhile (· != SP)).length + 1) := by
    unfold left
    rw [List.drop_drop]
    rfl
  have hkeeps : Keeps s s₁ := ⟨rfl, rfl⟩
  have hneeds : (∃ x ∈ s₁.left, x ≠ SP) ↔ ∃ y, y ≠ SP ∧ [SP, y].Sublist s.left := by
    rw [hleft]
    apply exists_congr
    intro y
    rw [BoundedArray.cons_sublist_iff (List.cons_ne_nil y []), List.singleton_sublist, and_comm]
  have hgoes : Goes (∃ x ∈ s₁.left, x ≠ SP) s₁ s.setConfig := by
    rw [hset]
    refine (skipSpaces_goes s₁ _).bind id fun s₂ hs₂ => ?_
    obtain ⟨-, -, hle, -⟩ := skipSpaces_eq_some hs₂
    have hpos : 0 < s₂.i := Nat.lt_of_lt_of_le (Nat.succ_pos k) hle
    obtain ⟨r₂, hword₂⟩ := Option.isSome_iff_exists.mp (word_isSome_of_pos LF s₂.param2 hpos)
    unfold copyParam2
    rw [hword₂]
    exact Goes.of_keeps ⟨rfl, rfl⟩ ((skipSpaces_goes s₁ .SCONFIG).isSome_iff.mp (hs₂ ▸ rfl))
  exact ⟨hgoes.isSome_iff.trans hneeds, fun s' h => hkeeps.trans (hgoes.keeps s' h)⟩

/-! ### A command -/

/-- The loop behind the option. -/
def behindOption (s : CommandLoop) (input : List UInt8) : CommandLoop := { s.withInput input with i := 1 }

/-- Blanks behind the option, and what the state that follows needs. -/
theorem command_goes_of_start (hstart : s.start input = skipSpaces (s.behindOption input) next)
    (hnext : next ≠ .START) (hless : needs → ∃ x ∈ (s.behindOption input).left, x ≠ SP)
    (hf : ∀ s', skipSpaces (s.behindOption input) next = some s' → s'.state = next → 0 < s'.i →
      Goes needs s' s'.iterate) :
    Goes needs (s.withInput input) (s.command input) := by
  have hkeeps : Keeps (s.withInput input) (s.behindOption input) := ⟨rfl, rfl⟩
  have hgoes : Goes needs (s.behindOption input) (s.command input) := by
    unfold command
    rw [hstart]
    refine (skipSpaces_goes _ next).bind hless fun s' hs' => ?_
    obtain ⟨-, hstate, hle, -⟩ := skipSpaces_eq_some hs'
    rw [hstate, if_neg hnext]
    exact hf s' hs' hstate (Nat.lt_of_lt_of_le Nat.one_pos hle)
  exact ⟨hgoes.isSome_iff, fun s' h => hkeeps.trans (hgoes.keeps s' h)⟩

/-- A command with one word. -/
theorem command_goes_word (hstart : s.start input = skipSpaces (s.behindOption input) next)
    (hnext : next = .CRED ∨ next = .GMETRIC ∨ next = .GCONFIG) :
    Goes (∃ x ∈ (s.behindOption input).left, x ≠ SP) (s.withInput input) (s.command input) := by
  have hne : next ≠ .START := by
    rcases hnext with rfl | rfl | rfl <;> decide
  refine command_goes_of_start hstart hne id fun s' hs' hstate hi => ?_
  have hneeds := (skipSpaces_goes (s.behindOption input) next).isSome_iff.mp (hs' ▸ rfl)
  have hword := iff_of_true (word_isSome_of_pos LF s'.param1 hi) hneeds
  unfold iterate
  rw [hstate]
  rcases hnext with rfl | rfl | rfl
  · exact asked_goes (fun s => .sendCredentials (stringAt s.param1.toList)) hword
  · exact asked_goes (fun s => .reqGetMetric (toUnsignedChar (atoi s.param1.toList))) hword
  · exact asked_goes (fun s => .reqGetConfig (toUnsignedChar (atoi s.param1.toList))) hword

/-- What comes in order behind the blanks. -/
theorem sublist_behind_spaces {l rest : List UInt8} {x : UInt8} (hx : x ≠ SP)
    (hl : l = l.takeWhile (· == SP) ++ x :: rest) :
    (∃ x y, x ≠ SP ∧ y ≠ SP ∧ [x, SP, y].Sublist l) ↔ ∃ y, y ≠ SP ∧ [SP, y].Sublist (x :: rest) := by
  constructor
  · rintro ⟨x', y, hx', hy, hsub⟩
    refine ⟨y, hy, ?_⟩
    have hmem : x' ∉ l.takeWhile (· == SP) := fun hmem =>
      hx' (beq_iff_eq.mp (List.mem_takeWhile_imp (p := (· == SP)) hmem))
    rw [hl] at hsub
    exact List.sublist_of_cons_sublist (BoundedArray.sublist_of_not_mem hmem hsub)
  · rintro ⟨y, hy, hsub⟩
    refine ⟨x, y, hx, hy, ?_⟩
    rw [hl]
    cases hsub with
    | cons _ hsub => exact (hsub.cons_cons x).trans (List.sublist_append_right _ _)
    | cons_cons _ _ => exact absurd rfl hx

/-- A command that sets a configuration. -/
theorem command_goes_config (hstart : s.start input = skipSpaces (s.behindOption input) .SCONFIG) :
    Goes (∃ x y, x ≠ SP ∧ y ≠ SP ∧ [x, SP, y].Sublist (s.behindOption input).left) (s.withInput input)
      (s.command input) := by
  have hless : (∃ x y, x ≠ SP ∧ y ≠ SP ∧ [x, SP, y].Sublist (s.behindOption input).left) →
      ∃ x ∈ (s.behindOption input).left, x ≠ SP := by
    rintro ⟨x, y, hx, -, hsub⟩
    exact ⟨x, hsub.subset List.mem_cons_self, hx⟩
  refine command_goes_of_start hstart (by decide) hless fun s' hs' hstate hi => ?_
  obtain ⟨-, -, -, x, rest, hx, hleft, hl⟩ := skipSpaces_eq_some hs'
  have hgoes := setConfig_goes hi
  rw [hleft, ← sublist_behind_spaces hx hl] at hgoes
  unfold iterate
  rw [hstate]
  exact hgoes

/-- The first byte of the buffer chooses the command. -/
theorem start_of_option {option : UInt8} (hopt : (readOver s.buffer input)[0] = option) :
    s.start input = (s.withInput input).choose option := by
  rw [← hopt]
  rfl

/-- A command that is over after its first step. -/
theorem command_of_start (hstart : s.start input = some s') (hstate : s'.state = .START) :
    s.command input = some s' := by
  unfold command
  rw [hstart, Option.bind_some, if_pos hstate]

/-- Behind the credentials the loop is at its start again. -/
theorem cred_state (h : s.cred = some s') : s'.state = .START := by
  obtain ⟨s₁, -, rfl⟩ := Option.map_eq_some_iff.mp h
  rfl

/-- The command of the credentials is their step. -/
theorem command_of_cred (hstart : s.start input = (s.withInput input).cred) :
    s.command input = (s.withInput input).cred := by
  cases hcred : (s.withInput input).cred with
  | none =>
    unfold command
    rw [hstart, hcred, Option.bind_none]
  | some s' => exact command_of_start (hstart.trans hcred) (cred_state hcred)

section LineFits

variable {buffer : Vector UInt8 MAX_READ}

/-- A line with one parameter fits exactly when something other than a blank is behind its
option. -/
theorem lineFits_word_iff (hopt : buffer[0] = optionChar .SEND_CRED ∨ buffer[0] = optionChar .GET_METRIC ∨
    buffer[0] = optionChar .GET_CONFIG) : LineFits buffer ↔ ∃ x ∈ buffer.toList.drop 1, x ≠ SP := by
  constructor
  · intro h
    exact h.word hopt
  · intro hneeds
    refine ⟨fun _ => hneeds, fun h5 => ?_, fun hno => ?_⟩
    · rw [h5] at hopt
      exact absurd hopt (by decide)
    · rcases hopt with h | h | h
      all_goals exact absurd h (hno _)

/-- A line with two parameters fits exactly when two words are behind its option. -/
theorem lineFits_config_iff (hopt : buffer[0] = optionChar .SET_CONFIG) :
    LineFits buffer ↔ ∃ x y, x ≠ SP ∧ y ≠ SP ∧ [x, SP, y].Sublist (buffer.toList.drop 1) := by
  constructor
  · intro h
    exact h.config hopt
  · intro hneeds
    refine ⟨fun h => ?_, fun _ => hneeds, fun hno => absurd hopt (hno _)⟩
    rw [hopt] at h
    exact absurd h (by decide)

/-- A line with credentials fits exactly when it has a LF. -/
theorem lineFits_credentials_iff (hopt : ∀ t, buffer[0] ≠ optionChar t) (hclose : buffer[0] ≠ closeChar) :
    LineFits buffer ↔ LF ∈ buffer.toList := by
  constructor
  · intro h
    exact h.credentials hopt hclose
  · intro hneeds
    refine ⟨fun h => ?_, fun h => absurd h (hopt _), fun _ _ => hneeds⟩
    rcases h with h | h | h
    all_goals exact absurd h (hopt _)

/-- Nothing is needed behind an option that is all of its command. -/
theorem lineFits_of_option (hopt : buffer[0] = optionChar .LIST_METRICS ∨
    buffer[0] = optionChar .LIST_CONFIGS ∨ buffer[0] = closeChar) : LineFits buffer := by
  refine ⟨fun h => ?_, fun h => ?_, fun hno hclose => ?_⟩
  · rcases hopt with h' | h' | h'
    all_goals
      rw [h'] at h
      exact absurd h (by decide)
  · rw [h] at hopt
    exact absurd hopt (by decide)
  · rcases hopt with h | h | h
    · exact absurd h (hno _)
    · exact absurd h (hno _)
    · exact absurd h hclose

end LineFits

/-- The command that closes. -/
theorem command_close (hopt : (readOver s.buffer input)[0] = closeChar) :
    ∃ s', s.command input = some s' ∧ s'.shouldClose = true := by
  refine ⟨{ s.withInput input with state := .CLOSE, shouldClose := true }, ?_, rfl⟩
  unfold command
  rw [start_of_option hopt]
  rfl

/-- Every other command needs what its option goes over. -/
theorem command_goes (hopt : (readOver s.buffer input)[0] ≠ closeChar) :
    Goes (LineFits (readOver s.buffer input)) (s.withInput input) (s.command input) := by
  have hkeeps : ∀ r, Keeps (s.withInput input) ((s.withInput input).request r) := fun r => ⟨rfl, rfl⟩
  by_cases h0 : (readOver s.buffer input)[0] = optionChar .SEND_CRED
  · have hstart : s.start input = skipSpaces (s.behindOption input) .CRED := by
      rw [start_of_option h0]
      rfl
    exact (command_goes_word hstart (.inl rfl)).congr (lineFits_word_iff (.inl h0)).symm
  by_cases h1 : (readOver s.buffer input)[0] = optionChar .LIST_METRICS
  · rw [command_of_start (start_of_option h1) rfl]
    exact .of_keeps (hkeeps _) (lineFits_of_option (.inl h1))
  by_cases h2 : (readOver s.buffer input)[0] = optionChar .LIST_CONFIGS
  · rw [command_of_start (start_of_option h2) rfl]
    exact .of_keeps (hkeeps _) (lineFits_of_option (.inr (.inl h2)))
  by_cases h3 : (readOver s.buffer input)[0] = optionChar .GET_METRIC
  · have hstart : s.start input = skipSpaces (s.behindOption input) .GMETRIC := by
      rw [start_of_option h3]
      rfl
    exact (command_goes_word hstart (.inr (.inl rfl))).congr (lineFits_word_iff (.inr (.inl h3))).symm
  by_cases h4 : (readOver s.buffer input)[0] = optionChar .GET_CONFIG
  · have hstart : s.start input = skipSpaces (s.behindOption input) .GCONFIG := by
      rw [start_of_option h4]
      rfl
    exact (command_goes_word hstart (.inr (.inr rfl))).congr (lineFits_word_iff (.inr (.inr h4))).symm
  by_cases h5 : (readOver s.buffer input)[0] = optionChar .SET_CONFIG
  · have hstart : s.start input = skipSpaces (s.behindOption input) .SCONFIG := by
      rw [start_of_option h5]
      rfl
    exact (command_goes_config hstart).congr (lineFits_config_iff h5).symm
  -- What is no option is taken for credentials.
  have hcred : s.start input = (s.withInput input).cred := by
    unfold start choose
    exact (if_neg h0).trans ((if_neg h1).trans ((if_neg h2).trans ((if_neg h3).trans ((if_neg h4).trans
      ((if_neg h5).trans (if_neg hopt))))))
  have hno : ∀ t, (readOver s.buffer input)[0] ≠ optionChar t := by
    intro t
    cases t
    · exact h0
    · exact h1
    · exact h2
    · exact h3
    · exact h4
    · exact h5
    · exact hopt
  have hgoes : Goes (LF ∈ (readOver s.buffer input).toList) (s.withInput input) (s.withInput input).cred :=
    asked_goes (fun s => .sendCredentials (stringAt s.param1.toList)) (word_isSome_iff_mem LF _ rfl)
  rw [command_of_cred hcred]
  exact hgoes.congr (lineFits_credentials_iff hno hopt).symm

/-- Every command stays in the arrays just if every line has what it needs. -/
theorem run_isSome_iff (hopen : s.shouldClose = false) (inputs : List (List UInt8)) :
    (s.run inputs).isSome ↔ LinesFit s.buffer inputs := by
  induction inputs generalizing s with
  | nil => exact iff_of_true rfl trivial
  | cons input inputs ih =>
    unfold run LinesFit
    by_cases hopt : (readOver s.buffer input)[0] = closeChar
    · obtain ⟨s', hcommand, hclose⟩ := command_close hopt
      rw [hcommand, Option.bind_some, if_pos hclose]
      exact iff_of_true rfl ⟨lineFits_of_option (.inr (.inr hopt)), fun hne => absurd hopt hne⟩
    · obtain ⟨hiff, hkeeps⟩ := command_goes hopt
      cases hcommand : s.command input with
      | none =>
        rw [hcommand] at hiff
        exact iff_of_false Bool.false_ne_true fun h => Bool.false_ne_true (hiff.mpr h.1)
      | some s' =>
        rw [hcommand] at hiff
        obtain ⟨hbuffer, hclose⟩ := hkeeps s' hcommand
        have hopen' : s'.shouldClose = false := hclose.trans hopen
        rw [Option.bind_some, hopen', if_neg Bool.false_ne_true, ih hopen', hbuffer]
        exact ⟨fun h => ⟨hiff.mp rfl, fun _ => h⟩, fun h => h.2 hopt⟩

end CommandLoop

/-- The loop, from what its arrays hold before anything is written to them. -/
def commandLoop (buffer param1 param2 : Vector UInt8 MAX_READ) (inputs : List (List UInt8)) :
    Option CommandLoop :=
  CommandLoop.run { buffer := buffer, param1 := param1, param2 := param2 } inputs

/-- No index leaves its array just if every line up to the one that closes has what its option goes
over. -/
theorem commandLoop_within_iff (buffer param1 param2 : Vector UInt8 MAX_READ) (inputs : List (List UInt8)) :
    (commandLoop buffer param1 param2 inputs).isSome ↔ LinesFit buffer inputs := by
  unfold commandLoop
  rw [CommandLoop.run_isSome_iff rfl]

/-- The buffer holds what was read, and behind it what was there. -/
theorem getElem_readOver (buffer : Vector UInt8 MAX_READ) (input : List UInt8) {k : Nat} (hk : k < MAX_READ) :
    (readOver buffer input)[k] = input.getD k buffer[k] :=
  Vector.getElem_ofFn hk

/-- A line that fills the buffer is all that is left in it. -/
theorem toList_readOver (buffer : Vector UInt8 MAX_READ) {input : List UInt8} (h : input.length = MAX_READ) :
    (readOver buffer input).toList = input := by
  apply List.ext_getElem
  · rw [Vector.length_toList, h]
  · intro k hk hk'
    rw [Vector.getElem_toList, getElem_readOver, List.getD_eq_getElem?_getD, List.getElem?_eq_getElem hk',
      Option.getD_some]

/-- Credentials without a line end fill `param1`, and are ended behind it. -/
theorem commandLoop_outside :
    ¬∀ (buffer param1 param2 : Vector UInt8 MAX_READ) (inputs : List (List UInt8)),
      (commandLoop buffer param1 param2 inputs).isSome := by
  intro h
  let zeros : Vector UInt8 MAX_READ := Vector.replicate MAX_READ 0
  have hsome := h zeros zeros zeros [List.replicate MAX_READ 0x61]
  unfold commandLoop at hsome
  obtain ⟨hfits, -⟩ := (CommandLoop.run_isSome_iff rfl _).mp hsome
  have hopt : (readOver zeros (List.replicate MAX_READ 0x61))[0] = 0x61 := by
    rw [getElem_readOver, List.replicate_succ, List.getD_cons_zero]
  have hnl : LF ∈ (readOver zeros (List.replicate MAX_READ 0x61)).toList := by
    apply hfits.credentials
    · intro t
      rw [hopt]
      cases t <;> decide
    · rw [hopt]
      decide
  rw [toList_readOver zeros List.length_replicate] at hnl
  exact absurd (List.eq_of_mem_replicate hnl) (by decide)

end HttpProxy
