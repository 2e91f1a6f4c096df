import HttpProxy.ConfigStore

/-!
# The configuration file

`config_initialize_from_file`: a machine of four states over the bytes of the file. A name goes to an
array on the stack, a value to memory that grows in steps of ten bytes, and a position counts in both. A
store that is out of its memory ends the model of the machine: what the program does then is not said by
the code.

The machine accepts the format of the file and more: a file may end inside a line that has no value yet,
and a name is not counted, so that one that is too long is written past its array (`FileDefect`). Other
than that it accepts the format (`accepts_format_iff`).
-/

namespace HttpProxy

def isalpha (c : UInt8) : Bool := (0x41 ≤ c && c ≤ 0x5a) || (0x61 ≤ c && c ≤ 0x7a)

/-- The characters of names and values. -/
def isConfigChar (c : UInt8) : Bool := isalpha c || isdigit c || c == 0x2d || c == 0x5f

abbrev EQ : UInt8 := 0x3d

abbrev PREALLOC_QUANTITY : Nat := 10

/-! ## Memory -/

/-- `mem[i] = c`; `none` when that is not in the memory. -/
def storeAt (mem : List UInt8) (i : Nat) (c : UInt8) : Option (List UInt8) :=
  if i < mem.length then some (mem.set i c) else none

/-- Memory of `n` bytes that begins with the old one; `junk` is what new memory holds. -/
def realloc (junk : Nat → UInt8) (mem : List UInt8) (n : Nat) : List UInt8 :=
  (List.range n).map fun i => mem.getD i (junk i)

/-! ## The machine -/

inductive FileState
  | START
  | NAME
  | EQUAL
  | VALUE
deriving DecidableEq, Repr

structure FileReader where
  state : FileState := .START
  current : Nat := 0
  nameBuf : List UInt8
  /-- `none` for `NULL`. -/
  valueBuf : Option (List UInt8) := none
  conf : Config

/-- What becomes of the machine with a byte: it goes on, it returns -1, or it stores out of its
memory. -/
inductive FileStep
  | goes (s : FileReader)
  | refused (conf : Config)
  | overflows

namespace FileReader

variable (junk : Nat → UInt8)

/-- The value buffer, enlarged when it is full. -/
def grown (s : FileReader) : List UInt8 :=
  let mem := s.valueBuf.getD []
  if s.current % PREALLOC_QUANTITY = 0 then realloc junk mem (s.current + PREALLOC_QUANTITY) else mem

/-- `config_create` of the name and of the value, which is ended with a zero. -/
def create (s : FileReader) : Option Config :=
  (storeAt (s.grown junk) s.current 0).map fun mem => (configCreate s.nameBuf mem s.conf).2

def storeName (s : FileReader) (c : UInt8) (next : FileReader → FileReader) : FileStep :=
  match storeAt s.nameBuf s.current c with
  | some mem => .goes (next { s with nameBuf := mem })
  | none => .overflows

def storeValue (s : FileReader) (c : UInt8) : FileStep :=
  match storeAt (s.grown junk) s.current c with
  | some mem => .goes { s with valueBuf := some mem, current := s.current + 1, state := .VALUE }
  | none => .overflows

def step (s : FileReader) (c : UInt8) : FileStep :=
  match s.state with
  | .START =>
    if isConfigChar c then
      s.storeName c fun s => { s with current := s.current + 1, state := .NAME }
    else .refused s.conf
  | .NAME =>
    if isConfigChar c then s.storeName c fun s => { s with current := s.current + 1 }
    else if c = EQ then s.storeName 0 fun s => { s with state := .EQUAL }
    else .refused s.conf
  | .EQUAL =>
    if isConfigChar c then storeValue junk { s with current := 0 } c else .refused s.conf
  | .VALUE =>
    if isConfigChar c then s.storeValue junk c
    else if c = LF then
      match s.create junk with
      | some conf => .goes { s with current := 0, valueBuf := none, conf := conf, state := .START }
      | none => .overflows
    else .refused s.conf

/-- Behind the last byte. -/
def finish (s : FileReader) : Option (Int × Config) :=
  match s.valueBuf with
  | some _ => (s.create junk).map fun conf => (0, conf)
  | none => some (0, s.conf)

/-- What is returned and the store that is left; `none` when something was stored out of its
memory. -/
def read (s : FileReader) : List UInt8 → Option (Int × Config)
  | [] => s.finish junk
  | c :: content =>
    match s.step junk c with
    | .goes s => read s content
    | .refused conf => some (-1, conf)
    | .overflows => none

end FileReader

/-- `config_initialize_from_file` on a file with this content; `junk` is what `name_buf` and new memory
hold. -/
def configInitializeFromFile (junk : Nat → UInt8) (content : List UInt8) (conf : Config) :
    Option (Int × Config) :=
  FileReader.read junk { nameBuf := (List.range (MAX_NAME + 1)).map junk, conf := conf } content

/-! ## The format -/

def IsConfigText (t : List UInt8) : Prop := t ≠ [] ∧ ∀ c ∈ t, isConfigChar c = true

def IsConfigName (n : List UInt8) : Prop := IsConfigText n ∧ n.length ≤ MAX_NAME

/-- The lines of a file, and the names and values in them: every line ends with a LF, except perhaps the
last. -/
inductive FileLines : List (List UInt8 × List UInt8) → List UInt8 → Prop
  | nil : FileLines [] []
  | last {n v : List UInt8} (hn : IsConfigName n) (hv : IsConfigText v) :
    FileLines [(n, v)] (n ++ EQ :: v)
  | line {n v w : List UInt8} {ps : List (List UInt8 × List UInt8)} (hn : IsConfigName n)
      (hv : IsConfigText v) (h : FileLines ps w) : FileLines ((n, v) :: ps) (n ++ EQ :: (v ++ LF :: w))

/-- The calls of `config_create` on the pairs in order. -/
def createAll (ps : List (List UInt8 × List UInt8)) (conf : Config) : Config :=
  ps.foldl (fun conf p => (configCreate p.1 p.2 conf).2) conf

/-- Behind lines that are right, the file ends in a name, or behind its `=`, or there is a name that is too
long. -/
inductive FileDefect : List UInt8 → Prop
  | inName {t : List UInt8} (ht : IsConfigText t) : FileDefect t
  | behindName {t : List UInt8} (ht : IsConfigText t) : FileDefect (t ++ [EQ])
  | longName {t w : List UInt8} {x : UInt8} (ht : IsConfigText t) (hlen : t.length = MAX_NAME + 1)
      (hx : isConfigChar x = true ∨ x = EQ) : FileDefect (t ++ x :: w)
  | line {n v w : List UInt8} (hn : IsConfigName n) (hv : IsConfigText v) (h : FileDefect w) :
    FileDefect (n ++ EQ :: (v ++ LF :: w))

/-- The reader accepts the file just if it has the format, and then the store has what it says. -/
def AcceptsFormat (junk : Nat → UInt8) (content : List UInt8) (conf : Config) : Prop :=
  ∃ r conf', configInitializeFromFile junk content conf = some (r, conf') ∧
    (r = 0 ↔ ∃ ps, FileLines ps content) ∧ ∀ ps, FileLines ps content → conf' = createAll ps conf

/-! ## Storing -/

/-- A store inside the memory changes one byte of it. -/
theorem storeAt_of_lt {mem : List UInt8} {i : Nat} (h : i < mem.length) (c : UInt8) :
    storeAt mem i c = some (mem.set i c) := if_pos h

/-- A store behind the memory is undefined. -/
theorem storeAt_of_le {mem : List UInt8} {i : Nat} (h : mem.length ≤ i) (c : UInt8) :
    storeAt mem i c = none := if_neg (Nat.not_lt.mpr h)

/-- What is stored behind `t` goes on with it. -/
theorem take_set {mem t : List UInt8} (ht : mem.take t.length = t) (hlt : t.length < mem.length) (c : UInt8) :
    (mem.set t.length c).take (t.length + 1) = t ++ [c] := by
  rw [List.take_set, List.take_succ_eq_append_getElem hlt, ht, List.set_append_right _ _ (Nat.le_refl _),
    Nat.sub_self]
  rfl

@[simp] theorem length_realloc (junk : Nat → UInt8) (mem : List UInt8) (n : Nat) :
    (realloc junk mem n).length = n := by
  rw [realloc, List.length_map, List.length_range]

/-- Enlarged memory keeps what it holds. -/
theorem take_realloc (junk : Nat → UInt8) {mem t : List UInt8} {n : Nat} (ht : mem.take t.length = t)
    (hn : t.length ≤ n) : (realloc junk mem n).take t.length = t := by
  have hle : t.length ≤ mem.length := by
    have hlen := congrArg List.length ht
    rw [List.length_take] at hlen
    omega
  apply List.ext_getElem
  · rw [List.length_take, length_realloc, Nat.min_eq_left hn]
  · intro i hi hit
    have hlt : i < mem.length := by omega
    have hget : mem[i] = t[i] := by
      rw [List.getElem_of_eq ht.symm hit, List.getElem_take]
    simp only [List.getElem_take, realloc, List.getElem_map, List.getElem_range]
    rw [List.getD_eq_getElem?_getD, List.getElem?_eq_getElem hlt, Option.getD_some, hget]

/-- Names and values have no zeros. -/
theorem ne_zero_of_isConfigChar {c : UInt8} (h : isConfigChar c = true) : c ≠ 0 := by
  rintro rfl
  exact absurd h (by decide)

/-- A name or a value has no zero byte. -/
theorem IsConfigText.zero {t : List UInt8} (h : IsConfigText t) : (0 : UInt8) ∉ t := fun h0 =>
  ne_zero_of_isConfigChar (h.2 0 h0) rfl

/-- Memory that begins with `t` and a zero holds the string `t`. -/
theorem stringAt_of_take {mem t : List UInt8} (h0 : (0 : UInt8) ∉ t) (h : mem.take (t.length + 1) = t ++ [0]) :
    stringAt mem = t := by
  rw [← List.take_append_drop (t.length + 1) mem, h, List.append_assoc]
  exact stringAt_terminated h0 _

/-- Without a zero byte a string is all of its bytes. -/
theorem stringAt_of_not_mem {t : List UInt8} (h0 : (0 : UInt8) ∉ t) : stringAt t = t :=
  List.takeWhile_eq_self_iff.mpr fun _ hc => bne_iff_ne.mpr fun h => h0 (h ▸ hc)

/-- `config_create` depends on the strings alone. -/
theorem configCreate_congr {name name' value value' : List UInt8} (hn : stringAt name = stringAt name')
    (hv : stringAt value = stringAt value') (conf : Config) :
    configCreate name value conf = configCreate name' value' conf := by
  have hreplace : ∀ v (conf : Config), configReplace name v conf = configReplace name' v conf := by
    intro v conf
    induction conf with
    | nil => rfl
    | cons e conf ih =>
      unfold configReplace ConfigEntry.matches
      rw [hn, ih]
  unfold configCreate
  rw [hreplace, hn, hv]

/-! ## The machine inside a line -/

namespace FileReader

variable {junk : Nat → UInt8} {s : FileReader} {conf : Config} {n t v : List UInt8}

/-- In front of a line. -/
structure AtStart (s : FileReader) (conf : Config) : Prop where
  state : s.state = .START
  current : s.current = 0
  length_nameBuf : s.nameBuf.length = MAX_NAME + 1
  valueBuf : s.valueBuf = none
  conf : s.conf = conf

/-- Behind the characters `t` of a name. -/
structure InName (s : FileReader) (t : List UInt8) (conf : Config) : Prop where
  state : s.state = .NAME
  current : s.current = t.length
  length_nameBuf : s.nameBuf.length = MAX_NAME + 1
  taken : s.nameBuf.take t.length = t
  valueBuf : s.valueBuf = none
  conf : s.conf = conf

/-- Behind the `=` of a name. -/
structure BehindName (s : FileReader) (n : List UInt8) (conf : Config) : Prop where
  state : s.state = .EQUAL
  length_nameBuf : s.nameBuf.length = MAX_NAME + 1
  name : stringAt s.nameBuf = n
  valueBuf : s.valueBuf = none
  conf : s.conf = conf

/-- Behind the characters `v` of a value: the memory of the value is as long as it has to be, up to the
next multiple of ten. -/
structure InValue (s : FileReader) (n v : List UInt8) (conf : Config) : Prop where
  state : s.state = .VALUE
  current : s.current = v.length
  length_nameBuf : s.nameBuf.length = MAX_NAME + 1
  name : stringAt s.nameBuf = n
  valueBuf : ∃ mem, s.valueBuf = some mem ∧ mem.take v.length = v ∧
    mem.length = PREALLOC_QUANTITY * ((v.length - 1) / PREALLOC_QUANTITY + 1)
  conf : s.conf = conf

variable {c : UInt8} {w u : List UInt8}

theorem not_isConfigChar_eq : isConfigChar EQ = false := by decide

theorem not_isConfigChar_lf : isConfigChar LF = false := by decide

/-- A byte on which the reader goes on is followed by the rest. -/
theorem read_goes {s' : FileReader} (h : s.step junk c = .goes s') : s.read junk (c :: w) = s'.read junk w := by
  rw [read, h]

/-- A byte that is refused ends the reading with `-1`. -/
theorem read_refused {conf : Config} (h : s.step junk c = .refused conf) :
    s.read junk (c :: w) = some (-1, conf) := by
  rw [read, h]

/-- A byte that is stored outside its memory makes the reading undefined. -/
theorem read_overflows (h : s.step junk c = .overflows) : s.read junk (c :: w) = none := by
  rw [read, h]

/-- A character at the start of a line begins a name. -/
theorem AtStart.step (junk : Nat → UInt8) (h : s.AtStart conf) (hc : isConfigChar c = true) :
    ∃ s', s.step junk c = .goes s' ∧ s'.InName [c] conf := by
  have hlt : 0 < s.nameBuf.length := by
    rw [h.length_nameBuf]
    exact Nat.succ_pos _
  unfold FileReader.step storeName
  rw [h.state]
  dsimp only
  rw [if_pos hc, h.current, storeAt_of_lt hlt]
  refine ⟨_, rfl, rfl, rfl, ?_, ?_, h.valueBuf, h.conf⟩
  · rw [List.length_set, h.length_nameBuf]
  · exact take_set (t := []) rfl hlt c

/-- Anything else at the start of a line is refused. -/
theorem AtStart.step_other (h : s.AtStart conf) (hc : isConfigChar c = false) :
    s.step junk c = .refused conf := by
  unfold FileReader.step
  rw [h.state]
  dsimp only
  rw [hc, if_neg Bool.false_ne_true, h.conf]

/-- A character behind a name with room for it makes the name longer. -/
theorem InName.step (junk : Nat → UInt8) (h : s.InName t conf) (hc : isConfigChar c = true)
    (ht : t.length ≤ MAX_NAME) :
    ∃ s', s.step junk c = .goes s' ∧ s'.InName (t ++ [c]) conf := by
  have hlt : t.length < s.nameBuf.length := by
    rw [h.length_nameBuf]
    exact Nat.lt_succ_of_le ht
  unfold FileReader.step storeName
  rw [h.state]
  dsimp only
  rw [if_pos hc, h.current, storeAt_of_lt hlt]
  refine ⟨_, rfl, rfl, ?_, ?_, ?_, h.valueBuf, h.conf⟩
  · rw [List.length_append, List.length_singleton]
  · rw [List.length_set, h.length_nameBuf]
  · rw [List.length_append, List.length_singleton]
    exact take_set h.taken hlt c

/-- A name that fills its array is not counted. -/
theorem InName.step_overflows (h : s.InName t conf) (ht : t.length = MAX_NAME + 1)
    (hc : isConfigChar c = true ∨ c = EQ) : s.step junk c = .overflows := by
  have hle : s.nameBuf.length ≤ s.current := by rw [h.length_nameBuf, h.current, ht]
  unfold FileReader.step storeName
  rw [h.state]
  dsimp only
  rw [storeAt_of_le hle, storeAt_of_le hle]
  by_cases hchar : isConfigChar c = true
  · rw [if_pos hchar]
  · rw [if_neg hchar, if_pos (hc.resolve_left hchar)]

/-- A `=` ends a name, of which the buffer then has the zero. -/
theorem InName.step_eq (junk : Nat → UInt8) (h : s.InName t conf) (h0 : (0 : UInt8) ∉ t)
    (ht : t.length ≤ MAX_NAME) :
    ∃ s', s.step junk EQ = .goes s' ∧ s'.BehindName t conf := by
  have hlt : t.length < s.nameBuf.length := by
    rw [h.length_nameBuf]
    exact Nat.lt_succ_of_le ht
  unfold FileReader.step storeName
  rw [h.state]
  dsimp only
  rw [not_isConfigChar_eq, if_neg Bool.false_ne_true, if_pos rfl, h.current, storeAt_of_lt hlt]
  refine ⟨_, rfl, rfl, ?_, ?_, h.valueBuf, h.conf⟩
  · rw [List.length_set, h.length_nameBuf]
  · exact stringAt_of_take h0 (take_set h.taken hlt 0)

/-- Anything else behind a name is refused. -/
theorem InName.step_other (h : s.InName t conf) (hc : isConfigChar c = false) (heq : c ≠ EQ) :
    s.step junk c = .refused conf := by
  unfold FileReader.step
  rw [h.state]
  dsimp only
  rw [hc, if_neg Bool.false_ne_true, if_neg heq, h.conf]

/-- A character behind the `=` begins a value. -/
theorem BehindName.step (junk : Nat → UInt8) (h : s.BehindName n conf) (hc : isConfigChar c = true) :
    ∃ s', s.step junk c = .goes s' ∧ s'.InValue n [c] conf := by
  have hlen : (realloc junk [] PREALLOC_QUANTITY).length = PREALLOC_QUANTITY := length_realloc _ _ _
  unfold FileReader.step storeValue grown
  rw [h.state]
  dsimp only
  rw [if_pos hc, h.valueBuf, Option.getD_none, if_pos (Nat.zero_mod _), Nat.zero_add,
    storeAt_of_lt (by rw [hlen]; exact Nat.succ_pos _)]
  refine ⟨_, rfl, rfl, rfl, h.length_nameBuf, h.name, ⟨_, rfl, ?_, ?_⟩, h.conf⟩
  · exact take_set (t := []) rfl (by rw [hlen]; exact Nat.succ_pos _) c
  · rw [List.length_set, hlen, List.length_singleton, Nat.sub_self, Nat.zero_div, Nat.zero_add, Nat.mul_one]

/-- Anything else behind the `=` is refused. -/
theorem BehindName.step_other (h : s.BehindName n conf) (hc : isConfigChar c = false) :
    s.step junk c = .refused conf := by
  unfold FileReader.step
  rw [h.state]
  dsimp only
  rw [hc, if_neg Bool.false_ne_true, h.conf]

/-- There is always room for one more byte of a value, at the multiples of ten because it was
made. -/
theorem InValue.grown (junk : Nat → UInt8) (h : s.InValue n v conf) (hv : v ≠ []) :
    (s.grown junk).take v.length = v ∧
      (s.grown junk).length = PREALLOC_QUANTITY * (v.length / PREALLOC_QUANTITY + 1) := by
  obtain ⟨mem, hmem, htake, hlen⟩ := h.valueBuf
  have hpos := List.length_pos_iff.mpr hv
  unfold FileReader.grown
  rw [hmem, Option.getD_some, h.current]
  unfold PREALLOC_QUANTITY at hlen ⊢
  by_cases hfull : v.length % 10 = 0
  · rw [if_pos hfull]
    refine ⟨take_realloc junk htake (Nat.le_add_right _ _), ?_⟩
    rw [length_realloc]
    omega
  · rw [if_neg hfull]
    refine ⟨htake, ?_⟩
    omega

/-- There is memory for one more byte of the value: it grows where it is full. -/
theorem InValue.lt_grown (junk : Nat → UInt8) (h : s.InValue n v conf) (hv : v ≠ []) : v.length <
    (s.grown junk).length := by
  rw [(h.grown junk hv).2]
  unfold PREALLOC_QUANTITY
  omega

/-- A character behind a value makes the value longer. -/
theorem InValue.step (junk : Nat → UInt8) (h : s.InValue n v conf) (hv : v ≠ [])
    (hc : isConfigChar c = true) :
    ∃ s', s.step junk c = .goes s' ∧ s'.InValue n (v ++ [c]) conf := by
  obtain ⟨htake, hlen⟩ := h.grown junk hv
  have hlt := h.lt_grown junk hv
  unfold FileReader.step storeValue
  rw [h.state]
  dsimp only
  rw [if_pos hc, h.current, storeAt_of_lt hlt]
  refine ⟨_, rfl, rfl, ?_, h.length_nameBuf, h.name, ⟨_, rfl, ?_, ?_⟩, h.conf⟩
  · rw [List.length_append, List.length_singleton]
  · rw [List.length_append, List.length_singleton]
    exact take_set htake hlt c
  · rw [List.length_set, hlen, List.length_append, List.length_singleton, Nat.add_sub_cancel]

/-- `config_create` is given the name and the value. -/
theorem InValue.create (h : s.InValue n v conf) (hv : v ≠ []) (hn0 : (0 : UInt8) ∉ n) (hv0 : (0 : UInt8) ∉ v) :
    s.create junk = some (configCreate n v conf).2 := by
  obtain ⟨htake, -⟩ := h.grown junk hv
  have hlt := h.lt_grown junk hv
  have hvalue : stringAt ((s.grown junk).set v.length 0) = stringAt v := by
    rw [stringAt_of_take hv0 (take_set htake hlt 0), stringAt_of_not_mem hv0]
  unfold FileReader.create
  rw [h.current, storeAt_of_lt hlt, Option.map_some, h.conf,
    configCreate_congr (h.name.trans (stringAt_of_not_mem hn0).symm) hvalue]

/-- A LF ends the value: the pair is stored and the next line begins. -/
theorem InValue.step_lf (junk : Nat → UInt8) (h : s.InValue n v conf) (hv : v ≠ []) (hn0 :
    (0 : UInt8) ∉ n)
    (hv0 : (0 : UInt8) ∉ v) :
    ∃ s', s.step junk LF = .goes s' ∧ s'.AtStart (configCreate n v conf).2 := by
  unfold FileReader.step
  rw [h.state]
  dsimp only
  rw [not_isConfigChar_lf, if_neg Bool.false_ne_true, if_pos rfl, h.create hv hn0 hv0]
  exact ⟨_, rfl, rfl, rfl, h.length_nameBuf, rfl, rfl⟩

/-- Anything else behind a value is refused. -/
theorem InValue.step_other (h : s.InValue n v conf) (hc : isConfigChar c = false) (hlf : c ≠ LF) :
    s.step junk c = .refused conf := by
  unfold FileReader.step
  rw [h.state]
  dsimp only
  rw [hc, if_neg Bool.false_ne_true, if_neg hlf, h.conf]

/-! ## Behind the last byte -/

/-- At the end of the file a line that was not begun is no defect. -/
theorem AtStart.finish (h : s.AtStart conf) : s.finish junk = some (0, conf) := by
  rw [FileReader.finish, h.valueBuf, h.conf]

/-- At the end of the file a name without a value is left out. -/
theorem InName.finish (h : s.InName t conf) : s.finish junk = some (0, conf) := by
  rw [FileReader.finish, h.valueBuf, h.conf]

/-- At the end of the file a `=` without a value is left out. -/
theorem BehindName.finish (h : s.BehindName n conf) : s.finish junk = some (0, conf) := by
  rw [FileReader.finish, h.valueBuf, h.conf]

/-- At the end of the file the last value needs no LF. -/
theorem InValue.finish (h : s.InValue n v conf) (hv : v ≠ []) (hn0 : (0 : UInt8) ∉ n) (hv0 : (0 : UInt8) ∉ v) :
    s.finish junk = some (0, (configCreate n v conf).2) := by
  obtain ⟨mem, hmem, -⟩ := h.valueBuf
  rw [FileReader.finish, hmem, h.create hv hn0 hv0]
  rfl

/-! ## A text as a whole -/

/-- The characters of a name, one after the other. The induction is on those still to read. -/
theorem InName.read (junk : Nat → UInt8) (h : s.InName t conf) (hu : ∀ c ∈ u, isConfigChar c = true)
    (hlen : t.length + u.length ≤ MAX_NAME + 1) (w : List UInt8) :
    ∃ s' : FileReader, s.read junk (u ++ w) = s'.read junk w ∧ s'.InName (t ++ u) conf := by
  induction u generalizing s t with
  | nil => exact ⟨s, rfl, by rwa [List.append_nil]⟩
  | cons c u ih =>
    rw [List.length_cons] at hlen
    obtain ⟨s₁, hstep, h₁⟩ := h.step junk (hu c List.mem_cons_self) (by omega)
    obtain ⟨s', hread, h'⟩ := ih h₁ (fun d hd => hu d (List.mem_cons_of_mem c hd))
      (by rw [List.length_append, List.length_singleton]; omega)
    refine ⟨s', (read_goes hstep).trans hread, ?_⟩
    rwa [List.append_assoc] at h'

/-- A name from its first character on. -/
theorem AtStart.read (junk : Nat → UInt8) (h : s.AtStart conf) (hu : IsConfigText u)
    (hlen : u.length ≤ MAX_NAME + 1)
    (w : List UInt8) : ∃ s' : FileReader, s.read junk (u ++ w) = s'.read junk w ∧ s'.InName u conf := by
  obtain ⟨hne, hchars⟩ := hu
  obtain ⟨c, u, rfl⟩ := List.exists_cons_of_ne_nil hne
  obtain ⟨s₁, hstep, h₁⟩ := h.step junk (hchars c List.mem_cons_self)
  rw [List.length_cons] at hlen
  obtain ⟨s', hread, h'⟩ := h₁.read junk (fun d hd => hchars d (List.mem_cons_of_mem c hd))
    (by rw [List.length_singleton]; omega) w
  exact ⟨s', (read_goes hstep).trans hread, h'⟩

/-- The characters of a value, one after the other. The induction is on those still to read. -/
theorem InValue.read (junk : Nat → UInt8) (h : s.InValue n v conf) (hv : v ≠ [])
    (hu : ∀ c ∈ u, isConfigChar c = true)
    (w : List UInt8) : ∃ s' : FileReader, s.read junk (u ++ w) = s'.read junk w ∧ s'.InValue n (v ++ u) conf := by
  induction u generalizing s v with
  | nil => exact ⟨s, rfl, by rwa [List.append_nil]⟩
  | cons c u ih =>
    obtain ⟨s₁, hstep, h₁⟩ := h.step junk hv (hu c List.mem_cons_self)
    obtain ⟨s', hread, h'⟩ := ih h₁ (List.append_ne_nil_of_right_ne_nil v (List.cons_ne_nil c []))
      (fun d hd => hu d (List.mem_cons_of_mem c hd))
    refine ⟨s', (read_goes hstep).trans hread, ?_⟩
    rwa [List.append_assoc] at h'

/-- A value from its first character on. -/
theorem BehindName.read (junk : Nat → UInt8) (h : s.BehindName n conf) (hu : IsConfigText u)
    (w : List UInt8) :
    ∃ s' : FileReader, s.read junk (u ++ w) = s'.read junk w ∧ s'.InValue n u conf := by
  obtain ⟨hne, hchars⟩ := hu
  obtain ⟨c, u, rfl⟩ := List.exists_cons_of_ne_nil hne
  obtain ⟨s₁, hstep, h₁⟩ := h.step junk (hchars c List.mem_cons_self)
  obtain ⟨s', hread, h'⟩ := h₁.read junk (List.cons_ne_nil c [])
    (fun d hd => hchars d (List.mem_cons_of_mem c hd)) w
  exact ⟨s', (read_goes hstep).trans hread, h'⟩

end FileReader

/-! ## The format and its defects, by what a line begins with -/

section Lines

variable {n t u v w : List UInt8} {x : UInt8} {ps : List (List UInt8 × List UInt8)}

/-- A text ends in front of the first byte that does not belong to it. -/
theorem eq_of_append_cons {a b : UInt8} (hn : ∀ c ∈ n, isConfigChar c = true)
    (ht : ∀ c ∈ t, isConfigChar c = true) (ha : isConfigChar a = false) (hb : isConfigChar b = false)
    (h : n ++ a :: u = t ++ b :: v) : n = t ∧ a = b ∧ u = v := by
  induction n generalizing t with
  | nil =>
    cases t with
    | nil => exact ⟨rfl, List.cons.inj h⟩
    | cons c t =>
      obtain ⟨rfl, -⟩ := List.cons.inj h
      rw [ht a List.mem_cons_self] at ha
      cases ha
  | cons c n ih =>
    cases t with
    | nil =>
      obtain ⟨rfl, -⟩ := List.cons.inj h
      rw [hn c List.mem_cons_self] at hb
      cases hb
    | cons d t =>
      obtain ⟨rfl, h'⟩ := List.cons.inj h
      obtain ⟨rfl, hrest⟩ := ih (fun e he => hn e (List.mem_cons_of_mem c he))
        (fun e he => ht e (List.mem_cons_of_mem c he)) h'
      exact ⟨rfl, hrest⟩

/-- A text does not contain a byte that does not belong to it. -/
theorem ne_of_append_cons {a : UInt8} (ht : ∀ c ∈ t, isConfigChar c = true) (ha : isConfigChar a = false) :
    n ++ a :: u ≠ t := by
  rintro rfl
  rw [ht a (List.mem_append_right n List.mem_cons_self)] at ha
  cases ha

/-- A text and what is behind it. -/
theorem exists_text (w : List UInt8) : ∃ t, (∀ c ∈ t, isConfigChar c = true) ∧
    (w = t ∨ ∃ x u, isConfigChar x = false ∧ w = t ++ x :: u) := by
  induction w with
  | nil => exact ⟨[], fun c hc => absurd hc List.not_mem_nil, .inl rfl⟩
  | cons c w ih =>
    cases hc : isConfigChar c with
    | false => exact ⟨[], fun d hd => absurd hd List.not_mem_nil, .inr ⟨c, w, hc, rfl⟩⟩
    | true =>
      obtain ⟨t, ht, hw⟩ := ih
      refine ⟨c :: t, fun d hd => ?_, ?_⟩
      · rcases List.mem_cons.mp hd with rfl | hd
        · exact hc
        · exact ht d hd
      · rcases hw with rfl | ⟨x, u, hx, rfl⟩
        · exact .inl rfl
        · exact .inr ⟨x, u, hx, rfl⟩

/-- A file that is not empty begins with a name and `=`. -/
theorem FileLines.begins (h : FileLines ps w) : w = [] ∧ ps = [] ∨
    ∃ n u, IsConfigName n ∧ w = n ++ EQ :: u ∧
      ∃ v, IsConfigText v ∧ (u = v ∧ ps = [(n, v)] ∨
        ∃ w' ps', u = v ++ LF :: w' ∧ ps = (n, v) :: ps' ∧ FileLines ps' w') := by
  cases h with
  | nil => exact .inl ⟨rfl, rfl⟩
  | last hn hv => exact .inr ⟨_, _, hn, rfl, _, hv, .inl ⟨rfl, rfl⟩⟩
  | line hn hv h => exact .inr ⟨_, _, hn, rfl, _, hv, .inr ⟨_, _, rfl, rfl, h⟩⟩

/-- What stands behind the name of a line of the format. -/
theorem FileLines.behind_name (h : FileLines ps (t ++ x :: u)) (ht : ∀ c ∈ t, isConfigChar c = true)
    (hx : isConfigChar x = false) : IsConfigName t ∧ x = EQ ∧
      ∃ v, IsConfigText v ∧ (u = v ∧ ps = [(t, v)] ∨
        ∃ w' ps', u = v ++ LF :: w' ∧ ps = (t, v) :: ps' ∧ FileLines ps' w') := by
  rcases h.begins with ⟨hnil, -⟩ | ⟨n, u', hn, heq, hrest⟩
  · exact absurd hnil (List.append_ne_nil_of_right_ne_nil t (List.cons_ne_nil x u))
  · obtain ⟨rfl, rfl, rfl⟩ := eq_of_append_cons ht hn.1.2 hx FileReader.not_isConfigChar_eq heq
    exact ⟨hn, rfl, hrest⟩

/-- A text alone is no line. -/
theorem not_fileLines_of_text (ht : IsConfigText t) : ¬FileLines ps t := by
  intro h
  rcases h.begins with ⟨hnil, -⟩ | ⟨n, u, -, heq, -⟩
  · exact ht.1 hnil
  · exact ne_of_append_cons ht.2 FileReader.not_isConfigChar_eq heq.symm

theorem FileDefect.ne_nil (h : FileDefect w) : w ≠ [] := by
  cases h with
  | inName ht => exact ht.1
  | @behindName t ht => exact List.append_ne_nil_of_right_ne_nil t (List.cons_ne_nil EQ [])
  | @longName t w x ht _ _ => exact List.append_ne_nil_of_left_ne_nil ht.1 (x :: w)
  | @line n v w hn _ _ => exact List.append_ne_nil_of_left_ne_nil hn.1.1 (EQ :: (v ++ LF :: w))

/-- What a defect is that does not lie in the text a file begins with. -/
theorem FileDefect.behind_name (h : FileDefect (t ++ x :: u)) (ht : ∀ c ∈ t, isConfigChar c = true)
    (hx : isConfigChar x = false) : IsConfigText t ∧ (MAX_NAME + 1 < t.length ∨
      x = EQ ∧ (MAX_NAME + 1 = t.length ∨ u = [] ∨
        ∃ v w, IsConfigText v ∧ u = v ++ LF :: w ∧ FileDefect w)) := by
  generalize hfile : t ++ x :: u = file at h
  cases h with
  | inName ht' => exact absurd hfile (ne_of_append_cons ht'.2 hx)
  | @behindName t' ht' =>
    obtain ⟨rfl, rfl, rfl⟩ := eq_of_append_cons ht ht'.2 hx FileReader.not_isConfigChar_eq hfile
    exact ⟨ht', .inr ⟨rfl, .inr (.inl rfl)⟩⟩
  | @longName t' w y ht' hlen hy =>
    by_cases hchar : isConfigChar y = true
    · -- The text goes on behind the characters there is room for.
      rcases List.append_eq_append_iff.mp hfile with ⟨as, rfl, hrest⟩ | ⟨as, rfl, hrest⟩
      · cases as with
        | nil =>
          obtain ⟨rfl, -⟩ := List.cons.inj hrest
          rw [hchar] at hx
          cases hx
        | cons a as =>
          obtain ⟨rfl, -⟩ := List.cons.inj hrest
          rw [ht'.2 x (List.mem_append_right t List.mem_cons_self)] at hx
          cases hx
      · cases as with
        | nil =>
          obtain ⟨rfl, -⟩ := List.cons.inj hrest
          rw [hchar] at hx
          cases hx
        | cons a as =>
          refine ⟨⟨List.append_ne_nil_of_right_ne_nil t' (List.cons_ne_nil a as), ht⟩, .inl ?_⟩
          rw [List.length_append, List.length_cons, hlen]
          omega
    · obtain rfl := hy.resolve_left hchar
      obtain ⟨rfl, rfl, rfl⟩ := eq_of_append_cons ht ht'.2 hx FileReader.not_isConfigChar_eq hfile
      exact ⟨ht', .inr ⟨rfl, .inl hlen.symm⟩⟩
  | line hn hv hrest =>
    obtain ⟨rfl, rfl, rfl⟩ := eq_of_append_cons ht hn.1.2 hx FileReader.not_isConfigChar_eq hfile
    exact ⟨hn.1, .inr ⟨rfl, .inr (.inr ⟨_, _, hv, rfl, hrest⟩)⟩⟩

/-- Behind a name there is a value, up to the end or to the next line. -/
theorem fileLines_behind_iff (hn : IsConfigName n) : FileLines ps (n ++ EQ :: u) ↔
    ∃ v, IsConfigText v ∧ (u = v ∧ ps = [(n, v)] ∨
      ∃ w' ps', u = v ++ LF :: w' ∧ ps = (n, v) :: ps' ∧ FileLines ps' w') := by
  constructor
  · intro h
    exact (h.behind_name hn.1.2 FileReader.not_isConfigChar_eq).2.2
  · rintro ⟨v, hv, ⟨rfl, rfl⟩ | ⟨w', ps', rfl, rfl, h⟩⟩
    · exact .last hn hv
    · exact .line hn hv h

/-- Behind a name and its `=` a defect is an empty value, or stands behind the line that the value
ends. -/
theorem fileDefect_behind_iff (hn : IsConfigName n) : FileDefect (n ++ EQ :: u) ↔
    u = [] ∨ ∃ v w, IsConfigText v ∧ u = v ++ LF :: w ∧ FileDefect w := by
  constructor
  · intro h
    have hlen := hn.2
    obtain ⟨-, hlong | ⟨-, hlong | hrest⟩⟩ := h.behind_name hn.1.2 FileReader.not_isConfigChar_eq
    · omega
    · omega
    · exact hrest
  · rintro (rfl | ⟨v, w, hv, rfl, h⟩)
    · exact .behindName hn.1
    · exact .line hn hv h

end Lines

/-! ## What the reader makes of a file -/

/-- What the reader comes to with a file that begins at a line, `conf` being the store by then. -/
inductive Verdict (w : List UInt8) (conf : Config) : Option (Int × Config) → Prop
  | accepts {ps : List (List UInt8 × List UInt8)} (h : FileLines ps w)
      (huniq : ∀ ps', FileLines ps' w → ps' = ps) (hd : ¬FileDefect w) :
    Verdict w conf (some (0, createAll ps conf))
  | overflows (h : ∀ ps, ¬FileLines ps w) (hd : FileDefect w) : Verdict w conf none
  | ends {conf' : Config} (h : ∀ ps, ¬FileLines ps w) (hd : FileDefect w) : Verdict w conf (some (0, conf'))
  | refuses {conf' : Config} (h : ∀ ps, ¬FileLines ps w) (hd : ¬FileDefect w) :
    Verdict w conf (some (-1, conf'))

section Verdicts

variable {junk : Nat → UInt8} {s : FileReader} {conf : Config} {n v u w : List UInt8}

/-- Behind a line everything depends on the rest. -/
theorem Verdict.line {r : Option (Int × Config)} (hn : IsConfigName n) (hv : IsConfigText v)
    (h : Verdict w (configCreate n v conf).2 r) : Verdict (n ++ EQ :: (v ++ LF :: w)) conf r := by
  have hlines : ∀ ps, FileLines ps (n ++ EQ :: (v ++ LF :: w)) →
      ∃ ps', ps = (n, v) :: ps' ∧ FileLines ps' w := by
    intro ps hps
    obtain ⟨v', hv', ⟨heq, -⟩ | ⟨w', ps', heq, rfl, hps'⟩⟩ := (fileLines_behind_iff hn).mp hps
    · exact absurd heq (ne_of_append_cons hv'.2 FileReader.not_isConfigChar_lf)
    · obtain ⟨rfl, -, rfl⟩ := eq_of_append_cons hv.2 hv'.2 FileReader.not_isConfigChar_lf
        FileReader.not_isConfigChar_lf heq
      exact ⟨ps', rfl, hps'⟩
  have hdefect : FileDefect (n ++ EQ :: (v ++ LF :: w)) → FileDefect w := by
    intro hd
    rcases (fileDefect_behind_iff hn).mp hd with hnil | ⟨v', w', hv', heq, hd'⟩
    · exact absurd hnil (List.append_ne_nil_of_right_ne_nil v (List.cons_ne_nil LF w))
    · obtain ⟨-, -, rfl⟩ := eq_of_append_cons hv.2 hv'.2 FileReader.not_isConfigChar_lf
        FileReader.not_isConfigChar_lf heq
      exact hd'
  cases h with
  | @accepts ps h huniq hd =>
    refine .accepts (.line hn hv h) (fun ps' hps' => ?_) (mt hdefect hd)
    obtain ⟨ps'', rfl, h'⟩ := hlines ps' hps'
    rw [huniq ps'' h']
  | overflows h hd =>
    exact .overflows (fun ps hps => by obtain ⟨ps', -, h'⟩ := hlines ps hps; exact h ps' h') (.line hn hv hd)
  | ends h hd =>
    exact .ends (fun ps hps => by obtain ⟨ps', -, h'⟩ := hlines ps hps; exact h ps' h') (.line hn hv hd)
  | refuses h hd =>
    exact .refuses (fun ps hps => by obtain ⟨ps', -, h'⟩ := hlines ps hps; exact h ps' h') (mt hdefect hd)

theorem FileReader.read_nil : s.read junk [] = s.finish junk := rfl

/-- Behind the `=` of a name, when the rest of the file is read as it should. -/
theorem verdict_behindName (hn : IsConfigName n) (h : s.BehindName n conf)
    (hrest : ∀ (v w : List UInt8) (s' : FileReader), u = v ++ LF :: w → s'.AtStart (configCreate n v conf).2 →
      Verdict w (configCreate n v conf).2 (s'.read junk w)) :
    Verdict (n ++ EQ :: u) conf (s.read junk u) := by
  obtain ⟨v, hchars, htext⟩ := exists_text u
  by_cases hnil : v = []
  · subst hnil
    rcases htext with rfl | ⟨y, u', hy, rfl⟩
    · rw [FileReader.read_nil, h.finish]
      refine .ends (fun ps hps => ?_) (.behindName hn.1)
      obtain ⟨v, hv, ⟨hnil, -⟩ | ⟨w', -, hnil, -⟩⟩ := (fileLines_behind_iff hn).mp hps
      · exact hv.1 hnil.symm
      · exact List.append_ne_nil_of_right_ne_nil v (List.cons_ne_nil LF w') hnil.symm
    · rw [List.nil_append, FileReader.read_refused (h.step_other hy)]
      have hno : ∀ v' : List UInt8, IsConfigText v' → ∀ w', y :: u' ≠ v' ++ LF :: w' := by
        intro v' hv' w' heq
        exact hv'.1 (eq_of_append_cons hchars hv'.2 hy FileReader.not_isConfigChar_lf heq).1.symm
      refine .refuses (fun ps hps => ?_) fun hd => ?_
      · obtain ⟨v', hv', ⟨heq, -⟩ | ⟨w', -, heq, -⟩⟩ := (fileLines_behind_iff hn).mp hps
        · exact ne_of_append_cons (n := []) hv'.2 hy heq
        · exact hno v' hv' w' heq
      · rcases (fileDefect_behind_iff hn).mp hd with heq | ⟨v', w', hv', heq, -⟩
        · cases heq
        · exact hno v' hv' w' heq
  · have hv : IsConfigText v := ⟨hnil, hchars⟩
    rcases htext with rfl | ⟨y, u', hy, rfl⟩
    · obtain ⟨s', hread, h'⟩ := h.read junk hv []
      rw [List.append_nil] at hread
      rw [hread, FileReader.read_nil, h'.finish hnil hn.1.zero hv.zero]
      refine .accepts (.last hn hv) (fun ps hps => ?_) fun hd => ?_
      · obtain ⟨v', hv', ⟨rfl, rfl⟩ | ⟨w', ps', heq, -⟩⟩ := (fileLines_behind_iff hn).mp hps
        · rfl
        · exact absurd heq.symm (ne_of_append_cons hchars FileReader.not_isConfigChar_lf)
      · rcases (fileDefect_behind_iff hn).mp hd with heq | ⟨v', w', -, heq, -⟩
        · exact hnil heq
        · exact ne_of_append_cons hchars FileReader.not_isConfigChar_lf heq.symm
    · obtain ⟨s', hread, h'⟩ := h.read junk hv (y :: u')
      rw [hread]
      by_cases hlf : y = LF
      · subst hlf
        obtain ⟨s₁, hstep, h₁⟩ := h'.step_lf junk hnil hn.1.zero hv.zero
        rw [FileReader.read_goes hstep]
        exact Verdict.line hn hv (hrest v u' s₁ rfl h₁)
      · rw [FileReader.read_refused (h'.step_other hy hlf)]
        have hno : ∀ v' : List UInt8, IsConfigText v' → ∀ w', v ++ y :: u' ≠ v' ++ LF :: w' := by
          intro v' hv' w' heq
          exact hlf (eq_of_append_cons hchars hv'.2 hy FileReader.not_isConfigChar_lf heq).2.1
        refine .refuses (fun ps hps => ?_) fun hd => ?_
        · obtain ⟨v', hv', ⟨heq, -⟩ | ⟨w', -, heq, -⟩⟩ := (fileLines_behind_iff hn).mp hps
          · exact ne_of_append_cons hv'.2 hy heq
          · exact hno v' hv' w' heq
        · rcases (fileDefect_behind_iff hn).mp hd with heq | ⟨v', w', hv', heq, -⟩
          · exact List.append_ne_nil_of_right_ne_nil v (List.cons_ne_nil y u') heq
          · exact hno v' hv' w' heq

/-- A name that is longer than its array. -/
theorem verdict_longName (h : s.AtStart conf) (hn : IsConfigText n) (hlen : MAX_NAME + 1 < n.length)
    (htext : w = n ∨ ∃ x u, isConfigChar x = false ∧ w = n ++ x :: u) :
    Verdict w conf (s.read junk w) := by
  obtain ⟨u, rfl⟩ : ∃ u, w = n ++ u := by
    rcases htext with rfl | ⟨x, u, -, rfl⟩
    · exact ⟨[], (List.append_nil w).symm⟩
    · exact ⟨x :: u, rfl⟩
  obtain ⟨a, c, b, rfl, ha⟩ : ∃ a c b, n = a ++ c :: b ∧ a.length = MAX_NAME + 1 :=
    ⟨n.take (MAX_NAME + 1), n[MAX_NAME + 1], n.drop (MAX_NAME + 1 + 1),
      by rw [← List.drop_eq_getElem_cons hlen, List.take_append_drop],
      by rw [List.length_take]; omega⟩
  have hc := hn.2 c (List.mem_append_right a List.mem_cons_self)
  have hatext : IsConfigText a := by
    refine ⟨?_, fun d hd => hn.2 d (List.mem_append_left _ hd)⟩
    rintro rfl
    cases ha
  rw [List.append_assoc, List.cons_append] at htext ⊢
  obtain ⟨s', hread, h'⟩ := h.read junk hatext (Nat.le_of_eq ha) (c :: (b ++ u))
  rw [hread, FileReader.read_overflows (h'.step_overflows ha (.inl hc))]
  refine .overflows (fun ps hps => ?_) (.longName hatext ha (.inl hc))
  rcases htext with heq | ⟨x, u', hx, heq⟩
  · rw [heq] at hps
    exact not_fileLines_of_text hn hps
  · rw [heq] at hps
    have hname := (hps.behind_name hn.2 hx).1.2
    omega

/-- From the start of a line the reader comes to its verdict. -/
theorem verdict_read (junk : Nat → UInt8) {s : FileReader} {conf : Config} (w : List UInt8) (h : s.AtStart conf) :
    Verdict w conf (s.read junk w) := by
  induction hw : w.length using Nat.strong_induction_on generalizing w s conf with
  | _ k ih =>
  obtain ⟨n, hchars, htext⟩ := exists_text w
  by_cases hnil : n = []
  · subst hnil
    rcases htext with rfl | ⟨x, u, hx, rfl⟩
    · rw [FileReader.read_nil, h.finish]
      refine .accepts .nil (fun ps hps => ?_) fun hd => ?_
      · rcases hps.begins with ⟨-, rfl⟩ | ⟨n, u, -, heq, -⟩
        · rfl
        · exact absurd heq.symm (List.append_ne_nil_of_right_ne_nil n (List.cons_ne_nil EQ u))
      · exact hd.ne_nil rfl
    · rw [List.nil_append, FileReader.read_refused (h.step_other hx)]
      refine .refuses (fun ps hps => ?_) fun hd => ?_
      · exact (FileLines.behind_name (t := []) hps hchars hx).1.1.1 rfl
      · exact (FileDefect.behind_name (t := []) hd hchars hx).1.1 rfl
  · have hn : IsConfigText n := ⟨hnil, hchars⟩
    by_cases hlong : MAX_NAME + 1 < n.length
    · exact verdict_longName h hn hlong htext
    have hread := fun w => h.read junk hn (Nat.le_of_not_lt hlong) w
    rcases htext with rfl | ⟨x, u, hx, rfl⟩
    · obtain ⟨s₁, hread, h₁⟩ := hread []
      rw [List.append_nil] at hread
      rw [hread, FileReader.read_nil, h₁.finish]
      exact .ends (fun ps => not_fileLines_of_text hn) (.inName hn)
    · obtain ⟨s₁, hread, h₁⟩ := hread (x :: u)
      rw [hread]
      by_cases heq : x = EQ
      · subst heq
        by_cases hfull : n.length = MAX_NAME + 1
        · rw [FileReader.read_overflows (h₁.step_overflows hfull (.inr rfl))]
          refine .overflows (fun ps hps => ?_) (.longName hn hfull (.inr rfl))
          have hname := (hps.behind_name hn.2 hx).1.2
          omega
        · have hname : IsConfigName n := ⟨hn, by omega⟩
          obtain ⟨s₂, hstep, h₂⟩ := h₁.step_eq junk hn.zero hname.2
          rw [FileReader.read_goes hstep]
          refine verdict_behindName hname h₂ fun v w s' hu hs' => ih _ ?_ w hs' rfl
          rw [← hw, hu, List.length_append, List.length_cons, List.length_append, List.length_cons]
          omega
      · rw [FileReader.read_refused (h₁.step_other hx heq)]
        refine .refuses (fun ps hps => heq (hps.behind_name hn.2 hx).2.1) fun hd => ?_
        obtain ⟨-, hlong' | ⟨heq', -⟩⟩ := hd.behind_name hn.2 hx
        · exact hlong hlong'
        · exact heq heq'

end Verdicts

/-- The reader accepts exactly the format just if the file has no defect. -/
theorem accepts_format_iff (junk : Nat → UInt8) (content : List UInt8) (conf : Config) :
    AcceptsFormat junk content conf ↔ ¬FileDefect content := by
  have hstart : FileReader.AtStart { nameBuf := (List.range (MAX_NAME + 1)).map junk, conf := conf } conf :=
    ⟨rfl, rfl, by rw [List.length_map, List.length_range], rfl, rfl⟩
  have hverdict := verdict_read junk content hstart
  unfold AcceptsFormat configInitializeFromFile
  generalize FileReader.read junk _ content = r at hverdict ⊢
  cases hverdict with
  | @accepts ps h huniq hd =>
    refine iff_of_true ⟨0, _, rfl, iff_of_true rfl ⟨ps, h⟩, fun ps' h' => ?_⟩ hd
    rw [huniq ps' h']
  | overflows h hd =>
    refine iff_of_false ?_ (not_not.mpr hd)
    rintro ⟨r, conf', ⟨⟩, -⟩
  | ends h hd =>
    refine iff_of_false ?_ (not_not.mpr hd)
    rintro ⟨r, conf', ⟨⟩, hformat, -⟩
    obtain ⟨ps, hps⟩ := hformat.mp rfl
    exact h ps hps
  | refuses h hd =>
    refine iff_of_true ⟨-1, _, rfl, iff_of_false (by decide) fun ⟨ps, hps⟩ => h ps hps, fun ps hps => ?_⟩ hd
    exact absurd hps (h ps)

/-- A file that ends in a name is accepted, and a name of 21 characters is written past its
array. -/
theorem accepts_no_format :
    let junk : Nat → UInt8 := fun _ => 0x2a
    configInitializeFromFile junk (lit "proxy_port") [] = some (0, []) ∧
      ¬AcceptsFormat junk (lit "proxy_port") [] ∧
      configInitializeFromFile junk (lit "abcdefghijklmnopqrstu=1\n") [] = none ∧
      ¬AcceptsFormat junk (lit "abcdefghijklmnopqrstu=1\n") [] := by
  have haccepted : configInitializeFromFile (fun _ => 0x2a) (lit "proxy_port") [] = some (0, []) := by
    decide
  have hpast : configInitializeFromFile (fun _ => 0x2a) (lit "abcdefghijklmnopqrstu=1\n") [] = none := by
    decide
  refine ⟨haccepted, ?_, hpast, ?_⟩
  · rintro ⟨r, conf', hread, hformat, -⟩
    rw [haccepted] at hread
    cases hread
    obtain ⟨ps, hps⟩ := hformat.mp rfl
    exact not_fileLines_of_text ⟨by decide, by decide +kernel⟩ hps
  · rintro ⟨r, conf', hread, -⟩
    rw [hpast] at hread
    cases hread

end HttpProxy
