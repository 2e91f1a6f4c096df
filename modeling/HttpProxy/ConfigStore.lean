import Mathlib.Data.List.TakeWhile
import HttpProxy.Config

/-!
# The configuration store as a map

The store is meant to be a map from names, of which the first `MAX_NAME` characters count, to the values
they were given last. A name is compared and stored with one character more, and the terminator of its
place is among these: names of at most `MAX_NAME` characters are kept as they are, and a longer one is
stored without a terminator and is another name than what it begins with.

`ConfigRun` is the store with the calls of `config_create` that succeeded. A call keeps to the map just
if its name is short enough, or the store is full and has no name that agrees (`keeps_iff`), and so does
a run (`keeps_along_iff`).
-/

namespace HttpProxy

/-- What counts of a name. -/
def nameKey (name : List UInt8) : List UInt8 := (stringAt name).take MAX_NAME

/-- The store, and the names and values of the calls of `config_create` that succeeded, the last one
first. -/
structure ConfigRun where
  conf : Config := []
  given : List (List UInt8 × List UInt8) := []

namespace ConfigRun

def create (r : ConfigRun) (name value : List UInt8) : ConfigRun :=
  let created := configCreate name value r.conf
  { conf := created.2, given := if created.1 = 0 then (name, value) :: r.given else r.given }

/-- A call of `config_create` fails just if the name is new and there are `MAX_CONFIG` configurations, and
then changes nothing; the entries stay where they are, and their names are short strings. -/
structure Keeps (r : ConfigRun) (name value : List UInt8) : Prop where
  fails : (configCreate name value r.conf).1 ≠ 0 ↔
    (∀ g ∈ r.given, nameKey g.1 ≠ nameKey name) ∧ configGetSize r.conf = MAX_CONFIG
  unchanged : (configCreate name value r.conf).1 ≠ 0 → (configCreate name value r.conf).2 = r.conf
  entries : ∀ i m, configGetName i r.conf = some m →
    configGetName i (configCreate name value r.conf).2 = some m
  names : ∀ i m, configGetName i (configCreate name value r.conf).2 = some m →
    0 ∈ m ∧ (stringAt m).length ≤ MAX_NAME

/-- The value of the last call that succeeded with the key. -/
def lastGiven (k : List UInt8) : List (List UInt8 × List UInt8) → Option (List UInt8)
  | [] => none
  | g :: given => if nameKey g.1 = k then some (stringAt g.2) else lastGiven k given

/-- `config_get` gives the value of the last call that gave the name one. -/
def GetsLast (r : ConfigRun) (n : List UInt8) : Prop :=
  (configGet n r.conf).map stringAt = lastGiven (nameKey n) r.given

/-- A name that the store can take: a short one, or one for which there is no place and no other. -/
def NameFits (r : ConfigRun) (name : List UInt8) : Prop :=
  (stringAt name).length ≤ MAX_NAME ∨
    configGetSize r.conf = MAX_CONFIG ∧ ∀ e ∈ r.conf, nameKey e.name ≠ nameKey name

/-- A name that can be asked for: a short one, or one that agrees with none. -/
def QueryFits (r : ConfigRun) (n : List UInt8) : Prop :=
  (stringAt n).length ≤ MAX_NAME ∨ ∀ e ∈ r.conf, nameKey e.name ≠ nameKey n

/-- The value of the first entry with the name. -/
def valueAt (k : List UInt8) : Config → Option (List UInt8)
  | [] => none
  | e :: conf => if stringAt e.name = k then some (stringAt e.value) else valueAt k conf

/-- What holds of the store while it is the map. -/
structure Wf (r : ConfigRun) : Prop where
  names : ∀ e ∈ r.conf, ∃ x, e.name = x ++ [0] ∧ 0 ∉ x ∧ x.length ≤ MAX_NAME
  last : ∀ k, valueAt k r.conf = lastGiven k r.given
  size_le : r.conf.length ≤ MAX_CONFIG

end ConfigRun

/-! ## Names -/

/-- A short name is its own key. -/
theorem nameKey_of_le {name : List UInt8} (h : (stringAt name).length ≤ MAX_NAME) :
    nameKey name = stringAt name := List.take_of_length_le h

/-- On a name that is stored whole the comparison is equality, with a short name and a long one. -/
theorem matches_eq {e : ConfigEntry} (he : (stringAt e.name).length ≤ MAX_NAME) (name : List UInt8) :
    e.matches name = (stringAt e.name == stringAt name) := by
  unfold ConfigEntry.matches
  rw [Bool.eq_iff_iff, beq_iff_eq, beq_iff_eq, List.take_of_length_le (Nat.le_succ_of_le he)]
  constructor
  · intro h
    have hlen := congrArg List.length h
    rw [List.length_take] at hlen
    rw [← h, List.take_of_length_le (by omega)]
  · intro h
    rw [← h, List.take_of_length_le (Nat.le_succ_of_le he)]

/-- A name that was stored is read as it was given. -/
theorem stringAt_name {x : List UInt8} (h : (0 : UInt8) ∉ x) : stringAt (x ++ [0]) = x :=
  stringAt_terminated h []

/-! ## Replacing a value -/

section Replacing

variable {name value : List UInt8} {conf conf' : Config}

/-- Replacing a value leaves the names. -/
theorem names_configReplace (h : configReplace name value conf = some conf') :
    conf'.map (·.name) = conf.map (·.name) := by
  induction conf generalizing conf' with
  | nil => cases h
  | cons e conf ih =>
    unfold configReplace at h
    split at h
    · cases h
      rfl
    · obtain ⟨conf₁, h₁, rfl⟩ := Option.map_eq_some_iff.mp h
      rw [List.map_cons, ih h₁, List.map_cons]

/-- What is not replaced has no entry. -/
theorem configReplace_eq_none (h : configReplace name value conf = none) :
    ∀ e ∈ conf, e.matches name = false := by
  induction conf with
  | nil => exact fun e he => absurd he List.not_mem_nil
  | cons e conf ih =>
    unfold configReplace at h
    split at h
    · cases h
    · next hne =>
      intro e' he'
      rcases List.mem_cons.mp he' with rfl | he'
      · exact Bool.eq_false_iff.mpr hne
      · exact ih (Option.map_eq_none_iff.mp h) e' he'

/-- What has no entry is not replaced. -/
theorem configReplace_of_no_match (value : List UInt8) (h : ∀ e ∈ conf, e.matches name = false) :
    configReplace name value conf = none := by
  induction conf with
  | nil => rfl
  | cons e conf ih =>
    unfold configReplace
    rw [h e List.mem_cons_self, if_neg Bool.false_ne_true, ih fun e' he' => h e' (List.mem_cons_of_mem e he')]
    rfl

/-- The name has the value, and the others have theirs. -/
theorem valueAt_configReplace (hmatch : ∀ e ∈ conf, e.matches name = (stringAt e.name == stringAt name))
    (h : configReplace name value conf = some conf') (k : List UInt8) :
    ConfigRun.valueAt k conf' =
      if stringAt name = k then some (stringAt value) else ConfigRun.valueAt k conf := by
  induction conf generalizing conf' with
  | nil => cases h
  | cons e conf ih =>
    unfold configReplace at h
    rw [hmatch e List.mem_cons_self] at h
    by_cases heq : stringAt e.name = stringAt name
    · rw [if_pos (beq_iff_eq.mpr heq)] at h
      cases h
      unfold ConfigRun.valueAt
      rw [heq]
      split <;> rfl
    · rw [if_neg fun hc => heq (beq_iff_eq.mp hc)] at h
      obtain ⟨conf₁, h₁, rfl⟩ := Option.map_eq_some_iff.mp h
      have hrest := ih (fun e' he' => hmatch e' (List.mem_cons_of_mem e he')) h₁
      unfold ConfigRun.valueAt
      by_cases hek : stringAt e.name = k
      · rw [if_pos hek, if_pos hek, if_neg fun hk => heq (hek.trans hk.symm)]
      · rw [if_neg hek, if_neg hek, hrest]

/-- An entry is appended behind the others. -/
theorem valueAt_append (k : List UInt8) (conf : Config) (e : ConfigEntry) :
    ConfigRun.valueAt k (conf ++ [e]) = (ConfigRun.valueAt k conf).or (ConfigRun.valueAt k [e]) := by
  induction conf with
  | nil => rfl
  | cons e' conf ih =>
    rw [List.cons_append, ConfigRun.valueAt, ConfigRun.valueAt]
    split
    · rfl
    · exact ih

/-- A key has no value exactly when no entry has its name. -/
theorem valueAt_eq_none {k : List UInt8} :
    ConfigRun.valueAt k conf = none ↔ ∀ e ∈ conf, stringAt e.name ≠ k := by
  induction conf with
  | nil => exact iff_of_true rfl fun e he => absurd he List.not_mem_nil
  | cons e conf ih =>
    rw [ConfigRun.valueAt, List.forall_mem_cons, ← ih]
    split
    · next hk => exact iff_of_false (Option.some_ne_none _) fun h => h.1 hk
    · next hk => exact ⟨fun h => ⟨hk, h⟩, fun h => h.2⟩

/-- A key was not given exactly when it is the key of no call. -/
theorem lastGiven_eq_none {k : List UInt8} {given : List (List UInt8 × List UInt8)} :
    ConfigRun.lastGiven k given = none ↔ ∀ g ∈ given, nameKey g.1 ≠ k := by
  induction given with
  | nil => exact iff_of_true rfl fun g hg => absurd hg List.not_mem_nil
  | cons g given ih =>
    rw [ConfigRun.lastGiven, List.forall_mem_cons, ← ih]
    split
    · next hk => exact iff_of_false (Option.some_ne_none _) fun h => h.1 hk
    · next hk => exact ⟨fun h => ⟨hk, h⟩, fun h => h.2⟩

/-- On names that are stored whole, the first entry that matches is the one with the name. -/
theorem configGet_eq {n : List UInt8}
    (hmatch : ∀ e ∈ conf, e.matches n = (stringAt e.name == stringAt n)) :
    (configGet n conf).map stringAt = ConfigRun.valueAt (stringAt n) conf := by
  induction conf with
  | nil => rfl
  | cons e conf ih =>
    have hrest := ih fun e' he' => hmatch e' (List.mem_cons_of_mem e he')
    unfold configGet at hrest ⊢
    rw [List.find?_cons, hmatch e List.mem_cons_self, ConfigRun.valueAt]
    by_cases heq : stringAt e.name = stringAt n
    · rw [if_pos heq, beq_iff_eq.mpr heq]
      rfl
    · rw [if_neg heq, beq_eq_false_iff_ne.mpr heq]
      exact hrest

end Replacing

/-! ## One call -/

namespace ConfigRun

variable {r : ConfigRun} {name value : List UInt8}

/-- The names in the store are short, and their own keys. -/
theorem Wf.stringAt_name (h : r.Wf) {e : ConfigEntry} (he : e ∈ r.conf) :
    (stringAt e.name).length ≤ MAX_NAME ∧ nameKey e.name = stringAt e.name := by
  obtain ⟨x, hx, h0, hlen⟩ := h.names e he
  have hname : (stringAt e.name).length ≤ MAX_NAME := by
    rw [hx, HttpProxy.stringAt_name h0]
    exact hlen
  exact ⟨hname, nameKey_of_le hname⟩

/-- A name is new just if no entry agrees with it. -/
theorem Wf.new_iff (h : r.Wf) (name : List UInt8) :
    (∀ g ∈ r.given, nameKey g.1 ≠ nameKey name) ↔ ∀ e ∈ r.conf, nameKey e.name ≠ nameKey name := by
  rw [← lastGiven_eq_none, ← h.last, valueAt_eq_none]
  refine forall₂_congr fun e he => ?_
  rw [(h.stringAt_name he).2]

/-- The name of an entry is the one at its index. -/
theorem configGetName_some {conf : Config} {i : Nat} {m : List UInt8} :
    configGetName i conf = some m ↔ (conf.map (·.name))[i]? = some m := by
  rw [configGetName, List.getElem?_map]

/-- In a store whose names are all short strings every name is one. -/
theorem names_of_forall {conf : Config} (h : ∀ e ∈ conf, ∃ x, e.name = x ++ [0] ∧ 0 ∉ x ∧ x.length ≤ MAX_NAME)
    (i : Nat) (m : List UInt8) (hm : configGetName i conf = some m) :
    0 ∈ m ∧ (stringAt m).length ≤ MAX_NAME := by
  obtain ⟨e, he, rfl⟩ := Option.map_eq_some_iff.mp hm
  obtain ⟨x, hx, h0, hlen⟩ := h e (List.mem_of_getElem? he)
  rw [hx, HttpProxy.stringAt_name h0]
  exact ⟨List.mem_append_right x List.mem_cons_self, hlen⟩

/-- A call that replaces a value keeps to the map. -/
theorem keeps_of_replace (h : r.Wf) {conf : Config}
    (hreplace : configReplace name (stringAt value ++ [0]) r.conf = some conf)
    (hmatch : ∀ e ∈ r.conf, e.matches name = (stringAt e.name == stringAt name))
    (hname : (stringAt name).length ≤ MAX_NAME) : r.Keeps name value ∧ (r.create name value).Wf := by
  have hcreate : configCreate name value r.conf = (0, conf) := by
    unfold configCreate
    rw [hreplace]
  have hsome := valueAt_configReplace hmatch hreplace (stringAt name)
  have hnames := names_configReplace hreplace
  have hwf : ∀ e ∈ conf, ∃ x, e.name = x ++ [0] ∧ 0 ∉ x ∧ x.length ≤ MAX_NAME := by
    intro e he
    have hmem : e.name ∈ r.conf.map (·.name) := hnames ▸ List.mem_map_of_mem he
    obtain ⟨e', he', heq⟩ := List.mem_map.mp hmem
    rw [← heq]
    exact h.names e' he'
  refine ⟨⟨?_, ?_, ?_, ?_⟩, ⟨?_, ?_, ?_⟩⟩
  · rw [hcreate]
    refine iff_of_false (fun h0 => h0 rfl) fun hnew => ?_
    have hnone := valueAt_eq_none.mpr fun e he => (h.stringAt_name he).2 ▸ (h.new_iff name).mp hnew.1 e he
    rw [nameKey_of_le hname] at hnone
    have hold := configReplace_of_no_match (stringAt value ++ [0]) fun e he => by
      rw [hmatch e he]
      exact beq_eq_false_iff_ne.mpr (valueAt_eq_none.mp hnone e he)
    rw [hreplace] at hold
    cases hold
  · rw [hcreate]
    exact fun h0 => absurd rfl h0
  · intro i m hm
    rw [hcreate, configGetName_some, hnames, ← configGetName_some]
    exact hm
  · rw [hcreate]
    exact names_of_forall hwf
  · rw [create, hcreate]
    exact hwf
  · intro k
    rw [create, hcreate]
    dsimp only
    rw [if_pos rfl, lastGiven, valueAt_configReplace hmatch hreplace k, nameKey_of_le hname, h.last k,
      HttpProxy.stringAt_name (zero_not_mem_stringAt value)]
  · rw [create, hcreate]
    change conf.length ≤ MAX_CONFIG
    rw [length_configReplace hreplace]
    exact h.size_le

/-- A call with a name that is there for no entry, on a full store. -/
theorem keeps_full_iff (h : r.Wf) (hreplace : configReplace name (stringAt value ++ [0]) r.conf = none)
    (hfull : r.conf.length = MAX_CONFIG) :
    (r.Keeps name value ↔ ∀ e ∈ r.conf, nameKey e.name ≠ nameKey name) ∧ (r.create name value).Wf := by
  have hcreate : configCreate name value r.conf = (-1, r.conf) := by
    unfold configCreate
    rw [hreplace]
    dsimp only
    rw [if_pos (by omega)]
  have hfails : (-1 : Int) ≠ 0 := by decide
  refine ⟨⟨fun hkeeps => ?_, fun hnew => ?_⟩, ?_⟩
  · have hnew := hkeeps.fails.mp (by rw [hcreate]; exact hfails)
    exact (h.new_iff name).mp hnew.1
  · refine ⟨?_, ?_, ?_, ?_⟩
    · rw [hcreate]
      exact iff_of_true hfails ⟨(h.new_iff name).mpr hnew, hfull⟩
    · rw [hcreate]
      exact fun _ => rfl
    · rw [hcreate]
      exact fun _ _ hm => hm
    · rw [hcreate]
      exact names_of_forall h.names
  · rw [create, hcreate]
    exact ⟨h.names, fun k => by dsimp only; rw [if_neg hfails]; exact h.last k, h.size_le⟩

/-- A name without an entry is appended, when there is room. -/
theorem create_of_append (hreplace : configReplace name (stringAt value ++ [0]) r.conf = none)
    (hroom : r.conf.length < MAX_CONFIG) :
    configCreate name value r.conf = (0, r.conf ++
      [⟨(stringAt name ++ [0]).take (MAX_NAME + 1), stringAt value ++ [0]⟩]) := by
  unfold configCreate
  rw [hreplace]
  dsimp only
  rw [if_neg (by omega)]

/-- A new short name on a store that is not full. -/
theorem keeps_of_append (h : r.Wf) (hreplace : configReplace name (stringAt value ++ [0]) r.conf = none)
    (hmatch : ∀ e ∈ r.conf, e.matches name = (stringAt e.name == stringAt name))
    (hroom : r.conf.length < MAX_CONFIG) (hname : (stringAt name).length ≤ MAX_NAME) :
    r.Keeps name value ∧ (r.create name value).Wf := by
  have hcreate := create_of_append hreplace hroom
  rw [List.take_of_length_le (by rw [List.length_append, List.length_singleton]; omega)] at hcreate
  have hzero := zero_not_mem_stringAt name
  have hnew : valueAt (stringAt name) r.conf = none := valueAt_eq_none.mpr fun e he heq => by
    have hno := configReplace_eq_none hreplace e he
    rw [hmatch e he, beq_iff_eq.mpr heq] at hno
    cases hno
  have hwf : ∀ e ∈ r.conf ++ [⟨stringAt name ++ [0], stringAt value ++ [0]⟩],
      ∃ x, e.name = x ++ [0] ∧ 0 ∉ x ∧ x.length ≤ MAX_NAME := by
    intro e he
    rcases List.mem_append.mp he with he | he
    · exact h.names e he
    · obtain rfl := List.mem_singleton.mp he
      exact ⟨stringAt name, rfl, hzero, hname⟩
  refine ⟨⟨?_, ?_, ?_, ?_⟩, ⟨?_, ?_, ?_⟩⟩
  · rw [hcreate]
    exact iff_of_false (fun h0 => h0 rfl) fun hfull => Nat.ne_of_lt hroom hfull.2
  · rw [hcreate]
    exact fun h0 => absurd rfl h0
  · intro i m hm
    rw [configGetName_some] at hm
    obtain ⟨hi, -⟩ := List.getElem?_eq_some_iff.mp hm
    rw [hcreate, configGetName_some, List.map_append, List.getElem?_append_left hi]
    exact hm
  · rw [hcreate]
    exact names_of_forall hwf
  · rw [create, hcreate]
    exact hwf
  · intro k
    rw [create, hcreate]
    dsimp only
    rw [if_pos rfl, lastGiven, nameKey_of_le hname, valueAt_append, valueAt,
      HttpProxy.stringAt_name hzero, HttpProxy.stringAt_name (zero_not_mem_stringAt value)]
    by_cases hk : stringAt name = k
    · rw [if_pos hk, if_pos hk, ← hk, hnew]
      rfl
    · rw [if_neg hk, if_neg hk, valueAt, Option.or_none]
      exact h.last k
  · rw [create, hcreate]
    change (r.conf ++ _).length ≤ MAX_CONFIG
    rw [List.length_append, List.length_singleton]
    exact hroom

/-- A long name on a store that is not full is kept without its terminator. -/
theorem not_keeps_of_append (hreplace : configReplace name (stringAt value ++ [0]) r.conf = none)
    (hroom : r.conf.length < MAX_CONFIG) (hname : ¬(stringAt name).length ≤ MAX_NAME) :
    ¬r.Keeps name value := by
  intro hkeeps
  have hcreate := create_of_append hreplace hroom
  have hlong : MAX_NAME + 1 ≤ (stringAt name).length := Nat.lt_of_not_le hname
  rw [List.take_append_of_le_length hlong] at hcreate
  have hlast := hkeeps.names r.conf.length ((stringAt name).take (MAX_NAME + 1))
  rw [hcreate] at hlast
  have hmem := (hlast (by rw [configGetName_some, List.map_append, List.getElem?_append_right
    (by rw [List.length_map]), List.length_map, Nat.sub_self]; rfl)).1
  exact zero_not_mem_stringAt name (List.mem_of_mem_take hmem)

/-- Whatever the length of the name, an entry matches it just if it has this name. -/
theorem Wf.matches_iff (h : r.Wf) (name : List UInt8) :
    ∀ e ∈ r.conf, e.matches name = (stringAt e.name == stringAt name) := fun _ he =>
  matches_eq (h.stringAt_name he).1 name

/-- A call keeps to the map just if the store can take the name, and then it stays the map. -/
theorem keeps_iff (h : r.Wf) (name value : List UInt8) :
    (r.Keeps name value ↔ r.NameFits name) ∧ (r.Keeps name value → (r.create name value).Wf) := by
  have hmatch := h.matches_iff name
  cases hreplace : configReplace name (stringAt value ++ [0]) r.conf with
  | some conf =>
    have hname : (stringAt name).length ≤ MAX_NAME := by
      by_contra hlong
      have hnone := configReplace_of_no_match (stringAt value ++ [0]) fun e he => by
        rw [hmatch e he]
        exact beq_eq_false_iff_ne.mpr fun heq => hlong (heq ▸ (h.stringAt_name he).1)
      rw [hreplace] at hnone
      cases hnone
    obtain ⟨hkeeps, hwf⟩ := keeps_of_replace h hreplace hmatch hname
    exact ⟨iff_of_true hkeeps (.inl hname), fun _ => hwf⟩
  | none =>
    rcases Nat.lt_or_eq_of_le h.size_le with hroom | hfull
    · by_cases hname : (stringAt name).length ≤ MAX_NAME
      · obtain ⟨hkeeps, hwf⟩ := keeps_of_append h hreplace hmatch hroom hname
        exact ⟨iff_of_true hkeeps (.inl hname), fun _ => hwf⟩
      · have hno := not_keeps_of_append hreplace hroom hname
        refine ⟨iff_of_false hno ?_, fun hkeeps => absurd hkeeps hno⟩
        rintro (hshort | ⟨hfull, -⟩)
        · exact hname hshort
        · exact Nat.ne_of_lt hroom hfull
    · obtain ⟨hiff, hwf⟩ := keeps_full_iff h hreplace hfull
      refine ⟨hiff.trans ⟨fun hnew => .inr ⟨hfull, hnew⟩, ?_⟩, fun _ => hwf⟩
      rintro (hname | ⟨-, hnew⟩)
      · intro e he heq
        rw [(h.stringAt_name he).2, nameKey_of_le hname] at heq
        have hno := configReplace_eq_none hreplace e he
        rw [hmatch e he, beq_iff_eq.mpr heq] at hno
        cases hno
      · exact hnew

/-- What `config_get` finds is the value of the last call just if the store can be asked for the
name. -/
theorem getsLast_iff (h : r.Wf) (n : List UInt8) : r.GetsLast n ↔ r.QueryFits n := by
  unfold GetsLast QueryFits
  rw [configGet_eq (h.matches_iff n), ← h.last]
  by_cases hn : (stringAt n).length ≤ MAX_NAME
  · rw [nameKey_of_le hn]
    exact iff_of_true rfl (.inl hn)
  · have hnone : valueAt (stringAt n) r.conf = none := valueAt_eq_none.mpr fun e he heq =>
      hn (heq ▸ (h.stringAt_name he).1)
    rw [hnone, eq_comm, valueAt_eq_none]
    constructor
    · intro hnew
      refine .inr fun e he => ?_
      rw [(h.stringAt_name he).2]
      exact hnew e he
    · rintro (hshort | hnew)
      · exact absurd hshort hn
      · intro e he
        rw [← (h.stringAt_name he).2]
        exact hnew e he

/-! ## Runs -/

/-- `P` holds of every call and the store it meets. -/
def Along (P : ConfigRun → List UInt8 → List UInt8 → Prop) (r : ConfigRun) :
    List (List UInt8 × List UInt8) → Prop
  | [] => True
  | (name, value) :: calls => P r name value ∧ (r.create name value).Along P calls

def run (r : ConfigRun) (calls : List (List UInt8 × List UInt8)) : ConfigRun :=
  calls.foldl (fun r call => r.create call.1 call.2) r

/-- In a run whose calls keep to the map the store stays the map. -/
theorem wf_run (h : r.Wf) {calls : List (List UInt8 × List UInt8)} (hkeeps : r.Along Keeps calls) :
    (r.run calls).Wf := by
  induction calls generalizing r with
  | nil => exact h
  | cons call calls ih => exact ih ((keeps_iff h call.1 call.2).2 hkeeps.1) hkeeps.2

/-- The calls of a run keep the last value given exactly when their names fit. -/
theorem keeps_along_iff (h : r.Wf) (calls : List (List UInt8 × List UInt8)) :
    r.Along Keeps calls ↔ r.Along (fun r name _ => r.NameFits name) calls := by
  induction calls generalizing r with
  | nil => exact Iff.rfl
  | cons call calls ih =>
    obtain ⟨hiff, hwf⟩ := keeps_iff h call.1 call.2
    constructor
    · rintro ⟨hkeeps, hrest⟩
      exact ⟨hiff.mp hkeeps, (ih (hwf hkeeps)).mp hrest⟩
    · rintro ⟨hfits, hrest⟩
      have hkeeps := hiff.mpr hfits
      exact ⟨hkeeps, (ih (hwf hkeeps)).mpr hrest⟩

/-- An empty store is well formed. -/
theorem wf_empty : ({} : ConfigRun).Wf where
  names := fun _ he => absurd he List.not_mem_nil
  last := fun _ => rfl
  size_le := Nat.zero_le _

/-- Every call of a run keeps to the map and what is asked for behind it is what was given last, just if
the store can take the names and be asked for this one. -/
theorem config_map_iff (calls : List (List UInt8 × List UInt8)) (n : List UInt8) :
    (Along Keeps {} calls ∧ (run {} calls).GetsLast n) ↔
      Along (fun r name _ => r.NameFits name) {} calls ∧ (run {} calls).QueryFits n := by
  rw [← keeps_along_iff wf_empty]
  exact and_congr_right fun hkeeps => getsLast_iff (wf_run wf_empty hkeeps) n

/-- A name of 21 characters is kept without its terminator, and is another one than that of its
first 20. -/
theorem config_map_long :
    let name := lit "abcdefghijklmnopqrstu"
    let calls := [(name ++ [0], cLit "1"), (name.take 20 ++ [0], cLit "2")]
    ¬(Along Keeps {} calls ∧ (run {} calls).GetsLast (name ++ [0])) ∧
      configGetName 0 (run {} calls).conf = some name ∧
      (configGet (name ++ [0]) (run {} calls).conf).map stringAt = some (lit "1") := by
  refine ⟨fun h => ?_, by decide, by decide⟩
  have hnames := h.1.1.names 0 (lit "abcdefghijklmnopqrstu") (by decide)
  exact absurd hnames.1 (by decide)

end ConfigRun

end HttpProxy
