import Mathlib.Data.List.TakeWhile
import HttpProxy.Ctype

/-!
# The configuration store

`config.c`: names and values in an array, found by name or by index, and `argument.c`, which fills
it from the command line. A value is the memory it is kept in, so it ends where a reader of the
string meets a zero.
-/

namespace HttpProxy

abbrev MAX_NAME : Nat := 20

abbrev MAX_CONFIG : Nat := 100

/-- The string that starts at a pointer. -/
def stringAt (mem : List UInt8) : List UInt8 := mem.takeWhile (· != 0)

/-- A string literal in memory. -/
def cLit (s : String) : List UInt8 := lit s ++ [0]

/-- A string ends in front of the first zero. -/
theorem zero_not_mem_stringAt (mem : List UInt8) : 0 ∉ stringAt mem := by
  intro h
  have hzero := List.mem_takeWhile_imp h
  exact absurd hzero (by decide)

/-- What stands behind the zero is not of the string. -/
theorem stringAt_terminated {v : List UInt8} (h : (0 : UInt8) ∉ v) (l : List UInt8) :
    stringAt (v ++ 0 :: l) = v := by
  have hv : ∀ c ∈ v, (c != 0) = true := fun c hc => bne_iff_ne.mpr fun h0 => h (h0 ▸ hc)
  rw [stringAt, List.takeWhile_append_of_pos hv]
  exact List.append_nil v

structure ConfigEntry where
  /-- The array of `MAX_NAME + 1` characters. -/
  name : List UInt8
  value : List UInt8
deriving DecidableEq, Repr

abbrev Config := List ConfigEntry

/-- `strncmp(name, configurations[i].name, MAX_NAME + 1) == 0`. -/
def ConfigEntry.matches (e : ConfigEntry) (name : List UInt8) : Bool :=
  (stringAt name).take (MAX_NAME + 1) == (stringAt e.name).take (MAX_NAME + 1)

/-- The first entry with the name is given the value. -/
def configReplace (name value : List UInt8) : Config → Option Config
  | [] => none
  | e :: conf =>
    if e.matches name then some ({ e with value := value } :: conf)
    else (configReplace name value conf).map (e :: ·)

def configCreate (name value : List UInt8) (conf : Config) : Int × Config :=
  match configReplace name (stringAt value ++ [0]) conf with
  | some conf => (0, conf)
  | none =>
    if conf.length + 1 > MAX_CONFIG then (-1, conf)
    else (0, conf ++ [⟨(stringAt name ++ [0]).take (MAX_NAME + 1), stringAt value ++ [0]⟩])

theorem length_configReplace {name value : List UInt8} {conf conf' : Config}
    (h : configReplace name value conf = some conf') : conf'.length = conf.length := by
  induction conf generalizing conf' with
  | nil => cases h
  | cons e conf ih =>
    unfold configReplace at h
    split at h
    · cases h
      rfl
    · obtain ⟨conf₁, h₁, rfl⟩ := Option.map_eq_some_iff.mp h
      rw [List.length_cons, ih h₁, List.length_cons]

theorem length_configCreate {conf : Config} (name value : List UInt8)
    (h : conf.length ≤ MAX_CONFIG) : (configCreate name value conf).2.length ≤ MAX_CONFIG := by
  unfold configCreate
  split
  · next hreplace => rwa [length_configReplace hreplace]
  · split
    · exact h
    · next hfull => exact Nat.le_of_not_lt (by simpa using hfull)

def configSetFromIndex (index : Nat) (value : List UInt8) (conf : Config) : Int × Config :=
  if index ≥ conf.length then (-1, conf)
  else (0, conf.modify index fun e => { e with value := value })

theorem configSetFromIndex_snd (index : Nat) (value : List UInt8) (conf : Config) :
    (configSetFromIndex index value conf).2 =
      conf.modify index fun e => { e with value := value } := by
  unfold configSetFromIndex
  split
  · next h => exact (List.modify_eq_self h).symm
  · rfl

def configGet (name : List UInt8) (conf : Config) : Option (List UInt8) :=
  (conf.find? (·.matches name)).map (·.value)

def configGetFromIndex (index : Nat) (conf : Config) : Option (List UInt8) :=
  conf[index]?.map (·.value)

def configGetName (number : Nat) (conf : Config) : Option (List UInt8) := conf[number]?.map (·.name)

def configGetSize (conf : Config) : Nat := conf.length

/-! ## Where the configurations come from -/

/-- The name of the configuration an option of the command line sets. -/
def optionName (c : UInt8) : Option (List UInt8) :=
  if c = 0x65 then some (cLit "error_file")
  else if c = 0x6c then some (cLit "proxy_addr")
  else if c = 0x4c then some (cLit "mgmt_addr")
  else if c = 0x4d then some (cLit "media_types")
  else if c = 0x6f then some (cLit "mgmt_port")
  else if c = 0x70 then some (cLit "proxy_port")
  else if c = 0x74 then some (cLit "cmd")
  else none

/-- `argument_get` on the options and their arguments that `getopt` finds; `-h` and `-v` end the
process. -/
def argumentGet (conf : Config) : List (UInt8 × List UInt8) → Config
  | [] => conf
  | (c, optarg) :: args =>
    argumentGet
      (match optionName c with
        | some name => (configCreate name optarg conf).2
        | none => conf) args

/-- `initialize_configurations` and the calls of `config_create` in `main`. -/
def mainConfigurations : Config :=
  [(cLit "media_types", cLit "text/plain"), (cLit "cmd", cLit "cat"),
    (cLit "buffers_size", cLit "8192"), (cLit "proxy_port", cLit "8080"),
    (cLit "mgmt_port", cLit "9090"), (cLit "error_file", cLit "/dev/null")].foldl
    (fun conf e => (configCreate e.1 e.2 conf).2) []

theorem length_argumentGet {conf : Config} (args : List (UInt8 × List UInt8))
    (h : conf.length ≤ MAX_CONFIG) : (argumentGet conf args).length ≤ MAX_CONFIG := by
  induction args generalizing conf with
  | nil => exact h
  | cons arg args ih =>
    apply ih
    cases optionName arg.1 with
    | none => exact h
    | some name => exact length_configCreate name arg.2 h

/-! ## Numbers in strings -/

def isspace (c : UInt8) : Bool := c == 0x20 || (0x09 ≤ c && c ≤ 0x0d)

/-- The value of the digits a string starts with. -/
def digitsValue (n : Nat) : List UInt8 → Nat
  | [] => n
  | c :: l => if isdigit c then digitsValue (10 * n + (c.toNat - 0x30)) l else n

/-- `strtol` in base 10: a value out of the range of a `long` is its bound. -/
def strtol (s : List UInt8) : Int :=
  match (stringAt s).dropWhile isspace with
  | [] => 0
  | c :: l =>
    if c = 0x2d then -(min (digitsValue 0 l) (2 ^ 63) : Nat)
    else (min (digitsValue 0 (if c = 0x2b then l else c :: l)) (2 ^ 63 - 1) : Nat)

/-- The conversion of a `long` to an `int`. -/
def atoi (s : List UInt8) : Int := toInt32 (strtol s)

/-- `(size_t)` of an `int`. -/
def toSize (n : Int) : Nat := (n % 2 ^ 64).toNat

end HttpProxy
