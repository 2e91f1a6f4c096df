import Mathlib.Algebra.Group.Int.Defs
import Mathlib.Algebra.Group.Nat.Defs
import Mathlib.Data.List.Basic

/-!
# Characters and machine integers

The `ctype.h` functions the parsers call, in the C locale (the program never calls `setlocale`),
and the two's complement reading of a C `int`.

A C `char` is signed here and a byte over 127 is negative, but the parsers only compare characters
with ASCII constants, where the signed and the unsigned reading agree; a character is the byte.
-/

namespace HttpProxy

/-- A C string literal, without its terminator. -/
def lit (s : String) : List UInt8 := s.toList.map fun c => UInt8.ofNat c.toNat

abbrev HT : UInt8 := 0x09
abbrev LF : UInt8 := 0x0a
abbrev CR : UInt8 := 0x0d
abbrev SP : UInt8 := 0x20

def toupper (c : UInt8) : UInt8 := if 0x61 ≤ c ∧ c ≤ 0x7a then c - 0x20 else c

def tolower (c : UInt8) : UInt8 := if 0x41 ≤ c ∧ c ≤ 0x5a then c + 0x20 else c

def isdigit (c : UInt8) : Bool := 0x30 ≤ c && c ≤ 0x39

def isxdigit (c : UInt8) : Bool :=
  isdigit c || (0x41 ≤ c && c ≤ 0x46) || (0x61 ≤ c && c ≤ 0x66)

/-- A blank as the parsers skip it: `c == ' ' || c == '\t'`. -/
def isBlank (c : UInt8) : Bool := c == SP || c == HT

/-- The value a 32-bit `int` holds after an operation whose exact result is `x`. -/
def toInt32 (x : Int) : Int := x.bmod (2 ^ 32)

/-- What an `int` holds is stored as it is. -/
theorem toInt32_eq {x : Int} (h₀ : -2 ^ 31 ≤ x) (h₁ : x < 2 ^ 31) : toInt32 x = x :=
  Int.bmod_eq_of_le (by omega) (by omega)

/-- A stored value is at most the greatest `int`. -/
theorem toInt32_lt (x : Int) : toInt32 x < 2 ^ 31 := by
  have := Int.bmod_lt (x := x) (m := 2 ^ 32) (by decide)
  unfold toInt32
  omega

/-- Changing the case of a byte makes no zero, and leaves the zero. -/
theorem toupper_eq_zero {c : UInt8} : toupper c = 0 ↔ c = 0 := by
  unfold toupper; grind

theorem tolower_eq_zero {c : UInt8} : tolower c = 0 ↔ c = 0 := by
  unfold tolower; grind

/-- A byte in upper case stays as it is, so that a format is compared with what `toupper` gives. -/
@[simp] theorem toupper_toupper (c : UInt8) : toupper (toupper c) = toupper c := by
  unfold toupper; grind

@[simp] theorem tolower_tolower (c : UInt8) : tolower (tolower c) = tolower c := by
  unfold tolower; grind

@[simp] theorem toupper_zero : toupper 0 = 0 := rfl

@[simp] theorem tolower_zero : tolower 0 = 0 := rfl

/-- A digit is not what an empty buffer reads as. -/
theorem ne_zero_of_isdigit {c : UInt8} (h : isdigit c = true) : c ≠ 0 := by
  rintro rfl; exact absurd h (by decide)

/-- A hexadecimal digit is not what an empty buffer reads as. -/
theorem ne_zero_of_isxdigit {c : UInt8} (h : isxdigit c = true) : c ≠ 0 := by
  rintro rfl; exact absurd h (by decide)

end HttpProxy
