import HttpProxy.Buffer

/-!
# The parser utilities

`myParserUtils.c`: the functions both parsers are written with. Each reads from an input buffer and
passes bytes on to an output buffer.

No parser reads its output buffer, so what a function does to it is the list of the bytes it hands
to `buffer_write`, in order (`Io.out`); the call's output buffer receives them with
`bufferWriteAll`, which is where its limit counts. A `bool*` the function may set is
`Io.isBufferEmpty`.

A loop over the buffer takes as fuel the number of readable bytes: every iteration reads one, so
the fuel never decides.
-/

namespace HttpProxy

inductive HttpVersion
  | undefined
  | v1_0
  | v1_1
deriving DecidableEq, Repr

/-- What a utility works on: the input buffer, the bytes written to the output buffer so far, and
the flag it sets when it runs out of input. -/
structure Io where
  b : Buffer
  out : List UInt8
  isBufferEmpty : Bool
deriving DecidableEq, Repr

def peekUpChar (b : Buffer) : UInt8 := toupper (bufferPeek b)

def peekDownChar (b : Buffer) : UInt8 := tolower (bufferPeek b)

def readAndWrite (io : Io) : UInt8 × Io :=
  let reserved := isReserved io.b
  let r := bufferRead io.b
  -- A byte of the reserved zone was written to the output when it was first read.
  (r.1, { io with b := r.2, out := if !reserved && r.1 != 0 then io.out ++ [r.1] else io.out })

def readAndWriteWithZero (io : Io) : UInt8 × Io :=
  let reserved := isReserved io.b
  if bufferCanRead io.b then
    let r := bufferRead io.b
    (r.1, { io with b := r.2, out := if !reserved then io.out ++ [r.1] else io.out })
  else (0, { io with isBufferEmpty := true })

def moveThroughSpacesLoop : Nat → Buffer → UInt8 × Buffer
  | 0, b => (bufferPeek b, b)
  | fuel + 1, b =>
    let c := bufferPeek b
    if isBlank c then moveThroughSpacesLoop fuel (bufferRead b).2 else (c, b)

def moveThroughSpaces (b : Buffer) : UInt8 × Buffer := moveThroughSpacesLoop b.bytes.length b

/-- `writeToBuf` on an output buffer. -/
def writeToBuf (myBuf : List UInt8) (io : Io) : Io := { io with out := io.out ++ myBuf }

def writeToBufReverse (myBuf : List UInt8) (b : Buffer) (length : Nat) : Buffer :=
  b.pushBack (myBuf.take length)

def writePrefix (b : Buffer) (pre : List UInt8) : Buffer := writeToBufReverse pre b pre.length

def decToHexChar (c : Nat) : UInt8 :=
  if c < 10 then UInt8.ofNat c + 0x30 else UInt8.ofNat c + 0x41 - 10

def hexCharToDec (c : UInt8) : Int :=
  if isdigit c then (c.toNat : Int) - 0x30 else ((toupper c).toNat : Int) - 0x41 + 10

/-- The two number formats: a radix, its digits and the value and the character of a digit. -/
structure Radix where
  base : Nat
  isDigit : UInt8 → Bool
  value : UInt8 → Int
  char : Nat → UInt8

def Radix.dec : Radix where
  base := 10
  isDigit := isdigit
  value c := (c.toNat : Int) - 0x30
  char d := UInt8.ofNat d + 0x30

def Radix.hex : Radix where
  base := 16
  isDigit := isxdigit
  value := hexCharToDec
  char := decToHexChar

/-- The digits the loops of `writeDecToBufReverse` and `writeHexToBufReverse` push back for a
positive number, the last pushed first. -/
def digitsLoop (r : Radix) : Nat → Nat → List UInt8
  | 0, _ => []
  | fuel + 1, number =>
    if number > 0 then digitsLoop r fuel (number / r.base) ++ [r.char (number % r.base)] else []

/-- What a number is pushed back as: nothing at all when it is negative. -/
def digitsOf (r : Radix) (number : Int) : List UInt8 :=
  if number = 0 then [0x30] else digitsLoop r number.toNat number.toNat

def writeDecToBufReverse (number : Int) (b : Buffer) : Buffer :=
  b.pushBack (digitsOf .dec number)

def writeHexToBufReverse (number : Int) (b : Buffer) : Buffer :=
  b.pushBack (digitsOf .hex number)

def writeToTransfBufWithZeroLoop : Nat → Int → Io → Int × Io
  | 0, quantity, io => (quantity, io)
  | fuel + 1, quantity, io =>
    if quantity > 0 then
      let io := (readAndWriteWithZero io).2
      if io.isBufferEmpty then (quantity, io)
      else writeToTransfBufWithZeroLoop fuel (quantity - 1) io
    else (quantity, io)

/-- Returns whether everything was moved, and the quantity still missing. -/
def writeToTransfBufWithZero (quantity : Int) (io : Io) : Bool × Int × Io :=
  let r := writeToTransfBufWithZeroLoop (io.b.bytes.length + 1) quantity io
  (r.1 ≤ 0, r.1, r.2)

/-! ## Matching a format -/

/-- One byte read, passed on to the output or not: the only difference between the functions that
write and their `simple` versions. -/
def readByte (echo : Bool) (io : Io) : Io :=
  if echo then (readAndWrite io).2 else { io with b := (bufferRead io.b).2 }

/-- The loop over the format: what is left of it, how much was matched and the last byte peeked. -/
def matchFormatLoop (echo : Bool) : List UInt8 → Nat → UInt8 → Io → List UInt8 × Nat × UInt8 × Io
  | [], i, c, io => ([], i, c, io)
  | f :: format, i, _, io =>
    let c := peekUpChar io.b
    if c ≠ toupper f then (f :: format, i, c, io)
    else matchFormatLoop echo format (i + 1) c (readByte echo io)

/-- `matchFormat` and `simpleMatchFormat`. -/
def matchFormatWith (echo : Bool) (format pre : List UInt8) (io : Io) : Bool × Io :=
  let (rest, i, c, io) := matchFormatLoop echo format 0 0 io
  if rest ≠ [] ∧ c = 0 then
    (false,
      { io with
        b := writePrefix (writeToBufReverse format io.b i) pre
        isBufferEmpty := true })
  else (rest.isEmpty, io)

def matchFormat (format pre : List UInt8) (io : Io) : Bool × Io :=
  matchFormatWith true format pre io

def simpleMatchFormat (format pre : List UInt8) (io : Io) : Bool × Io :=
  matchFormatWith false format pre io

def checkLF (pre : List UInt8) (io : Io) : Bool × Io := matchFormat [LF] pre io

def checkCRLF (pre : List UInt8) (io : Io) : Bool × Io := matchFormat [CR, LF] pre io

def simpleCheckCRLF (pre : List UInt8) (io : Io) : Bool × Io := simpleMatchFormat [CR, LF] pre io

/-! ## Reading a number -/

def numberLoop (r : Radix) (echo : Bool) : Nat → Int → Io → Int × Io
  | 0, currentNum, io => (currentNum, io)
  | fuel + 1, currentNum, io =>
    let c := bufferPeek io.b
    if r.isDigit c then
      numberLoop r echo fuel (toInt32 (r.base * currentNum + r.value c)) (readByte echo io)
    else (currentNum, io)

/-- `getNumber`, `getHexNumber` and `simpleGetHexNumber`. `none` is the return value `false`, which
leaves `*number` alone. -/
def getNumberWith (r : Radix) (echo : Bool) (pre : List UInt8) (io : Io) : Option Int × Io :=
  let c := bufferPeek io.b
  if c ≠ 0 ∧ r.isDigit c = false then (none, io)
  else
    let (currentNum, io) := numberLoop r echo io.b.bytes.length 0 io
    if bufferPeek io.b = 0 then
      (none,
        { io with
          b := writePrefix (io.b.pushBack (digitsOf r currentNum)) pre
          isBufferEmpty := true })
    else (some currentNum, io)

def getNumber (pre : List UInt8) (io : Io) : Option Int × Io := getNumberWith .dec true pre io

def getHexNumber (pre : List UInt8) (io : Io) : Option Int × Io := getNumberWith .hex true pre io

def simpleGetHexNumber (pre : List UInt8) (io : Io) : Option Int × Io :=
  getNumberWith .hex false pre io

end HttpProxy
