/-!
# Hexadecimal digits

Bytes are printed as two lowercase digits each, numbers as `0x` and their digits without
leading zeros.  Digits of both cases are read.

A dump is read from the bytes of its text rather than from its characters: the length that has
to be even, and the position of a wrong digit, count bytes.
-/

namespace EofStack.Hex

/-- The value of a hexadecimal digit of either case. -/
def digit? (c : Char) : Option Nat :=
  if '0' ≤ c ∧ c ≤ '9' then some (c.toNat - '0'.toNat)
  else if 'a' ≤ c ∧ c ≤ 'f' then some (c.toNat - 'a'.toNat + 10)
  else if 'A' ≤ c ∧ c ≤ 'F' then some (c.toNat - 'A'.toNat + 10)
  else none

/-- The number that a non-empty run of digits denotes, of any length. -/
def number? (text : List Char) : Option Nat :=
  if text = [] then none
  else (text.mapM digit?).map fun digits => digits.foldl (fun n d => 16 * n + d) 0

/-! ## Printing -/

/-- The two digits of a byte, the high one first. -/
def digitsOfByte (byte : UInt8) : List Char :=
  [Nat.digitChar (byte.toNat / 16), Nat.digitChar (byte.toNat % 16)]

/-- The digits of bytes in order. -/
def digitsOfBytes (bytes : List UInt8) : List Char :=
  bytes.flatMap digitsOfByte

/-- Bytes as a string of digits. -/
def ofBytes (bytes : List UInt8) : String :=
  String.ofList (digitsOfBytes bytes)

/-- A byte as `0x` and two digits. -/
def ofByte (byte : UInt8) : String :=
  "0x" ++ String.ofList (digitsOfByte byte)

/-- A number as `0x` and its digits. -/
def ofNat (n : Nat) : String :=
  "0x" ++ String.ofList (Nat.toDigits 16 n)

/-! ## Reading a dump -/

/-- Why a text is no sequence of bytes. -/
inductive DumpError
  | oddLength
  | invalidDigit (byte : UInt8) (position : Nat)
deriving DecidableEq, Repr

/-- The value of the digit `byte` that stands at `position`. -/
def digitAt (position : Nat) (byte : UInt8) : Except DumpError Nat :=
  match digit? (Char.ofNat byte.toNat) with
  | some value => .ok value
  | none => .error (.invalidDigit byte position)

/-- Reads two digits a byte; `position` is where `text` stands. -/
def bytesFrom (position : Nat) : List UInt8 → Except DumpError (List UInt8)
  | high :: low :: rest => do
    let high ← digitAt position high
    let low ← digitAt (position + 1) low
    let bytes ← bytesFrom (position + 2) rest
    return UInt8.ofNat (16 * high + low) :: bytes
  | _ => .ok []

/-- The bytes that a text of digits denotes.  The length is looked at first, then the digits
from the left. -/
def bytes (text : List UInt8) : Except DumpError (List UInt8) :=
  if text.length % 2 = 1 then .error .oddLength else bytesFrom 0 text

end EofStack.Hex
