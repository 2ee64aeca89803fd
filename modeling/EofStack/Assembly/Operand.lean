import EofStack.Assembly.Fault
import EofStack.Assembly.Source
import EofStack.BigEndian
import EofStack.Hex
import EofStack.Numeral

/-!
# Operands

Operands are read only when all labels are known.  The operand of a jump is a displacement if it
begins like a number and a label otherwise; the operand of a call is the id of a function; the
operand of a push is a number in decimal, or in hexadecimal behind `0x`.
-/

namespace EofStack.Assembly

/-- Whether the operand of a jump is a displacement: it begins with a sign or a digit. -/
def isDisplacement (operand : String) : Bool :=
  operand.toList.head?.any fun c => c = '+' || c = '-' || c.isDigit

/-- Whether a displacement fits in a signed 16-bit word. -/
def fitsWord (displacement : Int) : Bool :=
  -32768 ≤ displacement && displacement ≤ 32767

/-- The displacement that the operand of a jump denotes.  A label is measured from `next`, the
offset behind the jump. -/
def displacement (labels : Labels) (next line : Nat) (operand : String) :
    Except Fault Int :=
  if isDisplacement operand then
    match Numeral.integer? (-32768) 32767 operand.toList with
    | some displacement => .ok displacement
    | none => .error (.invalidImmediate operand line .noOffset)
  else
    match labels.lookup operand with
    | none => .error (.undefinedLabel operand line)
    | some target =>
      let displacement := (target : Int) - next
      if fitsWord displacement then .ok displacement else .error (.jumpOutOfRange operand line)

/-- The function id that the operand of a call denotes. -/
def functionId (line : Nat) (operand : String) : Except Fault Nat :=
  match Numeral.natural? 65535 operand.toList with
  | some id => .ok id
  | none => .error (.invalidImmediate operand line .noFunctionId)

/-- The number that the operand of a push denotes, of any size in hexadecimal and of at most 128
bits in decimal. -/
def pushNumber (operand : List Char) : Except Reason Nat :=
  match operand with
  | '0' :: 'x' :: digits | '0' :: 'X' :: digits =>
    match Hex.number? digits with
    | some value => .ok value
    | none => .error .noHexNumber
  | _ =>
    match Numeral.natural? 0xffffffffffffffffffffffffffffffff operand with
    | some value => .ok value
    | none => .error .noDecimalNumber

/-- The number that the operand of a push denotes, if it fits in `width` bytes. -/
def pushValue (width : Nat) (operand : List Char) : Except Reason Nat :=
  match pushNumber operand with
  | .error reason => .error reason
  | .ok value => if value < BigEndian.capacity width then .ok value else .error .tooWide

end EofStack.Assembly
