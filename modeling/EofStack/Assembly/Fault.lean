/-!
# Faults of a source

Why a source cannot be assembled.  Each fault names the line it was found in.
-/

namespace EofStack.Assembly

/-- What is wrong with an operand. -/
inductive Reason
  | tooManyEntries
  | severalOperands
  | noOffset
  | noFunctionId
  | noHexNumber
  | noDecimalNumber
  | tooWide
deriving DecidableEq, Repr

/-- Why a source cannot be assembled. -/
inductive Fault
  | unknownMnemonic (mnemonic : String) (line : Nat)
  | missingImmediate (mnemonic : String) (line : Nat)
  | unexpectedImmediate (mnemonic : String) (line : Nat)
  | invalidImmediate (value : String) (line : Nat) (reason : Reason)
  | undefinedLabel (label : String) (line : Nat)
  | duplicateLabel (label : String) (line : Nat)
  | jumpOutOfRange (label : String) (line : Nat)
deriving DecidableEq, Repr

/-- The text of a reason. -/
def Reason.message : Reason → String
  | tooManyEntries => "jump table holds at most 255 entries"
  | severalOperands => "expected a single immediate"
  | noOffset => "expected a signed 16-bit offset"
  | noFunctionId => "expected a function id between 0 and 65535"
  | noHexNumber => "invalid hex value"
  | noDecimalNumber => "invalid decimal value"
  | tooWide => "value does not fit in the push width"

/-- The text of a fault. -/
def Fault.message : Fault → String
  | unknownMnemonic mnemonic line =>
    "unknown mnemonic '" ++ mnemonic ++ "' at line " ++ toString line
  | missingImmediate mnemonic line =>
    "'" ++ mnemonic ++ "' at line " ++ toString line ++ " expects an immediate"
  | unexpectedImmediate mnemonic line =>
    "'" ++ mnemonic ++ "' at line " ++ toString line ++ " takes no immediate"
  | invalidImmediate value line reason =>
    "invalid immediate '" ++ value ++ "' at line " ++ toString line ++ ": " ++ reason.message
  | undefinedLabel label line =>
    "undefined label '" ++ label ++ "' referenced at line " ++ toString line
  | duplicateLabel label line =>
    "label '" ++ label ++ "' redefined at line " ++ toString line
  | jumpOutOfRange label line =>
    "jump to '" ++ label ++ "' at line " ++ toString line ++ " does not fit in a 16-bit offset"

end EofStack.Assembly
