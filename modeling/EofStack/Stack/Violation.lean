import EofStack.Instruction

/-!
# Violations

Why the stack behaviour of a function is refused.  All but two causes are found at an offset of
the code.
-/

namespace EofStack.Stack

/-- What makes code malformed, so that it has no stack behaviour. -/
inductive Malformation
  /-- There is no instruction, or it jumps to a negative offset. -/
  | undecodable (error : DecodeError)
  | unknownCallee (callee functions : Nat)
  | jumpWithoutTarget
deriving DecidableEq, Repr

/-- Why the stack behaviour of a function is refused. -/
inductive Violation
  /-- An instruction asks for more items than there are. -/
  | underflow (offset : Nat) (mnemonic : String) (required actual : Nat)
  /-- An offset is reached with another height than before. -/
  | heightMismatch (offset recorded arriving : Nat)
  /-- The program ends while items are left. -/
  | itemsLeft (offset : Nat) (mnemonic : String) (actual : Nat)
  /-- The function returns with another number of items than it declares. -/
  | returnArity (offset declared actual : Nat)
  /-- The stack gets higher than it may. -/
  | tooDeep (peak limit : Nat)
  | malformed (offset : Nat) (cause : Malformation)
  | unknownFunction (function functions : Nat)
deriving DecidableEq, Repr

/-- The text of a cause. -/
def Malformation.message : Malformation → String
  | undecodable error => error.message
  | unknownCallee callee functions =>
    "callf to function " ++ toString callee ++ ", type table has " ++ toString functions
      ++ " entries"
  | jumpWithoutTarget => "rjump without target"

namespace Violation

/-- The text of a violation. -/
def message : Violation → String
  | underflow offset mnemonic required actual =>
    "stack underflow at " ++ Hex.ofNat offset ++ ": " ++ mnemonic ++ " requires "
      ++ toString required ++ " items, " ++ toString actual ++ " present"
  | heightMismatch offset recorded arriving =>
    "stack height mismatch at " ++ Hex.ofNat offset ++ ": recorded " ++ toString recorded
      ++ ", arriving with " ++ toString arriving
  | itemsLeft offset mnemonic actual =>
    mnemonic ++ " at " ++ Hex.ofNat offset ++ " reached with " ++ toString actual
      ++ " items on the stack (expected 0)"
  | returnArity offset declared actual =>
    "retf at " ++ Hex.ofNat offset ++ " with stack height " ++ toString actual
      ++ ", function declares " ++ toString declared ++ " outputs"
  | tooDeep peak limit =>
    "max stack height " ++ toString peak ++ " exceeds limit of " ++ toString limit
  | malformed offset cause =>
    "malformed code at " ++ Hex.ofNat offset ++ ": " ++ cause.message
  | unknownFunction function functions =>
    "function " ++ toString function ++ " is not in the type table (" ++ toString functions
      ++ " entries)"

/-- Where in the code the violation was found. -/
def offset? : Violation → Option Nat
  | underflow offset .. | heightMismatch offset .. | itemsLeft offset .. | returnArity offset ..
  | malformed offset _ => some offset
  | tooDeep .. | unknownFunction .. => none

end Violation

end EofStack.Stack
