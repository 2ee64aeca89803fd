/-!
# Opcodes

What is known of an opcode of the Ethereum virtual machine before its immediate is looked at: the
byte and the name it goes by, what it asks of the stack, how many bytes follow it, and where
control goes after it.
-/

namespace EofStack

/-- Where control goes after an instruction. -/
inductive Flow
  /-- To the next instruction. -/
  | straight
  /-- To the relative target, never to the next instruction. -/
  | jump
  /-- To the relative target or to the next instruction. -/
  | branch
  /-- To one of the targets of a table, or to the next instruction. -/
  | table
  /-- Into another function and then to the next instruction. -/
  | call
  /-- Back to the caller. -/
  | ret
  /-- Nowhere: the whole program ends. -/
  | halt
deriving DecidableEq, Repr

/-- The fixed properties of an opcode. -/
structure Opcode where
  byte : UInt8
  /-- The name in lower case. -/
  mnemonic : String
  /-- How many items have to be on the stack. -/
  required : Nat
  /-- By how much the height of the stack changes. -/
  change : Int
  /-- How many bytes of immediate follow.  Of a jump table this is the count byte only. -/
  immediateSize : Nat
  flow : Flow
deriving DecidableEq, Repr

namespace Opcode

/-- An opcode without immediate that falls through. -/
def plain (byte : UInt8) (mnemonic : String) (required : Nat) (change : Int) : Opcode :=
  ⟨byte, mnemonic, required, change, 0, .straight⟩

/-- An opcode that pushes its immediate. -/
def push (byte : UInt8) (mnemonic : String) (width : Nat) : Opcode :=
  ⟨byte, mnemonic, 0, 1, width, .straight⟩

/-- An opcode that ends the program. -/
def halting (byte : UInt8) (mnemonic : String) (required : Nat) (change : Int) : Opcode :=
  ⟨byte, mnemonic, required, change, 0, .halt⟩

/-- Control never reaches the next instruction from here. -/
def isTerminating (opcode : Opcode) : Bool :=
  opcode.flow = .halt || opcode.flow = .ret || opcode.flow = .jump

/-- The immediate holds relative targets. -/
def isJump (opcode : Opcode) : Bool :=
  opcode.flow = .jump || opcode.flow = .branch || opcode.flow = .table

/-- The immediate is a value for the stack. -/
def isPush (opcode : Opcode) : Bool :=
  opcode.flow = .straight && 0 < opcode.immediateSize

end Opcode

end EofStack
