import EofStack.BigEndian
import EofStack.Opcode.Basic
import EofStack.Hex

/-!
# Instructions

An instruction is an opcode with the immediate bytes that follow it, at its place in the code.
What the immediate says depends on the opcode's flow:

* a call names the function it enters;
* a jump or a branch holds one displacement, a jump table the count of its entries and one
  displacement for each.  Displacements are measured from the end of the instruction;
* a push holds the value.
-/

namespace EofStack

/-- An instruction at its place in the code. -/
structure Instruction where
  offset : Nat
  opcode : Opcode
  /-- The bytes behind the opcode; of a jump table they begin with the count. -/
  immediate : List UInt8
deriving DecidableEq, Repr

/-- Why there is no instruction at an offset, or why it has no targets. -/
inductive DecodeError
  | outOfBounds (offset length : Nat)
  | unknownOpcode (offset : Nat) (byte : UInt8)
  | truncatedImmediate (offset expected available : Nat)
  | emptyJumpTable (offset : Nat)
  | negativeTarget (offset : Nat) (target : Int)
deriving DecidableEq, Repr

namespace DecodeError

/-- The text of an error. -/
def message : DecodeError → String
  | outOfBounds offset length =>
    "offset " ++ Hex.ofNat offset ++ " is outside the code (" ++ toString length ++ " bytes)"
  | unknownOpcode offset byte =>
    "unknown opcode " ++ Hex.ofByte byte ++ " at " ++ Hex.ofNat offset
  | truncatedImmediate offset expected available =>
    "truncated immediate at " ++ Hex.ofNat offset ++ ": expected " ++ toString expected
      ++ " bytes, " ++ toString available ++ " available"
  | emptyJumpTable offset => "empty jump table at " ++ Hex.ofNat offset
  | negativeTarget offset target =>
    "jump at " ++ Hex.ofNat offset ++ " targets negative position " ++ toString target

end DecodeError

namespace Instruction

/-- The offset behind the instruction. -/
def next (i : Instruction) : Nat :=
  i.offset + 1 + i.immediate.length

theorem offset_lt_next (i : Instruction) : i.offset < i.next := by
  unfold next
  omega

/-- The function that a call enters. -/
def callee? (i : Instruction) : Option Nat :=
  match i.opcode.flow, i.immediate with
  | .call, [high, low] => some (BigEndian.value [high, low])
  | _, _ => none

/-- The displacements of a jump in the order of the immediate; no other instruction has any. -/
def displacements (i : Instruction) : List Int :=
  match i.opcode.flow with
  | .jump | .branch => BigEndian.signedValues i.immediate
  | .table => BigEndian.signedValues (i.immediate.drop 1)
  | _ => []

/-- The offset that a displacement leads to.  It may lie behind the end of the code, but not
before its beginning. -/
def target (i : Instruction) (displacement : Int) : Except DecodeError Nat :=
  let position := (i.next : Int) + displacement
  if position < 0 then .error (.negativeTarget i.offset position) else .ok position.toNat

/-- All targets in the order of the immediate, or the first that is negative. -/
def targets (i : Instruction) : Except DecodeError (List Nat) :=
  i.displacements.mapM i.target

/-! ## Printing -/

/-- What is written behind the name. -/
def operandText (i : Instruction) : String :=
  match i.opcode.flow with
  | .call => match i.callee? with
    | some callee => " " ++ toString callee
    | none => ""
  | .jump | .branch | .table => String.join (i.displacements.map fun d => " " ++ toString d)
  | _ => if i.opcode.isPush then " 0x" ++ Hex.ofBytes i.immediate else ""

/-- The instruction as a line of assembly. -/
def text (i : Instruction) : String :=
  i.opcode.mnemonic ++ i.operandText

end Instruction

end EofStack
