import EofStack.FunctionType.Basic
import EofStack.Code.Decode
import EofStack.Stack.Violation

/-!
# The rule of a single instruction

What one instruction does to the height of the stack and where control goes from it, for a
given height before it.  Nothing here depends on what was visited before.

A call asks for the items that the callee takes, and puts the ones that it leaves in their place.
-/

namespace EofStack.Stack

/-- The function whose stack behaviour is examined, and the types of all it may call. -/
structure Body where
  types : TypeTable
  type : FunctionType
  code : Code

/-- What an instruction asks of the stack and does to its height. -/
structure Effect where
  required : Nat
  change : Int
deriving DecidableEq, Repr

/-- How an instruction is left: the height behind it, the offset at which the examination goes
on at once, and the ones that are put off. -/
structure Exits where
  height : Nat
  next : Option Nat
  deferred : List Nat
deriving DecidableEq, Repr

namespace Exits

/-- All offsets that control may go to. -/
def successors (exits : Exits) : List Nat :=
  exits.next.toList ++ exits.deferred

end Exits

/-- The effect of an instruction.  Only the effect of a call depends on the types. -/
def effect (types : TypeTable) (i : Instruction) : Except Violation Effect :=
  match i.callee? with
  | none => .ok ⟨i.opcode.required, i.opcode.change⟩
  | some callee =>
    match types[callee]? with
    | none => .error (.malformed i.offset (.unknownCallee callee types.size))
    | some type =>
      .ok ⟨i.opcode.required + type.inputs.toNat,
        i.opcode.change + ((type.outputs.toNat : Int) - type.inputs.toNat)⟩

/-- The targets of a jump; a negative one makes the code malformed. -/
def targets (i : Instruction) : Except Violation (List Nat) :=
  match i.targets with
  | .ok targets => .ok targets
  | .error e => .error (.malformed i.offset (.undecodable e))

/-- Where control goes from an instruction that leaves `height` items. -/
def exitsAt (outputs : Nat) (i : Instruction) (height : Nat) : Except Violation Exits :=
  match i.opcode.flow with
  | .jump => match targets i with
    | .ok (target :: _) => .ok ⟨height, some target, []⟩
    | .ok [] => .error (.malformed i.offset .jumpWithoutTarget)
    | .error violation => .error violation
  | .branch | .table => (targets i).map fun targets => ⟨height, some i.next, targets⟩
  | .halt =>
    if height = 0 then .ok ⟨height, none, []⟩
    else .error (.itemsLeft i.offset i.opcode.mnemonic height)
  | .ret =>
    if height = outputs then .ok ⟨height, none, []⟩
    else .error (.returnArity i.offset outputs height)
  | .straight | .call => .ok ⟨height, some i.next, []⟩

namespace Body

/-- The instruction at an offset and its effect. -/
def inspect (body : Body) (offset : Nat) : Except Violation (Instruction × Effect) :=
  match body.code.decodeAt offset with
  | .error e => .error (.malformed offset (.undecodable e))
  | .ok i => (effect body.types i).map fun e => (i, e)

/-- Executes an instruction on a stack of the given height. -/
def execute (body : Body) (i : Instruction) (e : Effect) (height : Nat) :
    Except Violation Exits :=
  if height < e.required ∨ (height : Int) + e.change < 0 then
    .error (.underflow i.offset i.opcode.mnemonic e.required height)
  else exitsAt body.type.outputs.toNat i ((height : Int) + e.change).toNat

end Body

theorem decodeAt_of_inspect {body : Body} {offset : Nat} {i : Instruction} {e : Effect}
    (h : body.inspect offset = .ok (i, e)) : body.code.decodeAt offset = .ok i := by
  unfold Body.inspect at h
  split at h
  · cases h
  · next hi =>
    cases he : effect body.types _ with
    | error v => rw [he] at h; cases h
    | ok e' => rw [he] at h; cases h; exact hi

end EofStack.Stack
