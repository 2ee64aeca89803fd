import EofStack.Proofs.Stack.Soundness
import Mathlib.Logic.Relation

/-!
# Running a whole program

The machine that executes the functions of a container has one stack of operands and a stack of
frames.  A call leaves the inputs of the callee where they are and begins a frame whose base is
below them; a return drops the frame and leaves what is above its base to the caller.  The machine
checks nothing: heights and bases are integers, an instruction takes effect whether or not it
finds the items that it requires, and a branch may go either way.

`Secure` says what has to hold of a configuration in which nothing has gone wrong, seen from the
function that is executed: it takes nothing from below its base, and has no more items above it
than its own code, validated on its own, can put there.
-/

namespace EofStack

open Stack

/-- The functions of a container. -/
structure Program where
  types : TypeTable
  sections : List Code

/-- A call of a function that has not returned. -/
structure Frame where
  function : Nat
  offset : Nat
  /-- The height of the stack below the inputs. -/
  base : Int

/-- The height of the stack, and the frames from the function that is executed down to the one
that has been entered first. -/
structure Configuration where
  height : Int
  frames : List Frame

namespace Program

variable (program : Program)

/-! ## Steps -/

/-- The next instruction of the frame. -/
def Fetches (f : Frame) (i : Instruction) : Prop :=
  ∃ code, program.sections[f.function]? = some code ∧ code.decodeAt f.offset = .ok i

/-- One instruction of the function on top is executed.  There is no step from a halt. -/
inductive Step : Configuration → Configuration → Prop
  | goes {height : Int} {f : Frame} {rest : List Frame} {i : Instruction} {target : Nat}
      (hfetch : program.Fetches f i) (hflow : i.opcode.flow ≠ .call) (hleads : Leads i target) :
      Step ⟨height, f :: rest⟩ ⟨height + i.opcode.change, { f with offset := target } :: rest⟩
  | calls {height : Int} {f : Frame} {rest : List Frame} {i : Instruction} {callee : Nat}
      {type : FunctionType} (hfetch : program.Fetches f i) (hcallee : i.callee? = some callee)
      (htype : program.types[callee]? = some type) :
      Step ⟨height, f :: rest⟩ ⟨height + i.opcode.change,
        ⟨callee, 0, height + i.opcode.change - type.inputs.toNat⟩ ::
          { f with offset := i.next } :: rest⟩
  | returns {height : Int} {f : Frame} {rest : List Frame} {i : Instruction}
      (hfetch : program.Fetches f i) (hflow : i.opcode.flow = .ret) :
      Step ⟨height, f :: rest⟩ ⟨height + i.opcode.change, rest⟩

/-- The first function is entered with nothing on the stack. -/
def start : Configuration :=
  ⟨0, [⟨0, 0, 0⟩]⟩

/-- A run of any length leads to the configuration. -/
def Reachable : Configuration → Prop :=
  Relation.ReflTransGen program.Step start

/-! ## Security -/

/-- How high the functions of the frames can make the stack together, each as high as it gets. -/
def room (heights : List Nat) : List Frame → Nat
  | [] => 0
  | f :: rest => heights[f.function]?.getD 0 + room heights rest

/-- The function that is executed stands at an instruction that is safe with the items above the
base of its frame. -/
structure SecureFrame (heights : List Nat) (height : Int) (f : Frame) (rest : List Frame)
    (body : Body) (i : Instruction) (e : Effect) (items peak : Nat) : Prop where
  types : body.types = program.types
  type : program.types[f.function]? = some body.type
  code : program.sections[f.function]? = some body.code
  decode : body.code.decodeAt f.offset = .ok i
  effect : HasEffect program.types i e
  callee : ∀ callee, i.callee? = some callee →
    callee < program.types.size ∧ callee < program.sections.length
  height_eq : height = f.base + items
  safe : Safe body i e items
  peak_eq : heights[f.function]? = some peak
  le_peak : items ≤ peak ∧ (items : Int) + e.change ≤ peak
  bases : ∀ g ∈ f :: rest, 0 ≤ g.base ∧ g.base ≤ f.base
  height_le : height ≤ room heights (f :: rest)
  progress : i.opcode.flow = .halt ∨ ∃ next, program.Step ⟨height, f :: rest⟩ next

/-- Nothing has gone wrong: the function on top is secure, or the first function has returned and
left nothing. -/
inductive Secure (heights : List Nat) : Configuration → Prop
  | returned : Secure heights ⟨0, []⟩
  | running {height : Int} {f : Frame} {rest : List Frame} {body : Body} {i : Instruction}
      {e : Effect} {items peak : Nat}
      (h : program.SecureFrame heights height f rest body i e items peak) :
      Secure heights ⟨height, f :: rest⟩

end Program

end EofStack
