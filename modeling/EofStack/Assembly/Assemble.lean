import EofStack.Assembly.Layout
import EofStack.Assembly.Operand
import EofStack.BigEndian
import EofStack.Code.Decode

/-!
# Assembling a source

A source is laid out as a whole before the first operand is read.  A fault of the layout is
therefore reported before a fault of an operand, whichever line it is in.

The immediate of an instruction is the encoding of its operands in order; of a jump table their
count comes first.  An instruction without immediate has no operands.
-/

namespace EofStack.Assembly

namespace Placed

/-- The bytes that stand for one operand. -/
def encodeOperand (labels : Labels) (placed : Placed) (operand : String) :
    Except Fault (List UInt8) :=
  match placed.opcode.flow with
  | .jump | .branch | .table =>
    (displacement labels placed.next placed.line operand).map BigEndian.encodeSigned
  | .call => (functionId placed.line operand).map (BigEndian.encode 2)
  | _ =>
    match pushValue placed.opcode.immediateSize operand.toList with
    | .ok value => .ok (BigEndian.encode placed.opcode.immediateSize value)
    | .error reason => .error (.invalidImmediate operand placed.line reason)

/-- The count byte of a jump table; other instructions have none. -/
def countByte (placed : Placed) : List UInt8 :=
  if placed.opcode.flow = .table then [UInt8.ofNat placed.operands.length] else []

/-- The bytes of an instruction. -/
def encode (labels : Labels) (placed : Placed) : Except Fault (List UInt8) :=
  (placed.operands.mapM (placed.encodeOperand labels)).map fun operands =>
    placed.opcode.byte :: (placed.countByte ++ operands.flatten)

end Placed

/-- The bytes of a source that has been laid out. -/
def Layout.encode (layout : Layout) : Except Fault (List UInt8) :=
  (layout.placed.toList.mapM (Placed.encode layout.labels)).map List.flatten

/-- Assembles lines of source. -/
def assembleLines (lines : List Line) : Except Fault Code :=
  match Layout.ofLines lines with
  | .error fault => .error fault
  | .ok layout => layout.encode.map List.toArray

/-- Assembles a source. -/
def assemble (source : String) : Except Fault Code :=
  assembleLines (parse source)

end EofStack.Assembly
