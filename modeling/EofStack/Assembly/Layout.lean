import EofStack.Assembly.Fault
import EofStack.Assembly.Source
import EofStack.Opcode.Table

/-!
# Laying out a source

The layout gives every statement its place in the code and every label its offset.  The size of
an instruction depends on its opcode and on the number of its operands alone, so that nothing
needs to be known of the labels yet.

A label stands for the offset of the next instruction, or for the end of the code.
-/

namespace EofStack.Assembly

/-- An instruction at its place, its operands not yet read. -/
structure Placed where
  opcode : Opcode
  operands : List String
  offset : Nat
  line : Nat
deriving DecidableEq, Repr

namespace Placed

/-- How many bytes the instruction takes up. -/
def size (placed : Placed) : Nat :=
  1 + placed.opcode.immediateSize
    + if placed.opcode.flow = .table then 2 * placed.operands.length else 0

/-- The offset behind the instruction. -/
def next (placed : Placed) : Nat :=
  placed.offset + placed.size

end Placed

/-- The lines of a source laid out so far. -/
structure Layout where
  labels : Labels := []
  placed : Array Placed := #[]
  /-- The offset of the next instruction. -/
  size : Nat := 0
deriving Repr

/-- Checks how many operands an opcode is given: none if it has no immediate, from 1 to 255 if
it is a jump table, and exactly one otherwise. -/
def checkOperands (opcode : Opcode) (operands : List String) (line : Nat) : Except Fault Unit :=
  if 0 < opcode.immediateSize ∧ operands = [] then
    .error (.missingImmediate opcode.mnemonic line)
  else if opcode.immediateSize = 0 ∧ operands ≠ [] then
    .error (.unexpectedImmediate opcode.mnemonic line)
  else if opcode.flow = .table then
    if 255 < operands.length then
      .error (.invalidImmediate (String.intercalate " " operands) line .tooManyEntries)
    else .ok ()
  else if 1 < operands.length then
    .error (.invalidImmediate (String.intercalate " " operands) line .severalOperands)
  else .ok ()

namespace Layout

/-- Defines a label as the offset of the next instruction.  No label is defined twice. -/
def define (layout : Layout) (label : String) (line : Nat) : Except Fault Layout :=
  match layout.labels.lookup label with
  | some _ => .error (.duplicateLabel label line)
  | none => .ok { layout with labels := (label, layout.size) :: layout.labels }

/-- Places a statement behind all others. -/
def place (layout : Layout) (statement : Statement) (line : Nat) : Except Fault Layout :=
  match Opcode.ofMnemonic? statement.mnemonic with
  | none => .error (.unknownMnemonic statement.mnemonic line)
  | some opcode =>
    match checkOperands opcode statement.operands line with
    | .error fault => .error fault
    | .ok () =>
      let placed : Placed := ⟨opcode, statement.operands, layout.size, line⟩
      .ok { layout with placed := layout.placed.push placed, size := placed.next }

/-- Adds a line: first its label, then its statement. -/
def add (layout : Layout) (line : Line) : Except Fault Layout := do
  let layout ← match line.label with
    | some label => layout.define label line.number
    | none => .ok layout
  match line.statement with
  | some statement => layout.place statement line.number
  | none => .ok layout

/-- Lays out lines in order, up to the first fault. -/
def ofLines (lines : List Line) : Except Fault Layout :=
  lines.foldlM add {}

end Layout

end EofStack.Assembly
