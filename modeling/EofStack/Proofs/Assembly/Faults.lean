import EofStack.Proofs.Assembly.Labels
import EofStack.Proofs.Opcode.Table
import EofStack.Proofs.Readers

/-!
# What can be wrong with a source

A line is misplaced if the layout cannot take it: its label is defined on an earlier line, no opcode
has its mnemonic, or the opcode is given the wrong number of operands (`Misplaced`).  An operand is
misread if it does not denote what its opcode asks for (`Misread`).  Neither notion mentions the
assembler; offsets are sums of the sizes of the lines in front (`offset`).

What is reported is decided by `Reported`.  Misplaced lines come first, wherever they are, and of
them the first; of the faults of that line the one that is checked for first (`Fault.stage`).  Only
if no line is misplaced are the operands looked at, line by line and from left to right.

Lines and operands are counted from 0 here, and lines from 1 in the faults.
-/

namespace EofStack.Assembly

/-! ## Lines -/

variable {lines : List Line} {k : Nat}

/-- The label that line `k` defines. -/
def labelAt (lines : List Line) (k : Nat) : Option String :=
  lines[k]?.bind Line.label

/-- The statement that line `k` holds. -/
def statementAt (lines : List Line) (k : Nat) : Option Statement :=
  lines[k]?.bind Line.statement

/-- Line `k` holds an instruction: its mnemonic names the opcode. -/
def Instructs (lines : List Line) (k : Nat) (opcode : Opcode) (operands : List String) : Prop :=
  ∃ mnemonic, statementAt lines k = some ⟨mnemonic, operands⟩ ∧ opcode.IsNamed mnemonic

/-- How many bytes a line takes up: those of its instruction, if it has one. -/
def Line.size (line : Line) : Nat :=
  match line.statement with
  | none => 0
  | some statement =>
    match Opcode.ofMnemonic? statement.mnemonic with
    | none => 0
    | some opcode =>
      1 + opcode.immediateSize
        + if opcode.flow = .table then 2 * statement.operands.length else 0

/-- How many bytes stand in front of line `k`. -/
def offset (lines : List Line) (k : Nat) : Nat :=
  ((lines.take k).map Line.size).sum

/-! ## Faults of the layout -/

/-- The opcode is given a wrong number of operands. -/
inductive Miscounted (opcode : Opcode) (operands : List String) (line : Nat) : Fault → Prop
  | missing (hsize : 0 < opcode.immediateSize) (hoperands : operands = []) :
      Miscounted opcode operands line (.missingImmediate opcode.mnemonic line)
  | unexpected (hsize : opcode.immediateSize = 0) (hoperands : operands ≠ []) :
      Miscounted opcode operands line (.unexpectedImmediate opcode.mnemonic line)
  | entries (hflow : opcode.flow = .table) (hmany : 255 < operands.length) :
      Miscounted opcode operands line
        (.invalidImmediate (" ".intercalate operands) line .tooManyEntries)
  | several (hflow : opcode.flow ≠ .table) (hmany : 1 < operands.length) :
      Miscounted opcode operands line
        (.invalidImmediate (" ".intercalate operands) line .severalOperands)

/-- The layout cannot take line `k`. -/
inductive Misplaced (lines : List Line) (k : Nat) : Fault → Prop
  | duplicate {label : String} {i : Nat} (hearlier : i < k) (hfirst : labelAt lines i = some label)
      (hagain : labelAt lines k = some label) :
      Misplaced lines k (.duplicateLabel label (k + 1))
  | unknown {mnemonic : String} {operands : List String}
      (hstatement : statementAt lines k = some ⟨mnemonic, operands⟩)
      (hnone : ∀ opcode : Opcode, ¬ opcode.IsNamed mnemonic) :
      Misplaced lines k (.unknownMnemonic mnemonic (k + 1))
  | miscounted {opcode : Opcode} {operands : List String} {fault : Fault}
      (hinstructs : Instructs lines k opcode operands)
      (hcount : Miscounted opcode operands (k + 1) fault) : Misplaced lines k fault

/-- The faults of one line in the order in which they are checked for. -/
def Fault.stage : Fault → Nat
  | duplicateLabel .. => 0
  | unknownMnemonic .. => 1
  | missingImmediate .. => 2
  | unexpectedImmediate .. => 3
  | invalidImmediate _ _ .tooManyEntries => 4
  | invalidImmediate _ _ .severalOperands => 5
  | _ => 6

/-! ## Faults of operands -/

/-- The operand does not denote what the opcode asks for in line `k`.  The displacement of a label
is measured from the end of that line. -/
inductive Unreadable (lines : List Line) (k : Nat) (opcode : Opcode) (operand : String) :
    Fault → Prop
  | noOffset (hjump : opcode.isJump = true) (hnumber : isDisplacement operand = true)
      (hnone : ∀ d, IsSigned operand.toList d → ¬ (-32768 ≤ d ∧ d ≤ 32767)) :
      Unreadable lines k opcode operand (.invalidImmediate operand (k + 1) .noOffset)
  | undefined (hjump : opcode.isJump = true) (hlabel : isDisplacement operand = false)
      (hnone : ∀ i, labelAt lines i ≠ some operand) :
      Unreadable lines k opcode operand (.undefinedLabel operand (k + 1))
  | far {i : Nat} (hjump : opcode.isJump = true) (hlabel : isDisplacement operand = false)
      (hdefined : labelAt lines i = some operand)
      (hfar : ¬ (-32768 ≤ (offset lines i : Int) - offset lines (k + 1) ∧
        (offset lines i : Int) - offset lines (k + 1) ≤ 32767)) :
      Unreadable lines k opcode operand (.jumpOutOfRange operand (k + 1))
  | noFunctionId (hcall : opcode.flow = .call)
      (hnone : ∀ n, IsUnsigned operand.toList n → 65535 < n) :
      Unreadable lines k opcode operand (.invalidImmediate operand (k + 1) .noFunctionId)
  | noValue {reason : Reason} (hpush : opcode.isPush = true)
      (hnone : NoValue opcode.immediateSize operand.toList reason) :
      Unreadable lines k opcode operand (.invalidImmediate operand (k + 1) reason)

/-- Operand `j` of line `k` cannot be read. -/
def Misread (lines : List Line) (k j : Nat) (fault : Fault) : Prop :=
  ∃ opcode operands operand, Instructs lines k opcode operands ∧
    operands[j]? = some operand ∧ Unreadable lines k opcode operand fault

/-! ## What is reported -/

/-- Of all faults of the lines, the one in line `k` is reported. -/
inductive Reported (lines : List Line) (k : Nat) (fault : Fault) : Prop
  | layout (hfault : Misplaced lines k fault)
      (hleast : ∀ other, Misplaced lines k other → fault.stage ≤ other.stage)
      (hfirst : ∀ i < k, ∀ other, ¬ Misplaced lines i other)
  | operand {j : Nat} (hfault : Misread lines k j fault)
      (hplaced : ∀ i other, ¬ Misplaced lines i other)
      (hleft : ∀ i < j, ∀ other, ¬ Misread lines k i other)
      (hfirst : ∀ i < k, ∀ j other, ¬ Misread lines i j other)

/-- The line that a fault names. -/
def Fault.line : Fault → Nat
  | unknownMnemonic _ line | missingImmediate _ line | unexpectedImmediate _ line
  | invalidImmediate _ line _ | undefinedLabel _ line | duplicateLabel _ line
  | jumpOutOfRange _ line => line

end EofStack.Assembly
