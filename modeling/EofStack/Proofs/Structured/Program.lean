import EofStack.Stack.Validator

/-!
# Structured programs

Programs that are made of segments: straight runs of arithmetic, calls, branches, loops and jump
tables, nested to any depth.  A segment finds the stack empty and leaves it empty.

A segment is written as rows of assembly.  Labels are numbered through the whole program in the
order in which they are asked for, and a segment asks for its own labels before its parts ask for
theirs.
-/

namespace EofStack.Structured

/-! ## Rows -/

/-- What a label marks. -/
inductive Stem
  | taken
  | join
  | loop
  | case
deriving DecidableEq, Repr

/-- A label of a structured program. -/
structure Label where
  stem : Stem
  number : Nat
deriving DecidableEq, Repr

def Stem.text : Stem → String
  | taken => "taken"
  | join => "join"
  | loop => "loop"
  | case => "case"

def Label.text (label : Label) : String :=
  label.stem.text ++ toString label.number

/-- The instructions that structured programs consist of.  The only function that is called is
function `1`. -/
inductive Command
  | push
  | add
  | pop
  | call
  | jump (target : Label)
  | branch (target : Label)
  | table (targets : List Label)
  | stop
deriving DecidableEq, Repr

def Command.text : Command → String
  | push => "push0"
  | add => "add"
  | pop => "pop"
  | call => "callf 1"
  | jump target => "rjump " ++ target.text
  | branch target => "rjumpi " ++ target.text
  | table targets => "rjumpv " ++ " ".intercalate (targets.map Label.text)
  | stop => "stop"

/-- A line of a structured program. -/
inductive Row
  | mark (label : Label)
  | command (c : Command)
deriving DecidableEq, Repr

def Row.text : Row → String
  | mark label => label.text ++ ":"
  | command c => c.text

/-- Each row is written on a line of its own. -/
def source (rows : List Row) : String :=
  String.join (rows.map fun row => row.text ++ "\n")

/-! ## Segments -/

/-- A part of a program. -/
inductive Segment
  /-- Pushes one item more than it has additions, adds them all up and drops the sum. -/
  | arithmetic (additions : Nat)
  /-- Calls a function with two arguments and drops the result. -/
  | call
  /-- Goes on to the first part or branches to the second. -/
  | branch (direct taken : List Segment)
  /-- Branches back to the beginning of its body. -/
  | loop (body : List Segment)
  /-- Goes to one of the cases or to none. -/
  | table (cases : List (List Segment))

/-- A label with the next number. -/
def fresh (stem : Stem) : StateM Nat Label := do
  modify (· + 1)
  return ⟨stem, ← get⟩

open Command Row

def arithmeticRows (additions : Nat) : List Row :=
  List.replicate (additions + 1) (command push) ++ List.replicate additions (command add) ++
    [command pop]

def callRows : List Row :=
  [command push, command push, command call, command pop]

/-- The arms of a branch.  Only the first one has to jump to the join. -/
def armRows (taken join : Label) (directRows takenRows : List Row) : List Row :=
  [command push, command (branch taken)] ++ directRows ++ [command (jump join), mark taken] ++
    takenRows

/-- What the taken arm of a branch leaves behind is pushed at its end. -/
def branchRows (taken join : Label) (directRows takenRows left : List Row) : List Row :=
  armRows taken join directRows takenRows ++ left ++ [mark join]

def loopRows (head : Label) (body : List Row) : List Row :=
  mark head :: body ++ [command push, command (branch head)]

/-- A case of a jump table goes to the join at its end. -/
def caseRows (join name : Label) (rows : List Row) : List Row :=
  mark name :: rows ++ [command (jump join)]

def tableRows (join : Label) (names : List Label) (cases : List Row) : List Row :=
  [command push, command (table names), command (jump join)] ++ cases ++ [mark join]

mutual

/-- The rows of a segment. -/
def Segment.emit : Segment → StateM Nat (List Row)
  | .arithmetic additions => return arithmeticRows additions
  | .call => return callRows
  | .branch direct taken => do
    let takenLabel ← fresh .taken
    let join ← fresh .join
    let directRows ← emitAll direct
    let takenRows ← emitAll taken
    return branchRows takenLabel join directRows takenRows []
  | .loop body => do
    let head ← fresh .loop
    let rows ← emitAll body
    return loopRows head rows
  | .table cases => do
    let names ← cases.mapM fun _ => fresh .case
    let join ← fresh .join
    let rows ← emitCases join names cases
    return tableRows join names rows

/-- The rows of segments, one after the other. -/
def emitAll : List Segment → StateM Nat (List Row)
  | [] => return []
  | segment :: segments => do
    let rows ← segment.emit
    let others ← emitAll segments
    return rows ++ others

/-- The rows of the cases of a jump table. -/
def emitCases (join : Label) : List Label → List (List Segment) → StateM Nat (List Row)
  | name :: names, segments :: cases => do
    let rows ← emitAll segments
    let others ← emitCases join names cases
    return caseRows join name rows ++ others
  | _, _ => return []

end

/-- The rows of a branch whose taken arm leaves something behind. -/
def emitBranch (direct taken : List Segment) (left : List Row) : StateM Nat (List Row) := do
  let takenLabel ← fresh .taken
  let join ← fresh .join
  let directRows ← emitAll direct
  let takenRows ← emitAll taken
  return branchRows takenLabel join directRows takenRows left

/-- A branch is a segment if it leaves nothing behind. -/
theorem Segment.emit_branch (direct taken : List Segment) :
    (Segment.branch direct taken).emit = emitBranch direct taken [] :=
  rfl

/-- The rows of a program that stops behind its segments. -/
def program (segments : List Segment) : List Row :=
  (emitAll segments 0).1 ++ [command stop]

/-- The rows of a program that stops behind its segments and a branch, of which the taken arm
leaves an item behind. -/
def divergent (segments direct taken : List Segment) : List Row :=
  let (rows, number) := emitAll segments 0
  rows ++ (emitBranch direct taken [command push] number).1 ++ [command stop]

/-! ## How high the stack gets -/

mutual

/-- The greatest height of the stack in a segment. -/
def Segment.peak : Segment → Nat
  | .arithmetic additions => additions + 1
  | .call => 2
  | .branch direct taken => max 1 (max (peakAll direct) (peakAll taken))
  | .loop body => max 1 (peakAll body)
  | .table cases => max 1 (peakCases cases)

def peakAll : List Segment → Nat
  | [] => 0
  | segment :: segments => max segment.peak (peakAll segments)

def peakCases : List (List Segment) → Nat
  | [] => 0
  | segments :: cases => max (peakAll segments) (peakCases cases)

end

end EofStack.Structured
