import EofStack.CommandLine.Input
import EofStack.CommandLine.Section
import EofStack.Container.Verifier
import EofStack.FunctionType.Parse

/-!
# The command

The command reads the sections of a container, verifies it and prints the greatest height of the
stack in each function.

Its steps are taken in a fixed order, and the first that fails decides the answer: the
arguments, the input, each section, the list of types, the container.  Nothing is printed to
standard output unless all succeed.

Standard error has what was logged, and behind it the text of the command itself.  With `--parallel`
all functions are verified at a time, and it is a matter of chance in which order they are
completed; the answer is a function of that order.
-/

namespace EofStack.CommandLine

/-- Why a run fails after its arguments were understood. -/
inductive Failure
  | input (source : Source) (error : ReadError)
  | code (number : Nat) (error : SectionError)
  | types (error : TypeError)
  | rejected (error : ContainerError)
deriving DecidableEq, Repr

/-- The text of a failure. -/
def Failure.message : Failure → String
  | input source error => "failed to read " ++ source.name ++ ": " ++ error.message
  | code number error => "section " ++ toString number ++ ": " ++ error.message
  | types error => error.message
  | rejected error => "container rejected: " ++ error.message

/-- The code of all sections, numbered from `number` on. -/
def readSections (hex : Bool) (number : Nat) : List (List Char) → Except Failure (List Code)
  | [] => .ok []
  | text :: rest =>
    match readSection hex text with
    | .error e => .error (.code number e)
    | .ok code => (readSections hex (number + 1) rest).map (code :: ·)

/-- The types that options give, or else the one of an entry function for every section. -/
def typesFor (options : Options) (sections : Nat) : Except Failure TypeTable :=
  match options.types with
  | none => .ok (Array.replicate sections .entry)
  | some list =>
    match TypeTable.parse list with
    | .ok types => .ok types
    | .error e => .error (.types e)

/-- A container as it was read. -/
structure Container where
  types : TypeTable
  sections : List Code

/-- Reads a container. -/
def readContainer (options : Options) (read : Reader) : Except Failure Container := do
  let source := Source.ofOptions options
  let text ← match source.readText read with
    | .ok text => .ok text
    | .error e => .error (.input source e)
  let sections ← readSections options.hex 0 (splitSections text.toList)
  let types ← typesFor options sections.length
  return { types, sections }

/-- The orders in which functions are completed that are verified at a time, however many there
are. -/
abbrev Schedules := ∀ size, Verifier.Schedule size

/-- Functions are completed in the order of their ids. -/
def Schedules.inOrder : Schedules :=
  Verifier.Schedule.inOrder

namespace Container

/-- What the container is verified against. -/
def verifier (container : Container) : Verifier :=
  { types := container.types }

/-- Verifies a container, one function after the other or all at a time. -/
def verify (container : Container) (parallel : Bool) (schedules : Schedules) : Verifier.Outcome :=
  if parallel then
    container.verifier.verifyCompleting container.sections (schedules container.sections.length)
  else container.verifier.verifyInTurn container.sections

end Container

/-- What a run leaves behind. -/
structure Response where
  exitCode : Nat
  output : String
  /-- What the command itself prints to standard error. -/
  errors : String
  /-- What is logged in front of that, at the default level. -/
  warnings : List Warning
deriving DecidableEq, Repr

/-- The lines that are printed for an accepted container. -/
def reportText (report : Report) : String :=
  String.join (report.heights.mapIdx fun id height =>
    "function " ++ toString id ++ ": max stack height " ++ toString height ++ "\n")

/-- The response to a failure. -/
def Failure.response (failure : Failure) (warnings : List Warning) : Response :=
  ⟨1, "", "Error: " ++ failure.message ++ "\n", warnings⟩

/-- The response to a container that was read and verified. -/
def responseTo (outcome : Verifier.Outcome) : Response :=
  match outcome.verdict with
  | .ok report => ⟨0, reportText report, "", outcome.warnings⟩
  | .error e => (Failure.rejected e).response outcome.warnings

/-- Runs the command. -/
def respond (arguments : List String) (read : Reader) (schedules : Schedules := .inOrder) :
    Response :=
  if asksForHelp arguments then ⟨0, "", usage ++ "\n", []⟩
  else
    match Options.parse arguments with
    | .error e => ⟨2, "", "Error: " ++ e.message ++ "\n\n" ++ usage ++ "\n", []⟩
    | .ok options =>
      match readContainer options read with
      | .error failure => failure.response []
      | .ok container => responseTo (container.verify options.parallel schedules)

/-- The source that a run with the given arguments reads, if it gets that far. -/
def sourceOf? (arguments : List String) : Option Source :=
  if asksForHelp arguments then none
  else (Options.parse arguments).toOption.map Source.ofOptions

end EofStack.CommandLine
