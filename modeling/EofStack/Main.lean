import EofStack.CommandLine.Command

/-!
# The program `eof-verify`

Reads what the arguments name, and prints the response.  Warnings are printed unless `RUST_LOG` is
set, whatever it says, and without the time.
-/

namespace EofStack.CommandLine

/-- The system's number for an error, which may be given with either sign. -/
def systemNumber (code : UInt32) : Nat :=
  min code.toNat (UInt32.size - code.toNat)

/-- How the system's refusal is reported. -/
def ReadError.ofSystem : IO.Error → ReadError
  | .noFileOrDirectory .. => notFound
  | .inappropriateType _ code _ => if systemNumber code = 20 then notDirectory else isDirectory
  | .permissionDenied _ code _ => refused "Permission denied" (systemNumber code)
  | .invalidArgument _ code description =>
    if systemNumber code = 36 then nameTooLong else refused description (systemNumber code)
  | e => refused (toString e) 5

/-- Reads a source of the running system. -/
def Source.load (source : Source) : IO (Except ReadError ByteArray) := do
  try
    match source with
    | .standardInput => return .ok (← (← IO.getStdin).readBinToEnd)
    | .file path => return .ok (← IO.FS.readBinFile path)
  catch e => return .error (.ofSystem e)

/-- Runs the command on the running system. -/
def run (arguments : List String) : IO UInt32 := do
  let content ← match sourceOf? arguments with
    | some source => source.load
    | none => pure (.error .notFound)
  let response := respond arguments fun _ => content
  IO.print response.output
  if (← IO.getEnv "RUST_LOG").isNone then
    for warning in response.warnings do
      IO.eprintln (" WARN eof_verifier::container: " ++ warning.message)
  IO.eprint response.errors
  return UInt32.ofNat response.exitCode

end EofStack.CommandLine

def main (arguments : List String) : IO UInt32 :=
  EofStack.CommandLine.run arguments
