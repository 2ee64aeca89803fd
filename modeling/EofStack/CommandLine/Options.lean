/-!
# Options

What the arguments ask for.  Arguments are read from left to right, and the first one that
cannot be understood is the error.
-/

namespace EofStack.CommandLine

/-- What the arguments ask for. -/
structure Options where
  /-- The list of function types; where several are given, the last. -/
  types : Option String := none
  /-- Sections are written as hexadecimal digits, not as assembly. -/
  hex : Bool := false
  /-- Functions are verified concurrently. -/
  parallel : Bool := false
  /-- The file to read. -/
  path : Option String := none
deriving DecidableEq, Repr

/-- Why the arguments cannot be understood. -/
inductive UsageError
  | missingTypes
  | unknownOption (argument : String)
  | secondPath
deriving DecidableEq, Repr

/-- The text of an error. -/
def UsageError.message : UsageError → String
  | missingTypes => "--types requires a value"
  | unknownOption argument => "unknown option '" ++ argument ++ "'"
  | secondPath => "more than one input file"

/-- Whether an argument is an option.  A single hyphen is the path of standard input. -/
def isOption (argument : String) : Bool :=
  argument.toList.head? = some '-' && argument ≠ "-"

namespace Options

/-- Reads arguments on top of the options read so far. -/
def extend (options : Options) : List String → Except UsageError Options
  | [] => .ok options
  | argument :: rest =>
    if argument = "--types" then
      match rest with
      | [] => .error .missingTypes
      | types :: rest => extend { options with types := some types } rest
    else if argument = "--hex" then extend { options with hex := true } rest
    else if argument = "--parallel" then extend { options with parallel := true } rest
    else if isOption argument then .error (.unknownOption argument)
    else if options.path.isSome then .error .secondPath
    else extend { options with path := some argument } rest

/-- Reads all arguments. -/
def parse (arguments : List String) : Except UsageError Options :=
  extend {} arguments

end Options

/-- Whether the arguments ask for help.  They do wherever the request stands, even in the place
of a value. -/
def asksForHelp (arguments : List String) : Bool :=
  arguments.any fun argument => argument = "--help" || argument = "-h"

/-- The help text. -/
def usage : String :=
  String.intercalate "\n" [
    "eof-verify - EOF code section stack validation tool",
    "",
    "Usage: eof-verify [OPTIONS] [FILE]",
    "",
    "Reads code sections from FILE (or stdin), separated by lines containing only",
    "'---', and validates each one as a function of the same container.",
    "",
    "Options:",
    "  --types <LIST>  Function types as in:out[:max_stack_height], comma separated",
    "                  (default: 0:0 for every section)",
    "  --hex           Sections are hex encoded code instead of assembly",
    "  --parallel      Validate functions concurrently",
    "  --help, -h      Show this help message",
    "",
    "Logging is controlled through RUST_LOG (default: warn)."]

end EofStack.CommandLine
