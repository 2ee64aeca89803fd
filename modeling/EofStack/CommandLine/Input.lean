import EofStack.CommandLine.Options

/-!
# Input

The input is read from a file or from standard input, as bytes, and has to be UTF-8.  What is
found there is left to a `Reader`.
-/

namespace EofStack.CommandLine

/-- Where the input comes from. -/
inductive Source
  | standardInput
  | file (path : String)
deriving DecidableEq, Repr

/-- Why a source cannot be read. -/
inductive ReadError
  /-- The system refuses, with its own description and number. -/
  | refused (description : String) (code : Nat)
  | notText
deriving DecidableEq, Repr

namespace ReadError

def notFound : ReadError := refused "No such file or directory" 2

def notDirectory : ReadError := refused "Not a directory" 20

def isDirectory : ReadError := refused "Is a directory" 21

def nameTooLong : ReadError := refused "File name too long" 36

/-- The text of an error. -/
def message : ReadError → String
  | refused description code => description ++ " (os error " ++ toString code ++ ")"
  | notText => "stream did not contain valid UTF-8"

end ReadError

/-- What is found at each source. -/
abbrev Reader := Source → Except ReadError ByteArray

namespace Source

/-- How messages call a source. -/
def name : Source → String
  | standardInput => "stdin"
  | file path => path

/-- The source that options name; a single hyphen stands for standard input. -/
def ofOptions (options : Options) : Source :=
  match options.path with
  | some path => if path = "-" then standardInput else file path
  | none => standardInput

/-- The text of a source. -/
def readText (source : Source) (read : Reader) : Except ReadError String :=
  match read source with
  | .error e => .error e
  | .ok bytes =>
    match String.fromUTF8? bytes with
    | some text => .ok text
    | none => .error .notText

end Source

end EofStack.CommandLine
