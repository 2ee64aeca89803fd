import EofStack.Assembly.Assemble
import EofStack.Text.Quoted

/-!
# Sections

The input holds the sections of a container, with separator lines between them.  A separator
line holds three hyphens and blanks.  All else belongs to the sections, blank sections included;
but an input that is blank apart from its separators has no sections at all.

A section holds assembly, or a dump: hexadecimal digits with blanks anywhere between them, and
with or without `0x` in front.
-/

namespace EofStack

/-- The text of an error in a dump. -/
def Hex.DumpError.message : Hex.DumpError → String
  | oddLength => "Odd number of digits"
  | invalidDigit byte position =>
    "Invalid character " ++ Text.quoted (Char.ofNat byte.toNat) ++ " at position "
      ++ toString position

namespace CommandLine

/-- Whether a line separates sections. -/
def isSeparator (line : List Char) : Bool :=
  Text.trim line = ['-', '-', '-']

/-- The sections of an input. -/
def splitSections (input : List Char) : List (List Char) :=
  let sections := (Text.fields isSeparator (Text.pieces input)).map List.flatten
  if sections.all Text.allBlank then [] else sections

/-- The digits of a dump, without blanks and without the `0x` in front. -/
def dumpDigits (dump : List Char) : List Char :=
  match dump.filter fun c => !Text.isBlank c with
  | '0' :: 'x' :: digits => digits
  | digits => digits

/-- The code that a dump denotes. -/
def readDump (dump : List Char) : Except Hex.DumpError Code :=
  (Hex.bytes ((dumpDigits dump).flatMap String.utf8EncodeChar)).map List.toArray

/-- Why a section cannot be read. -/
inductive SectionError
  | assembly (fault : Assembly.Fault)
  | dump (error : Hex.DumpError)
deriving DecidableEq, Repr

/-- The text of an error. -/
def SectionError.message : SectionError → String
  | assembly fault => fault.message
  | dump error => "invalid hex: " ++ error.message

/-- The code of a section, which holds a dump if `hex` is set. -/
def readSection (hex : Bool) (text : List Char) : Except SectionError Code :=
  if hex then
    match readDump text with
    | .ok code => .ok code
    | .error e => .error (.dump e)
  else
    match Assembly.assemble (String.ofList text) with
    | .ok code => .ok code
    | .error fault => .error (.assembly fault)

end CommandLine

end EofStack
