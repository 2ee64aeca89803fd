import EofStack.Text.Blank
import EofStack.Text.Split

/-!
# Assembly source

Each line of a source may define a label, followed by a colon, and may hold one statement: a
mnemonic and its operands, with blanks or commas between them.  A comment begins with `;` or `#`
and goes on to the end of the line.

Reading a line never fails and looks nothing up.  Where no label stands before the first colon
the whole line is the statement.
-/

namespace EofStack.Assembly

/-- A mnemonic and its operands, as they are written. -/
structure Statement where
  mnemonic : String
  operands : List String
deriving DecidableEq, Repr

/-- What a line of source holds. -/
structure Line where
  /-- The number of the line, from 1. -/
  number : Nat
  label : Option String
  statement : Option Statement
deriving DecidableEq, Repr

/-- The labels of a source, each with the offset that it stands for. -/
abbrev Labels := List (String × Nat)

/-- The part of a line before its comment. -/
def withoutComment (text : List Char) : List Char :=
  text.takeWhile fun c => c ≠ ';' && c ≠ '#'

/-- Whether a character may begin a label. -/
def isLabelStart (c : Char) : Bool :=
  c.isAlpha || c = '_' || c = '.'

/-- Whether a character may occur in a label. -/
def isLabelChar (c : Char) : Bool :=
  c.isAlphanum || c = '_' || c = '.'

/-- Whether a text is a label: ASCII letters, digits, underscores and dots, with no digit in
front. -/
def isLabel (text : List Char) : Bool :=
  text.head?.any isLabelStart && text.all isLabelChar

/-- The label that a trimmed line defines, and the rest of the line. -/
def splitLabel (text : List Char) : Option (List Char) × List Char :=
  match text.dropWhile (· ≠ ':') with
  | [] => (none, text)
  | _ :: rest =>
    let label := Text.trim (text.takeWhile (· ≠ ':'))
    if isLabel label then (some label, Text.trim rest) else (none, text)

/-- Whether a character stands between words. -/
def isGap (c : Char) : Bool :=
  Text.isBlank c || c = ','

/-- The words of a text. -/
def words (text : List Char) : List (List Char) :=
  (Text.fields isGap text).filter (· ≠ [])

/-- The statement that a text holds; a text without words holds none. -/
def statement? (text : List Char) : Option Statement :=
  match (words text).map String.ofList with
  | [] => none
  | mnemonic :: operands => some ⟨mnemonic, operands⟩

/-- Reads the line with the given number. -/
def Line.ofChars (number : Nat) (text : List Char) : Line :=
  let (label, rest) := splitLabel (Text.trim (withoutComment text))
  ⟨number, label.map String.ofList, statement? rest⟩

/-- Reads all lines of a source. -/
def parse (source : String) : List Line :=
  (Text.lines source.toList).mapIdx fun index text => Line.ofChars (index + 1) text

end EofStack.Assembly
