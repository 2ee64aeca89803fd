import EofStack.FunctionType.Basic
import EofStack.Text.Blank
import EofStack.Text.Split
import EofStack.Numeral

/-!
# Reading function types

A type is written as two or three numerals with colons between them, a list of types as types
with commas between them.  Blanks may surround a type but not a numeral.  Entries of a list that
are blank are passed over and take no id.
-/

namespace EofStack

/-- A text that is no function type. -/
structure TypeError where
  text : String
deriving DecidableEq, Repr

namespace TypeError

/-- The text of an error. -/
def message (e : TypeError) : String :=
  "invalid function type '" ++ e.text
    ++ "': expected <inputs>:<outputs>[:<max_stack_height>]"

end TypeError

namespace FunctionType

/-- The type that the trimmed text denotes. -/
def ofChars? (text : List Char) : Option FunctionType :=
  match Text.fields (· = ':') (Text.trim text) with
  | [inputs, outputs] => do
    let inputs ← Numeral.natural? 255 inputs
    let outputs ← Numeral.natural? 255 outputs
    return ⟨UInt8.ofNat inputs, UInt8.ofNat outputs, none⟩
  | [inputs, outputs, height] => do
    let inputs ← Numeral.natural? 255 inputs
    let outputs ← Numeral.natural? 255 outputs
    let height ← Numeral.natural? 65535 height
    return ⟨UInt8.ofNat inputs, UInt8.ofNat outputs, some (UInt16.ofNat height)⟩
  | _ => none

/-- Reads one type.  An error shows the text untrimmed. -/
def parse (text : String) : Except TypeError FunctionType :=
  match ofChars? text.toList with
  | some type => .ok type
  | none => .error ⟨text⟩

end FunctionType

namespace TypeTable

/-- The entries of a list of types that are not blank. -/
def entries (text : String) : List String :=
  ((Text.fields (· = ',') text.toList).filter fun entry => !Text.allBlank entry).map String.ofList

/-- Reads a list of types; the first entry that is none is the error. -/
def parse (text : String) : Except TypeError TypeTable :=
  ((entries text).mapM FunctionType.parse).map List.toArray

end TypeTable

end EofStack
