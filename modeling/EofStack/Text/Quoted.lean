/-!
# Quoted characters

How a message shows a single character of the Latin-1 range: between apostrophes, with an
escape where the bare character would be misread or not be seen.
-/

namespace EofStack.Text

/-- Whether a Latin-1 character leaves no mark of its own: the two control ranges, the
no-break space and the soft hyphen. -/
def isUnseen (c : Char) : Bool :=
  c.toNat < 0x20 || (0x7f ≤ c.toNat && c.toNat ≤ 0xa0) || c.toNat = 0xad

/-- The character as it stands between the apostrophes. -/
def escaped (c : Char) : String :=
  if c = '\x00' then "\\0"
  else if c = '\t' then "\\t"
  else if c = '\r' then "\\r"
  else if c = '\n' then "\\n"
  else if c = '\'' then "\\'"
  else if c = '\\' then "\\\\"
  else if isUnseen c then "\\u\x7b" ++ String.ofList (Nat.toDigits 16 c.toNat) ++ "\x7d"
  else c.toString

/-- The character between apostrophes. -/
def quoted (c : Char) : String :=
  "'" ++ escaped c ++ "'"

end EofStack.Text
