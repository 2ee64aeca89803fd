/-!
# Blank characters

Blanks separate words and surround entries wherever a text is read.  They are the
characters with the Unicode property `White_Space`; the class of the same name on
`Char` holds only the ones in ASCII.

Trimming drops blanks at both ends of a text and nothing between them.
-/

namespace EofStack.Text

/-- The code points with the property `White_Space`, as closed ranges in ascending order. -/
def blankRanges : List (Nat × Nat) :=
  [(0x09, 0x0d), (0x20, 0x20), (0x85, 0x85), (0xa0, 0xa0), (0x1680, 0x1680), (0x2000, 0x200a),
    (0x2028, 0x2029), (0x202f, 0x202f), (0x205f, 0x205f), (0x3000, 0x3000)]

/-- Whether a character has the property `White_Space`. -/
def isBlank (c : Char) : Bool :=
  blankRanges.any fun range => range.1 ≤ c.toNat && c.toNat ≤ range.2

/-- The text without its leading blanks. -/
def trimStart (text : List Char) : List Char :=
  text.dropWhile isBlank

/-- The text without its trailing blanks. -/
def trimEnd (text : List Char) : List Char :=
  (text.reverse.dropWhile isBlank).reverse

/-- The text without the blanks at its two ends. -/
def trim (text : List Char) : List Char :=
  trimEnd (trimStart text)

/-- Whether a text has no other characters than blanks. -/
def allBlank (text : List Char) : Bool :=
  text.all isBlank

@[simp] theorem isBlank_lineFeed : isBlank '\n' = true := by decide

@[simp] theorem trim_nil : trim [] = [] := rfl

end EofStack.Text
