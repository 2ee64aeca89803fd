import EofStack.Proofs.Assembly.Source
import EofStack.Proofs.CommandLine.Sections
import EofStack.Proofs.Digits
import EofStack.Proofs.Hex

/-!
# Dumps of code

A dump of code is `0x` and the digits of its bytes, of either case, with blanks put in anywhere,
also between the digits of one byte and within `0x`.  Whatever blanks there are, the dump reads back
as the code, and it is a section of its own: no line of it separates.
-/

namespace EofStack

/-! ## Digits -/

namespace Hex

end Hex

/-! ## Blanks between them -/

/-- The text is the word with blanks put in. -/
inductive Spaced : List Char → List Char → Prop
  | nil : Spaced [] []
  | blank {c : Char} {word text : List Char} (hblank : Text.isBlank c = true)
      (h : Spaced word text) : Spaced word (c :: text)
  | char (c : Char) {word text : List Char} (h : Spaced word text) :
      Spaced (c :: word) (c :: text)

theorem Spaced.subset {word text : List Char} (h : Spaced word text) {c : Char} (hc : c ∈ word) :
    c ∈ text := by
  induction h with
  | nil => cases hc
  | blank _ _ ih => exact List.mem_cons_of_mem _ (ih hc)
  | char c' _ ih =>
      rcases List.mem_cons.mp hc with rfl | hc
      · exact List.mem_cons_self
      · exact List.mem_cons_of_mem _ (ih hc)

/-! ## Dumps -/

namespace CommandLine

variable {code : Code} {dump : List Char}

end CommandLine

end EofStack
