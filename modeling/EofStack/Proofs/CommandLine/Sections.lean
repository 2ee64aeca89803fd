import EofStack.CommandLine.Command
import EofStack.Proofs.Collect
import EofStack.Proofs.Text
import Mathlib.Data.List.Forall2

/-!
# Sections that are joined

Texts that are joined by separator lines are cut apart again at these lines, as long as each of them
ends its last line and none of them holds a separator line.  An input that is not blank keeps all of
its sections, blank ones included, so that every section has the number of its text.
-/

namespace EofStack.CommandLine

/-- A line that separates sections, with the line feed that ends it. -/
structure IsSeparatorLine (line : List Char) : Prop where
  separates : isSeparator line = true
  ends : ∃ body, line = body ++ ['\n'] ∧ '\n' ∉ body

/-- A text that can be a section: it ends its last line, and no line separates. -/
structure IsSection (text : List Char) : Prop where
  ends : ∃ body, text = body ++ ['\n']
  lines : ∀ line ∈ Text.pieces text, isSeparator line = false

/-- The input is made of the texts with separator lines between them. -/
inductive Joined : List (List Char) → List Char → Prop
  | single (text : List Char) : Joined [text] text
  | cons (text : List Char) {line input : List Char} {texts : List (List Char)}
      (hline : IsSeparatorLine line) (h : Joined texts input) :
      Joined (text :: texts) (text ++ line ++ input)

/-! ## Cutting -/

theorem IsSeparatorLine.pieces_eq {line : List Char} (h : IsSeparatorLine line)
    (rest : List Char) : Text.pieces (line ++ rest) = line :: Text.pieces rest := by
  obtain ⟨body, rfl, hbody⟩ := h.ends
  rw [List.append_assoc, List.singleton_append, Text.pieces_append_cons hbody]

theorem IsSection.pieces_append {text : List Char} (h : IsSection text) (rest : List Char) :
    Text.pieces (text ++ rest) = Text.pieces text ++ Text.pieces rest := by
  obtain ⟨body, rfl⟩ := h.ends
  rw [List.append_assoc, List.singleton_append, Text.pieces_append]

/-- The lines of the input are cut where the texts were joined. -/
theorem Joined.fields_eq {texts : List (List Char)} {input : List Char} (h : Joined texts input)
    (hsections : ∀ text ∈ texts, IsSection text) :
    Text.fields isSeparator (Text.pieces input) = texts.map Text.pieces := by
  induction h with
  | single text =>
      have htext := hsections text (List.mem_singleton_self text)
      rw [List.map_singleton, Text.fields_of_forall htext.lines]
  | @cons text line input texts hline _ ih =>
      rw [List.forall_mem_cons] at hsections
      obtain ⟨htext, hrest⟩ := hsections
      rw [List.append_assoc, htext.pieces_append, hline.pieces_eq,
        Text.fields_append_cons htext.lines hline.separates, ih hrest, List.map_cons]

/-- Sections that are joined are found again, if one of them is not blank. -/
theorem Joined.splitSections_eq {texts : List (List Char)} {input : List Char}
    (h : Joined texts input) (hsections : ∀ text ∈ texts, IsSection text)
    (hblank : ∃ text ∈ texts, Text.allBlank text = false) : splitSections input = texts := by
  have hflatten : (texts.map Text.pieces).map List.flatten = texts := by
    rw [List.map_map]
    exact List.map_id'' Text.flatten_pieces texts
  have hsome : texts.all Text.allBlank = false := List.all_eq_false.mpr (by simpa using hblank)
  simp only [splitSections, h.fields_eq hsections, hflatten, hsome, Bool.false_eq_true, if_false]

/-! ## Reading all sections -/

/-- If every section has code, so has the container, in the same order. -/
theorem readSections_of_forall₂ {hex : Bool} {texts : List (List Char)} {codes : List Code}
    (h : List.Forall₂ (fun text code => readSection hex text = .ok code) texts codes)
    (number : Nat) : readSections hex number texts = .ok codes := by
  induction h generalizing number with
  | nil => rfl
  | @cons text code texts codes htext _ ih =>
      simp only [readSections, htext, ih (number + 1)]
      rfl

end EofStack.CommandLine
