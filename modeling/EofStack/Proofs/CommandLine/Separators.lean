import EofStack.Proofs.CommandLine.Sections
import EofStack.Proofs.Text.Cutting

/-!
# Putting the separator lines back

No character of an input gets lost between its sections, none is read twice, and none changes its
place: an input is its sections with its separator lines between them.  Blank sections count, so
that a section keeps its number whatever the sections in front of it hold.  Only an input that is
blank apart from separator lines has no sections.

## Strategy

Cutting a list at its separators leaves one part more than there are separators, and parts and
separators together are the list again (`Text.length_fields`, `interleave_fields`).  What remains is
that the lines of a section are the lines of the input that it is made of
(`Text.AreLines.of_mem_fields`).
-/

namespace EofStack.CommandLine

/-! ## Sections and separator lines -/

/-- The lines of an input that separate its sections, in order. -/
def separators (input : List Char) : List (List Char) :=
  (Text.pieces input).filter isSeparator

/-- The characters of an input outside its separator lines. -/
def outside (input : List Char) : List Char :=
  ((Text.pieces input).filter fun line => !isSeparator line).flatten

/-- Texts with lines between them, one line behind each text but the last. -/
def interleave : List (List Char) → List (List Char) → List Char
  | text :: texts, line :: lines => text ++ line ++ interleave texts lines
  | texts, _ => texts.flatten

theorem interleave_append (item text : List Char) (texts lines : List (List Char)) :
    interleave ((item ++ text) :: texts) lines = item ++ interleave (text :: texts) lines := by
  cases lines with
  | nil => simp [interleave]
  | cons line lines => simp [interleave]

theorem interleave_fields (isSeparator : List Char → Bool) (lines : List (List Char)) :
    interleave ((Text.fields isSeparator lines).map List.flatten) (lines.filter isSeparator) =
      lines.flatten := by
  induction lines with
  | nil => rfl
  | cons line lines ih =>
      rw [Text.fields_cons]
      by_cases h : isSeparator line = true
      · rw [if_pos h, List.filter_cons_of_pos h, List.map_cons, List.flatten_nil, interleave,
          List.nil_append, ih, List.flatten_cons]
      · obtain ⟨first, rest, hfields⟩ := Text.exists_fields_eq_cons isSeparator lines
        rw [hfields] at ih ⊢
        rw [if_neg h, List.filter_cons_of_neg h, List.headD_cons, List.tail_cons, List.map_cons,
          List.flatten_cons, interleave_append, ← List.map_cons, ih, List.flatten_cons]

/-- An input has no sections if it is blank outside its separator lines, and else all that stands
between them. -/
theorem splitSections_eq (input : List Char) :
    splitSections input =
      if Text.allBlank (outside input) then []
      else (Text.fields isSeparator (Text.pieces input)).map List.flatten := by
  have hblank : ((Text.fields isSeparator (Text.pieces input)).map List.flatten).all Text.allBlank =
      Text.allBlank (outside input) := by
    rw [outside, ← Text.flatten_fields, List.flatten_flatten, Text.allBlank, List.all_flatten]
    rfl
  rw [splitSections, hblank]

/-- Texts with separator lines between them. -/
theorem joined_interleave {texts lines : List (List Char)}
    (hlength : texts.length = lines.length + 1) (hlines : ∀ line ∈ lines, IsSeparatorLine line) :
    Joined texts (interleave texts lines) := by
  induction lines generalizing texts with
  | nil =>
      obtain ⟨text, rfl⟩ := List.length_eq_one_iff.mp hlength
      rw [interleave, List.flatten_singleton]
      · exact .single text
      · simp
  | cons line lines ih =>
      rw [List.forall_mem_cons] at hlines
      obtain ⟨text, texts, rfl⟩ := List.exists_cons_of_length_eq_add_one hlength
      exact .cons text hlines.1 (ih (Nat.succ.inj hlength) hlines.2)

/-- **The sections of an input are all that there is between its separator lines.** -/
theorem splitSections_interleave :
    (∀ input, Text.allBlank (outside input) = true → splitSections input = []) ∧
    (∀ input, Text.allBlank (outside input) = false →
      (splitSections input).length = (separators input).length + 1 ∧
      interleave (splitSections input) (separators input) = input ∧
      ∀ text ∈ splitSections input, ∀ line ∈ Text.pieces text, isSeparator line = false) ∧
    ∀ texts lines : List (List Char), texts.length = lines.length + 1 →
      (∀ text ∈ texts, IsSection text) → (∀ line ∈ lines, IsSeparatorLine line) →
      (∃ text ∈ texts, Text.allBlank text = false) →
      splitSections (interleave texts lines) = texts := by
  refine ⟨fun input hblank => ?_, fun input hblank => ?_, ?_⟩
  · rw [splitSections_eq, if_pos hblank]
  · have hsections : splitSections input =
        (Text.fields isSeparator (Text.pieces input)).map List.flatten := by
      rw [splitSections_eq, hblank, if_neg Bool.false_ne_true]
    rw [hsections]
    refine ⟨?_, ?_, fun text htext line hline => ?_⟩
    · rw [List.length_map, Text.length_fields, separators]
    · rw [separators, interleave_fields, Text.flatten_pieces]
    · obtain ⟨part, hpart, rfl⟩ := List.mem_map.mp htext
      rw [((Text.areLines_pieces input).of_mem_fields hpart).pieces_flatten] at hline
      exact Text.isSeparator_of_mem_fields hpart hline
  · intro texts lines hlength hsections hlines hsome
    exact (joined_interleave hlength hlines).splitSections_eq hsections hsome

/-- Two blank sections between others, one of them without any character, and separator lines of
three kinds. -/
def blankBetween : List Char :=
  "stop\n---\n\n\t--- \r\n---\nadd".toList

theorem splitSections_interleave_blankBetween :
    Text.allBlank (outside blankBetween) = false ∧
      separators blankBetween = ["---\n".toList, "\t--- \r\n".toList, "---\n".toList] ∧
      (splitSections blankBetween).length = 4 ∧
      interleave (splitSections blankBetween) (separators blankBetween) = blankBetween ∧
      splitSections (interleave ["\n".toList, "stop\n".toList] [" ---\n".toList]) =
        ["\n".toList, "stop\n".toList] := by
  obtain ⟨-, hsplit, hjoin⟩ := splitSections_interleave
  have hsome : Text.allBlank (outside blankBetween) = false := by decide +kernel
  have hlines : separators blankBetween =
      ["---\n".toList, "\t--- \r\n".toList, "---\n".toList] := by decide +kernel
  obtain ⟨hlength, hrebuilt, -⟩ := hsplit blankBetween hsome
  rw [hlines] at hlength
  refine ⟨hsome, hlines, hlength, hrebuilt, hjoin _ _ rfl ?_ ?_ ?_⟩
  · have hblank : IsSection "\n".toList := ⟨⟨[], rfl⟩, by decide +kernel⟩
    have hstop : IsSection "stop\n".toList := ⟨⟨"stop".toList, rfl⟩, by decide +kernel⟩
    simp only [List.forall_mem_cons]
    exact ⟨hblank, hstop, List.forall_mem_nil _⟩
  · rw [List.forall_mem_singleton]
    exact ⟨by decide +kernel, " ---".toList, rfl, by decide⟩
  · exact ⟨"stop\n".toList, by simp, by decide +kernel⟩

end EofStack.CommandLine
