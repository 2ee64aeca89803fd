import EofStack.Proofs.Text
import Mathlib.Data.List.TakeWhile

/-!
# Trimming a composed text

Blanks around a text are trimmed together with those of the text, so that they do not matter
(`trim_append_append`).  A character that is not blank keeps the two sides of a text apart: in front
of it only leading blanks are trimmed, and behind it only trailing ones (`trim_append_cons`).
-/

namespace EofStack.Text

variable {left text right : List Char} {c : Char}

theorem trimStart_append (h : allBlank left = true) (text : List Char) :
    trimStart (left ++ text) = trimStart text :=
  List.dropWhile_append_of_pos (List.all_eq_true.mp h)

theorem trimEnd_append (h : allBlank right = true) (text : List Char) :
    trimEnd (text ++ right) = trimEnd text := by
  have hreverse : ∀ c ∈ right.reverse, isBlank c = true :=
    fun c hc => List.all_eq_true.mp h c (List.mem_reverse.mp hc)
  rw [trimEnd, List.reverse_append, List.dropWhile_append_of_pos hreverse, trimEnd]

theorem trimStart_append_cons (hc : isBlank c = false) (left right : List Char) :
    trimStart (left ++ c :: right) = trimStart left ++ c :: right := by
  induction left with
  | nil => simp [trimStart, hc]
  | cons d left ih =>
      simp only [trimStart, List.cons_append, List.dropWhile_cons] at ih ⊢
      split
      · exact ih
      · rfl

theorem trimEnd_append_cons (hc : isBlank c = false) (left right : List Char) :
    trimEnd (left ++ c :: right) = left ++ c :: trimEnd right := by
  have hreverse := trimStart_append_cons hc right.reverse left.reverse
  rw [trimStart, trimStart] at hreverse
  rw [trimEnd, trimEnd, List.reverse_append, List.reverse_cons, List.append_assoc,
    List.singleton_append, hreverse, List.reverse_append, List.reverse_cons, List.reverse_reverse,
    List.append_assoc, List.singleton_append]

theorem trim_append_cons (hc : isBlank c = false) (left right : List Char) :
    trim (left ++ c :: right) = trimStart left ++ c :: trimEnd right := by
  rw [trim, trimStart_append_cons hc, trimEnd_append_cons hc]

theorem exists_eq_append_trimStart (text : List Char) :
    ∃ left, allBlank left = true ∧ text = left ++ trimStart text :=
  ⟨text.takeWhile isBlank, List.all_takeWhile, (List.takeWhile_append_dropWhile).symm⟩

theorem exists_eq_trimEnd_append (text : List Char) :
    ∃ right, allBlank right = true ∧ text = trimEnd text ++ right := by
  obtain ⟨right, hright, htext⟩ := exists_eq_append_trimStart text.reverse
  refine ⟨right.reverse, by rw [allBlank, List.all_reverse]; exact hright, ?_⟩
  rw [trimEnd, ← List.reverse_append, ← trimStart, ← htext, List.reverse_reverse]

/-- Blanks around a text do not matter to what it is trimmed to. -/
theorem trim_append_append (hleft : allBlank left = true) (hright : allBlank right = true) :
    trim (left ++ text ++ right) = trim text := by
  rw [trim, List.append_assoc, trimStart_append hleft, trim]
  by_cases hblank : allBlank text = true
  · have hnil : ∀ {text : List Char}, allBlank text = true → trimStart text = [] :=
      fun h => List.dropWhile_eq_nil_iff.mpr (List.all_eq_true.mp h)
    rw [hnil hblank, trimStart_append hblank, hnil hright]
  · obtain ⟨c, hmem, hc⟩ := List.all_eq_false.mp (Bool.eq_false_iff.mpr hblank)
    obtain ⟨before, after, rfl⟩ := List.append_of_mem hmem
    have hc := Bool.eq_false_iff.mpr hc
    rw [List.append_assoc, List.cons_append, trimStart_append_cons hc, trimStart_append_cons hc,
      trimEnd_append_cons hc, trimEnd_append_cons hc, trimEnd_append hright]

theorem trim_trimStart (text : List Char) : trim (trimStart text) = trim text := by
  obtain ⟨left, hleft, htext⟩ := exists_eq_append_trimStart text
  calc trim (trimStart text)
      = trim (left ++ trimStart text ++ []) := (trim_append_append hleft rfl).symm
    _ = trim text := by rw [List.append_nil, ← htext]

theorem trim_trimEnd (text : List Char) : trim (trimEnd text) = trim text := by
  obtain ⟨right, hright, htext⟩ := exists_eq_trimEnd_append text
  calc trim (trimEnd text)
      = trim ([] ++ trimEnd text ++ right) := (trim_append_append rfl hright).symm
    _ = trim text := by rw [List.nil_append, ← htext]

/-- A text is what it is trimmed to, with blanks around it. -/
theorem exists_eq_append_trim (text : List Char) : ∃ left right, allBlank left = true ∧
    allBlank right = true ∧ text = left ++ trim text ++ right := by
  obtain ⟨left, hleft, hstart⟩ := exists_eq_append_trimStart text
  obtain ⟨right, hright, hend⟩ := exists_eq_trimEnd_append (trimStart text)
  refine ⟨left, right, hleft, hright, ?_⟩
  rw [trim, List.append_assoc, ← hend, ← hstart]

/-- Only blanks are trimmed. -/
theorem mem_trim (hmem : c ∈ text) (hc : isBlank c = false) : c ∈ trim text := by
  obtain ⟨left, right, hleft, hright, htext⟩ := exists_eq_append_trim text
  have hnot : ∀ {space : List Char}, allBlank space = true → c ∉ space := by
    intro space hblank hspace
    rw [List.all_eq_true.mp hblank c hspace] at hc
    cases hc
  rw [htext, List.mem_append, List.mem_append] at hmem
  rcases hmem with (hmem | hmem) | hmem
  · exact absurd hmem (hnot hleft)
  · exact hmem
  · exact absurd hmem (hnot hright)

end EofStack.Text
