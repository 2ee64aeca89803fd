import EofStack.Text.Blank
import EofStack.Text.Split

/-!
# Cutting what was joined

`fields` and `lines` cut a text where its parts were joined, as long as no part holds what it is
cut at.  Trimming leaves a text alone that neither begins nor ends with a blank.
-/

namespace EofStack.Text

/-! ## Trimming -/

theorem dropWhile_eq_self {α : Type} {p : α → Bool} {items : List α}
    (h : ∀ item ∈ items.head?, p item = false) : items.dropWhile p = items := by
  cases items with
  | nil => rfl
  | cons item items => rw [List.dropWhile_cons_of_neg (by simp [h item rfl])]

/-- A text without blanks at its ends is trimmed. -/
theorem trim_eq_self {text : List Char} (hhead : ∀ c ∈ text.head?, isBlank c = false)
    (hlast : ∀ c ∈ text.getLast?, isBlank c = false) : trim text = text := by
  rw [List.getLast?_eq_head?_reverse] at hlast
  rw [trim, trimStart, dropWhile_eq_self hhead, trimEnd, dropWhile_eq_self hlast,
    List.reverse_reverse]

theorem mem_of_mem_trim {text : List Char} {c : Char} (h : c ∈ trim text) : c ∈ text := by
  rw [trim, trimEnd, List.mem_reverse] at h
  have hstart := (List.dropWhile_sublist isBlank).subset h
  rw [List.mem_reverse] at hstart
  exact (List.dropWhile_sublist isBlank).subset hstart

/-! ## Fields -/

section

variable {α : Type} {isSeparator : α → Bool} {items : List α}

/-- Without separators there is one field. -/
theorem fields_of_forall (h : ∀ item ∈ items, isSeparator item = false) :
    fields isSeparator items = [items] := by
  induction items with
  | nil => rfl
  | cons item items ih =>
      rw [List.forall_mem_cons] at h
      rw [fields_cons, ih h.2]
      simp [h.1]

/-- The first separator ends the first field. -/
theorem fields_append_cons (h : ∀ item ∈ items, isSeparator item = false) {separator : α}
    (hseparator : isSeparator separator = true) (rest : List α) :
    fields isSeparator (items ++ separator :: rest) = items :: fields isSeparator rest := by
  induction items with
  | nil => simp [fields_cons, hseparator]
  | cons item items ih =>
      rw [List.forall_mem_cons] at h
      rw [List.cons_append, fields_cons, ih h.2]
      simp [h.1]

/-- Fields that hold no separator are cut where they were joined. -/
theorem fields_intercalate {parts : List (List α)} (hne : parts ≠ [])
    (h : ∀ part ∈ parts, ∀ item ∈ part, isSeparator item = false) {separator : α}
    (hseparator : isSeparator separator = true) :
    fields isSeparator ([separator].intercalate parts) = parts := by
  induction parts with
  | nil => exact absurd rfl hne
  | cons part parts ih =>
      rw [List.forall_mem_cons] at h
      cases parts with
      | nil => rw [List.intercalate_singleton, fields_of_forall h.1]
      | cons other parts =>
          rw [List.intercalate_cons_cons, List.append_assoc, List.singleton_append,
            fields_append_cons h.1 hseparator, ih (by simp) h.2]

end

theorem mem_intercalate {α : Type} {separator : List α} {parts : List (List α)} {item : α}
    (h : item ∈ separator.intercalate parts) :
    (∃ part ∈ parts, item ∈ part) ∨ item ∈ separator := by
  induction parts with
  | nil => cases h
  | cons part parts ih =>
      cases parts with
      | nil =>
          rw [List.intercalate_singleton] at h
          exact Or.inl ⟨part, List.mem_singleton_self part, h⟩
      | cons other parts =>
          rw [List.intercalate_cons_cons, List.mem_append, List.mem_append] at h
          rcases h with (hpart | hseparator) | hrest
          · exact Or.inl ⟨part, List.mem_cons_self, hpart⟩
          · exact Or.inr hseparator
          · refine (ih hrest).imp_left ?_
            rintro ⟨part', hpart', hitem⟩
            exact ⟨part', List.mem_cons_of_mem _ hpart', hitem⟩

/-! ## Lines -/

variable {text : List Char}

/-- The last line may lack its line feed, but not all of its characters. -/
theorem pieces_of_not_mem (hne : text ≠ []) (h : '\n' ∉ text) : pieces text = [text] := by
  induction text with
  | nil => exact absurd rfl hne
  | cons c text ih =>
      rw [List.mem_cons, not_or] at h
      rw [pieces_cons, if_neg (Ne.symm h.1)]
      cases text with
      | nil => rfl
      | cons => rw [ih (by simp) h.2]; rfl

/-- The first line feed ends the first piece. -/
theorem pieces_append_cons (h : '\n' ∉ text) (rest : List Char) :
    pieces (text ++ '\n' :: rest) = (text ++ ['\n']) :: pieces rest := by
  induction text with
  | nil => simp [pieces_cons]
  | cons c text ih =>
      rw [List.mem_cons, not_or] at h
      rw [List.cons_append, pieces_cons, if_neg (Ne.symm h.1), ih h.2]
      rfl

/-- A text that ends its last line is cut apart from what follows it. -/
theorem pieces_append {body : List Char} (rest : List Char) :
    pieces (body ++ '\n' :: rest) = pieces (body ++ ['\n']) ++ pieces rest := by
  induction body with
  | nil => simp [pieces_cons]
  | cons c body ih =>
      rw [List.cons_append, List.cons_append, pieces_cons, pieces_cons, ih]
      by_cases hc : c = '\n'
      · rw [if_pos hc, if_pos hc, List.cons_append]
      · rw [if_neg hc, if_neg hc]
        cases hpieces : pieces (body ++ ['\n']) with
        | nil =>
            have hflatten := flatten_pieces (body ++ ['\n'])
            rw [hpieces] at hflatten
            simp at hflatten
        | cons piece others => rfl

theorem withoutLineEnd_of_not_mem (h : '\n' ∉ text) : withoutLineEnd text = text := by
  have hreverse : '\n' ∉ text.reverse := by rwa [List.mem_reverse]
  unfold withoutLineEnd
  split
  · next heq => simp [heq] at hreverse
  · next heq => simp [heq] at hreverse
  · rfl

theorem withoutLineEnd_append (h : '\r' ∉ text) : withoutLineEnd (text ++ ['\n']) = text := by
  have hreverse : '\r' ∉ text.reverse := by rwa [List.mem_reverse]
  rw [withoutLineEnd, List.reverse_append, List.reverse_singleton, List.singleton_append]
  split
  · next rest heq =>
    rw [List.cons.injEq] at heq
    simp [heq.2] at hreverse
  · next rest _ heq =>
    rw [List.cons.injEq] at heq
    rw [← heq.2, List.reverse_reverse]
  · next _ hother => exact (hother _ rfl).elim

/-- Lines that each end in a line feed are cut behind it. -/
theorem lines_flatMap {texts : List (List Char)} (h : ∀ text ∈ texts, '\n' ∉ text ∧ '\r' ∉ text) :
    lines (texts.flatMap (· ++ ['\n'])) = texts := by
  induction texts with
  | nil => rfl
  | cons text texts ih =>
      rw [List.forall_mem_cons] at h
      obtain ⟨⟨hfeed, hreturn⟩, hrest⟩ := h
      rw [List.flatMap_cons, List.append_assoc, List.singleton_append, lines,
        pieces_append_cons hfeed, List.map_cons, withoutLineEnd_append hreturn]
      exact congrArg (text :: ·) (ih hrest)

/-- Lines that are joined by line feeds are cut there again. -/
theorem lines_intercalate {texts : List (List Char)}
    (h : ∀ text ∈ texts, text ≠ [] ∧ '\n' ∉ text ∧ '\r' ∉ text) :
    lines (['\n'].intercalate texts) = texts := by
  induction texts with
  | nil => rfl
  | cons text texts ih =>
      rw [List.forall_mem_cons] at h
      obtain ⟨⟨hne, hfeed, hreturn⟩, hrest⟩ := h
      cases texts with
      | nil =>
          rw [List.intercalate_singleton, lines, pieces_of_not_mem hne hfeed, List.map_singleton,
            withoutLineEnd_of_not_mem hfeed]
      | cons text' texts =>
          rw [List.intercalate_cons_cons, List.append_assoc, List.singleton_append, lines,
            pieces_append_cons hfeed, List.map_cons, withoutLineEnd_append hreturn]
          exact congrArg (text :: ·) (ih hrest)

end EofStack.Text
