import EofStack.Proofs.Text

/-!
# What a text is cut into

Cutting at separators gives one part more than there are separators, and loses nothing but the
separators (`length_fields`, `flatten_fields`).  If only one character separates, the parts are
determined by the text that they are joined to (`fields_eq_iff`).

`AreLines` describes what the lines look like that a text is cut into.  Lines that follow each other
among such lines are again of this kind.
-/

namespace EofStack.Text

/-! ## The parts between separators -/

section

variable {α : Type} {isSeparator : α → Bool}

theorem exists_fields_eq_cons (isSeparator : α → Bool) (items : List α) :
    ∃ first rest, fields isSeparator items = first :: rest :=
  List.exists_cons_of_ne_nil (fields_ne_nil isSeparator items)

/-- What holds no separator makes the first field longer. -/
theorem fields_append {items : List α} (h : ∀ item ∈ items, isSeparator item = false)
    (rest : List α) : fields isSeparator (items ++ rest) =
      (items ++ (fields isSeparator rest).headD []) :: (fields isSeparator rest).tail := by
  induction items with
  | nil =>
      obtain ⟨first, others, hfields⟩ := exists_fields_eq_cons isSeparator rest
      rw [List.nil_append, List.nil_append, hfields]
      rfl
  | cons item items ih =>
      rw [List.forall_mem_cons] at h
      rw [List.cons_append, fields_cons, ih h.2]
      simp [h.1]

/-- The text is cut at a separator, whatever stands in front of it. -/
theorem fields_append_separator (items : List α) {separator : α}
    (hseparator : isSeparator separator = true) (rest : List α) :
    fields isSeparator (items ++ separator :: rest) =
      fields isSeparator items ++ fields isSeparator rest := by
  induction items with
  | nil => rw [List.nil_append, fields_cons, if_pos hseparator]; rfl
  | cons item items ih =>
      obtain ⟨first, others, hfields⟩ := exists_fields_eq_cons isSeparator items
      rw [List.cons_append, fields_cons, fields_cons, ih, hfields]
      split <;> rfl

theorem length_fields (isSeparator : α → Bool) (items : List α) :
    (fields isSeparator items).length = (items.filter isSeparator).length + 1 := by
  induction items with
  | nil => rfl
  | cons item items ih =>
      rw [fields_cons]
      by_cases h : isSeparator item = true
      · rw [if_pos h, List.length_cons, ih, List.filter_cons_of_pos h, List.length_cons]
      · obtain ⟨first, rest, hfields⟩ := exists_fields_eq_cons isSeparator items
        rw [if_neg h, List.filter_cons_of_neg h, ← ih, hfields]
        rfl

/-- The parts together hold what is no separator. -/
theorem flatten_fields (isSeparator : α → Bool) (items : List α) :
    (fields isSeparator items).flatten = items.filter fun item => !isSeparator item := by
  induction items with
  | nil => rfl
  | cons item items ih =>
      rw [fields_cons]
      by_cases h : isSeparator item = true
      · rw [if_pos h, List.flatten_cons, List.nil_append, ih, List.filter_cons_of_neg (by simp [h])]
      · obtain ⟨first, rest, hfields⟩ := exists_fields_eq_cons isSeparator items
        rw [if_neg h, List.filter_cons_of_pos (by simp [h]), ← ih, hfields]
        rfl

theorem isSeparator_of_mem_fields {items part : List α} (hpart : part ∈ fields isSeparator items)
    {item : α} (hitem : item ∈ part) : isSeparator item = false := by
  have hmem : item ∈ (fields isSeparator items).flatten := List.mem_flatten.mpr ⟨part, hpart, hitem⟩
  rw [flatten_fields, List.mem_filter, Bool.not_eq_true'] at hmem
  exact hmem.2

/-- The text is cut at every occurrence of the mark into these parts. -/
structure IsCutAt [DecidableEq α] (mark : α) (items : List α) (parts : List (List α)) : Prop where
  ne_nil : parts ≠ []
  notMem : ∀ part ∈ parts, mark ∉ part
  joined : items = [mark].intercalate parts

theorem intercalate_fields [DecidableEq α] (mark : α) (items : List α) :
    [mark].intercalate (fields (· = mark) items) = items := by
  induction items with
  | nil => rfl
  | cons item items ih =>
      obtain ⟨first, rest, hfields⟩ :=
        List.exists_cons_of_ne_nil (fields_ne_nil (· = mark) items)
      rw [fields_cons, hfields]
      rw [hfields] at ih
      by_cases hitem : item = mark
      · rw [if_pos (decide_eq_true hitem), List.intercalate_cons_cons, ih, hitem]
        rfl
      · rw [if_neg (by simpa using hitem), List.headD_cons, List.tail_cons]
        cases rest with
        | nil => rw [List.intercalate_singleton] at ih ⊢; rw [ih]
        | cons second rest =>
            rw [List.intercalate_cons_cons] at ih ⊢
            rw [← ih, List.cons_append, List.cons_append]

/-- Cutting at a mark finds the only parts that there are. -/
theorem fields_eq_iff [DecidableEq α] {mark : α} {parts : List (List α)} :
    fields (· = mark) items = parts ↔ IsCutAt mark items parts := by
  constructor
  · rintro rfl
    refine ⟨fields_ne_nil _ _, fun part hpart hmark => ?_, (intercalate_fields mark items).symm⟩
    exact absurd rfl (of_decide_eq_false (isSeparator_of_mem_fields hpart hmark))
  · rintro ⟨hne, hmark, rfl⟩
    refine fields_intercalate hne (fun part hpart item hitem => ?_) (decide_eq_true rfl)
    exact decide_eq_false fun heq => hmark part hpart (heq ▸ hitem)

end

/-! ## Lines -/

/-- These are the lines that a text is cut into: each ends in the only line feed that it holds, but
the last may lack it. -/
inductive AreLines : List (List Char) → Prop
  | nil : AreLines []
  | last {line : List Char} (hne : line ≠ []) (hfeed : '\n' ∉ line) : AreLines [line]
  | cons {body : List Char} {rest : List (List Char)} (hfeed : '\n' ∉ body)
      (hrest : AreLines rest) : AreLines ((body ++ ['\n']) :: rest)

theorem AreLines.pieces_flatten {lines : List (List Char)} (h : AreLines lines) :
    pieces lines.flatten = lines := by
  induction h with
  | nil => rfl
  | last hne hfeed => rw [List.flatten_singleton, pieces_of_not_mem hne hfeed]
  | cons hfeed _ ih =>
      rw [List.flatten_cons, List.append_assoc, List.singleton_append, pieces_append_cons hfeed, ih]

theorem areLines_pieces (text : List Char) : AreLines (pieces text) := by
  induction text with
  | nil => exact .nil
  | cons c text ih =>
      rw [pieces_cons]
      generalize pieces text = lines at ih
      split
      · have hempty : '\n' ∉ ([] : List Char) := List.not_mem_nil
        exact .cons hempty ih
      · next hc =>
        have hfirst : ∀ {line : List Char}, '\n' ∉ line → '\n' ∉ c :: line :=
          fun hfeed => List.not_mem_cons_of_ne_of_not_mem (Ne.symm hc) hfeed
        cases ih with
        | nil => exact .last (List.cons_ne_nil _ _) (hfirst List.not_mem_nil)
        | last _ hfeed => exact .last (List.cons_ne_nil _ _) (hfirst hfeed)
        | cons hfeed hrest => exact .cons (hfirst hfeed) hrest

/-- The lines between two separators are those of a text as well. -/
theorem AreLines.of_mem_fields {isSeparator : List Char → Bool} {lines : List (List Char)}
    (h : AreLines lines) {part : List (List Char)} (hpart : part ∈ fields isSeparator lines) :
    AreLines part := by
  induction h generalizing part with
  | nil =>
      rw [List.mem_singleton.mp hpart]
      exact .nil
  | @last line hne hfeed =>
      rw [fields_cons] at hpart
      split at hpart
      · rcases List.mem_cons.mp hpart with rfl | hpart
        · exact .nil
        · rw [List.mem_singleton.mp hpart]
          exact .nil
      · rw [List.mem_singleton.mp hpart]
        exact .last hne hfeed
  | @cons body rest hfeed _ ih =>
      rw [fields_cons] at hpart
      obtain ⟨first, others, hfields⟩ := exists_fields_eq_cons isSeparator rest
      rw [hfields] at hpart ih
      split at hpart
      · rcases List.mem_cons.mp hpart with rfl | hpart
        · exact .nil
        · exact ih hpart
      · rcases List.mem_cons.mp hpart with rfl | hpart
        · exact .cons hfeed (ih List.mem_cons_self)
        · exact ih (List.mem_cons_of_mem _ hpart)

/-! ### Line ends -/

/-- Of a line feed and a carriage return in front of it nothing is left, and nothing else is lost. -/
theorem exists_withoutLineEnd_append (body : List Char) : ∃ ending,
    (ending = [] ∨ ending = ['\r']) ∧ body = withoutLineEnd (body ++ ['\n']) ++ ending := by
  rw [withoutLineEnd, List.reverse_append, List.reverse_singleton, List.singleton_append]
  split
  · next rest heq =>
    rw [List.cons.injEq, List.reverse_eq_cons_iff] at heq
    exact ⟨['\r'], Or.inr rfl, heq.2⟩
  · next rest _ heq =>
    rw [List.cons.injEq] at heq
    rw [← heq.2, List.reverse_reverse]
    exact ⟨[], Or.inl rfl, (List.append_nil body).symm⟩
  · next _ hother => exact (hother _ rfl).elim

theorem AreLines.not_mem_withoutLineEnd {lines : List (List Char)} (h : AreLines lines)
    {line : List Char} (hline : line ∈ lines) : '\n' ∉ withoutLineEnd line := by
  induction h with
  | nil => cases hline
  | last _ hfeed =>
      rwa [List.mem_singleton.mp hline, withoutLineEnd_of_not_mem hfeed]
  | @cons body _ hfeed _ ih =>
      rcases List.mem_cons.mp hline with rfl | hline
      · obtain ⟨ending, -, hbody⟩ := exists_withoutLineEnd_append body
        exact fun hmem => hfeed (hbody ▸ List.mem_append_left ending hmem)
      · exact ih hline

theorem not_mem_of_mem_lines {text line : List Char} (h : line ∈ lines text) : '\n' ∉ line := by
  obtain ⟨piece, hpiece, rfl⟩ := List.mem_map.mp h
  exact (areLines_pieces text).not_mem_withoutLineEnd hpiece

end EofStack.Text
