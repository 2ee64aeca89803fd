import EofStack.Assembly.Source
import EofStack.Proofs.Text
import Mathlib.Data.List.Basic
import Mathlib.Data.List.TakeWhile

/-!
# Reading a plain line

A line of words with one blank between them, whose characters mean nothing to the reader of a
source, is read as just these words: there is no comment and no label on it.
-/

namespace EofStack.Assembly

/-! ## Words -/

/-- A character that may stand in a printed word. -/
def IsPlain (c : Char) : Prop :=
  c.isAlphanum = true ∨ c = '-'

/-- A word that is read as it is printed. -/
structure IsWord (word : List Char) : Prop where
  ne_nil : word ≠ []
  plain : ∀ c ∈ word, IsPlain c

/-- Plain characters are hyphens, digits and letters. -/
private theorem IsPlain.toNat_cases {c : Char} (h : IsPlain c) :
    c.toNat = 45 ∨ 48 ≤ c.toNat ∧ c.toNat ≤ 57 ∨ 65 ≤ c.toNat ∧ c.toNat ≤ 90 ∨
      97 ≤ c.toNat ∧ c.toNat ≤ 122 := by
  rcases h with halphanum | rfl
  · rcases Bool.or_eq_true_iff.mp halphanum with halpha | hdigit
    · rcases Bool.or_eq_true_iff.mp halpha with hupper | hlower
      · exact Or.inr (Or.inr (Or.inl (of_decide_eq_true hupper)))
      · obtain ⟨hleast, hgreatest⟩ := Bool.and_eq_true_iff.mp hlower
        have hleast' : 97 ≤ c.toNat := of_decide_eq_true hleast
        have hgreatest' : c.toNat ≤ 122 := of_decide_eq_true hgreatest
        exact Or.inr (Or.inr (Or.inr ⟨hleast', hgreatest'⟩))
    · exact Or.inr (Or.inl (Char.isDigit_iff_toNat.mp hdigit))
  · exact Or.inl rfl

theorem IsPlain.isBlank_eq {c : Char} (h : IsPlain c) : Text.isBlank c = false := by
  have := h.toNat_cases
  simp only [Text.isBlank, Text.blankRanges, List.any_cons, List.any_nil, Bool.or_false,
    Bool.or_eq_false_iff, Bool.and_eq_false_iff, decide_eq_false_iff_not]
  omega

theorem IsPlain.isGap_eq {c : Char} (h : IsPlain c) : isGap c = false := by
  have hcases := h.toNat_cases
  have hcomma : c ≠ ',' := by
    rintro rfl
    revert hcases
    decide
  simp [isGap, h.isBlank_eq, hcomma]

/-- The characters that end a line, a label or a statement. -/
def reserved : List Char :=
  ['\n', '\r', ':', ';', '#']

/-- No reserved character is plain. -/
theorem IsPlain.ne {c d : Char} (h : IsPlain c) (hd : d ∈ reserved) : c ≠ d := by
  rintro rfl
  have hcases := h.toNat_cases
  simp only [reserved, List.mem_cons, List.not_mem_nil, or_false] at hd
  rcases hd with rfl | rfl | rfl | rfl | rfl <;> revert hcases <;> decide

/-! ## Lines -/

/-- A line that begins with the word, each of the others behind a blank. -/
def joined (word : List Char) (others : List (List Char)) : List Char :=
  word ++ others.flatMap (' ' :: ·)

theorem joined_cons (word other : List Char) (others : List (List Char)) :
    joined word (other :: others) = word ++ ' ' :: joined other others := by
  simp [joined]

theorem joined_eq_intercalate (word : List Char) (others : List (List Char)) :
    joined word others = [' '].intercalate (word :: others) := by
  induction others generalizing word with
  | nil => simp [joined]
  | cons other others ih => rw [joined_cons, ih, List.intercalate_cons_cons, List.append_assoc,
      List.singleton_append]

variable {word : List Char} {others : List (List Char)}

theorem mem_joined (hword : IsWord word) (hothers : ∀ other ∈ others, IsWord other) {c : Char}
    (h : c ∈ joined word others) : IsPlain c ∨ c = ' ' := by
  rcases List.mem_append.mp h with hc | hc
  · exact Or.inl (hword.plain c hc)
  · obtain ⟨other, hother, hc⟩ := List.mem_flatMap.mp hc
    rcases List.mem_cons.mp hc with rfl | hc
    · exact Or.inr rfl
    · exact Or.inl ((hothers other hother).plain c hc)

theorem not_mem_joined (hword : IsWord word) (hothers : ∀ other ∈ others, IsWord other) {c : Char}
    (hc : c ∈ reserved) : c ∉ joined word others := by
  intro hmem
  rcases mem_joined hword hothers hmem with hplain | rfl
  · exact hplain.ne hc rfl
  · revert hc
    decide

theorem words_joined (hword : IsWord word) (hothers : ∀ other ∈ others, IsWord other) :
    words (joined word others) = word :: others := by
  have hgaps : ∀ {word}, IsWord word → ∀ c ∈ word, isGap c = false :=
    fun hword c hc => (hword.plain c hc).isGap_eq
  have hfields : Text.fields isGap (joined word others) = word :: others := by
    induction others generalizing word with
    | nil => rw [joined, List.flatMap_nil, List.append_nil, Text.fields_of_forall (hgaps hword)]
    | cons other others ih =>
        rw [List.forall_mem_cons] at hothers
        rw [joined_cons, Text.fields_append_cons (hgaps hword) (by decide),
          ih hothers.1 hothers.2]
  rw [words, hfields, List.filter_eq_self]
  intro w hw
  rcases List.mem_cons.mp hw with rfl | hw
  · simpa using hword.ne_nil
  · simpa using (hothers w hw).ne_nil

theorem trim_joined (hword : IsWord word) (hothers : ∀ other ∈ others, IsWord other) :
    Text.trim (joined word others) = joined word others := by
  refine Text.trim_eq_self (fun c hc => ?_) (fun c hc => ?_)
  · rw [joined, List.head?_append_of_ne_nil _ hword.ne_nil] at hc
    exact (hword.plain c (List.mem_of_mem_head? hc)).isBlank_eq
  · induction others generalizing word with
    | nil =>
        rw [joined, List.flatMap_nil, List.append_nil] at hc
        exact (hword.plain c (List.mem_of_mem_getLast? hc)).isBlank_eq
    | cons other others ih =>
        rw [List.forall_mem_cons] at hothers
        have hne : joined other others ≠ [] :=
          List.append_ne_nil_of_left_ne_nil hothers.1.ne_nil _
        rw [joined_cons, List.getLast?_append_of_ne_nil _ (List.cons_ne_nil _ _),
          List.getLast?_cons_of_ne_nil hne] at hc
        exact ih hothers.1 hothers.2 hc

/-- The line holds its words as a statement, and nothing else. -/
theorem ofChars_joined (hword : IsWord word) (hothers : ∀ other ∈ others, IsWord other)
    (number : Nat) :
    Line.ofChars number (joined word others) =
      ⟨number, none, some ⟨String.ofList word, others.map String.ofList⟩⟩ := by
  have hmark : ∀ {mark}, mark ∈ reserved → ∀ c ∈ joined word others, c ≠ mark :=
    fun hmem c hc heq => not_mem_joined hword hothers hmem (heq ▸ hc)
  have hcomment : withoutComment (joined word others) = joined word others := by
    rw [withoutComment, List.takeWhile_eq_self_iff]
    intro c hc
    simpa using And.intro (hmark (by decide) c hc) (hmark (by decide) c hc)
  have hlabel : splitLabel (joined word others) = (none, joined word others) := by
    have hdrop : (joined word others).dropWhile (· ≠ ':') = [] := by
      rw [List.dropWhile_eq_nil_iff]
      intro c hc
      simpa using hmark (by decide) c hc
    rw [splitLabel, hdrop]
  simp only [Line.ofChars, hcomment, trim_joined hword hothers, hlabel, statement?,
    words_joined hword hothers, List.map_cons, Option.map_none]

end EofStack.Assembly
