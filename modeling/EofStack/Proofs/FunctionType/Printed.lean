import EofStack.FunctionType.Parse
import EofStack.Proofs.Assembly.Source
import EofStack.Proofs.Collect
import EofStack.Proofs.Digits

/-!
# Printed function types

A printed type reads back as itself, and so does a list of printed types with commas between them.
A type is printed as digits and colons alone, so that it holds no comma and no blank: the list is
cut where it was joined, and no entry is passed over or trimmed.
-/

namespace EofStack

/-! ## One type -/

namespace FunctionType

/-- The parts of a printed type, which stand between its colons. -/
def parts (type : FunctionType) : List (List Char) :=
  Nat.toDigits 10 type.inputs.toNat :: Nat.toDigits 10 type.outputs.toNat ::
    (type.declaredHeight.map fun height => Nat.toDigits 10 height.toNat).toList

theorem toList_text (type : FunctionType) :
    type.text.toList = [':'].intercalate type.parts := by
  obtain ⟨inputs, outputs, declared⟩ := type
  cases declared <;> simp [text, parts, List.intercalate_cons_cons]

theorem isDigit_of_mem_parts {type : FunctionType} {part : List Char} (hpart : part ∈ type.parts)
    {c : Char} (hc : c ∈ part) : c.isDigit = true := by
  have hdigit : ∀ {n : Nat}, c ∈ Nat.toDigits 10 n → c.isDigit = true :=
    fun h => Nat.isDigit_of_mem_toDigits (by decide) (by decide) h
  simp only [parts, List.mem_cons, Option.mem_toList, Option.map_eq_some_iff] at hpart
  rcases hpart with rfl | rfl | ⟨height, -, rfl⟩ <;> exact hdigit hc

/-- A printed type has no other characters than digits and colons. -/
theorem isDigit_of_mem_text {type : FunctionType} {c : Char} (hc : c ∈ type.text.toList) :
    c.isDigit = true ∨ c = ':' := by
  rw [toList_text] at hc
  rcases Text.mem_intercalate hc with ⟨part, hpart, hc⟩ | hc
  · exact Or.inl (isDigit_of_mem_parts hpart hc)
  · exact Or.inr (List.mem_singleton.mp hc)

theorem isBlank_of_mem_text {type : FunctionType} {c : Char} (hc : c ∈ type.text.toList) :
    Text.isBlank c = false := by
  rcases isDigit_of_mem_text hc with hdigit | rfl
  · exact Assembly.IsPlain.isBlank_eq (Or.inl (Bool.or_eq_true_iff.mpr (Or.inr hdigit)))
  · decide

theorem comma_notMem_text (type : FunctionType) : ',' ∉ type.text.toList := by
  intro hc
  rcases isDigit_of_mem_text hc with hdigit | hcolon
  · revert hdigit
    decide
  · revert hcolon
    decide

/-- A printed type is no blank entry. -/
theorem allBlank_text (type : FunctionType) : (!Text.allBlank type.text.toList) = true := by
  obtain ⟨c, rest, hdigits, -⟩ := Numeral.exists_toDigits_eq type.inputs.toNat
  have hc : c ∈ type.text.toList := by
    rw [toList_text, parts, List.intercalate_cons_cons, hdigits]
    simp
  have hblank := isBlank_of_mem_text hc
  rw [Bool.not_eq_true', Text.allBlank, List.all_eq_false]
  exact ⟨c, hc, by simp [hblank]⟩

/-- A printed type reads back as itself. -/
theorem ofChars?_text (type : FunctionType) : ofChars? type.text.toList = some type := by
  have htrim : Text.trim type.text.toList = type.text.toList :=
    Text.trim_eq_self (fun c hc => isBlank_of_mem_text (List.mem_of_mem_head? hc))
      fun c hc => isBlank_of_mem_text (List.mem_of_mem_getLast? hc)
  have hcolon : ∀ part ∈ type.parts, ∀ c ∈ part, decide (c = ':') = false := by
    intro part hpart c hc
    apply decide_eq_false
    rintro rfl
    cases isDigit_of_mem_parts hpart hc
  have hfields : Text.fields (· = ':') (Text.trim type.text.toList) = type.parts := by
    rw [htrim, toList_text, Text.fields_intercalate (by simp [parts]) hcolon (by decide)]
  have hinputs := Numeral.natural?_toDigits (Nat.le_of_lt_succ type.inputs.toNat_lt)
  have houtputs := Numeral.natural?_toDigits (Nat.le_of_lt_succ type.outputs.toNat_lt)
  unfold ofChars?
  rw [hfields, parts]
  obtain ⟨inputs, outputs, declared⟩ := type
  cases declared with
  | none => simp [hinputs, houtputs]
  | some height =>
      have hheight := Numeral.natural?_toDigits (Nat.le_of_lt_succ height.toNat_lt)
      simp [hinputs, houtputs, hheight]

end FunctionType

/-! ## A list of types -/

namespace TypeTable

/-- The printed types with commas between them. -/
def text (types : TypeTable) : String :=
  ",".intercalate (types.toList.map FunctionType.text)

theorem entries_text (types : TypeTable) :
    entries types.text = types.toList.map FunctionType.text := by
  obtain ⟨types⟩ := types
  rw [entries, text, String.toList_intercalate, List.map_map]
  by_cases hnil : types = []
  · subst hnil
    decide
  · have hne : types.map (String.toList ∘ FunctionType.text) ≠ [] := by simpa using hnil
    have hcomma : ∀ part ∈ types.map (String.toList ∘ FunctionType.text), ∀ c ∈ part,
        decide (c = ',') = false := by
      intro part hpart c hc
      obtain ⟨type, -, rfl⟩ := List.mem_map.mp hpart
      apply decide_eq_false
      rintro rfl
      exact type.comma_notMem_text hc
    have hblank : ∀ part ∈ types.map (String.toList ∘ FunctionType.text),
        (!Text.allBlank part) = true := by
      intro part hpart
      obtain ⟨type, -, rfl⟩ := List.mem_map.mp hpart
      exact type.allBlank_text
    rw [show ",".toList = [','] from rfl, Text.fields_intercalate hne hcomma (by decide),
      List.filter_eq_self.mpr hblank, List.map_map]
    simp

/-- A printed list of types reads back as itself. -/
theorem parse_text (types : TypeTable) : parse types.text = .ok types := by
  have hparse : (types.toList.map FunctionType.text).mapM FunctionType.parse =
      .ok types.toList := by
    rw [mapM_eq_ok_iff, List.forall₂_map_left_iff, List.forall₂_same]
    intro type _
    simp only [FunctionType.parse, FunctionType.ofChars?_text]
  rw [parse, entries_text, hparse, Except.map, Array.toArray_toList]

end TypeTable

end EofStack
