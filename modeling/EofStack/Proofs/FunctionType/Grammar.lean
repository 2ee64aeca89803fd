import EofStack.Proofs.FunctionType.Printed
import EofStack.Proofs.Readers
import EofStack.Proofs.Text.Cutting
import EofStack.Proofs.Text.Trimming

/-!
# The grammar of type lists

A type is two or three numerals with colons between them, each in its range (`IsType`).  A list of
types is read exactly if every part between its commas is blank or, once trimmed, a type; else the
first part that is neither is the error, with its blanks.

So printed types read back in order, whatever blanks stand around them and however many blank parts
between them.

## Strategy

No numeral holds a colon, so a text that is made of numerals and colons is cut where it was joined
(`ofChars?_eq_some_iff`).  The same holds of parts and commas, with `Text.fields_eq_iff`.  What is
left is which part fails first among the ones that are not blank.
-/

namespace EofStack

/-! ## One type -/

/-- The text is that of the type: two or three numerals with colons between them, each in its
range. -/
inductive IsType : List Char → FunctionType → Prop
  | undeclared {inputs outputs : List Char} {m n : Nat} (hinputs : IsUnsigned inputs m)
      (hm : m ≤ 255) (houtputs : IsUnsigned outputs n) (hn : n ≤ 255) :
      IsType (inputs ++ ':' :: outputs) ⟨UInt8.ofNat m, UInt8.ofNat n, none⟩
  | declared {inputs outputs height : List Char} {m n k : Nat} (hinputs : IsUnsigned inputs m)
      (hm : m ≤ 255) (houtputs : IsUnsigned outputs n) (hn : n ≤ 255)
      (hheight : IsUnsigned height k) (hk : k ≤ 65535) :
      IsType (inputs ++ ':' :: (outputs ++ ':' :: height))
        ⟨UInt8.ofNat m, UInt8.ofNat n, some (UInt16.ofNat k)⟩

/-- A numeral has no other characters than its digits and a plus sign. -/
theorem IsUnsigned.notMem {text : List Char} {n : Nat} (h : IsUnsigned text n) {c : Char}
    (hplus : c ≠ '+') (hdigit : Hex.digit? c = none) : c ∉ text := by
  cases h with
  | bare h => exact h.not_mem hdigit
  | plus h => exact List.not_mem_cons_of_ne_of_not_mem hplus (h.not_mem hdigit)

namespace FunctionType

variable {text : List Char} {type : FunctionType}

theorem fields_of_isUnsigned {numeral : List Char} {n : Nat} (h : IsUnsigned numeral n) :
    Text.fields (· = ':') numeral = [numeral] := by
  refine Text.fields_of_forall fun c hc => decide_eq_false ?_
  rintro rfl
  exact h.notMem (by decide) rfl hc

theorem fields_of_isUnsigned_append {numeral : List Char} {n : Nat} (h : IsUnsigned numeral n)
    (rest : List Char) :
    Text.fields (· = ':') (numeral ++ ':' :: rest) = numeral :: Text.fields (· = ':') rest := by
  have hcolon : ∀ c ∈ numeral, decide (c = ':') = false := by
    intro c hc
    apply decide_eq_false
    rintro rfl
    exact h.notMem (by decide) rfl hc
  exact Text.fields_append_cons hcolon (by decide) rest

/-- A text is read as a type exactly if it is one once it is trimmed. -/
theorem ofChars?_eq_some_iff : ofChars? text = some type ↔ IsType (Text.trim text) type := by
  unfold ofChars?
  generalize Text.trim text = core
  constructor
  · intro h
    split at h
    · next inputs outputs hfields =>
      have hcore : core = inputs ++ ':' :: outputs := by
        rw [(Text.fields_eq_iff.mp hfields).joined]
        simp [List.intercalate_cons_cons]
      obtain ⟨m, hm, h⟩ := Option.bind_eq_some_iff.mp h
      obtain ⟨n, hn, h⟩ := Option.bind_eq_some_iff.mp h
      obtain ⟨hinputs, hm⟩ := Numeral.natural?_eq_some_iff.mp hm
      obtain ⟨houtputs, hn⟩ := Numeral.natural?_eq_some_iff.mp hn
      rw [hcore, ← Option.some.inj h]
      exact .undeclared hinputs hm houtputs hn
    · next inputs outputs height hfields =>
      have hcore : core = inputs ++ ':' :: (outputs ++ ':' :: height) := by
        rw [(Text.fields_eq_iff.mp hfields).joined]
        simp [List.intercalate_cons_cons]
      obtain ⟨m, hm, h⟩ := Option.bind_eq_some_iff.mp h
      obtain ⟨n, hn, h⟩ := Option.bind_eq_some_iff.mp h
      obtain ⟨k, hk, h⟩ := Option.bind_eq_some_iff.mp h
      obtain ⟨hinputs, hm⟩ := Numeral.natural?_eq_some_iff.mp hm
      obtain ⟨houtputs, hn⟩ := Numeral.natural?_eq_some_iff.mp hn
      obtain ⟨hheight, hk⟩ := Numeral.natural?_eq_some_iff.mp hk
      rw [hcore, ← Option.some.inj h]
      exact .declared hinputs hm houtputs hn hheight hk
    · exact absurd h (Option.some_ne_none type).symm
  · intro h
    cases h with
    | undeclared hinputs hm houtputs hn =>
        rw [fields_of_isUnsigned_append hinputs, fields_of_isUnsigned houtputs]
        simp only [Numeral.natural?_eq_some_iff.mpr ⟨hinputs, hm⟩,
          Numeral.natural?_eq_some_iff.mpr ⟨houtputs, hn⟩]
        rfl
    | declared hinputs hm houtputs hn hheight hk =>
        rw [fields_of_isUnsigned_append hinputs, fields_of_isUnsigned_append houtputs,
          fields_of_isUnsigned hheight]
        simp only [Numeral.natural?_eq_some_iff.mpr ⟨hinputs, hm⟩,
          Numeral.natural?_eq_some_iff.mpr ⟨houtputs, hn⟩,
          Numeral.natural?_eq_some_iff.mpr ⟨hheight, hk⟩]
        rfl

/-- A printed type is a type, whatever blanks stand around it. -/
theorem isType_trim_text {left right : List Char} (hleft : Text.allBlank left = true)
    (hright : Text.allBlank right = true) (type : FunctionType) :
    IsType (Text.trim (left ++ type.text.toList ++ right)) type := by
  rw [Text.trim_append_append hleft hright, ← ofChars?_eq_some_iff, ofChars?_text]

theorem parse_eq_ok_iff {text : String} :
    parse text = .ok type ↔ IsType (Text.trim text.toList) type := by
  rw [← ofChars?_eq_some_iff, parse]
  cases ofChars? text.toList <;> simp

theorem parse_eq_error_iff {text : String} {e : TypeError} :
    parse text = .error e ↔ e = ⟨text⟩ ∧ ∀ type, ¬ IsType (Text.trim text.toList) type := by
  simp only [← ofChars?_eq_some_iff, parse]
  cases ofChars? text.toList <;> simp [eq_comm]

end FunctionType

/-! ## A list of types -/

namespace TypeTable

/-- A part that is neither blank nor a type. -/
def Offends (part : List Char) : Prop :=
  Text.allBlank part = false ∧ ∀ type, ¬ IsType (Text.trim part) type

/-- The parts are the types in order, printed with blanks around them, and blank parts anywhere
between them. -/
inductive Spread : List FunctionType → List (List Char) → Prop
  | nil : Spread [] []
  | blank {part : List Char} {types : List FunctionType} {parts : List (List Char)}
      (hblank : Text.allBlank part = true) (h : Spread types parts) : Spread types (part :: parts)
  | printed {left right : List Char} {types : List FunctionType} {parts : List (List Char)}
      (hleft : Text.allBlank left = true) (hright : Text.allBlank right = true)
      (type : FunctionType) (h : Spread types parts) :
      Spread (type :: types) ((left ++ type.text.toList ++ right) :: parts)

variable {parts : List (List Char)} {text : String}

theorem parse_eq (h : Text.IsCutAt ',' text.toList parts) : parse text =
    (((parts.filter fun part => !Text.allBlank part).map String.ofList).mapM
      FunctionType.parse).map List.toArray := by
  rw [parse, entries, Text.fields_eq_iff.mpr h]

/-- A list is read exactly if every part that is not blank is a type, and in order. -/
theorem parse_eq_ok_iff (h : Text.IsCutAt ',' text.toList parts) {types : TypeTable} :
    parse text = .ok types ↔ List.Forall₂ (fun part type => IsType (Text.trim part) type)
      (parts.filter fun part => !Text.allBlank part) types.toList := by
  rw [parse_eq h, map_eq_ok_iff]
  simp only [mapM_eq_ok_iff, List.forall₂_map_left_iff, FunctionType.parse_eq_ok_iff,
    String.toList_ofList]
  constructor
  · rintro ⟨types, htypes, rfl⟩
    exact htypes
  · intro htypes
    exact ⟨types.toList, htypes, Array.toArray_toList⟩

/-- Otherwise the first part that is neither blank nor a type is the error. -/
theorem parse_eq_error_iff (h : Text.IsCutAt ',' text.toList parts) {e : TypeError} :
    parse text = .error e ↔ ∃ before part after, parts = before ++ part :: after ∧
      (∀ other ∈ before, ¬ Offends other) ∧ Offends part ∧ e.text = String.ofList part := by
  rw [parse_eq h, map_eq_error_iff, List.mapM_map, mapM_filter_eq_error_iff]
  have hpasses : ∀ {part : List Char},
      ((!Text.allBlank part) = true →
        ∃ type, (FunctionType.parse ∘ String.ofList) part = .ok type) ↔ ¬ Offends part := by
    intro part
    simp only [Function.comp_apply, FunctionType.parse_eq_ok_iff, String.toList_ofList, Offends,
      Bool.not_eq_true', not_and, not_forall, not_not]
  have hfails : ∀ {part : List Char},
      ((!Text.allBlank part) = true ∧
        (FunctionType.parse ∘ String.ofList) part = .error e) ↔
        Offends part ∧ e.text = String.ofList part := by
    intro part
    have htext : e = ⟨String.ofList part⟩ ↔ e.text = String.ofList part := by
      cases e
      rw [TypeError.mk.injEq]
    simp only [Function.comp_apply, FunctionType.parse_eq_error_iff, String.toList_ofList, Offends,
      Bool.not_eq_true', htext]
    tauto
  simp only [FailsFirst, hpasses, hfails]

theorem Spread.types_of_filter {types : List FunctionType} (h : Spread types parts) :
    List.Forall₂ (fun part type => IsType (Text.trim part) type)
      (parts.filter fun part => !Text.allBlank part) types := by
  induction h with
  | nil => exact .nil
  | blank hblank _ ih => rwa [List.filter_cons_of_neg (by simp [hblank])]
  | @printed left right _ _ hleft hright type _ ih =>
      have htext : type.text.toList.all Text.isBlank = false := by
        simpa [Text.allBlank] using type.allBlank_text
      have hsome : (!Text.allBlank (left ++ type.text.toList ++ right)) = true := by
        simp only [Text.allBlank, List.all_append, htext, Bool.and_false, Bool.false_and,
          Bool.not_false]
      rw [List.filter_cons, if_pos hsome]
      exact .cons (type.isType_trim_text hleft hright) ih

/-- No part holds a comma, so the parts are cut where they were joined. -/
theorem Spread.comma_notMem {types : List FunctionType} (h : Spread types parts) :
    ∀ part ∈ parts, ',' ∉ part := by
  have hblank : ∀ {text : List Char}, Text.allBlank text = true → ',' ∉ text := by
    intro text htext hcomma
    exact absurd (List.all_eq_true.mp htext ',' hcomma) (by decide)
  induction h with
  | nil => exact List.forall_mem_nil _
  | blank hpart _ ih => exact List.forall_mem_cons.mpr ⟨hblank hpart, ih⟩
  | printed hleft hright type _ ih =>
      refine List.forall_mem_cons.mpr ⟨?_, ih⟩
      rw [List.mem_append, List.mem_append, not_or, not_or]
      exact ⟨⟨hblank hleft, type.comma_notMem_text⟩, hblank hright⟩

theorem Spread.parse_eq {types : List FunctionType} (h : Spread types parts) :
    parse (String.ofList ([','].intercalate parts)) = .ok types.toArray := by
  by_cases hne : parts = []
  · subst hne
    cases h
    rfl
  · have hcut : Text.IsCutAt ',' (String.ofList ([','].intercalate parts)).toList parts :=
      ⟨hne, h.comma_notMem, String.toList_ofList⟩
    exact (parse_eq_ok_iff hcut).mpr h.types_of_filter

/-- A list is read exactly if no part offends. -/
theorem exists_parse_eq_ok_iff (h : Text.IsCutAt ',' text.toList parts) :
    (∃ types, parse text = .ok types) ↔ ∀ part ∈ parts, ¬ Offends part := by
  constructor
  · rintro ⟨types, htypes⟩ part hpart ⟨hsome, hnone⟩
    have hkept : part ∈ parts.filter fun part => !Text.allBlank part :=
      List.mem_filter.mpr ⟨hpart, by rw [hsome]; rfl⟩
    obtain ⟨k, hk⟩ := List.getElem?_of_mem hkept
    obtain ⟨type, -, htype⟩ := exists_getElem?_eq ((parse_eq_ok_iff h).mp htypes) hk
    exact hnone type htype
  · intro hnone
    cases hparse : parse text with
    | ok types => exact ⟨types, rfl⟩
    | error e =>
        obtain ⟨before, part, after, rfl, -, hoffends, -⟩ := (parse_eq_error_iff h).mp hparse
        exact absurd hoffends (hnone part List.mem_append_cons_self)

/-- **A list of types is read exactly if its parts are types and blanks, and printed types are read
back.** -/
theorem parse_types :
    (∀ types parts, Spread types parts →
      parse (String.ofList ([','].intercalate parts)) = .ok types.toArray) ∧
    ∀ text, ∃ parts, Text.IsCutAt ',' text.toList parts ∧
      (∀ types, parse text = .ok types ↔
        List.Forall₂ (fun part type => IsType (Text.trim part) type)
          (parts.filter fun part => !Text.allBlank part) types.toList) ∧
      ((∃ types, parse text = .ok types) ↔ ∀ part ∈ parts, ¬ Offends part) ∧
      ∀ e, parse text = .error e ↔ ∃ before part after, parts = before ++ part :: after ∧
        (∀ other ∈ before, ¬ Offends other) ∧ Offends part ∧ e.text = String.ofList part := by
  refine ⟨fun types parts h => h.parse_eq, fun text => ?_⟩
  have hcut : Text.IsCutAt ',' text.toList (Text.fields (· = ',') text.toList) :=
    Text.fields_eq_iff.mp rfl
  exact ⟨_, hcut, fun types => parse_eq_ok_iff hcut, exists_parse_eq_ok_iff hcut,
    fun e => parse_eq_error_iff hcut⟩

/-- Two printed types, the first between blanks, and a blank part between them. -/
def printedParts : List (List Char) :=
  [" ".toList ++ FunctionType.entry.text.toList ++ "\t".toList, " ".toList,
    [] ++ (FunctionType.mk 2 1 (some 4)).text.toList ++ []]

/-- These are read back; a list is refused for a type with a blank inside. -/
theorem parse_types_blanks :
    Spread [.entry, ⟨2, 1, some 4⟩] printedParts ∧
      parse (String.ofList " 0:0\t, ,2:1:4".toList) = .ok #[.entry, ⟨2, 1, some 4⟩] ∧
      parse "0:0, 2: 1,," = .error ⟨" 2: 1"⟩ := by
  have hspread : Spread [.entry, ⟨2, 1, some 4⟩] printedParts :=
    .printed rfl rfl .entry (.blank rfl (.printed rfl rfl ⟨2, 1, some 4⟩ .nil))
  have hjoined : [','].intercalate printedParts = " 0:0\t, ,2:1:4".toList := by decide +kernel
  refine ⟨hspread, hjoined ▸ parse_types.1 _ _ hspread, ?_⟩
  obtain ⟨parts, hcut, -, -, herror⟩ := parse_types.2 "0:0, 2: 1,,"
  have hparts : parts = ["0:0".toList, " 2: 1".toList, [], []] := by
    rw [← Text.fields_eq_iff.mpr hcut]
    decide +kernel
  have hreads : FunctionType.ofChars? "0:0".toList = some .entry := by decide +kernel
  have hnone : FunctionType.ofChars? " 2: 1".toList = none := by decide +kernel
  refine (herror ⟨" 2: 1"⟩).mpr ⟨["0:0".toList], " 2: 1".toList, [[], []], hparts, ?_, ?_, ?_⟩
  · rw [List.forall_mem_singleton]
    exact fun hoffends => hoffends.2 .entry (FunctionType.ofChars?_eq_some_iff.mp hreads)
  · refine ⟨by decide +kernel, fun type htype => ?_⟩
    rw [← FunctionType.ofChars?_eq_some_iff, hnone] at htype
    cases htype
  · decide +kernel

end TypeTable

end EofStack
