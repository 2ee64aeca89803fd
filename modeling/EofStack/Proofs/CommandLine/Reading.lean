import EofStack.Proofs.CommandLine.Arguments

/-!
# Reading a container

A container is read in steps: the input, the sections from the first on, the list of types.  A step
counts only if all in front of it succeed.  `Reads` and `Unread` describe what the steps come to, and
one of them is always the case (`reads_or_unread`).
-/

namespace EofStack.CommandLine

variable {options : Options} {read : Reader} {text : String} {codes : List Code}
  {types : TypeTable} {container : Container} {failure : Failure}

/-! ## Steps -/

/-- The input is the text in UTF-8. -/
def HasText (options : Options) (read : Reader) (text : String) : Prop :=
  read (Source.ofOptions options) = .ok text.toUTF8

/-- The sections of the text are read as the codes. -/
def Decodes (options : Options) (text : String) (codes : List Code) : Prop :=
  List.Forall₂ (fun part code => readSection options.hex part = .ok code)
    (splitSections text.toList) codes

/-- The types of so many sections: those of the list, or those of entry functions. -/
inductive HasTypes (options : Options) (sections : Nat) : TypeTable → Prop
  | given {list : String} {types : TypeTable} (hlist : options.types = some list)
      (hparse : TypeTable.parse list = .ok types) : HasTypes options sections types
  | default (hnone : options.types = none) :
      HasTypes options sections (Array.replicate sections .entry)

/-- The text is that of the container. -/
structure Reads (options : Options) (read : Reader) (text : String) (container : Container) :
    Prop where
  hasText : HasText options read text
  decodes : Decodes options text container.sections
  hasTypes : HasTypes options container.sections.length container.types

/-- The first step that fails on the way to a container. -/
inductive Unread (options : Options) (read : Reader) : Failure → Prop
  | unreadable {e : ReadError} (hread : read (Source.ofOptions options) = .error e) :
      Unread options read (.input (Source.ofOptions options) e)
  | notText {bytes : ByteArray} (hread : read (Source.ofOptions options) = .ok bytes)
      (hnone : ∀ text : String, text.toUTF8 ≠ bytes) :
      Unread options read (.input (Source.ofOptions options) .notText)
  | code {text : String} {k : Nat} {part : List Char} {e : SectionError}
      (htext : HasText options read text) (hpart : (splitSections text.toList)[k]? = some part)
      (herror : readSection options.hex part = .error e)
      (hbefore : ∀ j < k, ∀ earlier, (splitSections text.toList)[j]? = some earlier →
        ∃ code, readSection options.hex earlier = .ok code) :
      Unread options read (.code k e)
  | types {text list : String} {codes : List Code} {e : TypeError}
      (htext : HasText options read text) (hcodes : Decodes options text codes)
      (hlist : options.types = some list) (herror : TypeTable.parse list = .error e) :
      Unread options read (.types e)

/-! ### Input -/

theorem readText_eq_error {source : Source} {bytes : ByteArray} (hread : read source = .ok bytes)
    (hnone : ∀ text : String, text.toUTF8 ≠ bytes) : source.readText read = .error .notText := by
  have htext : String.fromUTF8? bytes = none := dif_neg fun h => hnone ⟨bytes, h⟩ rfl
  simp only [Source.readText, hread, htext]

theorem readContainer_of_readText {e : ReadError}
    (h : (Source.ofOptions options).readText read = .error e) :
    readContainer options read = .error (.input (Source.ofOptions options) e) := by
  simp only [readContainer, h]
  rfl

/-! ### Sections -/

/-- The first section that cannot be read is reported with its number. -/
theorem readSections_eq_error {hex : Bool} {parts : List (List Char)} {k : Nat} {part : List Char}
    {e : SectionError} (hpart : parts[k]? = some part) (herror : readSection hex part = .error e)
    (hbefore : ∀ j < k, ∀ earlier, parts[j]? = some earlier →
      ∃ code, readSection hex earlier = .ok code) (number : Nat) :
    readSections hex number parts = .error (.code (number + k) e) := by
  induction parts generalizing k number with
  | nil => cases hpart
  | cons head rest ih =>
      cases k with
      | zero =>
          cases hpart
          simp only [readSections, herror, Nat.add_zero]
      | succ k =>
          obtain ⟨code, hcode⟩ := hbefore 0 k.succ_pos head rfl
          have hrest := ih hpart (fun j hj => hbefore (j + 1) (Nat.succ_lt_succ hj)) (number + 1)
          simp only [readSections, hcode, hrest, Nat.add_assoc, Nat.add_comm 1 k]
          rfl

theorem readContainer_of_readSections_eq_error
    (htext : (Source.ofOptions options).readText read = .ok text)
    (h : readSections options.hex 0 (splitSections text.toList) = .error failure) :
    readContainer options read = .error failure := by
  simp only [readContainer, htext]
  show (readSections options.hex 0 (splitSections text.toList) >>= _) = _
  rw [h]
  rfl

theorem readContainer_of_decodes (htext : HasText options read text)
    (hcodes : Decodes options text codes) :
    readContainer options read =
      (typesFor options codes.length).map fun types => { types, sections := codes } :=
  readContainer_of_readSections (readText_eq_ok htext) (readSections_of_forall₂ hcodes 0)

/-! ### Types -/

theorem HasTypes.typesFor_eq {sections : Nat} (h : HasTypes options sections types) :
    typesFor options sections = .ok types := by
  cases h with
  | given hlist hparse => simp only [typesFor, hlist, hparse]
  | default hnone => simp only [typesFor, hnone]

/-! ## All steps -/

theorem Reads.readContainer_eq (h : Reads options read text container) :
    readContainer options read = .ok container := by
  rw [readContainer_of_decodes h.hasText h.decodes, h.hasTypes.typesFor_eq]
  rfl

theorem Unread.readContainer_eq (h : Unread options read failure) :
    readContainer options read = .error failure := by
  cases h with
  | unreadable hread =>
      apply readContainer_of_readText
      simp only [Source.readText, hread]
  | notText hread hnone => exact readContainer_of_readText (readText_eq_error hread hnone)
  | @code text k part e htext hpart herror hbefore =>
      apply readContainer_of_readSections_eq_error (readText_eq_ok htext)
      rw [readSections_eq_error hpart herror hbefore, Nat.zero_add]
  | types htext hcodes hlist herror =>
      rw [readContainer_of_decodes htext hcodes]
      simp only [typesFor, hlist, herror]
      rfl

/-- Each step succeeds, or fails in the way that is described. -/
theorem reads_or_unread (options : Options) (read : Reader) :
    (∃ container text, Reads options read text container) ∨
      ∃ failure, Unread options read failure := by
  cases hread : read (Source.ofOptions options) with
  | error e => exact Or.inr ⟨_, .unreadable hread⟩
  | ok bytes =>
  by_cases htext : ∃ text : String, text.toUTF8 = bytes
  case neg => exact Or.inr ⟨_, .notText hread (not_exists.mp htext)⟩
  obtain ⟨text, rfl⟩ := htext
  cases hsections : (splitSections text.toList).mapM (readSection options.hex) with
  | error e =>
      obtain ⟨k, part, hpart, herror, hbefore⟩ := mapM_eq_error_iff.mp hsections
      exact Or.inr ⟨_, .code hread hpart herror hbefore⟩
  | ok codes =>
  have hcodes : Decodes options text codes := mapM_eq_ok_iff.mp hsections
  cases hlist : options.types with
  | none =>
      exact Or.inl ⟨⟨Array.replicate codes.length .entry, codes⟩, text, hread, hcodes,
        .default hlist⟩
  | some list =>
      cases hparse : TypeTable.parse list with
      | ok types => exact Or.inl ⟨⟨types, codes⟩, text, hread, hcodes, .given hlist hparse⟩
      | error e => exact Or.inr ⟨_, .types hread hcodes hlist hparse⟩

theorem readContainer_eq_ok_iff :
    readContainer options read = .ok container ↔ ∃ text, Reads options read text container :=
  eq_ok_iff_of_described (fun _ ⟨_, hreads⟩ => hreads.readContainer_eq)
    (fun _ => Unread.readContainer_eq) (reads_or_unread options read)

theorem readContainer_eq_error_iff :
    readContainer options read = .error failure ↔ Unread options read failure :=
  eq_error_iff_of_described (fun _ ⟨_, hreads⟩ => hreads.readContainer_eq)
    (fun _ => Unread.readContainer_eq) (reads_or_unread options read)

/-- Reading does not ask whether functions are verified all at a time. -/
theorem readContainer_inParallel (options : Options) (read : Reader) :
    readContainer options.inParallel read = readContainer options read :=
  rfl

end EofStack.CommandLine
