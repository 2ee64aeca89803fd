import EofStack.Proofs.Assembly.Labels
import EofStack.Proofs.Assembly.Source
import EofStack.Proofs.Text.Cutting
import EofStack.Proofs.Text.Trimming

/-!
# Rows of a source

A row has a heading, a body and a remark: a label and its colon, words, and a comment, where each
may be missing.  A row is read part by part (`ofChars_row`).  Every line of a source that assembles
is a row (`isRow_of_assemble`), so that this says how all of them are read.

## Strategy

The words of a line hold all of its characters that are no gap.  If the source assembles, its
mnemonics are names of opcodes, and its operands are numbers or labels that some line defines: no
word holds a colon.  The only colon of a line is the one behind its label then.
-/

namespace EofStack.Assembly

/-! ## Parts of a row -/

/-- Blanks within a line. -/
def IsSpace (text : List Char) : Prop :=
  ∀ c ∈ text, Text.isBlank c = true ∧ c ≠ '\n'

instance (text : List Char) : Decidable (IsSpace text) :=
  List.decidableBAll (fun c => Text.isBlank c = true ∧ c ≠ '\n') text

theorem IsSpace.allBlank {text : List Char} (h : IsSpace text) : Text.allBlank text = true :=
  List.all_eq_true.mpr fun c hc => (h c hc).1

theorem IsSpace.not_mem {space : List Char} (h : IsSpace space) : '\n' ∉ space :=
  fun hmem => (h '\n' hmem).2 rfl

/-- What stands between two words of a line. -/
structure IsGapText (text : List Char) : Prop where
  ne_nil : text ≠ []
  gap : ∀ c ∈ text, isGap c = true ∧ c ≠ '\n'

/-- A label with its colon, and blanks around the label; or nothing. -/
inductive IsHeading : Option (List Char) → List Char → Prop
  | none : IsHeading none []
  | label {left name right : List Char} (hleft : IsSpace left) (hname : isLabel name = true)
      (hright : IsSpace right) : IsHeading (some name) (left ++ name ++ right ++ [':'])

/-- Text without marks and line feeds. -/
def IsBody (text : List Char) : Prop :=
  ∀ c ∈ text, c ≠ ':' ∧ c ≠ ';' ∧ c ≠ '#' ∧ c ≠ '\n'

instance (text : List Char) : Decidable (IsBody text) :=
  List.decidableBAll (fun c => c ≠ ':' ∧ c ≠ ';' ∧ c ≠ '#' ∧ c ≠ '\n') text

theorem IsBody.not_mem {body : List Char} (h : IsBody body) : '\n' ∉ body :=
  fun hmem => (h '\n' hmem).2.2.2 rfl

/-- A comment, or nothing. -/
inductive IsRemark : List Char → Prop
  | none : IsRemark []
  | comment {mark : Char} {text : List Char} (hmark : mark = ';' ∨ mark = '#')
      (hfeed : '\n' ∉ text) : IsRemark (mark :: text)

theorem IsRemark.not_mem {remark : List Char} (h : IsRemark remark) : '\n' ∉ remark := by
  cases h with
  | none => exact List.not_mem_nil
  | comment hmark hfeed =>
      refine List.not_mem_cons_of_ne_of_not_mem ?_ hfeed
      rintro rfl
      revert hmark
      decide

/-- A line in its three parts. -/
def IsRow (line : List Char) : Prop :=
  ∃ name heading body remark, IsHeading name heading ∧ IsBody body ∧ IsRemark remark ∧
    line = heading ++ (body ++ remark)

/-! ## Words -/

variable {c : Char} {gap text : List Char}

theorem words_append_cons (hc : isGap c = true) (front back : List Char) :
    words (front ++ c :: back) = words front ++ words back := by
  rw [words, Text.fields_append_separator front hc, List.filter_append, ← words, ← words]

theorem words_append_left (hgap : ∀ c ∈ gap, isGap c = true) (text : List Char) :
    words (gap ++ text) = words text := by
  induction gap with
  | nil => rfl
  | cons c gap ih =>
      rw [List.forall_mem_cons] at hgap
      calc words (c :: (gap ++ text))
          = words [] ++ words (gap ++ text) := words_append_cons hgap.1 [] (gap ++ text)
        _ = words text := ih hgap.2

/-- A gap ends a word, and makes none. -/
theorem words_append_gap (hne : gap ≠ []) (hgap : ∀ c ∈ gap, isGap c = true)
    (front back : List Char) : words (front ++ (gap ++ back)) = words front ++ words back := by
  cases gap with
  | nil => exact absurd rfl hne
  | cons c gap =>
      rw [List.forall_mem_cons] at hgap
      rw [List.cons_append, words_append_cons hgap.1, words_append_left hgap.2]

theorem words_append_right (hgap : ∀ c ∈ gap, isGap c = true) (text : List Char) :
    words (text ++ gap) = words text := by
  cases gap with
  | nil => rw [List.append_nil]
  | cons c gap =>
      have hwords := words_append_gap (List.cons_ne_nil c gap) hgap text []
      rwa [List.append_nil, show words [] = [] from rfl, List.append_nil] at hwords

/-- Characters in front of a text make its first word longer. -/
theorem words_append {letters : List Char} (hne : letters ≠ [])
    (hletters : ∀ c ∈ letters, isGap c = false) (rest : List Char) :
    words (letters ++ rest) = (letters ++ (Text.fields isGap rest).headD []) ::
      (Text.fields isGap rest).tail.filter (· ≠ []) := by
  rw [words, Text.fields_append hletters, List.filter_cons_of_pos]
  exact decide_eq_true (List.append_ne_nil_of_left_ne_nil hne _)

theorem isGap_of_allBlank (h : Text.allBlank text = true) : ∀ c ∈ text, isGap c = true :=
  fun c hc => Bool.or_eq_true_iff.mpr (Or.inl (List.all_eq_true.mp h c hc))

theorem words_trim (text : List Char) : words (Text.trim text) = words text := by
  obtain ⟨left, right, hleft, hright, htext⟩ := Text.exists_eq_append_trim text
  calc words (Text.trim text)
      = words (left ++ Text.trim text) :=
        (words_append_left (isGap_of_allBlank hleft) _).symm
    _ = words (left ++ Text.trim text ++ right) :=
        (words_append_right (isGap_of_allBlank hright) _).symm
    _ = words text := by rw [← htext]

theorem statement?_trim (text : List Char) : statement? (Text.trim text) = statement? text := by
  rw [statement?, words_trim, ← statement?]

/-- Each character is part of a word or of a gap. -/
theorem exists_mem_words (hmem : c ∈ text) (hc : isGap c = false) : ∃ word ∈ words text, c ∈ word := by
  have hflatten : c ∈ (Text.fields isGap text).flatten := by
    rw [Text.flatten_fields, List.mem_filter, hc]
    exact ⟨hmem, rfl⟩
  obtain ⟨word, hword, hcword⟩ := List.mem_flatten.mp hflatten
  refine ⟨word, List.mem_filter.mpr ⟨hword, ?_⟩, hcword⟩
  exact decide_eq_true (List.ne_nil_of_mem hcword)

/-! ## Comments and blanks -/

theorem withoutComment_append_remark {remark : List Char} (h : IsRemark remark) (text : List Char) :
    withoutComment (text ++ remark) = withoutComment text := by
  induction text with
  | nil =>
      cases h with
      | none => rfl
      | comment hmark => rcases hmark with rfl | rfl <;> rfl
  | cons c text ih =>
      rw [List.cons_append, withoutComment, List.takeWhile_cons, withoutComment, List.takeWhile_cons,
        ← withoutComment, ← withoutComment, ih]

/-- Without marks there is no comment. -/
theorem withoutComment_append_left {left : List Char} (h : ∀ c ∈ left, c ≠ ';' ∧ c ≠ '#')
    (text : List Char) : withoutComment (left ++ text) = left ++ withoutComment text := by
  refine List.takeWhile_append_of_pos fun c hc => ?_
  simpa using h c hc

theorem ne_of_isBlank (hc : Text.isBlank c = true) : c ≠ ':' ∧ c ≠ ';' ∧ c ≠ '#' := by
  refine ⟨?_, ?_, ?_⟩ <;> rintro rfl <;> revert hc <;> decide

/-- Blanks around a line make no difference to what is read. -/
theorem ofChars_blanks {left right : List Char} (hleft : Text.allBlank left = true)
    (hright : Text.allBlank right = true) (number : Nat) (text : List Char) :
    Line.ofChars number (left ++ (text ++ right)) = Line.ofChars number text := by
  have hcontent : ∃ right', Text.allBlank right' = true ∧
      withoutComment (text ++ right) = withoutComment text ++ right' := by
    rw [withoutComment, List.takeWhile_append]
    split
    · next hlength =>
      refine ⟨withoutComment right, ?_, ?_⟩
      · rw [Text.allBlank, List.all_eq_true] at hright ⊢
        exact fun c hc => hright c ((List.takeWhile_sublist _).subset hc)
      · rw [withoutComment, (List.takeWhile_sublist _).eq_of_length hlength, withoutComment]
    · exact ⟨[], rfl, (List.append_nil _).symm⟩
  obtain ⟨right', hright', hcontent⟩ := hcontent
  have hmark : ∀ c ∈ left, c ≠ ';' ∧ c ≠ '#' :=
    fun c hc => (ne_of_isBlank (List.all_eq_true.mp hleft c hc)).2
  rw [Line.ofChars, withoutComment_append_left hmark, hcontent, ← List.append_assoc,
    Text.trim_append_append hleft hright', ← Line.ofChars]

theorem ofChars_append_blanks {right : List Char} (h : Text.allBlank right = true) (number : Nat)
    (text : List Char) : Line.ofChars number (text ++ right) = Line.ofChars number text := by
  have hempty : Text.allBlank [] = true := rfl
  exact ofChars_blanks hempty h number text

theorem ofChars_remark {remark : List Char} (h : IsRemark remark) (number : Nat)
    (text : List Char) : Line.ofChars number (text ++ remark) = Line.ofChars number text := by
  rw [Line.ofChars, withoutComment_append_remark h, ← Line.ofChars]

/-! ## Headings -/

theorem not_mem_of_isLabel {name : List Char} (h : isLabel name = true) {c : Char}
    (hc : isLabelChar c = false) : c ∉ name := by
  intro hmem
  have hchar := List.all_eq_true.mp (Bool.and_eq_true_iff.mp h).2 c hmem
  rw [hc] at hchar
  cases hchar

theorem isBlank_eq_of_isLabelChar (h : isLabelChar c = true) : Text.isBlank c = false := by
  rcases Bool.or_eq_true_iff.mp h with h | h
  · rcases Bool.or_eq_true_iff.mp h with h | h
    · exact IsPlain.isBlank_eq (Or.inl h)
    · rw [of_decide_eq_true h]
      rfl
  · rw [of_decide_eq_true h]
    rfl

theorem trim_of_isLabel {name : List Char} (h : isLabel name = true) : Text.trim name = name := by
  have hblank : ∀ c ∈ name, Text.isBlank c = false :=
    fun c hc => isBlank_eq_of_isLabelChar (List.all_eq_true.mp (Bool.and_eq_true_iff.mp h).2 c hc)
  exact Text.trim_eq_self (fun c hc => hblank c (List.mem_of_mem_head? hc))
    fun c hc => hblank c (List.mem_of_mem_getLast? hc)

theorem splitLabel_of_not_mem (h : ':' ∉ text) : splitLabel text = (none, text) := by
  have hdrop : text.dropWhile (· ≠ ':') = [] := by
    rw [List.dropWhile_eq_nil_iff]
    intro c hc
    exact decide_eq_true fun heq => h (heq ▸ hc)
  rw [splitLabel, hdrop]

theorem splitLabel_append_cons {front : List Char} (h : ':' ∉ front) (rest : List Char) :
    splitLabel (front ++ ':' :: rest) =
      if isLabel (Text.trim front) then (some (Text.trim front), Text.trim rest)
      else (none, front ++ ':' :: rest) := by
  have hfront : ∀ c ∈ front, decide (c ≠ ':') = true :=
    fun c hc => decide_eq_true fun heq => h (heq ▸ hc)
  rw [splitLabel, List.dropWhile_append_of_pos hfront, List.takeWhile_append_of_pos hfront]
  simp

/-- What a heading and a body are split into. -/
theorem splitLabel_heading {name : Option (List Char)} {heading body : List Char}
    (hheading : IsHeading name heading) (hbody : ':' ∉ body) :
    splitLabel (Text.trim (heading ++ body)) = (name, Text.trim body) := by
  cases hheading with
  | none => exact splitLabel_of_not_mem fun hmem => hbody (Text.mem_of_mem_trim hmem)
  | @label left name right hleft hname hright =>
      have hfront : ':' ∉ Text.trimStart (left ++ name ++ right) := by
        intro hmem
        have hmem := (List.dropWhile_sublist _).subset hmem
        rw [List.mem_append, List.mem_append] at hmem
        rcases hmem with (hmem | hmem) | hmem
        · exact (ne_of_isBlank (hleft ':' hmem).1).1 rfl
        · exact not_mem_of_isLabel hname rfl hmem
        · exact (ne_of_isBlank (hright ':' hmem).1).1 rfl
      rw [List.append_assoc _ [':'], List.singleton_append, Text.trim_append_cons rfl,
        splitLabel_append_cons hfront, Text.trim_trimStart,
        Text.trim_append_append hleft.allBlank hright.allBlank, trim_of_isLabel hname, if_pos hname,
        Text.trim_trimEnd]

theorem IsHeading.not_mark {name : Option (List Char)} {heading : List Char}
    (h : IsHeading name heading) : ∀ c ∈ heading, c ≠ ';' ∧ c ≠ '#' := by
  cases h with
  | none => exact fun c hc => nomatch hc
  | @label left name right hleft hname hright =>
      intro c hc
      simp only [List.mem_append, List.mem_singleton] at hc
      rcases hc with ((hc | hc) | hc) | rfl
      · exact (ne_of_isBlank (hleft c hc).1).2
      · constructor <;> rintro rfl <;> exact not_mem_of_isLabel hname rfl hc
      · exact (ne_of_isBlank (hright c hc).1).2
      · decide

/-! ## Whole rows -/

/-- The heading of a row is read as its label, and the body as its statement. -/
theorem ofChars_row {name : Option (List Char)} {heading body remark : List Char}
    (hheading : IsHeading name heading) (hbody : IsBody body) (hremark : IsRemark remark)
    (number : Nat) : Line.ofChars number (heading ++ (body ++ remark)) =
      ⟨number, name.map String.ofList, statement? body⟩ := by
  have hcolon : ':' ∉ body := fun hmem => (hbody ':' hmem).1 rfl
  have hmark : ∀ c ∈ body, c ≠ ';' ∧ c ≠ '#' :=
    fun c hc => ⟨(hbody c hc).2.1, (hbody c hc).2.2.1⟩
  have hcontent : withoutComment (heading ++ body) = heading ++ body := by
    have hself : withoutComment body = body := by
      rw [withoutComment, List.takeWhile_eq_self_iff]
      simpa using hmark
    rw [withoutComment_append_left hheading.not_mark, hself]
  rw [← List.append_assoc, ofChars_remark hremark, Line.ofChars, hcontent,
    splitLabel_heading hheading hcolon]
  simp only [statement?_trim]

/-! ## Words of an assembled source -/

theorem not_mem_of_denotes {text : List Char} {d : Int} (h : Denotes text d) : ':' ∉ text := by
  have hdigit : Hex.digit? ':' = none := rfl
  cases h with
  | natural h => exact h.not_mem hdigit
  | plus h | minus h => exact List.not_mem_cons_of_ne_of_not_mem (by decide) (h.not_mem hdigit)
  | @hex _ _ mark hmark h =>
      have hne : ':' ≠ mark := by
        rintro rfl
        revert hmark
        decide
      exact List.not_mem_cons_of_ne_of_not_mem (by decide)
        (List.not_mem_cons_of_ne_of_not_mem hne (h.not_mem hdigit))

variable {labels : Labels} {placed : Placed} {statement : Statement}

/-- If labels have no colons, operands have none either. -/
theorem Carries.not_mem {immediate : List UInt8} (h : Carries labels placed immediate)
    (hlabels : ∀ name target, labels.lookup name = some target → ':' ∉ name.toList) :
    ∀ operand ∈ placed.operands, ':' ∉ operand.toList := by
  have hrefers : ∀ {operand : String} {d : Int}, Refers labels placed.next operand d →
      ':' ∉ operand.toList := by
    intro operand d h
    rw [Refers] at h
    split at h
    · exact not_mem_of_denotes h
    · obtain ⟨target, hlookup, -⟩ := h
      exact hlabels operand target hlookup
  intro operand hmem
  cases h with
  | nothing _ _ _ hoperands =>
      rw [hoperands] at hmem
      cases hmem
  | value _ _ hoperands hdenotes | callee _ hoperands hdenotes =>
      rw [hoperands, List.mem_singleton] at hmem
      rw [hmem]
      exact not_mem_of_denotes hdenotes
  | displacement _ hoperands hd =>
      rw [hoperands, List.mem_singleton] at hmem
      rw [hmem]
      exact hrefers hd
  | entries _ _ _ hall =>
      obtain ⟨k, hk⟩ := List.getElem?_of_mem hmem
      obtain ⟨d, -, hd⟩ := exists_getElem?_eq hall hk
      exact hrefers hd

theorem Places.not_mem (h : Places statement placed) : ':' ∉ statement.mnemonic.toList := by
  intro hmem
  obtain ⟨htable, hmnemonic⟩ := Opcode.ofMnemonic?_eq_some_iff.mp h.opcode
  have hname := (Opcode.isName_mnemonic htable).2 ':'
  rw [hmnemonic, String.toList_ofList] at hname
  cases (hname (List.mem_map.mpr ⟨':', hmem, rfl⟩)).1

theorem Lays.exists_fills {code : Code} {offset stop : Nat} {lines : List Line}
    (h : Lays labels code offset lines stop) {line : Line} (hline : line ∈ lines)
    (hstatement : line.statement = some statement) :
    ∃ placed i, Places statement placed ∧ Fills labels placed i := by
  induction h with
  | nil => cases hline
  | empty _ hnone _ ih =>
      rcases List.mem_cons.mp hline with rfl | hline
      · rw [hnone] at hstatement
        cases hstatement
      · exact ih hline
  | instruction _ hsome hplaces hfills _ _ ih =>
      rcases List.mem_cons.mp hline with rfl | hline
      · rw [hsome] at hstatement
        cases hstatement
        exact ⟨_, _, hplaces, hfills⟩
      · exact ih hline

theorem isLabel_of_splitLabel {name : List Char} (h : (splitLabel text).1 = some name) :
    isLabel name = true := by
  unfold splitLabel at h
  split at h
  · cases h
  · dsimp only at h
    split at h
    · next hname =>
      cases h
      exact hname
    · cases h

theorem isLabel_of_ofChars {number : Nat} {name : String}
    (h : (Line.ofChars number text).label = some name) : isLabel name.toList = true := by
  obtain ⟨label, hlabel, rfl⟩ := Option.map_eq_some_iff.mp h
  rw [String.toList_ofList]
  exact isLabel_of_splitLabel hlabel

/-- No word of an assembled source holds a colon. -/
theorem not_mem_of_assemble {source : String} {code : Code} (h : assemble source = .ok code)
    {line : Line} (hline : line ∈ parse source) (hstatement : line.statement = some statement) :
    ∀ word ∈ statement.mnemonic :: statement.operands, ':' ∉ word.toList := by
  obtain ⟨labels, hlays, hmarks⟩ := exists_lays h
  have hlabels : ∀ name target, labels.lookup name = some target → ':' ∉ name.toList := by
    intro name target hlookup
    obtain ⟨before, marked, after, hlines, hlabel, -⟩ := hmarks name target hlookup
    have hmarked : marked ∈ parse source := hlines ▸ List.mem_append_right _ List.mem_cons_self
    obtain ⟨k, hk, rfl⟩ := List.mem_mapIdx.mp hmarked
    exact not_mem_of_isLabel (isLabel_of_ofChars hlabel) rfl
  obtain ⟨placed, i, hplaces, ⟨hcarries⟩⟩ := hlays.exists_fills hline hstatement
  intro word hword
  rcases List.mem_cons.mp hword with rfl | hword
  · exact hplaces.not_mem
  · exact hcarries.not_mem hlabels word (hplaces.operands ▸ hword)

/-! ## The shape of lines -/

/-- What stands in a text and is no gap, stands in its statement. -/
theorem exists_statement?_of_mem (hmem : c ∈ text) (hc : isGap c = false) :
    ∃ statement, statement? text = some statement ∧
      ∃ word ∈ statement.mnemonic :: statement.operands, c ∈ word.toList := by
  obtain ⟨word, hword, hcword⟩ := exists_mem_words hmem hc
  obtain ⟨first, rest, hwords⟩ := List.exists_cons_of_ne_nil (List.ne_nil_of_mem hword)
  refine ⟨⟨String.ofList first, rest.map String.ofList⟩, by rw [statement?, hwords]; rfl,
    String.ofList word, ?_, by rwa [String.toList_ofList]⟩
  rw [← List.map_cons (f := String.ofList), ← hwords]
  exact List.mem_map_of_mem hword

theorem exists_remark (hfeed : '\n' ∉ text) :
    ∃ remark, IsRemark remark ∧ text = withoutComment text ++ remark := by
  refine ⟨text.dropWhile fun c => c ≠ ';' && c ≠ '#', ?_, List.takeWhile_append_dropWhile.symm⟩
  cases hdrop : text.dropWhile fun c => c ≠ ';' && c ≠ '#' with
  | nil => exact .none
  | cons mark rest =>
      have hmark := List.head?_dropWhile_not (fun c => c ≠ ';' && c ≠ '#') text
      rw [hdrop] at hmark
      refine .comment ?_ fun hmem => hfeed ?_
      · simpa [or_iff_not_imp_left] using hmark
      · exact (List.dropWhile_sublist _).subset (hdrop ▸ List.mem_cons_of_mem _ hmem)

theorem isHeading_of_isLabel {front : List Char} (hname : isLabel (Text.trim front) = true)
    (hfeed : '\n' ∉ front) : IsHeading (some (Text.trim front)) (front ++ [':']) := by
  obtain ⟨left, right, hleft, hright, hfront⟩ := Text.exists_eq_append_trim front
  have hspace : ∀ {space : List Char}, Text.allBlank space = true →
      space ⊆ left ++ Text.trim front ++ right → IsSpace space := by
    intro space hblank hsub c hc
    rw [← hfront] at hsub
    exact ⟨List.all_eq_true.mp hblank c hc, fun heq => hfeed (heq ▸ hsub hc)⟩
  have hheading := IsHeading.label
    (hspace hleft fun c hc => List.mem_append_left _ (List.mem_append_left _ hc)) hname
    (hspace hright fun c hc => List.mem_append_right _ hc)
  rwa [← hfront] at hheading

theorem isRow_of_splitLabel {line : List Char} (hfeed : '\n' ∉ line)
    (h : ':' ∉ (splitLabel (Text.trim (withoutComment line))).2) : IsRow line := by
  obtain ⟨remark, hremark, hcomment⟩ := exists_remark hfeed
  have hmark : ∀ c ∈ withoutComment line, c ≠ ';' ∧ c ≠ '#' ∧ c ≠ '\n' := by
    intro c hc
    have hnot := List.mem_takeWhile_imp hc
    rw [Bool.and_eq_true, decide_eq_true_eq, decide_eq_true_eq] at hnot
    exact ⟨hnot.1, hnot.2, fun heq => hfeed (heq ▸ (List.takeWhile_sublist _).subset hc)⟩
  by_cases hcolon : ':' ∈ withoutComment line
  · -- a label stands before the first colon, and no other colon follows
    obtain ⟨front, rest, htext, hfront⟩ := List.eq_append_cons_of_mem hcolon
    have hfront' : ':' ∉ Text.trimStart front :=
      fun hmem => hfront ((List.dropWhile_sublist _).subset hmem)
    rw [htext, Text.trim_append_cons rfl, splitLabel_append_cons hfront', Text.trim_trimStart,
      Text.trim_trimEnd] at h
    rw [htext] at hmark hcomment
    split at h
    · next hname =>
      have hheading := isHeading_of_isLabel hname fun hmem =>
        (hmark '\n' (List.mem_append_left _ hmem)).2.2 rfl
      have hrest : ':' ∉ rest := fun hmem => h (Text.mem_trim hmem rfl)
      refine ⟨_, _, rest, remark, hheading, fun c hc => ⟨?_, ?_⟩, hremark, ?_⟩
      · exact fun heq => hrest (heq ▸ hc)
      · exact hmark c (List.mem_append_right _ (List.mem_cons_of_mem _ hc))
      · rw [hcomment]
        simp
    · exact absurd (List.mem_append_right _ List.mem_cons_self) h
  · refine ⟨none, [], withoutComment line, remark, .none, fun c hc => ?_, hremark, hcomment⟩
    exact ⟨fun heq => hcolon (heq ▸ hc), hmark c hc⟩

/-- **Every line of an assembled source is a row.** -/
theorem isRow_of_assemble {source : String} {code : Code} (h : assemble source = .ok code)
    {line : List Char} (hline : line ∈ Text.lines source.toList) : IsRow line := by
  refine isRow_of_splitLabel (Text.not_mem_of_mem_lines hline) fun hmem => ?_
  obtain ⟨statement, hstatement, word, hword, hcolon⟩ := exists_statement?_of_mem hmem rfl
  obtain ⟨k, hk, hget⟩ := List.getElem_of_mem hline
  have hparse : Line.ofChars (k + 1) line ∈ parse source :=
    List.mem_mapIdx.mpr ⟨k, hk, by rw [hget]⟩
  exact not_mem_of_assemble h hparse hstatement word hword hcolon

end EofStack.Assembly
