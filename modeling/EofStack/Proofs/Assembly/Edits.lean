import EofStack.Proofs.Assembly.Entries
import EofStack.Proofs.Assembly.Rows
import Mathlib.Logic.Relation

/-!
# Edits that keep the code

Comments, blanks, gaps between words, the case of mnemonics, line ends, empty lines and labels on
lines of their own are a matter of taste: a source that assembles may be edited in all of these
respects, as often as one likes, and assembles to the same code (`assemble_of_edits`).

## Strategy

No edit changes the entries of a source (`Edit.entriesOf_eq`), and the code depends on nothing else
(`assembleLines_entries`).  The entries of a text are those of its lines, one after the other, so
that only the line that is edited has to be looked at.
-/

namespace EofStack.Assembly

/-! ## Edits -/

/-- An edit within a line. -/
inductive LineEdit : List Char → List Char → Prop
  /-- A comment is appended. -/
  | remark (line : List Char) {mark : Char} {text : List Char} (hmark : mark = ';' ∨ mark = '#')
      (hfeed : '\n' ∉ text) : LineEdit line (line ++ mark :: text)
  /-- Blanks are put before and behind what the line holds, with its comment or without it. -/
  | blanks (content : List Char) {left right remark : List Char} (hleft : IsSpace left)
      (hright : IsSpace right) (hremark : IsRemark remark) :
      LineEdit (content ++ remark) (left ++ (content ++ right) ++ remark)
  /-- Blanks around a label are exchanged for others. -/
  | heading {name heading heading' body remark : List Char} (hheading : IsHeading (some name) heading)
      (hheading' : IsHeading (some name) heading') (hbody : IsBody body)
      (hremark : IsRemark remark) :
      LineEdit (heading ++ (body ++ remark)) (heading' ++ (body ++ remark))
  /-- What separates words is exchanged for another gap. -/
  | gap {name : Option (List Char)} {heading front gap gap' back remark : List Char}
      (hheading : IsHeading name heading) (hfront : IsBody front) (hgap : IsGapText gap)
      (hgap' : IsGapText gap') (hback : IsBody back) (hremark : IsRemark remark) :
      LineEdit (heading ++ (front ++ (gap ++ back) ++ remark))
        (heading ++ (front ++ (gap' ++ back) ++ remark))
  /-- Letters at the beginning of the first word change their case. -/
  | mnemonic {name : Option (List Char)} {heading gap letters letters' rest remark : List Char}
      (hheading : IsHeading name heading) (hbody : IsBody (gap ++ (letters ++ rest)))
      (hgap : ∀ c ∈ gap, isGap c = true) (hletters : ∀ c ∈ letters, isGap c = false)
      (hcase : letters'.map Char.toLower = letters.map Char.toLower) (hremark : IsRemark remark) :
      LineEdit (heading ++ (gap ++ (letters ++ rest) ++ remark))
        (heading ++ (gap ++ (letters' ++ rest) ++ remark))

/-- The text ends its last line, if it has any. -/
inductive EndsLine : List Char → Prop
  | nothing : EndsLine []
  | lineFeed (text : List Char) : EndsLine (text ++ ['\n'])

/-- What may follow a line: nothing, or a line end and more. -/
inductive FollowsLine : List Char → Prop
  | nothing : FollowsLine []
  | lineFeed (text : List Char) : FollowsLine ('\n' :: text)
  | carriageReturn (text : List Char) : FollowsLine ('\r' :: '\n' :: text)

/-- An edit of a source. -/
inductive Edit : List Char → List Char → Prop
  /-- One line is edited. -/
  | line {before line line' after : List Char} (hbefore : EndsLine before) (hline : '\n' ∉ line)
      (hedit : LineEdit line line') (hafter : FollowsLine after) :
      Edit (before ++ (line ++ after)) (before ++ (line' ++ after))
  /-- A line end becomes a carriage return and a line feed. -/
  | lineEnd (before after : List Char) :
      Edit (before ++ '\n' :: after) (before ++ '\r' :: '\n' :: after)
  /-- A line without label and statement is put in front of any other, or behind all of them. -/
  | insert {before space remark : List Char} (after : List Char) (hbefore : EndsLine before)
      (hspace : IsSpace space) (hremark : IsRemark remark) :
      Edit (before ++ after) (before ++ (space ++ remark ++ '\n' :: after))
  /-- A label is moved to a line of its own, in front of its instruction. -/
  | label {before name heading body remark after : List Char} (hbefore : EndsLine before)
      (hheading : IsHeading (some name) heading) (hbody : IsBody body) (hremark : IsRemark remark)
      (hafter : FollowsLine after) :
      Edit (before ++ (heading ++ (body ++ remark) ++ after))
        (before ++ (heading ++ '\n' :: (body ++ remark) ++ after))
  /-- The last line is ended. -/
  | finish (text : List Char) : Edit text (text ++ ['\n'])

/-! ## Entries of a text -/

/-- The entries of all lines of a text. -/
def entriesOf (text : List Char) : List Line :=
  (Text.lines text).flatMap fun line => (Line.ofChars 0 line).entries

variable {line before after text : List Char}

theorem Line.entries_ofChars (number : Nat) (text : List Char) :
    (Line.ofChars number text).entries = (Line.ofChars 0 text).entries := by
  simp only [Line.ofChars, Line.entries]

theorem flatMap_parse (source : String) :
    (parse source).flatMap Line.entries = entriesOf source.toList := by
  rw [parse, entriesOf, List.flatMap_def, List.flatMap_def]
  congr 1
  apply List.ext_getElem
  · rw [List.length_map, List.length_map, List.length_mapIdx]
  · intro k hk hk'
    rw [List.getElem_map, List.getElem_map, List.getElem_mapIdx]
    exact Line.entries_ofChars (k + 1) _

theorem assemble_eq_ok_iff {source : String} {code : Code} :
    assemble source = .ok code ↔ assembleLines (entriesOf source.toList) = .ok code := by
  rw [← flatMap_parse, assembleLines_entries, assemble]

theorem EndsLine.lines_append (h : EndsLine before) (after : List Char) :
    Text.lines (before ++ after) = Text.lines before ++ Text.lines after := by
  cases h with
  | nothing => rfl
  | lineFeed text =>
      rw [List.append_assoc, List.singleton_append, Text.lines, Text.pieces_append, List.map_append,
        ← Text.lines, ← Text.lines]

theorem EndsLine.entriesOf_append (h : EndsLine before) (after : List Char) :
    entriesOf (before ++ after) = entriesOf before ++ entriesOf after := by
  rw [entriesOf, h.lines_append, List.flatMap_append, ← entriesOf, ← entriesOf]

theorem entriesOf_line (h : '\n' ∉ line) : entriesOf line = (Line.ofChars 0 line).entries := by
  by_cases hne : line = []
  · rw [hne]
    rfl
  · rw [entriesOf, Text.lines, Text.pieces_of_not_mem hne h, List.map_singleton,
      Text.withoutLineEnd_of_not_mem h, List.flatMap_singleton]

theorem entriesOf_lineFeed (h : '\n' ∉ line) (after : List Char) :
    entriesOf (line ++ '\n' :: after) = (Line.ofChars 0 line).entries ++ entriesOf after := by
  obtain ⟨ending, hending, hline⟩ := Text.exists_withoutLineEnd_append line
  have hblank : Text.allBlank ending = true := by
    rcases hending with rfl | rfl <;> rfl
  have hread := ofChars_append_blanks hblank 0 (Text.withoutLineEnd (line ++ ['\n']))
  rw [← hline] at hread
  rw [entriesOf, Text.lines, Text.pieces_append_cons h, List.map_cons, List.flatMap_cons, ← hread,
    ← Text.lines, ← entriesOf]

/-- A text consists of whole lines and a last one, which may be empty. -/
theorem exists_last (text : List Char) :
    ∃ before line, EndsLine before ∧ '\n' ∉ line ∧ text = before ++ line := by
  induction text using List.reverseRecOn with
  | nil => exact ⟨[], [], .nothing, List.not_mem_nil, rfl⟩
  | append_singleton text c ih =>
      by_cases hc : c = '\n'
      · rw [hc]
        exact ⟨text ++ ['\n'], [], .lineFeed text, List.not_mem_nil, (List.append_nil _).symm⟩
      · obtain ⟨before, line, hbefore, hline, rfl⟩ := ih
        refine ⟨before, line ++ [c], hbefore, List.not_mem_append hline ?_,
          List.append_assoc before line [c]⟩
        exact fun hmem => hc (List.mem_singleton.mp hmem).symm

theorem entriesOf_append_lineFeed (text after : List Char) :
    entriesOf (text ++ '\n' :: after) = entriesOf text ++ entriesOf after := by
  obtain ⟨before, line, hbefore, hline, rfl⟩ := exists_last text
  rw [List.append_assoc, hbefore.entriesOf_append, hbefore.entriesOf_append,
    entriesOf_lineFeed hline, entriesOf_line hline, List.append_assoc]

theorem entriesOf_append_carriageReturn (text : List Char) :
    entriesOf (text ++ ['\r']) = entriesOf text := by
  obtain ⟨before, line, hbefore, hline, rfl⟩ := exists_last text
  have hblank : Text.allBlank ['\r'] = true := rfl
  have hline' : '\n' ∉ line ++ ['\r'] := List.not_mem_append hline (by decide)
  rw [List.append_assoc, hbefore.entriesOf_append, hbefore.entriesOf_append, entriesOf_line hline,
    entriesOf_line hline', ofChars_append_blanks hblank]

/-- The entries of a line come first, and then those of the lines that follow it. -/
theorem FollowsLine.entriesOf_append (h : FollowsLine after) (hline : '\n' ∉ line) :
    entriesOf (line ++ after) = (Line.ofChars 0 line).entries ++ entriesOf after := by
  cases h with
  | nothing =>
      rw [List.append_nil, entriesOf_line hline]
      exact (List.append_nil _).symm
  | lineFeed rest =>
      rw [entriesOf_lineFeed hline, ← List.nil_append ('\n' :: rest), entriesOf_append_lineFeed]
      rfl
  | carriageReturn rest =>
      rw [List.append_cons, entriesOf_append_lineFeed, entriesOf_append_carriageReturn,
        entriesOf_line hline, ← List.singleton_append, entriesOf_append_lineFeed]
      rfl

/-! ## Edits of one line -/

theorem IsHeading.not_mem {name : Option (List Char)} {heading : List Char}
    (h : IsHeading name heading) : '\n' ∉ heading := by
  cases h with
  | none => exact List.not_mem_nil
  | label hleft hname hright =>
      simp only [List.mem_append, List.mem_singleton, not_or]
      exact ⟨⟨⟨hleft.not_mem, not_mem_of_isLabel hname rfl⟩, hright.not_mem⟩, by decide⟩

theorem not_mem_row {name : Option (List Char)} {heading body remark : List Char}
    (hheading : IsHeading name heading) (hbody : IsBody body) (hremark : IsRemark remark) :
    '\n' ∉ heading ++ (body ++ remark) :=
  List.not_mem_append hheading.not_mem (List.not_mem_append hbody.not_mem hremark.not_mem)

/-- Between bodies a gap makes a longer one. -/
theorem IsGapText.isBody_append {gap front back : List Char} (h : IsGapText gap)
    (hfront : IsBody front) (hback : IsBody back) : IsBody (front ++ (gap ++ back)) := by
  refine List.forall_mem_append.mpr ⟨hfront, List.forall_mem_append.mpr ⟨fun c hc => ?_, hback⟩⟩
  obtain ⟨hgap, hfeed⟩ := h.gap c hc
  rcases Bool.or_eq_true_iff.mp hgap with hblank | hcomma
  · obtain ⟨hcolon, hsemicolon, hhash⟩ := ne_of_isBlank hblank
    exact ⟨hcolon, hsemicolon, hhash, hfeed⟩
  · rw [of_decide_eq_true hcomma]
    decide

section

variable {letters letters' : List Char} (hcase : letters'.map Char.toLower = letters.map Char.toLower)

include hcase

/-- What is no letter or digit remains. -/
theorem mem_of_case {c : Char} (hmem : c ∈ letters') (hc : c.isAlphanum = false) : c ∈ letters := by
  have hlower : c.toLower ∈ letters.map Char.toLower := hcase ▸ List.mem_map_of_mem hmem
  obtain ⟨d, hd, heq⟩ := List.mem_map.mp hlower
  rwa [← eq_of_toLower_eq hc heq]

theorem isBody_of_case {gap rest : List Char} (h : IsBody (gap ++ (letters ++ rest))) :
    IsBody (gap ++ (letters' ++ rest)) := by
  obtain ⟨hgap, h⟩ := List.forall_mem_append.mp h
  obtain ⟨hletters, hrest⟩ := List.forall_mem_append.mp h
  refine List.forall_mem_append.mpr ⟨hgap, List.forall_mem_append.mpr ⟨fun c hc => ?_, hrest⟩⟩
  cases halphanum : c.isAlphanum with
  | false => exact hletters c (mem_of_case hcase hc halphanum)
  | true =>
      have hplain : IsPlain c := Or.inl halphanum
      exact ⟨hplain.ne (by decide), hplain.ne (by decide), hplain.ne (by decide),
        hplain.ne (by decide)⟩

/-- The first word changes its case with its letters, and nothing else changes. -/
theorem statement?_of_case (hletters : ∀ c ∈ letters, isGap c = false) {gap : List Char}
    (hgap : ∀ c ∈ gap, isGap c = true) (rest : List Char) :
    (statement? (gap ++ (letters' ++ rest))).map Statement.lowered =
      (statement? (gap ++ (letters ++ rest))).map Statement.lowered := by
  have hletters' : ∀ c ∈ letters', isGap c = false := by
    intro c hc
    cases halphanum : c.isAlphanum with
    | true => exact IsPlain.isGap_eq (Or.inl halphanum)
    | false => exact hletters c (mem_of_case hcase hc halphanum)
  rw [statement?, statement?, words_append_left hgap, words_append_left hgap]
  by_cases hne : letters = []
  · rw [hne, List.map_nil, List.map_eq_nil_iff] at hcase
    rw [hne, hcase]
  · have hne' : letters' ≠ [] := by
      rintro rfl
      exact hne (List.map_eq_nil_iff.mp hcase.symm)
    rw [words_append hne hletters, words_append hne' hletters']
    simp [Statement.lowered, hcase]

end

theorem LineEdit.entries_eq {line line' : List Char} (h : LineEdit line line') :
    (Line.ofChars 0 line').entries = (Line.ofChars 0 line).entries := by
  cases h with
  | remark _ hmark hfeed => rw [ofChars_remark (.comment hmark hfeed)]
  | blanks content hleft hright hremark =>
      rw [ofChars_remark hremark, ofChars_remark hremark,
        ofChars_blanks hleft.allBlank hright.allBlank]
  | heading hheading hheading' hbody hremark =>
      rw [ofChars_row hheading hbody hremark, ofChars_row hheading' hbody hremark]
  | @gap name heading front gap gap' back remark hheading hfront hgap hgap' hback hremark =>
      have hwords : ∀ {gap}, IsGapText gap →
          words (front ++ (gap ++ back)) = words front ++ words back :=
        fun hgap => words_append_gap hgap.ne_nil (fun c hc => (hgap.gap c hc).1) front back
      rw [ofChars_row hheading (hgap.isBody_append hfront hback) hremark,
        ofChars_row hheading (hgap'.isBody_append hfront hback) hremark, statement?, statement?,
        hwords hgap, hwords hgap']
  | @mnemonic name heading gap letters letters' rest remark hheading hbody hgap hletters hcase
      hremark =>
      rw [ofChars_row hheading hbody hremark,
        ofChars_row hheading (isBody_of_case hcase hbody) hremark]
      exact Line.entries_congr rfl (statement?_of_case hcase hletters hgap rest)

theorem LineEdit.not_mem {line line' : List Char} (h : LineEdit line line') (hline : '\n' ∉ line) :
    '\n' ∉ line' := by
  cases h with
  | remark _ hmark hfeed =>
      exact List.not_mem_append hline (IsRemark.comment hmark hfeed).not_mem
  | blanks content hleft hright hremark =>
      simp only [List.mem_append, not_or] at hline ⊢
      exact ⟨⟨hleft.not_mem, hline.1, hright.not_mem⟩, hline.2⟩
  | heading _ hheading' hbody hremark => exact not_mem_row hheading' hbody hremark
  | gap hheading hfront _ hgap' hback hremark =>
      exact not_mem_row hheading (hgap'.isBody_append hfront hback) hremark
  | mnemonic hheading hbody _ _ hcase hremark =>
      exact not_mem_row hheading (isBody_of_case hcase hbody) hremark

/-! ## Edits of a source -/

/-- **No edit changes the entries of a source.** -/
theorem Edit.entriesOf_eq {text text' : List Char} (h : Edit text text') :
    entriesOf text' = entriesOf text := by
  cases h with
  | line hbefore hline hedit hafter =>
      rw [hbefore.entriesOf_append, hbefore.entriesOf_append,
        hafter.entriesOf_append (hedit.not_mem hline), hafter.entriesOf_append hline,
        hedit.entries_eq]
  | lineEnd before after =>
      rw [List.append_cons, entriesOf_append_lineFeed, entriesOf_append_lineFeed,
        entriesOf_append_carriageReturn]
  | @insert before space remark after hbefore hspace hremark =>
      have hline : '\n' ∉ space ++ remark := List.not_mem_append hspace.not_mem hremark.not_mem
      have hread : Line.ofChars 0 (space ++ remark) = Line.ofChars 0 [] := by
        rw [ofChars_remark hremark, ← List.nil_append space, ofChars_append_blanks hspace.allBlank]
      rw [hbefore.entriesOf_append, hbefore.entriesOf_append, entriesOf_lineFeed hline, hread]
      rfl
  | @label before name heading body remark after hbefore hheading hbody hremark hafter =>
      have hbody' : '\n' ∉ body ++ remark := List.not_mem_append hbody.not_mem hremark.not_mem
      have hline := not_mem_row hheading hbody hremark
      have hempty : IsBody [] := fun c hc => nomatch hc
      have hlabel := ofChars_row hheading hempty .none 0
      have hstatement := ofChars_row .none hbody hremark 0
      rw [List.append_nil, List.append_nil] at hlabel
      rw [List.nil_append] at hstatement
      rw [hbefore.entriesOf_append, hbefore.entriesOf_append, List.append_assoc, List.cons_append,
        entriesOf_lineFeed hheading.not_mem, hafter.entriesOf_append hbody',
        hafter.entriesOf_append hline, hlabel, hstatement, ofChars_row hheading hbody hremark]
      cases statement? body <;> rfl
  | finish =>
      rw [entriesOf_append_lineFeed]
      exact List.append_nil _

theorem entriesOf_eq_of_edits {text text' : List Char} (h : Relation.EqvGen Edit text text') :
    entriesOf text' = entriesOf text := by
  induction h with
  | rel _ _ hedit => exact hedit.entriesOf_eq
  | refl => rfl
  | symm _ _ _ ih => exact ih.symm
  | trans _ _ _ _ _ ih ih' => exact ih'.trans ih

/-- **The layout of a source does not matter.**  Every line of a source that assembles has the parts
that edits are about, and edits keep the code, however often they are made and undone. -/
theorem assemble_of_edits {source : String} {code : Code} (h : assemble source = .ok code) :
    (∀ line ∈ Text.lines source.toList, IsRow line) ∧
      ∀ other : String, Relation.EqvGen Edit source.toList other.toList →
        assemble other = .ok code := by
  refine ⟨fun line hline => isRow_of_assemble h hline, fun other hedits => ?_⟩
  rw [assemble_eq_ok_iff, entriesOf_eq_of_edits hedits, ← assemble_eq_ok_iff, h]

/-- A jump to itself, edited in many ways. -/
theorem assemble_of_edits_jump :
    assemble "a:rjump a" = .ok #[0x5c, 0xff, 0xfd] ∧
      assemble ";\na:\r\nRjump,a#:\n" = .ok #[0x5c, 0xff, 0xfd] := by
  have hplain : assemble "a:rjump a" = .ok #[0x5c, 0xff, 0xfd] := by decide +kernel
  refine ⟨hplain, (assemble_of_edits hplain).2 _ ?_⟩
  have hspace : IsSpace [] := by decide
  have hheading : IsHeading (some ['a']) ['a', ':'] := .label hspace rfl hspace
  have hcase : LineEdit "a:rjump a".toList "a:Rjump a".toList := by
    have hbody : IsBody ([] ++ (['r'] ++ "jump a".toList)) := by decide
    have hgap : ∀ c ∈ [], isGap c = true := List.forall_mem_nil _
    have hletters : ∀ c ∈ ['r'], isGap c = false := List.forall_mem_singleton.mpr (by decide)
    have hlower : ['R'].map Char.toLower = ['r'].map Char.toLower := by decide
    exact .mnemonic hheading hbody hgap hletters hlower .none
  have hgap : LineEdit "a:Rjump a".toList "a:Rjump,a".toList := by
    have hfront : IsBody "Rjump".toList := by decide
    have hback : IsBody ['a'] := by decide
    have hblank : IsGapText [' '] := ⟨by decide, List.forall_mem_singleton.mpr (by decide)⟩
    have hcomma : IsGapText [','] := ⟨by decide, List.forall_mem_singleton.mpr (by decide)⟩
    exact .gap hheading hfront hblank hcomma hback .none
  have hmark : '#' = ';' ∨ '#' = '#' := Or.inr rfl
  have hfeed : '\n' ∉ [':'] := by decide
  have hremark : LineEdit "a:Rjump,a".toList "a:Rjump,a#:".toList :=
    .remark "a:Rjump,a".toList hmark hfeed
  have hline : ∀ {line line' : List Char}, '\n' ∉ line → LineEdit line line' →
      Edit line line' := by
    intro line line' hfeed hedit
    have hedit := Edit.line .nothing hfeed hedit .nothing
    rwa [List.nil_append, List.nil_append, List.append_nil, List.append_nil] at hedit
  have hlabel : Edit "a:Rjump,a#:".toList "a:\nRjump,a#:".toList := by
    have hbody : IsBody "Rjump,a".toList := by decide
    exact .label .nothing hheading hbody (.comment hmark hfeed) .nothing
  have hend : Edit "a:\nRjump,a#:".toList "a:\r\nRjump,a#:".toList :=
    .lineEnd ['a', ':'] "Rjump,a#:".toList
  have hfinish : Edit "a:\r\nRjump,a#:".toList "a:\r\nRjump,a#:\n".toList :=
    .finish _
  have hinsert : Edit "a:\r\nRjump,a#:\n".toList ";\na:\r\nRjump,a#:\n".toList := by
    have hempty : '\n' ∉ ([] : List Char) := List.not_mem_nil
    exact .insert _ .nothing hspace (.comment (Or.inl rfl) hempty)
  refine .trans _ _ _ (.rel _ _ (hline (by decide) hcase)) ?_
  refine .trans _ _ _ (.rel _ _ (hline (by decide) hgap)) ?_
  refine .trans _ _ _ (.rel _ _ (hline (by decide) hremark)) ?_
  refine .trans _ _ _ (.rel _ _ hlabel) ?_
  refine .trans _ _ _ (.rel _ _ hend) ?_
  exact .trans _ _ _ (.rel _ _ hfinish) (.rel _ _ hinsert)

end EofStack.Assembly
