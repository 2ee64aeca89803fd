import EofStack.Proofs.Assembly.Labels
import EofStack.Proofs.Assembly.Printed
import EofStack.Proofs.Structured.Program

/-!
# Reading structured programs

The source of a structured program is read row by row: a mark as a label, and a command as a
statement under the name of its opcode (`parse_source`).
-/

namespace EofStack.Structured

open Assembly

/-! ## Commands as statements -/

namespace Command

def opcode : Command → Opcode
  | push => .plain 0x5f "push0" 0 1
  | add => .plain 0x01 "add" 2 (-1)
  | pop => .plain 0x50 "pop" 1 (-1)
  | call => ⟨0xb0, "callf", 0, 0, 2, .call⟩
  | jump _ => ⟨0x5c, "rjump", 0, 0, 2, .jump⟩
  | branch _ => ⟨0x5d, "rjumpi", 1, -1, 2, .branch⟩
  | table _ => ⟨0x5e, "rjumpv", 1, -1, 1, .table⟩
  | stop => .halting 0x00 "stop" 0 0

/-- The labels that a command may go to. -/
def targets : Command → List Label
  | jump target | branch target => [target]
  | table targets => targets
  | _ => []

def operands : Command → List String
  | call => ["1"]
  | c => c.targets.map Label.text

theorem opcode_mem_table (c : Command) : c.opcode ∈ Opcode.table := by
  cases c <;> simp only [opcode] <;> decide +kernel

end Command

/-- The label that a row defines. -/
def Row.label? : Row → Option String
  | mark label => some label.text
  | command _ => none

/-- The statement that a row holds. -/
def Row.statement? : Row → Option Statement
  | mark _ => none
  | command c => some ⟨c.opcode.mnemonic, c.operands⟩

/-! ## Words -/

theorem Label.toList_text (label : Label) :
    label.text.toList = label.stem.text.toList ++ Nat.toDigits 10 label.number := by
  simp [text]

theorem Label.isAlphanum_of_mem {label : Label} {c : Char} (h : c ∈ label.text.toList) :
    c.isAlphanum = true := by
  rw [Label.toList_text, List.mem_append] at h
  rcases h with hstem | hdigits
  · have hall : ∀ stem : Stem, stem.text.toList.all Char.isAlphanum = true := by
      intro stem
      cases stem <;> decide
    exact List.all_eq_true.mp (hall label.stem) c hstem
  · have hdigit := Nat.isDigit_of_mem_toDigits (by decide) (by decide) hdigits
    simp [Char.isAlphanum, hdigit]

theorem Label.isWord_text (label : Label) : IsWord label.text.toList where
  ne_nil := by simp [Label.toList_text, Nat.toDigits_ne_nil]
  plain _ hc := Or.inl (Label.isAlphanum_of_mem hc)

theorem Label.isLabel_text (label : Label) : isLabel label.text.toList = true := by
  have hhead : label.text.toList.head?.any isLabelStart = true := by
    rw [Label.toList_text]
    cases label.stem <;> rfl
  have hall : label.text.toList.all isLabelChar = true := by
    rw [List.all_eq_true]
    intro c hc
    simp [isLabelChar, Label.isAlphanum_of_mem hc]
  rw [isLabel, hhead, hall]
  rfl

theorem Command.isWord_mnemonic (c : Command) : IsWord c.opcode.mnemonic.toList where
  ne_nil := (Opcode.isName_mnemonic c.opcode_mem_table).1
  plain d hd := Or.inl ((Opcode.isName_mnemonic c.opcode_mem_table).2 d hd).1

theorem Command.isWord_of_mem_operands {c : Command} {word : List Char}
    (h : word ∈ c.operands.map String.toList) : IsWord word := by
  obtain ⟨operand, hoperand, rfl⟩ := List.mem_map.mp h
  have hlabels : ∀ {labels : List Label}, operand ∈ labels.map Label.text →
      IsWord operand.toList := by
    intro labels hmem
    obtain ⟨label, -, rfl⟩ := List.mem_map.mp hmem
    exact label.isWord_text
  cases c with
  | call =>
      obtain rfl := List.mem_singleton.mp hoperand
      refine ⟨by decide, ?_⟩
      intro c hc
      have hone : c = '1' := List.mem_singleton.mp hc
      exact Or.inl (by rw [hone]; rfl)
  | push | add | pop | jump | branch | table | stop => exact hlabels hoperand

/-! ## Rows as lines -/

/-- A command is its name and its operands, with a blank in front of each; only a table without
targets has a blank and no operand. -/
theorem Command.toList_text {c : Command} (hc : c ≠ .table []) :
    c.text.toList = joined c.opcode.mnemonic.toList (c.operands.map String.toList) := by
  cases c with
  | push | add | pop | call | stop => rfl
  | jump target | branch target => simp [text, opcode, operands, targets, joined]
  | table targets =>
      cases targets with
      | nil => exact absurd rfl hc
      | cons target targets =>
          have hname : "rjumpv ".toList = "rjumpv".toList ++ [' '] := by decide
          have hoperands : (table (target :: targets)).operands =
              (target :: targets).map Label.text := rfl
          rw [hoperands, List.map_map, List.map_cons, joined_cons, joined_eq_intercalate, text,
            String.toList_append, String.toList_intercalate, List.map_map, ← List.map_cons, hname,
            List.append_assoc]
          rfl

/-- A command is read as a statement. -/
theorem Command.ofChars_text (c : Command) (number : Nat) :
    Line.ofChars number c.text.toList =
      ⟨number, none, some ⟨c.opcode.mnemonic, c.operands⟩⟩ := by
  by_cases hc : c = .table []
  · subst hc
    rfl
  · rw [toList_text hc, ofChars_joined c.isWord_mnemonic fun _ => isWord_of_mem_operands]
    simp [List.map_map]

theorem Command.not_mem_text (c : Command) {d : Char} (hd : d ∈ reserved) :
    d ∉ c.text.toList := by
  by_cases hc : c = .table []
  · subst hc
    have hnone : (Command.table []).text.toList.all (fun d => decide (d ∉ reserved)) = true := by
      decide
    intro hmem
    exact of_decide_eq_true (List.all_eq_true.mp hnone d hmem) hd
  · rw [toList_text hc]
    exact not_mem_joined c.isWord_mnemonic (fun _ => isWord_of_mem_operands) hd

theorem Label.ofChars_mark (label : Label) (number : Nat) :
    Line.ofChars number (label.text ++ ":").toList = ⟨number, some label.text, none⟩ := by
  have hplain : ∀ c ∈ label.text.toList, IsPlain c := label.isWord_text.plain
  have hchar : ∀ c ∈ (label.text ++ ":").toList, IsPlain c ∨ c = ':' := by
    intro c hc
    rw [String.toList_append, List.mem_append] at hc
    exact hc.imp (hplain c) List.mem_singleton.mp
  have hcomment : withoutComment (label.text ++ ":").toList = (label.text ++ ":").toList := by
    rw [withoutComment, List.takeWhile_eq_self_iff]
    intro c hc
    rcases hchar c hc with hc | rfl
    · simpa using And.intro (hc.ne (by decide)) (hc.ne (by decide))
    · rfl
  have hblank : ∀ c ∈ (label.text ++ ":").toList, Text.isBlank c = false := by
    intro c hc
    rcases hchar c hc with hc | rfl
    · exact hc.isBlank_eq
    · decide
  have htrim : Text.trim (label.text ++ ":").toList = (label.text ++ ":").toList :=
    Text.trim_eq_self (fun c hc => hblank c (List.mem_of_mem_head? hc))
      (fun c hc => hblank c (List.mem_of_mem_getLast? hc))
  have hname : Text.trim label.text.toList = label.text.toList :=
    Text.trim_eq_self (fun c hc => (hplain c (List.mem_of_mem_head? hc)).isBlank_eq)
      (fun c hc => (hplain c (List.mem_of_mem_getLast? hc)).isBlank_eq)
  have hcolon : ∀ c ∈ label.text.toList, (decide (c ≠ ':')) = true := by
    intro c hc
    simpa using (hplain c hc).ne (by decide)
  have hsplit : splitLabel (label.text ++ ":").toList = (some label.text.toList, []) := by
    rw [String.toList_append, splitLabel, List.dropWhile_append_of_pos hcolon,
      List.takeWhile_append_of_pos hcolon]
    simp [hname, label.isLabel_text]
  simp only [Line.ofChars, hcomment, htrim, hsplit, Option.map_some, String.ofList_toList]
  rfl

theorem Row.ofChars_text (row : Row) (number : Nat) :
    Line.ofChars number row.text.toList = ⟨number, row.label?, row.statement?⟩ := by
  cases row with
  | mark label => exact label.ofChars_mark number
  | command c => exact c.ofChars_text number

/-- No row ends its line early. -/
theorem Row.not_mem_text (row : Row) : '\n' ∉ row.text.toList ∧ '\r' ∉ row.text.toList := by
  have hrow : ∀ {d}, d ∈ reserved → d ≠ ':' → d ∉ row.text.toList := by
    intro d hd hcolon
    cases row with
    | command c => exact c.not_mem_text hd
    | mark label =>
        intro hmem
        rw [text, String.toList_append, List.mem_append] at hmem
        rcases hmem with hmem | hmem
        · exact (label.isWord_text.plain d hmem).ne hd rfl
        · exact hcolon (List.mem_singleton.mp hmem)
  exact ⟨hrow (by decide) (by decide), hrow (by decide) (by decide)⟩

/-- The line holds what the row has written. -/
structure Row.Reads (row : Row) (line : Line) : Prop where
  label : line.label = row.label?
  statement : line.statement = row.statement?

/-- A structured program is read row by row. -/
theorem reads_parse (rows : List Row) : List.Forall₂ Row.Reads rows (parse (source rows)) := by
  have htext : (source rows).toList =
      (rows.map fun row => row.text.toList).flatMap (· ++ ['\n']) := by
    rw [source, String.toList_join, List.flatMap_map, List.flatMap_map]
    congr 1
    funext row
    rw [String.toList_append]
    rfl
  have hlines : Text.lines (source rows).toList = rows.map fun row => row.text.toList := by
    rw [htext]
    apply Text.lines_flatMap
    intro text hmem
    obtain ⟨row, -, rfl⟩ := List.mem_map.mp hmem
    exact row.not_mem_text
  rw [parse, hlines, List.forall₂_iff_get]
  refine ⟨by simp, ?_⟩
  intro k hk hk'
  simp only [List.get_eq_getElem, List.getElem_mapIdx, List.getElem_map, Row.ofChars_text]
  exact ⟨rfl, rfl⟩

end EofStack.Structured
