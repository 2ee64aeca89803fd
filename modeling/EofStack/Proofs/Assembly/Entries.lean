import EofStack.Assembly.Assemble
import EofStack.Proofs.Collect

/-!
# What a source says

Of the lines of a source only the labels and the statements count, in their order.  On which lines
they stand does not matter, nor does the case of the mnemonics: the code is the same.  Line numbers
show up in faults alone.

## Strategy

`Line.entries` takes a line apart into its label and its statement, each on a line of its own
without a number, with the mnemonic in lower case.  What laying out a line does to a layout, laying
out its entries does to the layout without line numbers (`Layout.toOption_foldlM_entries`), and line
numbers do not matter to the encoding (`Layout.toOption_encode_unnumbered`).  Faults differ, so that
results are compared as options.
-/

namespace EofStack.Assembly

/-! ## Entries -/

/-- The statement with its mnemonic in lower case. -/
def Statement.lowered (statement : Statement) : Statement :=
  ⟨String.ofList (statement.mnemonic.toList.map Char.toLower), statement.operands⟩

/-- The label and the statement of a line, each by itself. -/
def Line.entries (line : Line) : List Line :=
  (line.label.map fun name => ⟨0, some name, none⟩).toList ++
    ((line.statement.map Statement.lowered).map fun statement => ⟨0, none, some statement⟩).toList

/-- The number of a line and the case of its mnemonic do not show in its entries. -/
theorem Line.entries_congr {line line' : Line} (hlabel : line.label = line'.label)
    (hstatement : line.statement.map Statement.lowered = line'.statement.map Statement.lowered) :
    line.entries = line'.entries := by
  rw [entries, entries, hlabel, hstatement]

/-- An instruction that has forgotten its line. -/
def Placed.unnumbered (placed : Placed) : Placed :=
  { placed with line := 0 }

/-- A layout that has forgotten the lines of its instructions. -/
def Layout.unnumbered (layout : Layout) : Layout :=
  { layout with placed := layout.placed.map Placed.unnumbered }

theorem Layout.unnumbered_empty : Layout.unnumbered {} = {} := by
  simp [unnumbered]

/-! ## Results without faults -/

section

variable {α β ε : Type}

theorem toOption_bind (x : Except ε α) (f : α → Except ε β) :
    (x >>= f).toOption = x.toOption.bind fun a => (f a).toOption := by
  cases x <;> rfl

theorem toOption_map (x : Except ε α) (f : α → β) : (x.map f).toOption = x.toOption.map f := by
  cases x <;> rfl

theorem toOption_eq_some_iff {x : Except ε α} {a : α} : x.toOption = some a ↔ x = .ok a := by
  cases x <;> simp [Except.toOption]

theorem toOption_mapM_congr {f g : α → Except ε β} {items : List α}
    (h : ∀ item, (f item).toOption = (g item).toOption) :
    (items.mapM f).toOption = (items.mapM g).toOption := by
  induction items with
  | nil => rfl
  | cons item items ih =>
      simp only [List.mapM_cons, toOption_bind, h, ih]

end

/-! ## Case -/

theorem toLower_of_not_isUpper {c : Char} (h : c.isUpper = false) : c.toLower = c :=
  dif_neg fun hupper => Bool.false_ne_true (h.symm.trans (decide_eq_true hupper))

theorem isLower_toLower {c : Char} (h : c.isUpper = true) : c.toLower.isLower = true := by
  have hupper : 'A'.val ≤ c.val ∧ c.val ≤ 'Z'.val := of_decide_eq_true h
  have hlower : c.toLower.val = c.val + ('a'.val - 'A'.val) := congrArg Char.val (dif_pos hupper)
  have hrange : 'a'.val ≤ c.toLower.val ∧ c.toLower.val ≤ 'z'.val := by
    rw [hlower]
    simp only [UInt32.le_iff_toNat_le] at hupper ⊢
    simp at hupper ⊢
    omega
  exact Bool.and_eq_true_iff.mpr ⟨decide_eq_true hrange.1, decide_eq_true hrange.2⟩

theorem isUpper_of_isLower {c : Char} (h : c.isLower = true) : c.isUpper = false := by
  refine Bool.eq_false_iff.mpr fun hupper => ?_
  have hlower := of_decide_eq_true (Bool.and_eq_true_iff.mp h).1
  have hgreatest := (of_decide_eq_true hupper).2
  rw [ge_iff_le, UInt32.le_iff_toNat_le] at hlower
  rw [UInt32.le_iff_toNat_le] at hgreatest
  exact absurd (Nat.le_trans hlower hgreatest) (by decide)

theorem toLower_toLower (c : Char) : c.toLower.toLower = c.toLower := by
  cases h : c.isUpper with
  | false => rw [toLower_of_not_isUpper h, toLower_of_not_isUpper h]
  | true => exact toLower_of_not_isUpper (isUpper_of_isLower (isLower_toLower h))

/-- Only letters have two cases. -/
theorem eq_of_toLower_eq {c d : Char} (hd : d.isAlphanum = false) (h : c.toLower = d.toLower) :
    c = d := by
  obtain ⟨halpha, -⟩ := Bool.or_eq_false_iff.mp hd
  obtain ⟨hupper, hlower⟩ := Bool.or_eq_false_iff.mp halpha
  rw [toLower_of_not_isUpper hupper] at h
  cases hc : c.isUpper with
  | false => rwa [toLower_of_not_isUpper hc] at h
  | true =>
      rw [← h, isLower_toLower hc] at hlower
      cases hlower

/-! ## Laying out entries -/

theorem Statement.ofMnemonic?_lowered (statement : Statement) :
    Opcode.ofMnemonic? statement.lowered.mnemonic = Opcode.ofMnemonic? statement.mnemonic := by
  rw [Opcode.ofMnemonic?, Opcode.ofMnemonic?, lowered, String.toList_ofList, List.map_map]
  congr 3
  funext c
  exact toLower_toLower c

theorem toOption_checkOperands (opcode : Opcode) (operands : List String) (line line' : Nat) :
    (checkOperands opcode operands line).toOption =
      (checkOperands opcode operands line').toOption := by
  unfold checkOperands
  split_ifs <;> rfl

namespace Layout

theorem toOption_define_unnumbered (layout : Layout) (name : String) (number : Nat) :
    (layout.unnumbered.define name 0).toOption =
      (layout.define name number).toOption.map unnumbered := by
  simp only [define, unnumbered]
  cases layout.labels.lookup name <;> rfl

theorem toOption_place (layout : Layout) (statement : Statement) (number : Nat) :
    (layout.place statement number).toOption =
      (Opcode.ofMnemonic? statement.mnemonic).bind fun opcode =>
        (checkOperands opcode statement.operands number).toOption.map fun _ =>
          let placed : Placed := ⟨opcode, statement.operands, layout.size, number⟩
          { layout with placed := layout.placed.push placed, size := placed.next } := by
  unfold place
  cases Opcode.ofMnemonic? statement.mnemonic with
  | none => rfl
  | some opcode =>
      dsimp only [Option.bind_some]
      cases checkOperands opcode statement.operands number <;> rfl

theorem toOption_place_unnumbered (layout : Layout) (statement : Statement) (number : Nat) :
    (layout.unnumbered.place statement.lowered 0).toOption =
      (layout.place statement number).toOption.map unnumbered := by
  rw [toOption_place, toOption_place, statement.ofMnemonic?_lowered, Option.map_bind]
  congr 1
  funext opcode
  have hcheck := toOption_checkOperands opcode statement.operands 0 number
  rw [Statement.lowered, hcheck, Function.comp_apply, Option.map_map]
  congr 1
  funext _
  simp [unnumbered, Placed.unnumbered, Placed.next, Placed.size]

theorem add_label (layout : Layout) (name : String) (number : Nat) :
    layout.add ⟨number, some name, none⟩ = layout.define name number :=
  bind_pure _

theorem add_statement (layout : Layout) (statement : Statement) (number : Nat) :
    layout.add ⟨number, none, some statement⟩ = layout.place statement number :=
  rfl

theorem foldlM_label (layout : Layout) (label : Option String) :
    (label.map fun name => (⟨0, some name, none⟩ : Line)).toList.foldlM add layout =
      match label with
      | some name => layout.define name 0
      | none => .ok layout := by
  cases label with
  | none => rfl
  | some name =>
      rw [Option.map_some, Option.toList_some, List.foldlM_cons, add_label]
      exact bind_pure _

theorem toOption_foldlM_statement (layout : Layout) (line : Line) :
    (((line.statement.map Statement.lowered).map fun statement =>
        (⟨0, none, some statement⟩ : Line)).toList.foldlM add layout.unnumbered).toOption =
      (match line.statement with
        | some statement => layout.place statement line.number
        | none => .ok layout).toOption.map unnumbered := by
  cases line.statement with
  | none => rfl
  | some statement =>
      rw [← toOption_place_unnumbered, Option.map_some, Option.map_some, Option.toList_some,
        List.foldlM_cons, add_statement]
      simp only [List.foldlM_nil, bind_pure]

/-- Laying out the entries of a line does to a layout without numbers what laying out the line does
to the layout. -/
theorem toOption_foldlM_entries (layout : Layout) (line : Line) :
    (line.entries.foldlM add layout.unnumbered).toOption =
      (layout.add line).toOption.map unnumbered := by
  rw [Line.entries, List.foldlM_append, foldlM_label, add, toOption_bind]
  cases line.label with
  | none => exact toOption_foldlM_statement layout line
  | some name =>
      dsimp only
      rw [toOption_bind, toOption_define_unnumbered layout name line.number]
      cases (layout.define name line.number).toOption with
      | none => rfl
      | some next => exact toOption_foldlM_statement next line

theorem toOption_foldlM_flatMap (layout : Layout) (lines : List Line) :
    ((lines.flatMap Line.entries).foldlM add layout.unnumbered).toOption =
      (lines.foldlM add layout).toOption.map unnumbered := by
  induction lines generalizing layout with
  | nil => rfl
  | cons line lines ih =>
      rw [List.flatMap_cons, List.foldlM_append, List.foldlM_cons, toOption_bind, toOption_bind,
        toOption_foldlM_entries]
      cases (layout.add line).toOption with
      | none => rfl
      | some next => exact ih next

end Layout

/-! ## Encoding without numbers -/

theorem toOption_displacement (labels : Labels) (next line line' : Nat) (operand : String) :
    (displacement labels next line operand).toOption =
      (displacement labels next line' operand).toOption := by
  unfold displacement
  split
  · cases Numeral.integer? (-32768) 32767 operand.toList <;> rfl
  · cases labels.lookup operand with
    | none => rfl
    | some target =>
        dsimp only
        split <;> rfl

theorem Placed.toOption_encodeOperand_unnumbered (labels : Labels) (placed : Placed)
    (operand : String) : (placed.unnumbered.encodeOperand labels operand).toOption =
      (placed.encodeOperand labels operand).toOption := by
  cases hflow : placed.opcode.flow with
  | jump | branch | table =>
      simp only [encodeOperand, unnumbered, hflow, toOption_map]
      rw [toOption_displacement labels _ 0 placed.line]
      rfl
  | call =>
      simp only [encodeOperand, unnumbered, hflow, toOption_map, functionId]
      cases Numeral.natural? 65535 operand.toList <;> rfl
  | straight | ret | halt =>
      simp only [encodeOperand, unnumbered, hflow]
      cases pushValue placed.opcode.immediateSize operand.toList <;> rfl

theorem Placed.toOption_encode_unnumbered (labels : Labels) (placed : Placed) :
    (placed.unnumbered.encode labels).toOption = (placed.encode labels).toOption := by
  rw [encode, encode, toOption_map, toOption_map,
    toOption_mapM_congr (placed.toOption_encodeOperand_unnumbered labels)]
  rfl

theorem Layout.toOption_encode_unnumbered (layout : Layout) :
    layout.unnumbered.encode.toOption = layout.encode.toOption := by
  rw [encode, encode, toOption_map, toOption_map, unnumbered, Array.toList_map, List.mapM_map,
    toOption_mapM_congr fun placed => placed.toOption_encode_unnumbered layout.labels]

theorem toOption_assembleLines (lines : List Line) :
    (assembleLines lines).toOption = (Layout.ofLines lines).toOption.bind fun layout =>
      layout.encode.toOption.map List.toArray := by
  unfold assembleLines
  cases Layout.ofLines lines with
  | error fault => rfl
  | ok layout => exact toOption_map _ _

/-- **The code of a source depends on its entries alone.** -/
theorem assembleLines_entries (lines : List Line) (code : Code) :
    assembleLines (lines.flatMap Line.entries) = .ok code ↔ assembleLines lines = .ok code := by
  have hlayout : (Layout.ofLines (lines.flatMap Line.entries)).toOption =
      (Layout.ofLines lines).toOption.map Layout.unnumbered := by
    rw [Layout.ofLines, Layout.ofLines, ← Layout.toOption_foldlM_flatMap, Layout.unnumbered_empty]
  rw [← toOption_eq_some_iff, ← toOption_eq_some_iff, toOption_assembleLines,
    toOption_assembleLines, hlayout]
  cases (Layout.ofLines lines).toOption with
  | none => rfl
  | some layout =>
      rw [Option.map_some, Option.bind_some, Option.bind_some, layout.toOption_encode_unnumbered]

end EofStack.Assembly
