import EofStack.Assembly.Layout
import Mathlib.Algebra.Ring.Nat
import Mathlib.Data.List.Forall2

/-!
# Where a layout puts the statements

A layout that succeeds has found an opcode for every statement and has checked its operands
(`Places`), and it has put the instructions one behind the other, with no gap between them
(`Stacked`).  Labels and empty lines take up no room.

So the offset of an instruction is the size of all instructions before it, and the size of the
layout is the size of all of them.
-/

namespace EofStack.Assembly

/-! ## How many operands there are -/

/-- An opcode without immediate takes no operands, a jump table takes from 1 to 255 of them, and
any other opcode takes one. -/
theorem checkOperands_eq_ok_iff {opcode : Opcode} {operands : List String} {line : Nat} :
    checkOperands opcode operands line = .ok () ↔
      (opcode.immediateSize = 0 ∧ operands = []) ∨
      (0 < opcode.immediateSize ∧ opcode.flow = .table ∧ operands ≠ [] ∧
        operands.length ≤ 255) ∨
      (0 < opcode.immediateSize ∧ opcode.flow ≠ .table ∧ ∃ operand, operands = [operand]) := by
  rw [← List.length_eq_one_iff]
  unfold checkOperands
  rcases Nat.eq_zero_or_pos opcode.immediateSize with hzero | hpos
  · by_cases hnil : operands = [] <;> simp [hzero, hnil]
  · have hsize := Nat.ne_of_gt hpos
    by_cases hnil : operands = []
    · simp [hpos, hsize, hnil]
    · have hlength := List.length_pos_iff.mpr hnil
      by_cases hflow : opcode.flow = .table
      · simp [hpos, hsize, hnil, hflow]
      · simp [hpos, hsize, hnil, hflow]
        omega

/-! ## Placing one line -/

/-- The statement is placed as an instruction of the opcode that it names, with as many operands
as the opcode takes. -/
structure Places (statement : Statement) (placed : Placed) : Prop where
  opcode : Opcode.ofMnemonic? statement.mnemonic = some placed.opcode
  operands : placed.operands = statement.operands
  arity : checkOperands placed.opcode placed.operands placed.line = .ok ()

/-- The instructions stand one behind the other, from the first offset up to the second. -/
inductive Stacked : Nat → List Placed → Nat → Prop
  | nil {offset : Nat} : Stacked offset [] offset
  | cons {placed : Placed} {rest : List Placed} {stop : Nat}
      (hrest : Stacked placed.next rest stop) : Stacked placed.offset (placed :: rest) stop

namespace Stacked

variable {offset stop : Nat} {instructions : List Placed}

theorem stop_eq (h : Stacked offset instructions stop) :
    stop = offset + (instructions.map Placed.size).sum := by
  induction h with
  | nil => rfl
  | @cons placed rest stop _ ih =>
      calc stop
          = placed.next + (rest.map Placed.size).sum := ih
        _ = placed.offset + (placed.size + (rest.map Placed.size).sum) := Nat.add_assoc ..
        _ = placed.offset + ((placed :: rest).map Placed.size).sum := by
          rw [List.map_cons, List.sum_cons]

/-- An instruction stands behind all that were placed before it. -/
theorem offset_eq (h : Stacked offset instructions stop) {k : Nat} {placed : Placed}
    (hk : instructions[k]? = some placed) :
    placed.offset = offset + ((instructions.take k).map Placed.size).sum := by
  induction h generalizing k with
  | nil => cases hk
  | @cons head rest stop _ ih =>
      cases k with
      | zero =>
          cases hk
          rfl
      | succ k =>
          calc placed.offset
              = head.next + ((rest.take k).map Placed.size).sum := ih hk
            _ = head.offset + (head.size + ((rest.take k).map Placed.size).sum) :=
              Nat.add_assoc ..
            _ = head.offset + (((head :: rest).take (k + 1)).map Placed.size).sum := by
              rw [List.take_succ_cons, List.map_cons, List.sum_cons]

end Stacked

namespace Layout

variable {layout layout' : Layout}

theorem define_eq_ok {label : String} {line : Nat} (h : layout.define label line = .ok layout') :
    layout' = { layout with labels := (label, layout.size) :: layout.labels } ∧
      layout.labels.lookup label = none := by
  unfold define at h
  split at h
  · cases h
  · next hnone =>
    cases h
    exact ⟨rfl, hnone⟩

theorem place_eq_ok {statement : Statement} {line : Nat}
    (h : layout.place statement line = .ok layout') :
    ∃ placed, Places statement placed ∧ placed.offset = layout.size ∧ placed.line = line ∧
      layout' = { layout with placed := layout.placed.push placed, size := placed.next } := by
  unfold place at h
  split at h
  · cases h
  next opcode hopcode =>
  split at h
  · cases h
  next hcheck =>
  cases h
  exact ⟨⟨opcode, statement.operands, layout.size, line⟩, ⟨hopcode, rfl, hcheck⟩, rfl, rfl, rfl⟩

/-- A label takes up no room: what a line places is its statement, if it has one.  What it defines is
its label, if it has one that is not defined yet. -/
theorem exists_of_add {line : Line} (h : layout.add line = .ok layout') :
    ∃ middle : Layout, middle.placed = layout.placed ∧ middle.size = layout.size ∧
      (match line.statement with
        | some statement => middle.place statement line.number
        | none => .ok middle) = .ok layout' ∧
      middle.labels = (line.label.map fun name => (name, layout.size)).toList ++ layout.labels ∧
      ∀ name, line.label = some name → layout.labels.lookup name = none := by
  simp only [add] at h
  split at h
  · next label hlabel =>
    cases hdefine : layout.define label line.number with
    | error fault => rw [hdefine] at h; cases h
    | ok middle =>
        rw [hdefine] at h
        obtain ⟨hmiddle, hnone⟩ := define_eq_ok hdefine
        refine ⟨middle, by rw [hmiddle], by rw [hmiddle], h, ?_, ?_⟩
        · rw [hmiddle, hlabel]
          rfl
        · intro name hname
          rw [hlabel, Option.some.injEq] at hname
          rw [← hname, hnone]
  · next hlabel =>
    refine ⟨layout, rfl, rfl, h, ?_, ?_⟩
    · rw [hlabel]
      rfl
    · intro name hname
      rw [hlabel] at hname
      cases hname

/-- Lines place their statements in order, behind all that was placed before. -/
theorem exists_of_foldlM_add {lines : List Line} (h : lines.foldlM add layout = .ok layout') :
    ∃ placed, layout'.placed.toList = layout.placed.toList ++ placed ∧
      List.Forall₂ Places (lines.filterMap Line.statement) placed ∧
      Stacked layout.size placed layout'.size := by
  induction lines generalizing layout with
  | nil =>
      cases h
      exact ⟨[], (List.append_nil _).symm, .nil, .nil⟩
  | cons line lines ih =>
      rw [List.foldlM_cons] at h
      cases hadd : layout.add line with
      | error fault => rw [hadd] at h; cases h
      | ok next =>
          rw [hadd] at h
          obtain ⟨rest, hplaced, hrest, hstacked⟩ := ih h
          obtain ⟨middle, hmiddle, hsize, hline, -⟩ := exists_of_add hadd
          cases hstatement : line.statement with
          | none =>
              rw [hstatement] at hline
              cases hline
              rw [List.filterMap_cons_none hstatement, ← hmiddle, ← hsize]
              exact ⟨rest, hplaced, hrest, hstacked⟩
          | some statement =>
              rw [hstatement] at hline
              obtain ⟨placed, hplaces, hoffset, -, rfl⟩ := place_eq_ok hline
              rw [List.filterMap_cons_some hstatement, ← hmiddle, ← hsize, ← hoffset]
              refine ⟨placed :: rest, ?_, .cons hplaces hrest, .cons hstacked⟩
              rw [hplaced, Array.toList_push, List.append_assoc, List.singleton_append]

/-- A layout places just the statements of its lines, from the beginning of the code on. -/
theorem places_of_ofLines {lines : List Line} {layout : Layout} (h : ofLines lines = .ok layout) :
    List.Forall₂ Places (lines.filterMap Line.statement) layout.placed.toList ∧
      Stacked 0 layout.placed.toList layout.size := by
  obtain ⟨placed, hplaced, hplaces, hstacked⟩ := exists_of_foldlM_add h
  rw [Array.toList_empty, List.nil_append] at hplaced
  rw [hplaced]
  exact ⟨hplaces, hstacked⟩

end Layout

end EofStack.Assembly
