import EofStack.Proofs.Structured.Source
import EofStack.Proofs.Stack.Reach
import Mathlib.Data.List.Forall2

/-!
# Structured programs in code

`Laid` puts rows at offsets of the code that they are assembled to: each mark stands for its
offset, and at each command an instruction is decoded that does what the command says (`Runs`).
From then on neither the source nor the bytes are looked at.
-/

namespace EofStack.Structured

open Assembly Stack

/-! ## Commands as instructions -/

/-- The label stands for the offset that the displacement leads to. -/
def Label.Aims (labels : Labels) (next : Nat) (label : Label) (d : Int) : Prop :=
  ∃ target : Nat, labels.lookup label.text = some target ∧ d = (target : Int) - next

/-- The instruction is what the command says, with the way to each of its labels. -/
structure Runs (labels : Labels) (c : Command) (i : Instruction) : Prop where
  opcode : i.opcode = c.opcode
  callee : c = .call → i.callee? = some 1
  displacements : List.Forall₂ (Label.Aims labels i.next) c.targets i.displacements

theorem Label.isDisplacement_text (label : Label) : isDisplacement label.text = false := by
  rw [isDisplacement, Label.toList_text]
  cases label.stem <;> rfl

/-- What a command is assembled to does what it says. -/
theorem runs_of_fills {labels : Labels} {c : Command} {placed : Placed} {i : Instruction}
    (hplaces : Places ⟨c.opcode.mnemonic, c.operands⟩ placed) (hfills : Fills labels placed i) :
    Runs labels c i := by
  have hmatches := matches_of_fills hplaces hfills
  have hopcode : i.opcode = c.opcode := by
    have hfound := hplaces.opcode
    rw [Opcode.ofMnemonic?_mnemonic c.opcode_mem_table, Option.some.injEq] at hfound
    rw [← hmatches.opcode, ← hfound]
  refine ⟨hopcode, ?_, ?_⟩
  · rintro rfl
    obtain ⟨operand, id, hoperand, hdenotes, hcallee⟩ := hmatches.callee (by rw [hopcode]; rfl)
    cases hoperand
    have hread : Numeral.natural? 65535 "1".toList = some 1 := by decide
    have hone := (Numeral.natural?_eq_some_iff.mp hread).1.denotes
    rw [hcallee, Int.ofNat_inj.mp (hdenotes.unique hone)]
  · have hlabels : c.opcode.isJump = true → c.operands = c.targets.map Label.text →
        List.Forall₂ (Label.Aims labels i.next) c.targets i.displacements := by
      intro hjump hoperands
      have hrefers := hmatches.displacements (by rw [hopcode, hjump])
      rw [hoperands, List.forall₂_map_left_iff] at hrefers
      refine hrefers.imp ?_
      intro label d hd
      rwa [Refers, if_neg (by simp [label.isDisplacement_text])] at hd
    have hnone : c.opcode.isJump = false → c.targets = [] →
        List.Forall₂ (Label.Aims labels i.next) c.targets i.displacements := by
      intro hjump htargets
      rw [Instruction.displacements_eq_nil (by rw [hopcode, hjump]), htargets]
      exact .nil
    cases c with
    | jump | branch | table => exact hlabels rfl rfl
    | push | add | pop | call | stop => exact hnone rfl rfl

/-! ## Rows in code -/

/-- The rows stand in the code one behind the other, from the first offset up to the second. -/
inductive Laid (labels : Labels) (code : Code) : Nat → List Row → Nat → Prop
  | nil {offset : Nat} : Laid labels code offset [] offset
  | mark {label : Label} {rows : List Row} {offset stop : Nat}
      (hlookup : labels.lookup label.text = some offset) (hrest : Laid labels code offset rows stop) :
      Laid labels code offset (.mark label :: rows) stop
  | command {c : Command} {rows : List Row} {i : Instruction} {offset stop : Nat}
      (hdecode : code.decodeAt offset = .ok i) (hruns : Runs labels c i)
      (hrest : Laid labels code i.next rows stop) :
      Laid labels code offset (.command c :: rows) stop

variable {labels : Labels} {code : Code} {rows others : List Row} {offset middle stop : Nat}

namespace Laid

theorem append (h : Laid labels code offset rows middle)
    (hothers : Laid labels code middle others stop) :
    Laid labels code offset (rows ++ others) stop := by
  induction h with
  | nil => exact hothers
  | mark hlookup _ ih => exact .mark hlookup (ih hothers)
  | command hdecode hruns _ ih => exact .command hdecode hruns (ih hothers)

theorem split (h : Laid labels code offset (rows ++ others) stop) :
    ∃ middle, Laid labels code offset rows middle ∧ Laid labels code middle others stop := by
  induction rows generalizing offset with
  | nil => exact ⟨offset, .nil, h⟩
  | cons row rows ih =>
      cases h with
      | mark hlookup hrest =>
          obtain ⟨middle, hrows, hothers⟩ := ih hrest
          exact ⟨middle, .mark hlookup hrows, hothers⟩
      | command hdecode hruns hrest =>
          obtain ⟨middle, hrows, hothers⟩ := ih hrest
          exact ⟨middle, .command hdecode hruns hrows, hothers⟩

theorem uncons {row : Row} (h : Laid labels code offset (row :: rows) stop) :
    ∃ middle, Laid labels code offset [row] middle ∧ Laid labels code middle rows stop := by
  have hsplit : Laid labels code offset ([row] ++ rows) stop := h
  exact hsplit.split

/-- A mark stands for its offset, and takes up no room. -/
theorem of_mark {label : Label} (h : Laid labels code offset [.mark label] stop) :
    labels.lookup label.text = some stop ∧ offset = stop := by
  cases h with
  | mark hlookup hrest =>
      cases hrest
      exact ⟨hlookup, rfl⟩

theorem le (h : Laid labels code offset rows stop) : offset ≤ stop := by
  induction h with
  | nil => exact Nat.le_refl _
  | mark _ _ ih => exact ih
  | @command _ _ i _ _ hdecode _ _ ih =>
      have hlt := i.offset_lt_next
      rw [Code.offset_of_decodeAt hdecode] at hlt
      omega

/-- Rows take up as much room as they do. -/
theorem unique {stop' : Nat} (h : Laid labels code offset rows stop)
    (h' : Laid labels code offset rows stop') : stop = stop' := by
  induction h with
  | nil =>
      cases h'
      rfl
  | mark _ _ ih =>
      cases h' with
      | mark _ hrest => exact ih hrest
  | command hdecode _ _ ih =>
      cases h' with
      | command hdecode' _ hrest =>
          cases hdecode.symm.trans hdecode'
          exact ih hrest

end Laid

theorem laid_of_lays {lines : List Line} (hlays : Lays labels code offset lines stop)
    (hreads : List.Forall₂ Row.Reads rows lines) : Laid labels code offset rows stop := by
  induction hreads generalizing offset with
  | nil =>
      cases hlays
      exact .nil
  | @cons row line rows lines hrow _ ih =>
      cases hlays with
      | empty hlabel hstatement hrest =>
          rw [hrow.statement] at hstatement
          cases row with
          | mark label => exact .mark (hlabel _ hrow.label) (ih hrest)
          | command c => cases hstatement
      | instruction hlabel hstatement hplaces hfills hdecode hrest =>
          rw [hrow.statement] at hstatement
          cases row with
          | mark label => cases hstatement
          | command c =>
              cases hstatement
              have hnext := (matches_of_fills hplaces hfills).next
              have hoffset := (matches_of_fills hplaces hfills).offset
              refine .command hdecode (runs_of_fills hplaces hfills) ?_
              rw [hnext, hoffset]
              exact ih hrest

/-- Some mark among the rows stands at the target. -/
def Marked (labels : Labels) (code : Code) (offset : Nat) (rows : List Row) (target : Nat) : Prop :=
  ∃ before label after, rows = before ++ .mark label :: after ∧ Laid labels code offset before target

/-- A single row marks its own offset, and nothing if it is a command. -/
theorem Marked.of_singleton {row : Row} {target : Nat}
    (h : Marked labels code offset [row] target) : target = offset ∧ ∀ c, row ≠ .command c := by
  obtain ⟨before, label, after, heq, hbefore⟩ := h
  cases before with
  | nil =>
      cases heq
      cases hbefore
      exact ⟨rfl, nofun⟩
  | cons row before => cases before <;> cases heq

/-- A mark is among the rows in front or among those behind. -/
theorem Marked.append_cases {target : Nat} (h : Marked labels code offset (rows ++ others) target) :
    Marked labels code offset rows target ∨
      ∃ middle, Laid labels code offset rows middle ∧ Marked labels code middle others target := by
  obtain ⟨before, label, after, heq, hbefore⟩ := h
  rcases List.append_eq_append_iff.mp heq with ⟨between, rfl, rfl⟩ | ⟨between, rfl, hrest⟩
  · obtain ⟨middle, hrows, hbetween⟩ := hbefore.split
    exact Or.inr ⟨middle, hrows, between, label, after, rfl, hbetween⟩
  · cases between with
    | nil =>
        rw [List.append_nil]
        exact Or.inr ⟨target, hbefore, [], label, after, hrest.symm, .nil⟩
    | cons row between =>
        rw [List.cons_append, List.cons.injEq] at hrest
        obtain ⟨rfl, -⟩ := hrest
        exact Or.inl ⟨before, label, between, rfl, hbefore⟩

/-- The rows of an assembled program stand in its code, and what labels stand for is marked. -/
theorem exists_laid (h : assemble (source rows) = .ok code) :
    ∃ labels, Laid labels code 0 rows code.size ∧
      ∀ label target, labels.lookup label = some target → Marked labels code 0 rows target := by
  obtain ⟨labels, hlays, hmarks⟩ := exists_lays h
  have hreads := reads_parse rows
  refine ⟨labels, laid_of_lays hlays hreads, ?_⟩
  intro label target hlookup
  obtain ⟨before, line, after, heq, hlabel, hbefore⟩ := hmarks label target hlookup
  rw [heq] at hreads
  have htake := List.forall₂_take_append rows before (line :: after) hreads
  have hdrop := List.forall₂_drop_append rows before (line :: after) hreads
  obtain ⟨row, rest, hrow, -, hrest⟩ := List.forall₂_cons_right_iff.mp hdrop
  have hmark : line.label = row.label? := hrow.label
  rw [hlabel] at hmark
  cases row with
  | command c => cases hmark
  | mark marked =>
      refine ⟨rows.take before.length, marked, rest, ?_, laid_of_lays hbefore htake⟩
      rw [← hrest, List.take_append_drop]

end EofStack.Structured
