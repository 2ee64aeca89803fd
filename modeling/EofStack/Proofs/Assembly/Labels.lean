import EofStack.Proofs.Assembly.Agreement

/-!
# What labels stand for

Assembled code, read along the lines of its source.  `Lays` puts every line at an offset: if it
holds a statement, the instruction of that statement is decoded there, and if it defines a label,
the label stands for that offset.  The converse holds as well: a label that stands for anything is
defined by a line, and stands for the offset of that line.

## Strategy

Adding a line to a layout defines its label, if it has one, and leaves all other labels as they
are (`lookup_of_add`).  Since no label is defined twice, what has been defined stays defined, so
the labels of the finished layout may be used for every line from the first on.
-/

namespace EofStack.Assembly

namespace Layout

variable {layout layout' final : Layout} {line : Line} {lines : List Line} {name : String}
  {target : Nat}

/-! ## One line -/

/-- A line defines its label and places its statement, and does nothing else. -/
theorem add_eq_ok (h : layout.add line = .ok layout') :
    (∀ name, line.label = some name → layout.labels.lookup name = none) ∧
    layout'.labels = (line.label.map fun name => (name, layout.size)).toList ++ layout.labels ∧
    (line.statement = none ∧ layout'.placed = layout.placed ∧ layout'.size = layout.size ∨
      ∃ statement placed, line.statement = some statement ∧ Places statement placed ∧
        placed.offset = layout.size ∧ placed.line = line.number ∧
        layout'.placed = layout.placed.push placed ∧ layout'.size = placed.next) := by
  obtain ⟨middle, hplaced, hsize, hline, hlabels, hnone⟩ := exists_of_add h
  refine ⟨hnone, ?_⟩
  rw [← hlabels, ← hplaced, ← hsize]
  cases hstatement : line.statement with
  | none =>
      rw [hstatement] at hline
      cases hline
      exact ⟨rfl, Or.inl ⟨rfl, rfl, rfl⟩⟩
  | some statement =>
      rw [hstatement] at hline
      obtain ⟨placed, hplaces, hoffset, hnumber, rfl⟩ := place_eq_ok hline
      exact ⟨rfl, Or.inr ⟨statement, placed, rfl, hplaces, hoffset, hnumber, rfl, rfl⟩⟩

theorem lookup_of_add (h : layout.add line = .ok layout') (name : String) :
    layout'.labels.lookup name =
      if line.label = some name then some layout.size else layout.labels.lookup name := by
  obtain ⟨-, hlabels, -⟩ := add_eq_ok h
  rw [hlabels]
  cases line.label with
  | none => rfl
  | some label =>
      by_cases heq : label = name
      · simp [heq]
      · have hbeq : (name == label) = false := beq_false_of_ne (Ne.symm heq)
        simp [List.lookup_cons, hbeq, heq]

/-! ## All lines -/

/-- What has been defined stays defined. -/
theorem lookup_of_foldlM (h : lines.foldlM add layout = .ok final)
    (hlookup : layout.labels.lookup name = some target) :
    final.labels.lookup name = some target := by
  induction lines generalizing layout with
  | nil =>
      cases h
      exact hlookup
  | cons line lines ih =>
      rw [List.foldlM_cons] at h
      cases hadd : layout.add line with
      | error fault => rw [hadd] at h; cases h
      | ok next =>
          rw [hadd] at h
          refine ih h ?_
          have hnew : line.label ≠ some name := by
            intro hlabel
            rw [(add_eq_ok hadd).1 name hlabel] at hlookup
            cases hlookup
          rw [lookup_of_add hadd, if_neg hnew, hlookup]

theorem mem_placed_of_foldlM (h : lines.foldlM add layout = .ok final) {placed : Placed}
    (hmem : placed ∈ layout.placed) : placed ∈ final.placed := by
  obtain ⟨rest, hplaced, -⟩ := exists_of_foldlM_add h
  rw [← Array.mem_toList_iff, hplaced]
  exact List.mem_append_left _ (Array.mem_toList_iff.mpr hmem)

end Layout

/-! ## Lines and code -/

/-- The lines stand in the code one behind the other, from the first offset up to the second. -/
inductive Lays (labels : Labels) (code : Code) : Nat → List Line → Nat → Prop
  | nil {offset : Nat} : Lays labels code offset [] offset
  /-- A line without statement takes up no room. -/
  | empty {line : Line} {lines : List Line} {offset stop : Nat}
      (hlabel : ∀ name, line.label = some name → labels.lookup name = some offset)
      (hstatement : line.statement = none) (hrest : Lays labels code offset lines stop) :
      Lays labels code offset (line :: lines) stop
  | instruction {line : Line} {lines : List Line} {statement : Statement} {placed : Placed}
      {i : Instruction} {stop : Nat}
      (hlabel : ∀ name, line.label = some name → labels.lookup name = some placed.offset)
      (hstatement : line.statement = some statement) (hplaces : Places statement placed)
      (hfills : Fills labels placed i) (hdecode : code.decodeAt placed.offset = .ok i)
      (hrest : Lays labels code placed.next lines stop) :
      Lays labels code placed.offset (line :: lines) stop

variable {layout final : Layout} {line : Line} {lines : List Line} {code : Code}

/-- A line that has been added stands in front of what stands behind it. -/
theorem Lays.cons_of_add {next : Layout} (hadd : layout.add line = .ok next)
    (hfold : lines.foldlM Layout.add next = .ok final)
    (hdecode : ∀ placed ∈ final.placed, ∃ i, Fills final.labels placed i ∧
      code.decodeAt placed.offset = .ok i) {others : List Line} {stop : Nat}
    (h : Lays final.labels code next.size others stop) :
    Lays final.labels code layout.size (line :: others) stop := by
  have hlabel : ∀ name, line.label = some name →
      final.labels.lookup name = some layout.size := by
    intro name hname
    apply Layout.lookup_of_foldlM hfold
    rw [Layout.lookup_of_add hadd, if_pos hname]
  obtain ⟨-, -, ⟨hstatement, -, hsize⟩ | ⟨statement, placed, hstatement, hplaces, hoffset, -,
    hplaced, hsize⟩⟩ := Layout.add_eq_ok hadd
  · rw [hsize] at h
    exact .empty hlabel hstatement h
  · have hmem : placed ∈ final.placed := by
      apply Layout.mem_placed_of_foldlM hfold
      rw [hplaced]
      exact Array.mem_push_self
    obtain ⟨i, hfills, hi⟩ := hdecode placed hmem
    rw [hsize] at h
    rw [← hoffset] at hlabel ⊢
    exact .instruction hlabel hstatement hplaces hfills hi h

theorem lays_of_foldlM (hfold : lines.foldlM Layout.add layout = .ok final)
    (hdecode : ∀ placed ∈ final.placed, ∃ i, Fills final.labels placed i ∧
      code.decodeAt placed.offset = .ok i) :
    Lays final.labels code layout.size lines final.size := by
  induction lines generalizing layout with
  | nil =>
      cases hfold
      exact .nil
  | cons line lines ih =>
      rw [List.foldlM_cons] at hfold
      cases hadd : layout.add line with
      | error fault => rw [hadd] at hfold; cases hfold
      | ok next =>
          rw [hadd] at hfold
          exact Lays.cons_of_add hadd hfold hdecode (ih hfold)

/-- The line that defines the label stands at the target. -/
def Marks (labels : Labels) (code : Code) (offset : Nat) (lines : List Line) (name : String)
    (target : Nat) : Prop :=
  ∃ before line after, lines = before ++ line :: after ∧ line.label = some name ∧
    Lays labels code offset before target

/-- A label is defined by one of the lines, unless it was defined before. -/
theorem marks_of_lookup (hfold : lines.foldlM Layout.add layout = .ok final)
    (hdecode : ∀ placed ∈ final.placed, ∃ i, Fills final.labels placed i ∧
      code.decodeAt placed.offset = .ok i) {name : String} {target : Nat}
    (hlookup : final.labels.lookup name = some target) :
    layout.labels.lookup name = some target ∨
      Marks final.labels code layout.size lines name target := by
  induction lines generalizing layout with
  | nil =>
      cases hfold
      exact Or.inl hlookup
  | cons line lines ih =>
      rw [List.foldlM_cons] at hfold
      cases hadd : layout.add line with
      | error fault => rw [hadd] at hfold; cases hfold
      | ok next =>
          rw [hadd] at hfold
          rcases ih hfold with hnext | ⟨before, marked, after, rfl, hmarked, hbefore⟩
          · rw [Layout.lookup_of_add hadd] at hnext
            split at hnext
            · next hlabel =>
              cases hnext
              exact Or.inr ⟨[], line, lines, rfl, hlabel, .nil⟩
            · exact Or.inl hnext
          · exact Or.inr ⟨line :: before, marked, after, rfl, hmarked,
              Lays.cons_of_add hadd hfold hdecode hbefore⟩

/-- The lines of an assembled source stand in its code, and its labels stand for the offsets of the
lines that define them. -/
theorem exists_lays {source : String} (h : assemble source = .ok code) :
    ∃ labels, Lays labels code 0 (parse source) code.size ∧
      ∀ name target, labels.lookup name = some target →
        Marks labels code 0 (parse source) name target := by
  obtain ⟨layout, chunks, hlayout, hchunks, hcode⟩ := exists_of_assemble h
  obtain ⟨hplaces, hstacked⟩ := Layout.places_of_ofLines hlayout
  obtain ⟨instructions, hfills, htiles, hsize⟩ := exists_tiles hstacked hplaces hchunks
  rw [← hcode] at htiles hsize
  have hsize' : layout.size = code.size := by
    rw [← hsize, Nat.zero_add, Array.length_toList]
  have hdecode : ∀ placed ∈ layout.placed, ∃ i, Fills layout.labels placed i ∧
      code.decodeAt placed.offset = .ok i := by
    intro placed hmem
    obtain ⟨k, hk⟩ := List.mem_iff_getElem?.mp (Array.mem_toList_iff.mpr hmem)
    obtain ⟨i, hi, hfill⟩ := exists_getElem?_eq hfills hk
    refine ⟨i, hfill, ?_⟩
    have hdecode := Code.decodeAt_of_mem_sweep (Code.sweep_eq_ok_iff.mpr htiles)
      (List.mem_of_getElem? hi)
    cases hfill
    exact hdecode
  refine ⟨layout.labels, ?_, ?_⟩
  · rw [← hsize']
    exact lays_of_foldlM hlayout hdecode
  · intro name target hlookup
    rcases marks_of_lookup hlayout hdecode hlookup with hnone | hmarks
    · cases hnone
    · exact hmarks

end EofStack.Assembly
