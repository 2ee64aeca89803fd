import EofStack.Proofs.Assembly.Faults

/-!
# Laying out up to the first fault

The layout takes lines as long as none is misplaced, and stops with a fault of the first line that
is.  Where several things are wrong with that line, it is the one that is checked for first.

## Strategy

`Laid` says what is known of the layout of the first lines: it knows their labels and has placed
their instructions, all at their offsets, and none of these lines is misplaced.  One more line is
either taken, and then `Laid` holds of one more (`Laid.succ`), or it is misplaced
(`Laid.misplaced_of_add`).
-/

namespace EofStack.Assembly

variable {lines : List Line} {line : Line} {layout layout' : Layout} {k : Nat} {fault : Fault}

/-! ## One line -/

theorem labelAt_eq (hline : lines[k]? = some line) : labelAt lines k = line.label := by
  rw [labelAt, hline, Option.bind_some]

theorem statementAt_eq (hline : lines[k]? = some line) :
    statementAt lines k = line.statement := by
  rw [statementAt, hline, Option.bind_some]

theorem offset_succ (hline : lines[k]? = some line) :
    offset lines (k + 1) = offset lines k + line.size := by
  rw [offset, offset, List.take_add_one, hline]
  simp

theorem Instructs.unique {opcode opcode' : Opcode} {operands operands' : List String}
    (h : Instructs lines k opcode operands) (h' : Instructs lines k opcode' operands') :
    opcode = opcode' ∧ operands = operands' := by
  obtain ⟨mnemonic, hstatement, hnamed⟩ := h
  obtain ⟨mnemonic', hstatement', hnamed'⟩ := h'
  rw [hstatement] at hstatement'
  cases hstatement'
  rw [← Opcode.ofMnemonic?_eq_some_iff] at hnamed hnamed'
  rw [hnamed] at hnamed'
  cases hnamed'
  exact ⟨rfl, rfl⟩

theorem lt_length_of_labelAt {name : String} (h : labelAt lines k = some name) :
    k < lines.length := by
  obtain ⟨line, hline, -⟩ := Option.bind_eq_some_iff.mp h
  exact (List.getElem?_eq_some_iff.mp hline).1

theorem lt_length_of_statementAt {statement : Statement}
    (h : statementAt lines k = some statement) : k < lines.length := by
  obtain ⟨line, hline, -⟩ := Option.bind_eq_some_iff.mp h
  exact (List.getElem?_eq_some_iff.mp hline).1

theorem Instructs.lt_length {opcode : Opcode} {operands : List String}
    (h : Instructs lines k opcode operands) : k < lines.length := by
  obtain ⟨mnemonic, hstatement, -⟩ := h
  exact lt_length_of_statementAt hstatement

theorem Misplaced.lt_length (h : Misplaced lines k fault) : k < lines.length := by
  cases h with
  | duplicate _ _ hagain => exact lt_length_of_labelAt hagain
  | unknown hstatement => exact lt_length_of_statementAt hstatement
  | miscounted hinstructs => exact hinstructs.lt_length

/-- The instruction of line `k` at its place. -/
def placedAt (lines : List Line) (k : Nat) : Option Placed :=
  (statementAt lines k).bind fun statement =>
    (Opcode.ofMnemonic? statement.mnemonic).map fun opcode =>
      ⟨opcode, statement.operands, offset lines k, k + 1⟩

theorem placedAt_eq_some_iff {placed : Placed} :
    placedAt lines k = some placed ↔ Instructs lines k placed.opcode placed.operands ∧
      placed.offset = offset lines k ∧ placed.line = k + 1 := by
  rw [placedAt, Option.bind_eq_some_iff]
  constructor
  · rintro ⟨⟨mnemonic, operands⟩, hstatement, hplaced⟩
    obtain ⟨opcode, hopcode, rfl⟩ := Option.map_eq_some_iff.mp hplaced
    exact ⟨⟨mnemonic, hstatement, Opcode.ofMnemonic?_eq_some_iff.mp hopcode⟩, rfl, rfl⟩
  · rintro ⟨⟨mnemonic, hstatement, hnamed⟩, hoffset, hnumber⟩
    refine ⟨_, hstatement, Option.map_eq_some_iff.mpr ⟨placed.opcode, ?_, ?_⟩⟩
    · exact Opcode.ofMnemonic?_eq_some_iff.mpr hnamed
    · rw [← hoffset, ← hnumber]

theorem placedAt_of_instructs {opcode : Opcode} {operands : List String}
    (h : Instructs lines k opcode operands) :
    placedAt lines k = some ⟨opcode, operands, offset lines k, k + 1⟩ :=
  placedAt_eq_some_iff.mpr ⟨h, rfl, rfl⟩

/-- An instruction takes up as many bytes as its line. -/
theorem next_of_placedAt {placed : Placed} (h : placedAt lines k = some placed) :
    placed.next = offset lines (k + 1) := by
  obtain ⟨⟨mnemonic, hstatement, hnamed⟩, hoffset, -⟩ := placedAt_eq_some_iff.mp h
  obtain ⟨line, hline, hstatement⟩ := Option.bind_eq_some_iff.mp hstatement
  have hopcode := Opcode.ofMnemonic?_eq_some_iff.mpr hnamed
  rw [offset_succ hline, Placed.next, hoffset]
  simp only [Line.size, hstatement, hopcode, Placed.size]

/-! ## How many operands there are -/

theorem not_miscounted_of_checkOperands {opcode : Opcode} {operands : List String} {number : Nat}
    (h : checkOperands opcode operands number = .ok ()) :
    ¬ Miscounted opcode operands number fault := by
  intro hcount
  rcases checkOperands_eq_ok_iff.mp h with ⟨hsize, rfl⟩ | ⟨hsize, hflow, hne, hle⟩ |
    ⟨hsize, hflow, operand, rfl⟩
  · cases hcount with
    | missing hpos => omega
    | unexpected _ hne => exact hne rfl
    | entries _ hmany | several _ hmany => exact absurd hmany (by simp)
  · cases hcount with
    | missing _ hnil => exact hne hnil
    | unexpected hzero => omega
    | entries _ hmany => omega
    | several hother => exact hother hflow
  · cases hcount with
    | missing _ hnil => cases hnil
    | unexpected hzero => omega
    | entries htable => exact hflow htable
    | several _ hmany => exact absurd hmany (by simp)

theorem Miscounted.two_le_stage {opcode : Opcode} {operands : List String} {number : Nat}
    (h : Miscounted opcode operands number fault) : 2 ≤ fault.stage := by
  cases h <;> simp [Fault.stage]

theorem miscounted_of_checkOperands {opcode : Opcode} {operands : List String} {number : Nat}
    (h : checkOperands opcode operands number = .error fault) :
    Miscounted opcode operands number fault ∧
      ∀ other, Miscounted opcode operands number other → fault.stage ≤ other.stage := by
  unfold checkOperands at h
  split at h
  · next hmissing =>
    cases h
    exact ⟨.missing hmissing.1 hmissing.2, fun other => Miscounted.two_le_stage⟩
  next hmissing =>
  split at h
  · next hunexpected =>
    cases h
    refine ⟨.unexpected hunexpected.1 hunexpected.2, fun other hother => ?_⟩
    cases hother with
    | missing hpos hnil => exact absurd ⟨hpos, hnil⟩ hmissing
    | unexpected | entries | several => simp [Fault.stage]
  next hunexpected =>
  split at h
  · next hflow =>
    split at h
    · next hmany =>
      cases h
      refine ⟨.entries hflow hmany, fun other hother => ?_⟩
      cases hother with
      | missing hpos hnil => exact absurd ⟨hpos, hnil⟩ hmissing
      | unexpected hzero hne => exact absurd ⟨hzero, hne⟩ hunexpected
      | entries | several => simp [Fault.stage]
    · cases h
  · next hflow =>
    split at h
    · next hmany =>
      cases h
      refine ⟨.several hflow hmany, fun other hother => ?_⟩
      cases hother with
      | missing hpos hnil => exact absurd ⟨hpos, hnil⟩ hmissing
      | unexpected hzero hne => exact absurd ⟨hzero, hne⟩ hunexpected
      | entries htable => exact absurd htable hflow
      | several => exact Nat.le_refl _
    · cases h

/-! ## Taking a line -/

/-- The layout of the first `k` lines. -/
structure Laid (lines : List Line) (k : Nat) (layout : Layout) : Prop where
  size : layout.size = offset lines k
  labels : ∀ name target, layout.labels.lookup name = some target ↔
    ∃ i < k, labelAt lines i = some name ∧ offset lines i = target
  placed : layout.placed.toList = (List.range k).filterMap (placedAt lines)
  sound : ∀ i < k, ∀ fault, ¬ Misplaced lines i fault

theorem laid_zero (lines : List Line) : Laid lines 0 {} where
  size := rfl
  labels := by simp
  placed := rfl
  sound := fun i hi => absurd hi i.not_lt_zero

theorem Layout.place_eq_error {statement : Statement} {number : Nat}
    (h : layout.place statement number = .error fault) :
    (Opcode.ofMnemonic? statement.mnemonic = none ∧
        fault = .unknownMnemonic statement.mnemonic number) ∨
      ∃ opcode, Opcode.ofMnemonic? statement.mnemonic = some opcode ∧
        checkOperands opcode statement.operands number = .error fault := by
  unfold place at h
  split at h
  · next hnone =>
    cases h
    exact Or.inl ⟨hnone, rfl⟩
  next opcode hopcode =>
  split at h
  · next hcheck =>
    cases h
    exact Or.inr ⟨opcode, hopcode, hcheck⟩
  · cases h

/-- A line that is not taken defines a label again, or else its statement cannot be placed. -/
theorem Layout.add_eq_error (h : layout.add line = .error fault) :
    (∃ name target, line.label = some name ∧ layout.labels.lookup name = some target ∧
      fault = .duplicateLabel name line.number) ∨
    (∀ name, line.label = some name → layout.labels.lookup name = none) ∧
      ∃ (statement : Statement) (middle : Layout), line.statement = some statement ∧
        middle.place statement line.number = .error fault := by
  cases hlabel : line.label with
  | none =>
      simp only [add, hlabel] at h
      refine Or.inr ⟨fun _ hname => absurd hname.symm (Option.some_ne_none _), ?_⟩
      cases hstatement : line.statement with
      | none => rw [hstatement] at h; cases h
      | some statement =>
          rw [hstatement] at h
          exact ⟨statement, layout, rfl, h⟩
  | some name =>
      cases hlookup : layout.labels.lookup name with
      | some target =>
          simp only [add, hlabel, define, hlookup] at h
          cases h
          exact Or.inl ⟨name, target, rfl, hlookup, rfl⟩
      | none =>
          simp only [add, hlabel, define, hlookup] at h
          refine Or.inr ⟨fun other hother => Option.some.inj hother ▸ hlookup, ?_⟩
          cases hstatement : line.statement with
          | none => rw [hstatement] at h; cases h
          | some statement =>
              rw [hstatement] at h
              exact ⟨statement, _, rfl, h⟩

namespace Laid

theorem not_misplaced (h : Laid lines lines.length layout) : ¬ Misplaced lines k fault :=
  fun hfault => h.sound k hfault.lt_length fault hfault

variable (h : Laid lines k layout) (hline : lines[k]? = some line)
  (hnumber : line.number = k + 1)

include h

/-- A label that the layout does not know is not defined on an earlier line. -/
theorem labelAt_ne (hline : lines[k]? = some line)
    (hnew : ∀ name, line.label = some name → layout.labels.lookup name = none) {i : Nat}
    (hi : i < k) {name : String} (hfirst : labelAt lines i = some name) :
    labelAt lines k ≠ some name := by
  intro hagain
  rw [labelAt_eq hline] at hagain
  have hlookup := (h.labels name _).mpr ⟨i, hi, hfirst, rfl⟩
  rw [hnew name hagain] at hlookup
  cases hlookup

include hline

/-- The labels that the layout knows then are those of one more line. -/
theorem lookup_succ (hadd : layout.add line = .ok layout') (name : String) (target : Nat) :
    layout'.labels.lookup name = some target ↔
      ∃ i < k + 1, labelAt lines i = some name ∧ offset lines i = target := by
  obtain ⟨hnew, -⟩ := Layout.add_eq_ok hadd
  rw [Layout.lookup_of_add hadd]
  -- a label is new to the layout, so no earlier line can have defined it as something else
  by_cases hlabel : line.label = some name
  · have hlast := (labelAt_eq hline).trans hlabel
    rw [if_pos hlabel, Option.some.injEq, h.size]
    constructor
    · intro htarget
      exact ⟨k, Nat.lt_succ_self k, hlast, htarget⟩
    · rintro ⟨i, hi, hfirst, htarget⟩
      rcases Nat.lt_succ_iff_lt_or_eq.mp hi with hi | rfl
      · exact absurd hlast (h.labelAt_ne hline hnew hi hfirst)
      · exact htarget
  · rw [if_neg hlabel, h.labels]
    constructor
    · rintro ⟨i, hi, hfirst, htarget⟩
      exact ⟨i, Nat.lt_succ_of_lt hi, hfirst, htarget⟩
    · rintro ⟨i, hi, hfirst, htarget⟩
      rcases Nat.lt_succ_iff_lt_or_eq.mp hi with hi | rfl
      · exact ⟨i, hi, hfirst, htarget⟩
      · exact absurd ((labelAt_eq hline).symm.trans hfirst) hlabel

include hnumber

theorem placedAt_eq_of_places {statement : Statement} {placed : Placed}
    (hstatement : line.statement = some statement) (hplaces : Places statement placed)
    (hoffset : placed.offset = layout.size) (hplaced : placed.line = line.number) :
    placedAt lines k = some placed := by
  rw [placedAt_eq_some_iff]
  refine ⟨⟨statement.mnemonic, ?_, Opcode.ofMnemonic?_eq_some_iff.mp hplaces.opcode⟩,
    hoffset.trans h.size, hplaced.trans hnumber⟩
  rw [statementAt_eq hline, hstatement, hplaces.operands]

theorem not_misplaced_of_add (hadd : layout.add line = .ok layout') :
    ¬ Misplaced lines k fault := by
  obtain ⟨hnew, -, hplace⟩ := Layout.add_eq_ok hadd
  have hplaces : ∀ statement, statementAt lines k = some statement →
      ∃ placed, Places statement placed ∧ placed.line = k + 1 := by
    intro statement hstatement
    rw [statementAt_eq hline] at hstatement
    rcases hplace with ⟨hnone, -⟩ | ⟨_, placed, hsome, hplaces, -, hplaced, -⟩
    · rw [hnone] at hstatement
      cases hstatement
    · rw [hsome] at hstatement
      cases hstatement
      exact ⟨placed, hplaces, hplaced.trans hnumber⟩
  intro hfault
  cases hfault with
  | duplicate hearlier hfirst hagain => exact h.labelAt_ne hline hnew hearlier hfirst hagain
  | unknown hstatement hnone =>
      obtain ⟨placed, hplaces, -⟩ := hplaces _ hstatement
      exact hnone _ (Opcode.ofMnemonic?_eq_some_iff.mp hplaces.opcode)
  | miscounted hinstructs hcount =>
      obtain ⟨mnemonic, hstatement, hnamed⟩ := hinstructs
      obtain ⟨placed, hplaces, hplaced⟩ := hplaces _ hstatement
      have hopcode := hplaces.opcode
      rw [Opcode.ofMnemonic?_eq_some_iff.mpr hnamed] at hopcode
      cases hopcode
      have harity := hplaces.arity
      rw [hplaces.operands, hplaced] at harity
      exact not_miscounted_of_checkOperands harity hcount

theorem succ (hadd : layout.add line = .ok layout') : Laid lines (k + 1) layout' := by
  obtain ⟨-, -, hplace⟩ := Layout.add_eq_ok hadd
  refine ⟨?size, h.lookup_succ hline hadd, ?placed, ?sound⟩
  case size =>
    rcases hplace with ⟨hnone, -, hsize⟩ | ⟨statement, placed, hstatement, hplaces, hoffset,
      hplaced, -, hsize⟩
    · rw [hsize, h.size, offset_succ hline, Line.size, hnone, Nat.add_zero]
    · rw [hsize, next_of_placedAt
        (h.placedAt_eq_of_places hline hnumber hstatement hplaces hoffset hplaced)]
  case placed =>
    rw [List.range_succ, List.filterMap_append, ← h.placed]
    rcases hplace with ⟨hnone, hsame, -⟩ | ⟨statement, placed, hstatement, hplaces, hoffset,
      hplaced, hpush, -⟩
    · have hlast : placedAt lines k = none := by
        rw [placedAt, statementAt_eq hline, hnone, Option.bind_none]
      rw [hsame, List.filterMap_cons_none hlast, List.filterMap_nil, List.append_nil]
    · have hlast := h.placedAt_eq_of_places hline hnumber hstatement hplaces hoffset hplaced
      rw [hpush, Array.toList_push, List.filterMap_cons_some hlast, List.filterMap_nil]
  case sound =>
    intro i hi fault hfault
    rcases Nat.lt_succ_iff_lt_or_eq.mp hi with hi | rfl
    · exact h.sound i hi fault hfault
    · exact h.not_misplaced_of_add hline hnumber hadd hfault

theorem misplaced_of_add (hadd : layout.add line = .error fault) :
    Misplaced lines k fault ∧
      ∀ other, Misplaced lines k other → fault.stage ≤ other.stage := by
  rcases Layout.add_eq_error hadd with ⟨name, target, hlabel, hlookup, rfl⟩ |
    ⟨hnew, statement, middle, hstatement, hplace⟩
  · obtain ⟨i, hi, hfirst, -⟩ := (h.labels name target).mp hlookup
    rw [hnumber]
    exact ⟨.duplicate hi hfirst ((labelAt_eq hline).trans hlabel), fun other _ => Nat.zero_le _⟩
  -- from here on the line defines no label again
  rcases Layout.place_eq_error hplace with ⟨hnone, rfl⟩ | ⟨opcode, hopcode, hcheck⟩
  · have hunnamed : ∀ opcode : Opcode, ¬ opcode.IsNamed statement.mnemonic := by
      intro opcode hnamed
      rw [← Opcode.ofMnemonic?_eq_some_iff, hnone] at hnamed
      cases hnamed
    rw [hnumber]
    refine ⟨.unknown ((statementAt_eq hline).trans hstatement) hunnamed, fun other hother => ?_⟩
    cases hother with
    | duplicate hearlier hfirst hagain =>
        exact absurd hagain (h.labelAt_ne hline hnew hearlier hfirst)
    | unknown => exact Nat.le_refl 1
    | miscounted _ hcount => exact Nat.le_of_succ_le hcount.two_le_stage
  · have hinstructs : Instructs lines k opcode statement.operands :=
      ⟨statement.mnemonic, (statementAt_eq hline).trans hstatement,
        Opcode.ofMnemonic?_eq_some_iff.mp hopcode⟩
    rw [hnumber] at hcheck
    obtain ⟨hcount, hleast⟩ := miscounted_of_checkOperands hcheck
    refine ⟨.miscounted hinstructs hcount, fun other hother => ?_⟩
    cases hother with
    | duplicate hearlier hfirst hagain =>
        exact absurd hagain (h.labelAt_ne hline hnew hearlier hfirst)
    | unknown hstatement' hunnamed =>
        obtain ⟨mnemonic, hstatement'', hnamed⟩ := hinstructs
        rw [hstatement'] at hstatement''
        cases hstatement''
        exact absurd hnamed (hunnamed opcode)
    | miscounted hinstructs' hcount' =>
        obtain ⟨rfl, rfl⟩ := hinstructs.unique hinstructs'
        exact hleast other hcount'

end Laid

/-! ## Taking all lines -/

/-- The lines are numbered from 1 on. -/
def Numbered (lines : List Line) : Prop :=
  ∀ k line, lines[k]? = some line → line.number = k + 1

/-- Lines are laid out to the end, or up to the fault that is reported. -/
theorem laid_or_reported (hnumbers : Numbered lines) {before rest : List Line}
    (hlines : lines = before ++ rest) (h : Laid lines before.length layout) :
    (∃ final, rest.foldlM Layout.add layout = .ok final ∧ Laid lines lines.length final) ∨
      ∃ fault k, rest.foldlM Layout.add layout = .error fault ∧ Misplaced lines k fault ∧
        Reported lines k fault := by
  induction rest generalizing before layout with
  | nil =>
      rw [List.append_nil] at hlines
      exact Or.inl ⟨layout, rfl, hlines ▸ h⟩
  | cons line rest ih =>
      have hline : lines[before.length]? = some line := by simp [hlines]
      rw [List.foldlM_cons]
      cases hadd : layout.add line with
      | error fault =>
          obtain ⟨hfault, hleast⟩ := h.misplaced_of_add hline (hnumbers _ _ hline) hadd
          exact Or.inr ⟨fault, before.length, rfl, hfault, .layout hfault hleast h.sound⟩
      | ok next =>
          have hnext : Laid lines (before ++ [line]).length next := by
            rw [List.length_append, List.length_singleton]
            exact h.succ hline (hnumbers _ _ hline) hadd
          exact ih (by rw [hlines, List.append_assoc, List.singleton_append]) hnext

theorem ofLines_cases (hnumbers : Numbered lines) :
    (∃ layout, Layout.ofLines lines = .ok layout ∧ Laid lines lines.length layout) ∨
      ∃ fault k, Layout.ofLines lines = .error fault ∧ Misplaced lines k fault ∧
        Reported lines k fault :=
  laid_or_reported hnumbers (List.nil_append lines).symm (laid_zero lines)

end EofStack.Assembly
