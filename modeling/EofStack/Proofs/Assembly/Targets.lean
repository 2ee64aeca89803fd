import EofStack.Proofs.Assembly.Diagnosis

/-!
# Where labels lead

A label stands for the first instruction on or after its line, or for the end of the code if there
is none (`Leads`).  A jump that is given the label leads there: its displacement, measured from the
end of the whole instruction, is neither wrapped nor cut off, and if 16 bits cannot hold it then the
jump is reported and there is no code.

Instructions are found in the code by counting: as many stand in front of the instruction of a line
as there are statements in front of the line (`rank`).

## Strategy

All offsets are sums of the sizes of the lines in front (`offset`).  The layout puts instructions
and labels there (`Laid`), a sweep finds the instructions there (`Fills`), and a line leads there
(`Found.leads_offset`, by induction on the lines that are left).
-/

namespace EofStack.Assembly

variable {lines : List Line} {layout : Layout} {instructions : List Instruction} {code : Code}
  {placed : Placed} {i : Instruction} {label : String} {j k : Nat} {fault : Fault}

/-! ## Lines and instructions -/

/-- How many statements stand in front of line `k`. -/
def rank (lines : List Line) (k : Nat) : Nat :=
  ((lines.take k).filterMap Line.statement).length

/-- The instruction that a sweep finds for line `k`, if the line holds a statement. -/
def decodedAt (lines : List Line) (instructions : List Instruction) (k : Nat) :
    Option Instruction :=
  (statementAt lines k).bind fun _ => instructions[rank lines k]?

/-- Line `k` leads to the first instruction on or after it, or else to the end of the code. -/
inductive Leads (lines : List Line) (instructions : List Instruction) (size k : Nat) : Nat → Prop
  | instruction {m : Nat} {i : Instruction} (hle : k ≤ m)
      (hfirst : ∀ n, k ≤ n → n < m → statementAt lines n = none)
      (hdecoded : decodedAt lines instructions m = some i) :
      Leads lines instructions size k i.offset
  | stop (hnone : ∀ n, k ≤ n → statementAt lines n = none) :
      Leads lines instructions size k size

/-- Operand `j` of the jump in line `k` is a label. -/
def UsesLabel (lines : List Line) (k j : Nat) (label : String) : Prop :=
  ∃ opcode operands, Instructs lines k opcode operands ∧ opcode.isJump = true ∧
    operands[j]? = some label ∧ isDisplacement label = false

/-- All operands of jumps are labels. -/
def OnlyLabels (lines : List Line) : Prop :=
  ∀ k opcode operands, Instructs lines k opcode operands → opcode.isJump = true →
    ∀ operand ∈ operands, isDisplacement operand = false

/-- The labels of the lines lead to where they stand in the code. -/
structure Resolves (lines : List Line) (code : Code) (instructions : List Instruction) :
    Prop where
  sweep : code.sweep = .ok instructions
  length : instructions.length = (lines.filterMap Line.statement).length
  decoded : ∀ k opcode operands, Instructs lines k opcode operands →
    ∃ i, decodedAt lines instructions k = some i ∧ i.opcode = opcode ∧
      i.offset = offset lines k ∧ i.next = offset lines (k + 1)
  leads : ∀ k, Leads lines instructions code.size k (offset lines k)
  jump : ∀ k j label, UsesLabel lines k j label → ∃ i d m target,
    decodedAt lines instructions k = some i ∧ i.displacements[j]? = some d ∧
      (∀ n, labelAt lines n = some label ↔ n = m) ∧
      Leads lines instructions code.size m target ∧ (i.next : Int) + d = target
  targets : OnlyLabels lines → ∀ i ∈ instructions, ∃ targets, i.targets = .ok targets ∧
    ∀ target ∈ targets, target = code.size ∨ ∃ other ∈ instructions, other.offset = target

/-- The way to line `m` from the end of line `k` is too long for a displacement.  Offsets are those of
the layout, which in assembled code are the ones that lines lead to (`Resolves.leads`). -/
def Far (lines : List Line) (m k : Nat) : Prop :=
  ¬ (-32768 ≤ (offset lines m : Int) - offset lines (k + 1) ∧
    (offset lines m : Int) - offset lines (k + 1) ≤ 32767)

/-- A fault that is reported before those of operand `j` of line `k`.  What the layout cannot take
comes first, wherever it stands. -/
inductive Earlier (lines : List Line) (k j : Nat) (fault : Fault) : Prop
  | layout {n : Nat} (hfault : Misplaced lines n fault)
  | line {n l : Nat} (hlt : n < k) (hfault : Misread lines n l fault)
  | operand {l : Nat} (hlt : l < j) (hfault : Misread lines k l fault)

/-! ### Line by line -/

theorem rank_succ {line : Line} (hline : lines[k]? = some line) :
    rank lines (k + 1) = rank lines k + line.statement.toList.length := by
  rw [rank, rank, List.take_add_one, hline, List.filterMap_append, List.length_append]
  cases hstatement : line.statement <;> simp [hstatement]

theorem statementAt_eq_none_of_length_le (h : lines.length ≤ k) : statementAt lines k = none := by
  rw [statementAt, List.getElem?_eq_none h, Option.bind_none]

theorem offset_of_length_le (h : lines.length ≤ k) :
    offset lines k = offset lines lines.length := by
  rw [offset, offset, List.take_of_length_le h, List.take_length]

/-- A line without statement leads where the next one does. -/
theorem Leads.of_succ {size target : Nat} (hnone : statementAt lines k = none)
    (h : Leads lines instructions size (k + 1) target) :
    Leads lines instructions size k target := by
  have hfrom : ∀ n, k ≤ n → n = k ∨ k + 1 ≤ n :=
    fun n hn => (Nat.eq_or_lt_of_le hn).imp_left Eq.symm
  cases h with
  | instruction hle hfirst hdecoded =>
      refine .instruction (Nat.le_of_succ_le hle) (fun n hn hlt => ?_) hdecoded
      rcases hfrom n hn with rfl | hn
      · exact hnone
      · exact hfirst n hn hlt
  | stop hrest =>
      refine .stop fun n hn => ?_
      rcases hfrom n hn with rfl | hn
      · exact hnone
      · exact hrest n hn

/-- Whatever a line leads to is the beginning of an instruction, or the end of the code. -/
theorem Leads.boundary {size target : Nat} (h : Leads lines instructions size k target) :
    target = size ∨ ∃ i ∈ instructions, i.offset = target := by
  cases h with
  | instruction _ _ hdecoded =>
      obtain ⟨_, -, hi⟩ := Option.bind_eq_some_iff.mp hdecoded
      exact Or.inr ⟨_, List.mem_of_getElem? hi, rfl⟩
  | stop => exact Or.inl rfl

/-! ## Assembled lines -/

/-- Once all lines are laid out, each that holds a statement is placed. -/
theorem Laid.exists_placedAt (h : Laid lines lines.length layout) {statement : Statement}
    (hstatement : statementAt lines k = some statement) :
    ∃ placed, placedAt lines k = some placed := by
  rw [placedAt, hstatement, Option.bind_some]
  cases hopcode : Opcode.ofMnemonic? statement.mnemonic with
  | some opcode => exact ⟨_, rfl⟩
  | none =>
      refine absurd (Misplaced.unknown hstatement fun opcode hnamed => ?_) h.not_misplaced
      rw [Opcode.ofMnemonic?_eq_some_iff.mpr hnamed] at hopcode
      cases hopcode

theorem Laid.length_filterMap_placedAt (h : Laid lines lines.length layout)
    (hk : k ≤ lines.length) :
    ((List.range k).filterMap (placedAt lines)).length = rank lines k := by
  induction k with
  | zero => rfl
  | succ k ih =>
      have hline : lines[k]? = some lines[k] := List.getElem?_eq_getElem hk
      rw [List.range_succ, List.filterMap_append, List.length_append,
        ih (Nat.le_of_succ_le hk), rank_succ hline, ← statementAt_eq hline]
      cases hstatement : statementAt lines k with
      | none =>
          have hnone : placedAt lines k = none := by rw [placedAt, hstatement, Option.bind_none]
          rw [List.filterMap_cons_none hnone]
          rfl
      | some statement =>
          obtain ⟨placed, hplaced⟩ := h.exists_placedAt hstatement
          rw [List.filterMap_cons_some hplaced]
          rfl

/-- Where nothing is misplaced, a label is defined on one line. -/
theorem labelAt_iff (hnone : ∀ n fault, ¬ Misplaced lines n fault) {m : Nat}
    (hlabel : labelAt lines m = some label) (n : Nat) :
    labelAt lines n = some label ↔ n = m := by
  refine ⟨fun hother => ?_, fun heq => heq ▸ hlabel⟩
  rcases Nat.lt_trichotomy n m with hlt | heq | hlt
  · exact absurd (.duplicate hlt hother hlabel) (hnone m _)
  · exact heq
  · exact absurd (.duplicate hlt hlabel hother) (hnone n _)

theorem next_of_fills {labels : Labels} (hplaced : placedAt lines k = some placed)
    (h : Fills labels placed i) : i.next = placed.next := by
  obtain ⟨⟨mnemonic, -, hnamed⟩, -⟩ := placedAt_eq_some_iff.mp hplaced
  obtain ⟨hcarries⟩ := h
  exact hcarries.next_eq hnamed.mem_table

/-- The lines are laid out, and a sweep over the code finds what has been placed. -/
structure Found (lines : List Line) (layout : Layout) (code : Code)
    (instructions : List Instruction) : Prop where
  laid : Laid lines lines.length layout
  fills : List.Forall₂ (Fills layout.labels) layout.placed.toList instructions
  sweep : code.sweep = .ok instructions
  size : code.size = offset lines lines.length
  length : instructions.length = (lines.filterMap Line.statement).length

theorem exists_found {source : String} (h : assemble source = .ok code) :
    ∃ layout instructions, Found (parse source) layout code instructions := by
  obtain ⟨layout, chunks, hlayout, hchunks, hcode⟩ := exists_of_assemble h
  obtain ⟨hplaces, hstacked⟩ := Layout.places_of_ofLines hlayout
  obtain ⟨instructions, hfills, htiles, hsize⟩ := exists_tiles hstacked hplaces hchunks
  rw [← hcode] at htiles hsize
  have hlaid : Laid (parse source) (parse source).length layout := by
    rcases ofLines_cases (numbered_parse source) with ⟨_, hlayout', hlaid⟩ | ⟨_, _, herror, -⟩
    · cases hlayout.symm.trans hlayout'
      exact hlaid
    · cases hlayout.symm.trans herror
  refine ⟨layout, instructions, hlaid, hfills, Code.sweep_eq_ok_iff.mpr htiles, ?_, ?_⟩
  · rw [← hlaid.size, ← hsize, Nat.zero_add, Array.length_toList]
  · exact (hplaces.length_eq.trans hfills.length_eq).symm

namespace Found

variable (h : Found lines layout code instructions)

include h

theorem exists_decodedAt (hplaced : placedAt lines k = some placed) :
    ∃ i, decodedAt lines instructions k = some i ∧ Fills layout.labels placed i := by
  obtain ⟨⟨mnemonic, hstatement, -⟩, -⟩ := placedAt_eq_some_iff.mp hplaced
  have hk := lt_length_of_statementAt hstatement
  have hrank : layout.placed.toList[rank lines k]? = some placed := by
    rw [h.laid.placed, ← h.laid.length_filterMap_placedAt (Nat.le_of_lt hk)]
    have htake : (List.range lines.length).take k = List.range k := by
      rw [List.take_range, Nat.min_eq_left (Nat.le_of_lt hk)]
    rw [← htake]
    exact getElem?_filterMap_of_eq (List.getElem?_range hk) hplaced
  obtain ⟨i, hi, hfills⟩ := exists_getElem?_eq h.fills hrank
  exact ⟨i, by rw [decodedAt, hstatement, Option.bind_some, hi], hfills⟩

/-- Every instruction is that of a line. -/
theorem exists_placedAt_of_mem (hi : i ∈ instructions) :
    ∃ k placed, placedAt lines k = some placed ∧ Fills layout.labels placed i := by
  obtain ⟨m, hm⟩ := List.mem_iff_getElem?.mp hi
  obtain ⟨placed, hplaced, hfills⟩ := exists_getElem?_eq h.fills.flip hm
  have hmem := List.mem_of_getElem? hplaced
  rw [h.laid.placed] at hmem
  obtain ⟨k, -, hplaced⟩ := List.mem_filterMap.mp hmem
  exact ⟨k, placed, hplaced, hfills⟩

/-- What stands on or after a line begins at the offset of the line. -/
theorem leads_offset (k : Nat) : Leads lines instructions code.size k (offset lines k) := by
  -- from the last line up, since a line without statement leads where the next one does
  induction hleft : lines.length - k generalizing k with
  | zero =>
      have hle : lines.length ≤ k := Nat.le_of_sub_eq_zero hleft
      rw [offset_of_length_le hle, ← h.size]
      exact .stop fun n hn => statementAt_eq_none_of_length_le (hle.trans hn)
  | succ left ih =>
      have hline : lines[k]? = some lines[k] := List.getElem?_eq_getElem (by omega)
      cases hstatement : statementAt lines k with
      | none =>
          have hsize : lines[k].size = 0 := by
            rw [Line.size, ← statementAt_eq hline, hstatement]
          have hnext := ih (k + 1) (by omega)
          rw [offset_succ hline, hsize, Nat.add_zero] at hnext
          exact hnext.of_succ hstatement
      | some statement =>
          obtain ⟨placed, hplaced⟩ := h.laid.exists_placedAt hstatement
          obtain ⟨-, hoffset, -⟩ := placedAt_eq_some_iff.mp hplaced
          obtain ⟨i, hi, ⟨-⟩⟩ := h.exists_decodedAt hplaced
          rw [← hoffset]
          exact .instruction (Nat.le_refl k) (fun n hn hlt => by omega) hi

/-! ### What jumps are given -/

/-- A label that a jump is given, seen from the end of the jump. -/
theorem exists_leads_of_refers {d : Int} (hrefers : Refers layout.labels placed.next label d)
    (hlabel : isDisplacement label = false) :
    ∃ m target, labelAt lines m = some label ∧
      Leads lines instructions code.size m target ∧ (placed.next : Int) + d = target := by
  rw [Refers, if_neg (Bool.eq_false_iff.mp hlabel)] at hrefers
  obtain ⟨target, hlookup, rfl⟩ := hrefers
  obtain ⟨m, hm, rfl⟩ := h.laid.lookup_eq_some_iff.mp hlookup
  exact ⟨m, offset lines m, hm, h.leads_offset m, by omega⟩

theorem exists_of_instructs {opcode : Opcode} {operands : List String}
    (hinstructs : Instructs lines k opcode operands) :
    ∃ i, decodedAt lines instructions k = some i ∧ i.opcode = opcode ∧
      i.offset = offset lines k ∧ i.next = offset lines (k + 1) := by
  have hplaced := placedAt_of_instructs hinstructs
  obtain ⟨i, hi, hfills⟩ := h.exists_decodedAt hplaced
  have hnext := next_of_fills hplaced hfills
  rw [next_of_placedAt hplaced] at hnext
  cases hfills
  exact ⟨_, hi, rfl, rfl, hnext⟩

theorem exists_of_usesLabel (huses : UsesLabel lines k j label) :
    ∃ i d m target, decodedAt lines instructions k = some i ∧ i.displacements[j]? = some d ∧
      (∀ n, labelAt lines n = some label ↔ n = m) ∧
      Leads lines instructions code.size m target ∧ (i.next : Int) + d = target := by
  obtain ⟨opcode, operands, hinstructs, hjump, hoperand, hlabel⟩ := huses
  have hplaced := placedAt_of_instructs hinstructs
  obtain ⟨i, hi, hfills⟩ := h.exists_decodedAt hplaced
  have hnext := next_of_fills hplaced hfills
  obtain ⟨hcarries⟩ := hfills
  obtain ⟨d, hd, hrefers⟩ :=
    exists_getElem?_eq (hcarries.forall₂_displacements hjump) hoperand
  obtain ⟨m, target, hm, hleads, htarget⟩ := h.exists_leads_of_refers hrefers hlabel
  have hnone : ∀ n fault, ¬ Misplaced lines n fault := fun _ _ => h.laid.not_misplaced
  exact ⟨_, d, m, target, hi, hd, labelAt_iff hnone hm, hleads, by rw [hnext, htarget]⟩

/-- If all operands of jumps are labels then no displacement leads into an instruction. -/
theorem boundary_of_onlyLabels (honly : OnlyLabels lines) (hi : i ∈ instructions) {d : Int}
    (hd : d ∈ i.displacements) :
    ∃ target : Nat, (i.next : Int) + d = target ∧
      (target = code.size ∨ ∃ other ∈ instructions, other.offset = target) := by
  obtain ⟨k, placed, hplaced, hfills⟩ := h.exists_placedAt_of_mem hi
  obtain ⟨hinstructs, -⟩ := placedAt_eq_some_iff.mp hplaced
  have hnext := next_of_fills hplaced hfills
  obtain ⟨hcarries⟩ := hfills
  cases hjump : placed.opcode.isJump with
  | false =>
      rw [Instruction.displacements_eq_nil hjump] at hd
      cases hd
  | true =>
      obtain ⟨j, hj⟩ := List.mem_iff_getElem?.mp hd
      obtain ⟨operand, hoperand, hrefers⟩ :=
        exists_getElem?_eq (hcarries.forall₂_displacements hjump).flip hj
      have hlabel := honly k _ _ hinstructs hjump operand (List.mem_of_getElem? hoperand)
      obtain ⟨m, target, -, hleads, htarget⟩ := h.exists_leads_of_refers hrefers hlabel
      exact ⟨target, by rw [hnext, htarget], hleads.boundary⟩

theorem exists_targets (honly : OnlyLabels lines) (hi : i ∈ instructions) :
    ∃ targets, i.targets = .ok targets ∧
      ∀ target ∈ targets, target = code.size ∨ ∃ other ∈ instructions, other.offset = target := by
  cases htargets : i.targets with
  | error e =>
      obtain ⟨d, hd, hneg, -⟩ := Instruction.exists_of_targets_eq_error htargets
      obtain ⟨target, htarget, -⟩ := h.boundary_of_onlyLabels honly hi hd
      omega
  | ok targets =>
      refine ⟨targets, rfl, fun target hmem => ?_⟩
      obtain ⟨d, hd, htarget⟩ := ((Instruction.targets_spec htargets).2 target).mp hmem
      obtain ⟨target', htarget', hboundary⟩ := h.boundary_of_onlyLabels honly hi hd
      rwa [Int.ofNat_inj.mp (htarget.trans htarget')]

theorem resolves : Resolves lines code instructions where
  sweep := h.sweep
  length := h.length
  decoded _ _ _ := h.exists_of_instructs
  leads := h.leads_offset
  jump _ _ _ := h.exists_of_usesLabel
  targets honly _ := h.exists_targets honly

end Found

/-! ## Labels that are too far away -/

/-- Only a label that is too far away is reported as such. -/
theorem far_of_jumpOutOfRange {source : String} {m : Nat}
    (herror : assemble source = .error (.jumpOutOfRange label (k + 1)))
    (hlabel : labelAt (parse source) m = some label) : Far (parse source) m k := by
  rcases assembleLines_cases (numbered_parse source) with
    ⟨_, hcode, -⟩ | ⟨_, n, hfault, hreported⟩
  · cases hcode.symm.trans herror
  cases hfault.symm.trans herror
  have hn : k = n := Nat.succ_injective hreported.line_eq
  subst hn
  cases hreported with
  | layout hmisplaced =>
      cases hmisplaced with
      | miscounted _ hcount => cases hcount
  | operand hmisread hplaced =>
      obtain ⟨_, _, _, -, -, hunreadable⟩ := hmisread
      cases hunreadable with
      | @far n _ _ hdefined hfar =>
          obtain rfl := (labelAt_iff hplaced hlabel n).mp hdefined
          exact hfar

/-- A label that is too far away is reported, unless something else is reported earlier. -/
theorem jumpOutOfRange_of_far {source : String} {m : Nat}
    (huses : UsesLabel (parse source) k j label) (hlabel : labelAt (parse source) m = some label)
    (hfar : Far (parse source) m k) :
    assemble source = .error (.jumpOutOfRange label (k + 1)) ∨
      ∃ fault, assemble source = .error fault ∧ Earlier (parse source) k j fault := by
  obtain ⟨opcode, operands, hinstructs, hjump, hoperand, hnumber⟩ := huses
  have hmisread : Misread (parse source) k j (.jumpOutOfRange label (k + 1)) :=
    ⟨opcode, operands, label, hinstructs, hoperand, .far hjump hnumber hlabel hfar⟩
  rcases assembleLines_cases (numbered_parse source) with
    ⟨_, -, hnone⟩ | ⟨fault, n, hfault, hreported⟩
  · exact absurd hmisread ((hnone k _).2 j)
  cases hreported with
  | layout hmisplaced => exact Or.inr ⟨fault, hfault, .layout hmisplaced⟩
  | @operand l hother hplaced hleft hfirst =>
      rcases Nat.lt_trichotomy n k with hlt | rfl | hlt
      · exact Or.inr ⟨fault, hfault, .line hlt hother⟩
      · rcases Nat.lt_trichotomy l j with hlt | rfl | hlt
        · exact Or.inr ⟨fault, hfault, .operand hlt hother⟩
        · refine Or.inl ?_
          rcases ofLines_cases (numbered_parse source) with ⟨layout, -, h⟩ | ⟨_, _, -, hbad, -⟩
          · rw [hother.unique h hmisread] at hfault
            exact hfault
          · exact absurd hbad (hplaced _ _)
        · exact absurd hmisread (hleft j hlt _)
      · exact absurd hmisread (hfirst k hlt j _)

/-- **Labels resolve to where they stand.**  In the code of a source every label leads to the first
instruction on or after its line, and a label that is too far away for that is reported unless
another fault is found earlier. -/
theorem resolves_of_assemble (source : String) :
    (∀ code, assemble source = .ok code →
      ∃ instructions, Resolves (parse source) code instructions) ∧
    ∀ k j label m, UsesLabel (parse source) k j label → labelAt (parse source) m = some label →
      (assemble source = .error (.jumpOutOfRange label (k + 1)) → Far (parse source) m k) ∧
      (Far (parse source) m k → assemble source = .error (.jumpOutOfRange label (k + 1)) ∨
        ∃ fault, assemble source = .error fault ∧ Earlier (parse source) k j fault) := by
  refine ⟨fun code hcode => ?_, fun k j label m huses hlabel => ⟨fun herror => ?_, fun hfar => ?_⟩⟩
  · obtain ⟨layout, instructions, h⟩ := exists_found hcode
    exact ⟨instructions, h.resolves⟩
  · exact far_of_jumpOutOfRange herror hlabel
  · exact jumpOutOfRange_of_far huses hlabel hfar

/-- A source with labels in front of a jump and behind it, two at one place and one at the end. -/
def labelledSource : String :=
  "again: push1 0\nrjumpv out again end\nout: # empty\nhere: rjumpi here\nrjump again\nend:"

/-- The code of `labelledSource`. -/
def labelledCode : Code :=
  #[0x60, 0x00, 0x5e, 0x03, 0x00, 0x00, 0xff, 0xf6, 0x00, 0x06, 0x5d, 0xff, 0xfd, 0x5c, 0xff, 0xf0]

theorem resolves_of_assemble_labelledSource :
    assemble labelledSource = .ok labelledCode ∧
      UsesLabel (parse labelledSource) 1 2 "end" ∧ labelAt (parse labelledSource) 5 = some "end" ∧
      (∃ instructions, Resolves (parse labelledSource) labelledCode instructions) ∧
      ¬ Far (parse labelledSource) 5 1 := by
  have hassemble : assemble labelledSource = .ok labelledCode := by decide +kernel
  have huses : UsesLabel (parse labelledSource) 1 2 "end" :=
    ⟨⟨0x5e, "rjumpv", 1, -1, 1, .table⟩, ["out", "again", "end"],
      ⟨"rjumpv", by decide +kernel, Opcode.ofMnemonic?_eq_some_iff.mp (by decide +kernel)⟩,
      by decide, by decide, by decide +kernel⟩
  have hlabel : labelAt (parse labelledSource) 5 = some "end" := by decide +kernel
  obtain ⟨hresolves, hfar⟩ := resolves_of_assemble labelledSource
  refine ⟨hassemble, huses, hlabel, hresolves _ hassemble, fun h => ?_⟩
  rcases (hfar 1 2 "end" 5 huses hlabel).2 h with herror | ⟨fault, herror, -⟩
  · cases hassemble.symm.trans herror
  · cases hassemble.symm.trans herror

end EofStack.Assembly
