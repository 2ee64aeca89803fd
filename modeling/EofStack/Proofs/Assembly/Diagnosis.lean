import EofStack.Proofs.Assembly.Misplaced

/-!
# The fault that is reported

Assembling a source succeeds exactly if nothing is wrong with any of its lines, and otherwise it
ends with the one fault that `Reported` describes, which names the line that it was found in.

## Strategy

The layout has been dealt with (`ofLines_cases`).  Behind it every label is known, and an operand
is refused exactly if it is unreadable (`encodeOperand_eq_error_iff`).  Operands are collected from
left to right and lines from top to bottom, so the first refusal is the fault.

Every outcome is thus described (`assembleLines_cases`), and since no two faults can be reported
(`Reported.unique`), the description is exact.
-/

namespace EofStack.Assembly

variable {lines : List Line} {layout : Layout} {placed : Placed} {operand : String} {j k : Nat}
  {fault : Fault}

/-! ## One operand -/

theorem Laid.lookup_eq_some_iff (h : Laid lines lines.length layout) {name : String}
    {target : Nat} : layout.labels.lookup name = some target ↔
      ∃ i, labelAt lines i = some name ∧ offset lines i = target := by
  rw [h.labels]
  constructor
  · rintro ⟨i, -, hlabel, htarget⟩
    exact ⟨i, hlabel, htarget⟩
  · rintro ⟨i, hlabel, htarget⟩
    exact ⟨i, lt_length_of_labelAt hlabel, hlabel, htarget⟩

theorem displacement_eq_error_iff (h : Laid lines lines.length layout) {opcode : Opcode}
    (hjump : opcode.isJump = true) :
    displacement layout.labels (offset lines (k + 1)) (k + 1) operand = .error fault ↔
      Unreadable lines k opcode operand fault := by
  constructor
  · intro herror
    unfold displacement at herror
    split at herror
    · next hnumber =>
      split at herror
      · cases herror
      · next hnone =>
        cases herror
        exact .noOffset hjump hnumber (Numeral.integer?_eq_none_iff.mp hnone)
    next hlabel =>
    have hlabel := Bool.eq_false_iff.mpr hlabel
    split at herror
    · next hnone =>
      cases herror
      refine .undefined hjump hlabel fun i hi => ?_
      rw [h.lookup_eq_some_iff.mpr ⟨i, hi, rfl⟩] at hnone
      cases hnone
    next target htarget =>
    obtain ⟨i, hi, rfl⟩ := h.lookup_eq_some_iff.mp htarget
    dsimp only at herror
    split at herror
    · cases herror
    · next hfits =>
      cases herror
      exact .far hjump hlabel hi (by simpa [fitsWord] using hfits)
  · intro hunreadable
    unfold displacement
    cases hunreadable with
    | noOffset _ hnumber hnone => rw [if_pos hnumber, Numeral.integer?_eq_none_iff.mpr hnone]
    | undefined _ hlabel hnone =>
        have hlookup : layout.labels.lookup operand = none := by
          rw [Option.eq_none_iff_forall_ne_some]
          intro target htarget
          obtain ⟨i, hi, -⟩ := h.lookup_eq_some_iff.mp htarget
          exact hnone i hi
        rw [if_neg (Bool.eq_false_iff.mp hlabel), hlookup]
    | far _ hlabel hdefined hfar =>
        have hlookup := h.lookup_eq_some_iff.mpr ⟨_, hdefined, rfl⟩
        rw [if_neg (Bool.eq_false_iff.mp hlabel), hlookup]
        exact if_neg (by simpa [fitsWord] using hfar)
    | noFunctionId hcall => simp [Opcode.isJump, hcall] at hjump
    | noValue hpush => simp_all [Opcode.isJump, Opcode.isPush]

theorem functionId_eq_error_iff {opcode : Opcode} (hcall : opcode.flow = .call) :
    functionId (k + 1) operand = .error fault ↔ Unreadable lines k opcode operand fault := by
  unfold functionId
  constructor
  · intro herror
    split at herror
    · cases herror
    · next hnone =>
      cases herror
      exact .noFunctionId hcall (Numeral.natural?_eq_none_iff.mp hnone)
  · intro hunreadable
    cases hunreadable with
    | noOffset hjump | undefined hjump | far hjump => simp [Opcode.isJump, hcall] at hjump
    | noFunctionId _ hnone => rw [Numeral.natural?_eq_none_iff.mpr hnone]
    | noValue hpush => simp [Opcode.isPush, hcall] at hpush

/-- The layout gives operands only to opcodes that have an immediate. -/
theorem Laid.immediateSize_pos (h : Laid lines lines.length layout)
    (hplaced : placedAt lines k = some placed) (hoperand : operand ∈ placed.operands) :
    0 < placed.opcode.immediateSize := by
  obtain ⟨hinstructs, -⟩ := placedAt_eq_some_iff.mp hplaced
  apply Nat.pos_of_ne_zero
  intro hzero
  exact h.not_misplaced
    (.miscounted hinstructs (.unexpected hzero (List.ne_nil_of_mem hoperand)))

/-- An operand is refused exactly if it is unreadable. -/
theorem encodeOperand_eq_error_iff (h : Laid lines lines.length layout)
    (hplaced : placedAt lines k = some placed) (hoperand : operand ∈ placed.operands) :
    placed.encodeOperand layout.labels operand = .error fault ↔
      Unreadable lines k placed.opcode operand fault := by
  obtain ⟨⟨mnemonic, -, hnamed⟩, -, hnumber⟩ := placedAt_eq_some_iff.mp hplaced
  have hnext := next_of_placedAt hplaced
  have hpos := h.immediateSize_pos hplaced hoperand
  cases hflow : placed.opcode.flow with
  | jump | branch | table =>
      have hjump : placed.opcode.isJump = true := by simp [Opcode.isJump, hflow]
      rw [Placed.encodeOperand_of_isJump hjump, map_eq_error_iff, hnext, hnumber,
        displacement_eq_error_iff h hjump]
  | call =>
      simp only [Placed.encodeOperand, hflow]
      rw [map_eq_error_iff, hnumber, functionId_eq_error_iff hflow]
  | straight =>
      have hpush : placed.opcode.isPush = true := by simp [Opcode.isPush, hflow, hpos]
      simp only [Placed.encodeOperand, hflow]
      constructor
      · intro herror
        split at herror
        · cases herror
        · next hreason =>
          cases herror
          rw [hnumber]
          exact .noValue hpush (pushValue_eq_error_iff.mp hreason)
      · intro hunreadable
        cases hunreadable with
        | noOffset hjump | undefined hjump | far hjump => simp [Opcode.isJump, hflow] at hjump
        | noFunctionId hcall => rw [hflow] at hcall; cases hcall
        | noValue _ hnone => rw [pushValue_eq_error_iff.mpr hnone, hnumber]
  | ret | halt =>
      -- these have no immediate, so the layout gives them no operand
      have hsize : placed.opcode.immediateSize = 0 :=
        Opcode.immediateSize_of_flow hnamed.mem_table (by rw [hflow]; rfl)
      omega

/-! ## One line -/

theorem misread_iff (hplaced : placedAt lines k = some placed) :
    Misread lines k j fault ↔ ∃ operand, placed.operands[j]? = some operand ∧
      Unreadable lines k placed.opcode operand fault := by
  obtain ⟨hinstructs, -⟩ := placedAt_eq_some_iff.mp hplaced
  constructor
  · rintro ⟨opcode, operands, operand, hinstructs', hoperand, hunreadable⟩
    obtain ⟨rfl, rfl⟩ := hinstructs'.unique hinstructs
    exact ⟨operand, hoperand, hunreadable⟩
  · rintro ⟨operand, hoperand, hunreadable⟩
    exact ⟨_, _, operand, hinstructs, hoperand, hunreadable⟩

theorem Misread.lt_length (h : Misread lines k j fault) : k < lines.length := by
  obtain ⟨_, _, -, hinstructs, -⟩ := h
  exact hinstructs.lt_length

theorem exists_placedAt (h : Misread lines k j fault) :
    ∃ placed, placedAt lines k = some placed := by
  obtain ⟨opcode, operands, -, hinstructs, -⟩ := h
  exact ⟨_, placedAt_of_instructs hinstructs⟩

/-- Once all lines are laid out, no operand has two faults. -/
theorem Misread.unique (h : Laid lines lines.length layout) {other : Fault}
    (hfault : Misread lines k j fault) (hother : Misread lines k j other) : fault = other := by
  obtain ⟨placed, hplaced⟩ := exists_placedAt hfault
  obtain ⟨operand, hoperand, hunreadable⟩ := (misread_iff hplaced).mp hfault
  obtain ⟨operand', hoperand', hunreadable'⟩ := (misread_iff hplaced).mp hother
  rw [hoperand] at hoperand'
  cases hoperand'
  have hmem := List.mem_of_getElem? hoperand
  have herror := (encodeOperand_eq_error_iff h hplaced hmem).mpr hunreadable
  rw [(encodeOperand_eq_error_iff h hplaced hmem).mpr hunreadable'] at herror
  cases herror
  rfl

theorem not_misread_of_encode (h : Laid lines lines.length layout)
    (hplaced : placedAt lines k = some placed) {bytes : List UInt8}
    (hencode : placed.encode layout.labels = .ok bytes) : ¬ Misread lines k j fault := by
  intro hfault
  obtain ⟨operand, hoperand, hunreadable⟩ := (misread_iff hplaced).mp hfault
  have hmem := List.mem_of_getElem? hoperand
  obtain ⟨operands, hoperands, -⟩ := map_eq_ok_iff.mp hencode
  obtain ⟨result, -, hresult⟩ := exists_getElem?_eq (mapM_eq_ok_iff.mp hoperands) hoperand
  rw [(encodeOperand_eq_error_iff h hplaced hmem).mpr hunreadable] at hresult
  cases hresult

/-- An instruction fails with the fault of its first operand that has one. -/
theorem exists_misread_of_encode (h : Laid lines lines.length layout)
    (hplaced : placedAt lines k = some placed)
    (hencode : placed.encode layout.labels = .error fault) :
    ∃ j, Misread lines k j fault ∧ ∀ i < j, ∀ other, ¬ Misread lines k i other := by
  obtain ⟨j, operand, hoperand, herror, hleft⟩ :=
    mapM_eq_error_iff.mp (map_eq_error_iff.mp hencode)
  have hmem := List.mem_of_getElem? hoperand
  have hunreadable := (encodeOperand_eq_error_iff h hplaced hmem).mp herror
  refine ⟨j, (misread_iff hplaced).mpr ⟨operand, hoperand, hunreadable⟩, ?_⟩
  intro i hi other hother
  obtain ⟨operand', hoperand', hunreadable'⟩ := (misread_iff hplaced).mp hother
  have hmem' := List.mem_of_getElem? hoperand'
  obtain ⟨result, hresult⟩ := hleft i hi operand' hoperand'
  rw [(encodeOperand_eq_error_iff h hplaced hmem').mpr hunreadable'] at hresult
  cases hresult

/-! ## All lines -/

/-- Assembling ends with code if there are no faults, and else with a fault to report. -/
theorem assembleLines_cases (hnumbers : Numbered lines) :
    (∃ code, assembleLines lines = .ok code ∧
        ∀ k fault, ¬ Misplaced lines k fault ∧ ∀ j, ¬ Misread lines k j fault) ∨
      ∃ fault k, assembleLines lines = .error fault ∧ Reported lines k fault := by
  rcases ofLines_cases hnumbers with ⟨layout, hlayout, h⟩ | ⟨fault, k, hlayout, -, hreported⟩
  -- instructions are placed in the order of their lines, so the first failure is in the first line
  · simp only [assembleLines, hlayout, Layout.encode, h.placed]
    cases hencode : ((List.range lines.length).filterMap (placedAt lines)).mapM
        (Placed.encode layout.labels) with
    | ok chunks =>
        refine Or.inl ⟨_, rfl, fun k fault => ⟨h.not_misplaced, fun j hfault => ?_⟩⟩
        obtain ⟨placed, hplaced⟩ := exists_placedAt hfault
        have hmem : placed ∈ (List.range lines.length).filterMap (placedAt lines) :=
          List.mem_filterMap.mpr ⟨k, List.mem_range.mpr hfault.lt_length, hplaced⟩
        obtain ⟨i, hi⟩ := List.getElem?_of_mem hmem
        obtain ⟨bytes, -, hbytes⟩ := exists_getElem?_eq (mapM_eq_ok_iff.mp hencode) hi
        exact not_misread_of_encode h hplaced hbytes hfault
    | error fault =>
        obtain ⟨k, item, placed, hk, hplaced, herror, hbefore⟩ :=
          exists_of_mapM_filterMap_eq_error hencode
        obtain ⟨hlt, hitem⟩ := List.getElem?_eq_some_iff.mp hk
        rw [List.getElem_range] at hitem
        subst hitem
        obtain ⟨j, hfault, hleft⟩ := exists_misread_of_encode h hplaced herror
        refine Or.inr ⟨fault, k, rfl, .operand hfault (fun i other => h.not_misplaced) hleft ?_⟩
        intro i hi j' other hother
        obtain ⟨placed', hplaced'⟩ := exists_placedAt hother
        obtain ⟨bytes, hbytes⟩ := hbefore i hi i placed'
          (List.getElem?_range hother.lt_length) hplaced'
        exact not_misread_of_encode h hplaced' hbytes hother
  · refine Or.inr ⟨fault, k, ?_, hreported⟩
    rw [assembleLines, hlayout]

/-! ## One fault -/

theorem Miscounted.unique {opcode : Opcode} {operands : List String} {number : Nat}
    {other : Fault} (hfault : Miscounted opcode operands number fault)
    (hother : Miscounted opcode operands number other) (hstage : fault.stage = other.stage) :
    fault = other := by
  cases hfault <;> cases hother <;> first | rfl | cases hstage

/-- A line has at most one fault of each stage. -/
theorem Misplaced.unique {other : Fault} (hfault : Misplaced lines k fault)
    (hother : Misplaced lines k other) (hstage : fault.stage = other.stage) : fault = other := by
  cases hfault with
  | duplicate _ _ hagain =>
      cases hother with
      | duplicate _ _ hagain' =>
          rw [hagain] at hagain'
          cases hagain'
          rfl
      | unknown => cases hstage
      | miscounted _ hcount' =>
          have hle := hcount'.two_le_stage
          rw [← hstage] at hle
          exact absurd hle (Nat.not_succ_le_zero 1)
  | unknown hstatement =>
      cases hother with
      | duplicate => cases hstage
      | unknown hstatement' =>
          rw [hstatement] at hstatement'
          cases hstatement'
          rfl
      | miscounted _ hcount' =>
          have hle := hcount'.two_le_stage
          rw [← hstage] at hle
          exact absurd hle (Nat.not_succ_le_self 1)
  | miscounted hinstructs hcount =>
      have hle := hcount.two_le_stage
      rw [hstage] at hle
      cases hother with
      | duplicate => exact absurd hle (Nat.not_succ_le_zero 1)
      | unknown => exact absurd hle (Nat.not_succ_le_self 1)
      | miscounted hinstructs' hcount' =>
          obtain ⟨rfl, rfl⟩ := hinstructs.unique hinstructs'
          exact hcount.unique hcount' hstage

/-- No two faults can be reported. -/
theorem Reported.unique (hnumbers : Numbered lines) {k' : Nat} {other : Fault}
    (hfault : Reported lines k fault) (hother : Reported lines k' other) : fault = other := by
  cases hfault with
  | layout hfault hleast hfirst =>
      cases hother with
      | layout hother hleast' hfirst' =>
          have hle : k ≤ k' := not_lt.mp fun hlt => hfirst k' hlt _ hother
          have hge : k' ≤ k := not_lt.mp fun hlt => hfirst' k hlt _ hfault
          obtain rfl := Nat.le_antisymm hle hge
          exact hfault.unique hother (Nat.le_antisymm (hleast _ hother) (hleast' _ hfault))
      | operand _ hplaced => exact absurd hfault (hplaced k fault)
  | @operand j hfault hplaced hleft hfirst =>
      cases hother with
      | layout hother => exact absurd hother (hplaced k' other)
      | @operand j' hother _ hleft' hfirst' =>
          have hle : k ≤ k' := not_lt.mp fun hlt => hfirst k' hlt j' _ hother
          have hge : k' ≤ k := not_lt.mp fun hlt => hfirst' k hlt j _ hfault
          obtain rfl := Nat.le_antisymm hle hge
          have hle : j ≤ j' := not_lt.mp fun hlt => hleft j' hlt _ hother
          have hge : j' ≤ j := not_lt.mp fun hlt => hleft' j hlt _ hfault
          obtain rfl := Nat.le_antisymm hle hge
          -- which fault an operand has is known only with all labels laid out
          rcases ofLines_cases hnumbers with ⟨layout, -, h⟩ | ⟨misplaced, k', -, hmisplaced, -⟩
          · exact hfault.unique h hother
          · exact absurd hmisplaced (hplaced k' misplaced)

theorem Reported.lt_length (h : Reported lines k fault) : k < lines.length := by
  cases h with
  | layout hfault => exact hfault.lt_length
  | operand hfault => exact hfault.lt_length

theorem Reported.not_of_faultless
    (hnone : ∀ k fault, ¬ Misplaced lines k fault ∧ ∀ j, ¬ Misread lines k j fault) :
    ¬ Reported lines k fault := by
  intro h
  cases h with
  | layout hfault => exact (hnone k fault).1 hfault
  | operand hfault => exact (hnone k fault).2 _ hfault

/-! ## Sources -/

/-- The lines of a source are read one by one, and numbered from 1 on. -/
theorem getElem?_parse (source : String) (k : Nat) :
    (parse source)[k]? = (Text.lines source.toList)[k]?.map (Line.ofChars (k + 1)) := by
  rw [parse, List.getElem?_mapIdx]

theorem numbered_parse (source : String) : Numbered (parse source) := by
  intro k line hline
  rw [getElem?_parse] at hline
  obtain ⟨text, -, rfl⟩ := Option.map_eq_some_iff.mp hline
  rfl

theorem Reported.line_eq (h : Reported lines k fault) : fault.line = k + 1 := by
  cases h with
  | layout hfault =>
      cases hfault with
      | duplicate | unknown => rfl
      | miscounted _ hcount => cases hcount <;> rfl
  | operand hfault =>
      obtain ⟨_, _, _, -, -, hunreadable⟩ := hfault
      cases hunreadable <;> rfl

/-- **The assembler accepts the sources without faults, and of all faults it reports the right
one.**  A misplaced line is reported before any operand that cannot be read, and the fault names the
line of the source, counted from 1, that it is found in. -/
theorem fault_of_assemble (source : String) :
    ((∃ code, assemble source = .ok code) ↔
        ∀ k fault, ¬ Misplaced (parse source) k fault ∧
          ∀ j, ¬ Misread (parse source) k j fault) ∧
      (∀ fault, assemble source = .error fault ↔ ∃ k, Reported (parse source) k fault) ∧
      ∀ k fault, Reported (parse source) k fault → fault.line = k + 1 ∧
        ∃ text, (Text.lines source.toList)[k]? = some text ∧
          (parse source)[k]? = some (Line.ofChars fault.line text) := by
  have hnumbers := numbered_parse source
  have hcases := assembleLines_cases hnumbers
  refine ⟨⟨?_, fun hnone => ?_⟩, fun fault => ⟨fun herror => ?_, ?_⟩, fun k fault hreported => ?_⟩
  · rintro ⟨code, hcode⟩
    rcases hcases with ⟨-, -, hnone⟩ | ⟨fault, k, herror, -⟩
    · exact hnone
    · rw [assemble, herror] at hcode
      cases hcode
  · rcases hcases with ⟨code, hcode, -⟩ | ⟨fault, k, -, hreported⟩
    · exact ⟨code, hcode⟩
    · exact absurd hreported (Reported.not_of_faultless hnone)
  · rcases hcases with ⟨code, hcode, -⟩ | ⟨other, k, hother, hreported⟩
    · rw [assemble, hcode] at herror
      cases herror
    · rw [assemble, hother] at herror
      cases herror
      exact ⟨k, hreported⟩
  · rintro ⟨k, hreported⟩
    rcases hcases with ⟨-, -, hnone⟩ | ⟨other, k', hother, hreported'⟩
    · exact absurd hreported (Reported.not_of_faultless hnone)
    · rw [assemble, hother, hreported'.unique hnumbers hreported]
  · have hline := List.getElem?_eq_some_iff.mpr ⟨hreported.lt_length, rfl⟩
    have hsource := hline
    rw [getElem?_parse] at hsource
    obtain ⟨text, htext, hread⟩ := Option.map_eq_some_iff.mp hsource
    rw [hreported.line_eq]
    exact ⟨rfl, text, htext, hread ▸ hline⟩

/-- A decimal number may be refused although it fits in the width of its push: the least one that
takes more than 128 bits is, but not if it is written in hexadecimal. -/
theorem assemble_longDecimal :
    IsUnsigned "340282366920938463463374607431768211456".toList (2 ^ 128) ∧
      2 ^ 128 < 256 ^ 17 ∧
      assemble "push17 340282366920938463463374607431768211456" =
        .error (.invalidImmediate "340282366920938463463374607431768211456" 1 .noDecimalNumber) ∧
      assemble "push17 0x100000000000000000000000000000000" =
        .ok #[0x70, 1, 0, 0, 0, 0, 0, 0, 0, 0, 0, 0, 0, 0, 0, 0, 0, 0] := by
  have hread : Numeral.natural? (2 ^ 128) "340282366920938463463374607431768211456".toList =
      some (2 ^ 128) := by decide +kernel
  exact ⟨(Numeral.natural?_eq_some_iff.mp hread).1, by decide, by decide +kernel,
    by decide +kernel⟩

end EofStack.Assembly
