import EofStack.Proofs.Assembly.Encoding
import EofStack.Proofs.Assembly.Printed
import EofStack.Proofs.Code.Sweep

/-!
# Assembling what was disassembled

Code that a sweep takes apart is assembled again, byte for byte, from the lines that its
instructions are printed as.

## Strategy

Each line is read as the statement it was printed from.  The layout then puts every instruction
in the place of its line, with as many operands as it takes (`Prints`).  What an operand is
encoded as does not depend on the place, since no printed operand is a label; so every
instruction is encoded as its own bytes, and the bytes of all instructions are the code.
-/

namespace EofStack.Assembly

/-! ## Lines -/

/-- The line holds what the instruction is printed as. -/
structure Line.Holds (i : Instruction) (line : Line) : Prop where
  label : line.label = none
  statement : line.statement = some ⟨i.opcode.mnemonic, i.operands.map String.ofList⟩

/-- The printed instructions are read line by line. -/
theorem parse_intercalate_text {instructions : List Instruction}
    (hwell : ∀ i ∈ instructions, i.WellFormed) :
    List.Forall₂ Line.Holds instructions
      (parse ("\n".intercalate (instructions.map Instruction.text))) := by
  have htexts : (instructions.map Instruction.text).map String.toList =
      instructions.map fun i => joined i.opcode.mnemonic.toList i.operands := by
    rw [List.map_map]
    exact List.map_congr_left fun i _ => i.toList_text
  have hlines : Text.lines ("\n".intercalate (instructions.map Instruction.text)).toList =
      instructions.map fun i => joined i.opcode.mnemonic.toList i.operands := by
    rw [String.toList_intercalate, htexts]
    apply Text.lines_intercalate
    intro text htext
    obtain ⟨i, hi, rfl⟩ := List.mem_map.mp htext
    have hword := Instruction.isWord_mnemonic (hwell i hi)
    have hreserved : ∀ c ∈ reserved, c ∉ joined i.opcode.mnemonic.toList i.operands :=
      fun c hc => not_mem_joined hword (fun _ => Instruction.isWord_of_mem_operands) hc
    exact ⟨List.append_ne_nil_of_left_ne_nil hword.ne_nil _, hreserved _ (by decide),
      hreserved _ (by decide)⟩
  rw [parse, hlines, List.forall₂_iff_get]
  refine ⟨by simp, ?_⟩
  intro k hk hk'
  have hword := Instruction.isWord_mnemonic (hwell _ (List.getElem_mem hk))
  simp only [List.get_eq_getElem, List.getElem_mapIdx, List.getElem_map,
    ofChars_joined hword (fun _ => Instruction.isWord_of_mem_operands), String.ofList_toList]
  exact ⟨rfl, rfl⟩

/-! ## Layout -/

/-- What has been placed is the line that the instruction is printed as. -/
structure Prints (i : Instruction) (placed : Placed) : Prop where
  wellFormed : i.WellFormed
  opcode : placed.opcode = i.opcode
  operands : placed.operands = i.operands.map String.ofList

/-- A printed instruction has as many operands as its opcode takes. -/
theorem checkOperands_operands {i : Instruction} (hwell : i.WellFormed) (line : Nat) :
    checkOperands i.opcode (i.operands.map String.ofList) line = .ok () := by
  rw [checkOperands_eq_ok_iff]
  rcases Instruction.operands_cases hwell with
    ⟨hflow, hsize, count, entries, -, hlength, hne⟩ | ⟨hflow, hsize, hlength⟩ | ⟨-, hsize, hnil⟩
  · have hcount := count.toNat_lt
    refine Or.inr (Or.inl ⟨hsize, hflow, by simp [hne], ?_⟩)
    rw [List.length_map]
    omega
  · obtain ⟨word, hword⟩ := List.length_eq_one_iff.mp hlength
    exact Or.inr (Or.inr ⟨hsize, hflow, String.ofList word, by rw [hword, List.map_singleton]⟩)
  · exact Or.inl ⟨hsize, by rw [hnil, List.map_nil]⟩

/-- A line with a printed instruction places just that instruction. -/
theorem add_of_holds {i : Instruction} {line : Line} (hline : line.Holds i) (hwell : i.WellFormed)
    (layout : Layout) :
    ∃ placed size, layout.add line =
        .ok { layout with placed := layout.placed.push placed, size := size } ∧
      Prints i placed := by
  let placed : Placed := ⟨i.opcode, i.operands.map String.ofList, layout.size, line.number⟩
  refine ⟨placed, placed.next, ?_, hwell, rfl, rfl⟩
  simp only [Layout.add, hline.label, hline.statement, Layout.place,
    Opcode.ofMnemonic?_mnemonic hwell.mem_table, checkOperands_operands hwell]
  rfl

/-- Printed instructions are placed one behind the other, whatever was placed before. -/
theorem foldlM_add {instructions : List Instruction} {lines : List Line}
    (hlines : List.Forall₂ Line.Holds instructions lines)
    (hwell : ∀ i ∈ instructions, i.WellFormed) (layout : Layout) :
    ∃ layout', lines.foldlM Layout.add layout = .ok layout' ∧
      ∃ placed, layout'.placed.toList = layout.placed.toList ++ placed ∧
        List.Forall₂ Prints instructions placed := by
  induction hlines generalizing layout with
  | nil => exact ⟨layout, rfl, [], (List.append_nil _).symm, .nil⟩
  | cons hline _ ih =>
      rw [List.forall_mem_cons] at hwell
      obtain ⟨placed, size, hadd, hprints⟩ := add_of_holds hline hwell.1 layout
      obtain ⟨layout', hfold, rest, hplaced, hrest⟩ := ih hwell.2 _
      refine ⟨layout', ?_, placed :: rest, ?_, .cons hprints hrest⟩
      · rw [List.foldlM_cons, hadd]
        exact hfold
      · rw [hplaced, Array.toList_push, List.append_assoc, List.singleton_append]

/-! ## Operands -/

/-- A printed displacement is no label, and is read as itself. -/
theorem displacement_ofInt {d : Int} (hd : -32768 ≤ d ∧ d ≤ 32767) (labels : Labels)
    (next line : Nat) :
    displacement labels next line (String.ofList (Numeral.ofInt d)) = .ok d := by
  have hsign : isDisplacement (String.ofList (Numeral.ofInt d)) = true := by
    obtain ⟨c, hhead, hc⟩ := Numeral.head?_ofInt d
    rw [isDisplacement, String.toList_ofList, hhead]
    rcases hc with hdigit | rfl
    · simp [hdigit]
    · rfl
  rw [displacement, if_pos hsign, String.toList_ofList, Numeral.integer?_ofInt hd.1 hd.2]

theorem functionId_toDigits {n : Nat} (h : n ≤ 65535) (line : Nat) :
    functionId line (String.ofList (Nat.toDigits 10 n)) = .ok n := by
  rw [functionId, String.toList_ofList, Numeral.natural?_toDigits h]

/-- The digits of bytes are read as a value that fits in as many bytes. -/
theorem pushValue_digitsOfBytes {bytes : List UInt8} (h : bytes ≠ []) :
    pushValue bytes.length ('0' :: 'x' :: Hex.digitsOfBytes bytes) =
      .ok (BigEndian.value bytes) := by
  have hnumber : pushNumber ('0' :: 'x' :: Hex.digitsOfBytes bytes) =
      .ok (BigEndian.value bytes) := by
    simp only [pushNumber, Hex.number?_digitsOfBytes h]
  simp only [pushValue, hnumber, if_pos (BigEndian.value_lt bytes)]

/-! ## Encoding -/

variable {i : Instruction} {placed : Placed}

/-- The operands of a jump are encoded as its displacements, one after the other. -/
theorem mapM_encodeOperand_of_jump (hjump : i.opcode.isJump = true) (hprints : Prints i placed)
    (labels : Labels) :
    placed.operands.mapM (placed.encodeOperand labels) =
      .ok (i.displacements.map BigEndian.encodeSigned) := by
  have hoperands : i.operands = i.displacements.map Numeral.ofInt := by
    unfold Instruction.operands
    split <;> simp_all [Opcode.isJump]
  rw [hprints.operands, hoperands, List.map_map, mapM_eq_ok_iff, List.forall₂_map_left_iff,
    List.forall₂_map_right_iff, List.forall₂_same]
  intro d hd
  have hbounds := Instruction.bounds_of_mem_displacements hd
  -- the labels and the place of the jump do not matter
  have hread := displacement_ofInt hbounds labels placed.next placed.line
  rw [Placed.encodeOperand_of_isJump (hprints.opcode ▸ hjump)]
  simp only [Function.comp_apply, hread, Except.map]

/-- Behind the count byte, the encoded displacements of a jump are its immediate. -/
theorem countByte_append_displacements (hjump : i.opcode.isJump = true)
    (hprints : Prints i placed) :
    placed.countByte ++ (i.displacements.map BigEndian.encodeSigned).flatten = i.immediate := by
  rw [← List.flatMap_def, Placed.countByte, hprints.opcode]
  cases hflow : i.opcode.flow with
  | jump | branch =>
      have hsize : i.opcode.immediateSize = 2 :=
        Opcode.immediateSize_of_flow hprints.wellFormed.mem_table (by rw [hflow]; rfl)
      have hlength := hprints.wellFormed.length_immediate (by simp [hflow])
      rw [if_neg (by decide), List.nil_append, Instruction.displacements, hflow]
      exact BigEndian.flatMap_encodeSigned (by rw [hlength, hsize])
  | table =>
      obtain ⟨count, entries, himmediate, -, hlength⟩ := hprints.wellFormed.isTable hflow
      have hdisplacements : i.displacements = BigEndian.signedValues entries := by
        simp [Instruction.displacements, hflow, himmediate]
      have hoperands : placed.operands.length = count.toNat := by
        simp [hprints.operands, Instruction.operands, hflow, hdisplacements,
          BigEndian.length_signedValues, hlength]
      rw [if_pos rfl, hoperands, UInt8.ofNat_toNat, hdisplacements,
        BigEndian.flatMap_encodeSigned (by omega), himmediate, List.singleton_append]
  | straight | call | ret | halt => simp [Opcode.isJump, hflow] at hjump

theorem encodeOperand_of_call (hflow : i.opcode.flow = .call) (hprints : Prints i placed)
    (labels : Labels) :
    ∃ word, i.operands = [word] ∧
      placed.encodeOperand labels (String.ofList word) = .ok i.immediate := by
  obtain ⟨hlength, hcallee⟩ := Instruction.callee?_of_call hprints.wellFormed hflow
  have hlt := BigEndian.value_lt i.immediate
  have hencode := BigEndian.encode_value i.immediate
  rw [hlength] at hlt hencode
  refine ⟨Nat.toDigits 10 (BigEndian.value i.immediate), ?_, ?_⟩
  · simp only [Instruction.operands, hflow, hcallee]
    rfl
  · have hread := functionId_toDigits (Nat.le_of_lt_succ hlt) placed.line
    simp only [Placed.encodeOperand, hprints.opcode, hflow, hread, Except.map, hencode]

theorem encodeOperand_of_push (hpush : i.opcode.isPush = true) (hprints : Prints i placed)
    (labels : Labels) :
    ∃ word, i.operands = [word] ∧
      placed.encodeOperand labels (String.ofList word) = .ok i.immediate := by
  obtain ⟨hflow, hsize⟩ : i.opcode.flow = .straight ∧ 0 < i.opcode.immediateSize := by
    simpa [Opcode.isPush] using hpush
  have hlength := hprints.wellFormed.length_immediate (by simp [hflow])
  have hne : i.immediate ≠ [] := List.ne_nil_of_length_pos (hlength ▸ hsize)
  have hread := pushValue_digitsOfBytes hne
  have hencode := BigEndian.encode_value i.immediate
  rw [hlength] at hread hencode
  refine ⟨'0' :: 'x' :: Hex.digitsOfBytes i.immediate, ?_, ?_⟩
  · simp only [Instruction.operands, hflow, hpush, if_true]
  · simp only [Placed.encodeOperand, hprints.opcode, hflow, String.toList_ofList, hread, hencode]

/-- Operands are encoded as the immediate they were printed from. -/
theorem mapM_encodeOperand (hprints : Prints i placed) (labels : Labels) :
    ∃ operands, placed.operands.mapM (placed.encodeOperand labels) = .ok operands ∧
      placed.countByte ++ operands.flatten = i.immediate := by
  by_cases hjump : i.opcode.isJump = true
  · exact ⟨_, mapM_encodeOperand_of_jump hjump hprints labels,
      countByte_append_displacements hjump hprints⟩
  have htable : i.opcode.flow ≠ .table := by
    rintro hflow
    simp [Opcode.isJump, hflow] at hjump
  have hcount : placed.countByte = [] := by rw [Placed.countByte, hprints.opcode, if_neg htable]
  -- what is left has one operand or none
  have hone : (∃ word, i.operands = [word] ∧
      placed.encodeOperand labels (String.ofList word) = .ok i.immediate) →
      ∃ operands, placed.operands.mapM (placed.encodeOperand labels) = .ok operands ∧
        placed.countByte ++ operands.flatten = i.immediate := by
    rintro ⟨word, hword, hencode⟩
    refine ⟨[i.immediate], ?_, by simp [hcount]⟩
    rw [hprints.operands, hword, List.map_singleton, mapM_eq_ok_iff]
    exact .cons hencode .nil
  by_cases hcall : i.opcode.flow = .call
  · exact hone (encodeOperand_of_call hcall hprints labels)
  by_cases hpush : i.opcode.isPush = true
  · exact hone (encodeOperand_of_push hpush hprints labels)
  have hnone : i.operands = [] := by
    unfold Instruction.operands
    split <;> simp_all [Opcode.isJump]
  have himmediate : i.immediate = [] := by
    rcases Instruction.operands_cases hprints.wellFormed with
      ⟨hflow, -⟩ | ⟨-, -, hlength⟩ | ⟨-, hsize, -⟩
    · exact absurd hflow htable
    · rw [hnone] at hlength
      cases hlength
    · exact List.eq_nil_of_length_eq_zero (hprints.wellFormed.length_immediate htable ▸ hsize)
  refine ⟨[], ?_, by simp [hcount, himmediate]⟩
  rw [hprints.operands, hnone]
  rfl

theorem encode_of_prints (hprints : Prints i placed) (labels : Labels) :
    placed.encode labels = .ok i.bytes := by
  obtain ⟨operands, hoperands, himmediate⟩ := mapM_encodeOperand hprints labels
  rw [Placed.encode, hoperands, Instruction.bytes, ← himmediate, ← hprints.opcode]
  rfl

/-! ## Whole programs -/

/-- What a sweep takes apart is assembled again from the printed instructions. -/
theorem assemble_of_sweep {code : Code} {instructions : List Instruction}
    (h : code.sweep = .ok instructions) :
    assemble ("\n".intercalate (instructions.map Instruction.text)) = .ok code := by
  have htiles := Code.sweep_eq_ok_iff.mp h
  have hwell := htiles.wellFormed
  obtain ⟨layout, hlayout, placed, hplaced, hprints⟩ :=
    foldlM_add (parse_intercalate_text hwell) hwell {}
  rw [Array.toList_empty, List.nil_append] at hplaced
  have hencode : layout.placed.toList.mapM (Placed.encode layout.labels) =
      .ok (instructions.map Instruction.bytes) := by
    rw [hplaced, mapM_eq_ok_iff, List.forall₂_map_right_iff]
    exact hprints.flip.imp fun _ _ h => encode_of_prints h layout.labels
  have hbytes : (instructions.map Instruction.bytes).flatten = code.toList := by
    rw [← List.flatMap_def, htiles.flatMap_bytes]
  have hlayout' : Layout.encode layout = .ok code.toList := by
    rw [Layout.encode, hencode, Except.map, hbytes]
  simp only [assemble, assembleLines, Layout.ofLines, hlayout, hlayout', Except.map,
    Array.toArray_toList]

/-- A push with leading zeros, the least displacement, a jump table and the greatest function. -/
def extremes : List Instruction := [
  ⟨0, .push 0x62 "push3" 3, [0, 0, 5]⟩,
  ⟨4, ⟨0x5c, "rjump", 0, 0, 2, .jump⟩, [0x80, 0]⟩,
  ⟨7, ⟨0x5e, "rjumpv", 1, -1, 1, .table⟩, [2, 0x7f, 0xff, 0xff, 0xff]⟩,
  ⟨13, ⟨0xb0, "callf", 0, 0, 2, .call⟩, [0xff, 0xff]⟩]

theorem assemble_of_sweep_extremes :
    extremes.map Instruction.text =
        ["push3 0x000005", "rjump -32768", "rjumpv 32767 -1", "callf 65535"] ∧
      Code.sweep (extremes.flatMap Instruction.bytes).toArray = .ok extremes ∧
      assemble ("\n".intercalate (extremes.map Instruction.text)) =
        .ok (extremes.flatMap Instruction.bytes).toArray := by
  have htiles : Tiles 0 extremes (extremes.flatMap Instruction.bytes) := by
    refine .cons rfl ?_ ?_
    · exact ⟨by decide +kernel, by rintro ⟨⟩, fun _ => rfl⟩
    refine .cons rfl ?_ ?_
    · exact ⟨by decide +kernel, by rintro ⟨⟩, fun _ => rfl⟩
    refine .cons rfl ?_ ?_
    · exact ⟨by decide +kernel, fun _ => ⟨2, _, rfl, by decide, rfl⟩, fun h => (h rfl).elim⟩
    refine .cons rfl ?_ .nil
    exact ⟨by decide +kernel, by rintro ⟨⟩, fun _ => rfl⟩
  have hsweep : Code.sweep (extremes.flatMap Instruction.bytes).toArray = .ok extremes :=
    Code.sweep_eq_ok_iff.mpr htiles
  exact ⟨by decide +kernel, hsweep, assemble_of_sweep hsweep⟩

end EofStack.Assembly
