import EofStack.Proofs.Assembly.Source
import EofStack.Proofs.Digits
import EofStack.Proofs.Instruction

/-!
# Printed instructions

The text of an instruction is its name and its operands, with a blank in front of each.  All of
them are words (`toList_text`, `isWord_of_mem_operands`), so that a printed instruction is read as
the statement that it was printed from.  `operands_cases` says how many operands there are.
-/

namespace EofStack.Instruction

open Assembly

variable {i : Instruction}

/-! ## Operands -/

/-- What is written behind the name, one word for each operand. -/
def operands (i : Instruction) : List (List Char) :=
  match i.opcode.flow with
  | .call => (i.callee?.map (Nat.toDigits 10)).toList
  | .jump | .branch | .table => i.displacements.map Numeral.ofInt
  | _ => if i.opcode.isPush then ['0' :: 'x' :: Hex.digitsOfBytes i.immediate] else []

theorem toList_text (i : Instruction) :
    i.text.toList = joined i.opcode.mnemonic.toList i.operands := by
  rw [text, String.toList_append, joined, operandText, operands]
  congr 1
  cases i.opcode.flow with
  | call =>
      cases i.callee? with
      | none => rfl
      | some callee => simp
  | jump | branch | table =>
      simp only [String.toList_join, List.flatMap_map, String.toList_append,
        Numeral.toList_toString]
      rfl
  | straight | ret | halt =>
      dsimp only
      split
      · simp [Hex.ofBytes]
      · rfl

/-! ## Words -/

theorem isWord_mnemonic (hwell : i.WellFormed) : IsWord i.opcode.mnemonic.toList where
  ne_nil := (Opcode.isName_mnemonic hwell.mem_table).1
  plain c hc := Or.inl ((Opcode.isName_mnemonic hwell.mem_table).2 c hc).1

private theorem isPlain_of_isDigit {c : Char} (h : c.isDigit = true) : IsPlain c :=
  Or.inl (by simp [Char.isAlphanum, h])

private theorem isWord_ofInt (n : Int) : IsWord (Numeral.ofInt n) where
  ne_nil hnil := by
    obtain ⟨c, hc, -⟩ := Numeral.head?_ofInt n
    rw [hnil] at hc
    cases hc
  plain _ hc := (Numeral.isDigit_of_mem_ofInt hc).elim isPlain_of_isDigit Or.inr

theorem isWord_of_mem_operands {word : List Char} (h : word ∈ i.operands) : IsWord word := by
  cases hflow : i.opcode.flow with
  | call =>
      simp only [operands, hflow, Option.mem_toList] at h
      obtain ⟨callee, -, rfl⟩ := Option.map_eq_some_iff.mp h
      refine ⟨Nat.toDigits_ne_nil, fun c hc => isPlain_of_isDigit ?_⟩
      exact Nat.isDigit_of_mem_toDigits (by decide) (by decide) hc
  | jump | branch | table =>
      simp only [operands, hflow] at h
      obtain ⟨displacement, -, rfl⟩ := List.mem_map.mp h
      exact isWord_ofInt displacement
  | straight | ret | halt =>
      simp only [operands, hflow] at h
      split at h
      · rw [List.mem_singleton] at h
        subst h
        have hdigits : ∀ c ∈ Hex.digitsOfBytes i.immediate, IsPlain c :=
          fun c hc => Or.inl (Hex.isAlphanum_of_mem_digitsOfBytes hc)
        exact ⟨List.cons_ne_nil _ _, List.forall_mem_cons.mpr
          ⟨Or.inl rfl, List.forall_mem_cons.mpr ⟨Or.inl rfl, hdigits⟩⟩⟩
      · cases h

/-! ## How many operands there are -/

/-- A jump table has an operand for each entry; otherwise there is an operand if there is an
immediate. -/
theorem operands_cases (hwell : i.WellFormed) :
    (i.opcode.flow = .table ∧ 0 < i.opcode.immediateSize ∧
      ∃ count entries, i.immediate = count :: entries ∧ i.operands.length = count.toNat ∧
        i.operands ≠ []) ∨
    (i.opcode.flow ≠ .table ∧ 0 < i.opcode.immediateSize ∧ i.operands.length = 1) ∨
    (i.opcode.flow ≠ .table ∧ i.opcode.immediateSize = 0 ∧ i.operands = []) := by
  have hsize : ∀ size, Opcode.immediateSizeOf i.opcode.flow = some size →
      i.opcode.immediateSize = size :=
    fun _ => Opcode.immediateSize_of_flow hwell.mem_table
  cases hflow : i.opcode.flow with
  | call =>
      refine Or.inr (Or.inl ⟨by decide, ?_, ?_⟩)
      · rw [hsize 2 (by rw [hflow]; rfl)]
        decide
      · simp [operands, hflow, (callee?_of_call hwell hflow).2]
  | jump | branch =>
      obtain ⟨displacement, hdisplacement⟩ := exists_displacements_eq hwell (by simp [hflow])
      refine Or.inr (Or.inl ⟨by decide, ?_, ?_⟩)
      · rw [hsize 2 (by rw [hflow]; rfl)]
        decide
      · simp [operands, hflow, hdisplacement]
  | table =>
      obtain ⟨count, entries, himmediate, hzero, hlength⟩ := hwell.isTable hflow
      have hoperands : i.operands.length = count.toNat := by
        simp [operands, displacements, hflow, himmediate, BigEndian.length_signedValues, hlength]
      refine Or.inl ⟨rfl, ?_, count, entries, himmediate, hoperands, ?_⟩
      · rw [hsize 1 (by rw [hflow]; rfl)]
        decide
      · intro hnil
        rw [hnil, List.length_nil] at hoperands
        exact hzero (UInt8.toNat_inj.mp hoperands.symm)
  | ret | halt =>
      refine Or.inr (Or.inr ⟨by decide, hsize 0 (by rw [hflow]; rfl), ?_⟩)
      simp [operands, hflow, Opcode.isPush]
  | straight =>
      rcases Nat.eq_zero_or_pos i.opcode.immediateSize with hzero | hpos
      · refine Or.inr (Or.inr ⟨by decide, hzero, ?_⟩)
        simp [operands, hflow, Opcode.isPush, hzero]
      · refine Or.inr (Or.inl ⟨by decide, hpos, ?_⟩)
        simp [operands, hflow, Opcode.isPush, hpos]

end EofStack.Instruction
