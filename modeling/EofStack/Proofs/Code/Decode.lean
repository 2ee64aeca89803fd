import EofStack.Code.Decode
import EofStack.Proofs.Opcode.Table

/-!
# What decoding finds

`decodeAt_eq_ok_iff` says exactly when there is an instruction at an offset: when the code goes
on there with the bytes of a well-formed instruction.  Everything else that later files need to
know of decoding is read off this equivalence.

An instruction is well-formed if its opcode is in the table and its immediate has the size that
the opcode asks for.  The immediate of a jump table announces its own size.
-/

namespace EofStack

namespace Instruction

/-- The bytes that the instruction occupies. -/
def bytes (i : Instruction) : List UInt8 :=
  i.opcode.byte :: i.immediate

/-- Whether an immediate is a count, which is not zero, and as many entries of two bytes. -/
def IsTable (immediate : List UInt8) : Prop :=
  ∃ count entries, immediate = count :: entries ∧ count ≠ 0 ∧ entries.length = 2 * count.toNat

/-- The opcode may occur in code, and the immediate has the size that the opcode asks for. -/
structure WellFormed (i : Instruction) : Prop where
  mem_table : i.opcode ∈ Opcode.table
  isTable : i.opcode.flow = .table → IsTable i.immediate
  length_immediate : i.opcode.flow ≠ .table → i.immediate.length = i.opcode.immediateSize

theorem next_eq (i : Instruction) : i.next = i.offset + i.bytes.length := by
  simp only [next, bytes, List.length_cons]
  omega

end Instruction

namespace Code

variable {code : Code} {offset : Nat} {i : Instruction}

/-! ## Taking the immediate -/

/-- Behind the opcode byte, the immediate is what the code goes on with. -/
theorem takeImmediate_eq_ok_iff {byte : UInt8} {tail : List UInt8} {opcode : Opcode} {size : Nat}
    (hdrop : code.toList.drop offset = byte :: tail) :
    takeImmediate code offset opcode size = .ok i ↔
      i.offset = offset ∧ i.opcode = opcode ∧ i.immediate.length = size ∧
        i.immediate <+: tail := by
  have htail : code.toList.drop (offset + 1) = tail := by
    rw [← List.drop_drop, hdrop, List.drop_one, List.tail_cons]
  have hlength : code.size - offset = tail.length + 1 := by
    rw [← Array.length_toList, ← List.length_drop, hdrop, List.length_cons]
  have hextract : (code.extract (offset + 1) (offset + 1 + size)).toList = tail.take size := by
    rw [Array.toList_extract, List.extract_eq_take_drop, htail, Nat.add_sub_cancel_left]
  unfold takeImmediate
  rw [hextract]
  constructor
  · intro h
    split at h
    · next hle =>
      cases h
      exact ⟨rfl, rfl, by rw [List.length_take]; omega, List.take_prefix _ _⟩
    · cases h
  · rintro ⟨rfl, rfl, rfl, hpre⟩
    have := hpre.length_le
    rw [if_pos (by omega), ← List.prefix_iff_eq_take.mp hpre]

/-! ## Decoding -/

theorem drop_of_getElem? {byte : UInt8} (h : code[offset]? = some byte) :
    ∃ tail, code.toList.drop offset = byte :: tail := by
  rw [← Array.getElem?_toList] at h
  obtain ⟨hlt, rfl⟩ := List.getElem?_eq_some_iff.mp h
  exact ⟨_, List.drop_eq_getElem_cons hlt⟩

theorem getElem?_of_drop {bytes : List UInt8} (h : code.toList.drop offset = bytes) (n : Nat) :
    code[offset + n]? = bytes[n]? := by
  rw [← h, List.getElem?_drop, Array.getElem?_toList]

/-- There is an instruction at an offset exactly if the code goes on there with its bytes, and
they are well-formed. -/
theorem decodeAt_eq_ok_iff :
    code.decodeAt offset = .ok i ↔
      i.offset = offset ∧ i.WellFormed ∧ i.bytes <+: code.toList.drop offset := by
  constructor
  · -- every test that decoding passes says one thing about the bytes
    intro h
    unfold decodeAt at h
    split at h
    · cases h
    next byte hbyte =>
    obtain ⟨tail, hdrop⟩ := drop_of_getElem? hbyte
    split at h
    · cases h
    next opcode hopcode =>
    have hmem := Opcode.mem_table_of_ofByte? hopcode
    have hbytes : ∀ {immediate}, immediate <+: tail →
        opcode.byte :: immediate <+: code.toList.drop offset := by
      intro immediate hpre
      rw [hdrop, Opcode.byte_of_ofByte? hopcode, List.cons_prefix_cons]
      exact ⟨rfl, hpre⟩
    split at h
    · next hflow =>
      split at h
      · cases h
      next count hcount =>
      split at h
      · cases h
      next hzero =>
      obtain ⟨hoffset, rfl, hlength, hpre⟩ := (takeImmediate_eq_ok_iff hdrop).mp h
      have hsize : i.opcode.immediateSize = 1 :=
        Opcode.immediateSize_of_flow hmem (by rw [hflow]; rfl)
      refine ⟨hoffset, ⟨hmem, fun _ => ?_, fun hne => absurd hflow hne⟩, hbytes hpre⟩
      -- the count that was looked at is the first byte of the immediate that was taken
      rw [getElem?_of_drop hdrop 1] at hcount
      obtain ⟨rest, rfl⟩ := hpre
      cases himmediate : i.immediate with
      | nil => simp [himmediate, hsize] at hlength; omega
      | cons first entries =>
          have hfirst : first = count := by simpa [himmediate] using hcount
          refine ⟨first, entries, rfl, hfirst ▸ hzero, ?_⟩
          rw [himmediate, List.length_cons, hsize, ← hfirst] at hlength
          omega
    · next hflow =>
      obtain ⟨hoffset, rfl, hlength, hpre⟩ := (takeImmediate_eq_ok_iff hdrop).mp h
      exact ⟨hoffset, ⟨hmem, fun heq => absurd heq hflow, fun _ => hlength⟩, hbytes hpre⟩
  · -- conversely the bytes of a well-formed instruction pass all of them
    rintro ⟨hoffset, hwell, rest, hrest⟩
    have hdrop : code.toList.drop offset = i.opcode.byte :: (i.immediate ++ rest) := hrest.symm
    have htake : ∀ {size}, i.immediate.length = size →
        takeImmediate code offset i.opcode size = .ok i := by
      intro size hsize
      exact (takeImmediate_eq_ok_iff hdrop).mpr ⟨hoffset, rfl, hsize, List.prefix_append _ _⟩
    have hbyte : code[offset]? = some i.opcode.byte := getElem?_of_drop hdrop 0
    unfold decodeAt
    simp only [hbyte, Opcode.ofByte?_byte hwell.mem_table]
    by_cases hflow : i.opcode.flow = .table
    · obtain ⟨count, entries, himmediate, hzero, hlength⟩ := hwell.isTable hflow
      have hsize : i.opcode.immediateSize = 1 :=
        Opcode.immediateSize_of_flow hwell.mem_table (by rw [hflow]; rfl)
      have hcount : code[offset + 1]? = some count := by
        rw [getElem?_of_drop hdrop 1, himmediate]
        rfl
      simp only [hflow, if_true, hcount, if_neg hzero]
      apply htake
      rw [himmediate, List.length_cons, hsize, hlength]
      omega
    · rw [if_neg hflow]
      exact htake (hwell.length_immediate hflow)

theorem wellFormed_of_decodeAt (h : code.decodeAt offset = .ok i) : i.WellFormed :=
  (decodeAt_eq_ok_iff.mp h).2.1

theorem mem_table_of_decodeAt (h : code.decodeAt offset = .ok i) : i.opcode ∈ Opcode.table :=
  (wellFormed_of_decodeAt h).mem_table

/-- An instruction is found in every code that has the same bytes in its place. -/
theorem decodeAt_of_getElem? {code' : Code} (h : code.decodeAt offset = .ok i)
    (hbytes : ∀ position, i.offset ≤ position → position < i.next →
      code'[position]? = code[position]?) : code'.decodeAt offset = .ok i := by
  obtain ⟨rfl, hwell, hpre⟩ := decodeAt_eq_ok_iff.mp h
  refine decodeAt_eq_ok_iff.mpr ⟨rfl, hwell, ?_⟩
  rw [List.prefix_iff_getElem?] at hpre ⊢
  intro k hk
  have hposition : i.offset + k < i.next := by
    rw [i.next_eq]
    omega
  calc (code'.toList.drop i.offset)[k]?
      = code'[i.offset + k]? := by rw [List.getElem?_drop, Array.getElem?_toList]
    _ = code[i.offset + k]? := hbytes _ (Nat.le_add_right _ _) hposition
    _ = (code.toList.drop i.offset)[k]? := by rw [List.getElem?_drop, Array.getElem?_toList]
    _ = some i.bytes[k] := hpre k hk

end Code

end EofStack
