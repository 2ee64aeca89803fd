import EofStack.Instruction
import EofStack.Opcode.Table

/-!
# Reading one instruction

`decodeAt` reads the instruction that starts at an offset.  It may be asked for any offset, also
for one in the middle of another instruction or behind the end of the code.  An instruction that
it finds lies within the code as a whole (`next_le_of_decodeAt`).
-/

namespace EofStack

/-- The code of one function. -/
abbrev Code := Array UInt8

namespace Code

/-- The instruction whose immediate has `size` bytes, if the code holds that many. -/
def takeImmediate (code : Code) (offset : Nat) (opcode : Opcode) (size : Nat) :
    Except DecodeError Instruction :=
  if offset + 1 + size ≤ code.size then
    .ok ⟨offset, opcode, (code.extract (offset + 1) (offset + 1 + size)).toList⟩
  else
    .error (.truncatedImmediate offset size (code.size - (offset + 1)))

/-- The instruction that starts at `offset`.  The first byte of a jump table's immediate counts
the entries behind it, and there is at least one. -/
def decodeAt (code : Code) (offset : Nat) : Except DecodeError Instruction :=
  match code[offset]? with
  | none => .error (.outOfBounds offset code.size)
  | some byte =>
    match Opcode.ofByte? byte with
    | none => .error (.unknownOpcode offset byte)
    | some opcode =>
      if opcode.flow = .table then
        match code[offset + 1]? with
        | none =>
          .error (.truncatedImmediate offset opcode.immediateSize (code.size - (offset + 1)))
        | some count =>
          if count = 0 then .error (.emptyJumpTable offset)
          else takeImmediate code offset opcode (opcode.immediateSize + 2 * count.toNat)
      else takeImmediate code offset opcode opcode.immediateSize

theorem takeImmediate_eq_ok {code : Code} {offset size : Nat} {opcode : Opcode} {i : Instruction}
    (h : takeImmediate code offset opcode size = .ok i) :
    i.offset = offset ∧ i.opcode = opcode ∧ i.immediate.length = size
      ∧ offset + 1 + size ≤ code.size := by
  unfold takeImmediate at h
  split at h
  · next hle =>
    cases h
    refine ⟨rfl, rfl, ?_, hle⟩
    rw [Array.length_toList, Array.size_extract]
    omega
  · cases h

theorem decodeAt_eq_ok {code : Code} {offset : Nat} {i : Instruction}
    (h : decodeAt code offset = .ok i) :
    ∃ size, takeImmediate code offset i.opcode size = .ok i := by
  unfold decodeAt at h
  split at h
  · cases h
  · split at h
    · cases h
    · split at h
      · split at h
        · cases h
        · split at h
          · cases h
          · exact ⟨_, (takeImmediate_eq_ok h).2.1 ▸ h⟩
      · exact ⟨_, (takeImmediate_eq_ok h).2.1 ▸ h⟩

theorem offset_of_decodeAt {code : Code} {offset : Nat} {i : Instruction}
    (h : decodeAt code offset = .ok i) : i.offset = offset :=
  let ⟨_, hi⟩ := decodeAt_eq_ok h
  (takeImmediate_eq_ok hi).1

theorem next_le_of_decodeAt {code : Code} {offset : Nat} {i : Instruction}
    (h : decodeAt code offset = .ok i) : i.next ≤ code.size := by
  obtain ⟨size, hi⟩ := decodeAt_eq_ok h
  obtain ⟨hoffset, -, hlength, hle⟩ := takeImmediate_eq_ok hi
  rw [Instruction.next, hoffset, hlength]
  exact hle

theorem lt_size_of_decodeAt {code : Code} {offset : Nat} {i : Instruction}
    (h : decodeAt code offset = .ok i) : offset < code.size :=
  offset_of_decodeAt h ▸ Nat.lt_of_lt_of_le i.offset_lt_next (next_le_of_decodeAt h)

end Code

end EofStack
