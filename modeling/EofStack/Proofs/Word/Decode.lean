import EofStack.Proofs.Instruction
import EofStack.Proofs.Word.Arithmetic

/-!
# Decoding in words

Decoding and the computation of jump targets, with every sum and difference and every change between
words with a sign and without one made explicit.  The result is `none` where one of them fails, and
also where a part is cut out of an immediate that is not there.

None of this happens, as long as the code is not of an absurd size (`decodeAt?_eq`,
`intact_of_decodeAt`).  An offset may be any number: behind the end of the code nothing is computed
with it.
-/

namespace EofStack.Word

open BigEndian (signedValues)

/-! ## Decoding -/

/-- The instruction with the immediate from `start` on; `available` bytes are there. -/
def takeImmediate? (code : Code) (offset start available : Nat) (opcode : Opcode) (size : Nat) :
    Option (Except DecodeError Instruction) := do
  let stop ← add? start size
  if stop ≤ code.size then
    return .ok ⟨offset, opcode, (code.extract start stop).toList⟩
  else
    return .error (.truncatedImmediate offset size available)

/-- The instruction at an offset. -/
def decodeAt? (code : Code) (offset : Nat) : Option (Except DecodeError Instruction) :=
  match code[offset]? with
  | none => some (.error (.outOfBounds offset code.size))
  | some byte =>
    match Opcode.ofByte? byte with
    | none => some (.error (.unknownOpcode offset byte))
    | some opcode => do
      let start ← add? offset 1
      let available ← sub? code.size start
      if opcode.flow = .table then
        match code[start]? with
        | none => return .error (.truncatedImmediate offset opcode.immediateSize available)
        | some count =>
          if count = 0 then return .error (.emptyJumpTable offset)
          else
            let entries ← unsigned? (2 * count.toNat)
            let size ← add? opcode.immediateSize entries
            takeImmediate? code offset start available opcode size
      else takeImmediate? code offset start available opcode opcode.immediateSize

variable {code : Code} {offset : Nat} {i : Instruction}

theorem takeImmediate?_eq {opcode : Opcode} {size : Nat} (hoffset : offset < 2 ^ 55)
    (hsize : size < 2 ^ 55) :
    takeImmediate? code offset (offset + 1) (code.size - (offset + 1)) opcode size =
      some (code.takeImmediate offset opcode size) := by
  rw [takeImmediate?, add?_eq (by omega), Code.takeImmediate]
  by_cases hle : offset + 1 + size ≤ code.size
  · rw [if_pos hle]
    exact if_pos hle
  · rw [if_neg hle]
    exact if_neg hle

/-- Decoding stays within words. -/
theorem decodeAt?_eq (hsize : code.size < 2 ^ 55) (offset : Nat) :
    decodeAt? code offset = some (code.decodeAt offset) := by
  rw [decodeAt?, Code.decodeAt]
  cases hbyte : code[offset]? with
  | none => rfl
  | some byte =>
      dsimp only
      cases hopcode : Opcode.ofByte? byte with
      | none => rfl
      | some opcode =>
          have hlt : offset < code.size := (Array.getElem?_eq_some_iff.mp hbyte).1
          obtain ⟨-, -, -, hshort⟩ := Opcode.bounds (Opcode.mem_table_of_ofByte? hopcode)
          simp only [add?_eq (show offset + 1 < 2 ^ 64 by omega),
            sub?_eq (show offset + 1 ≤ code.size by omega), Option.bind_eq_bind, Option.bind_some]
          by_cases hflow : opcode.flow = .table
          · rw [if_pos hflow, if_pos hflow]
            cases code[offset + 1]? with
            | none => rfl
            | some count =>
                have hcount := count.toNat_lt
                have hentries := unsigned?_eq (show 2 * count.toNat < 2 ^ 64 by omega)
                have hadd := add?_eq (show opcode.immediateSize + 2 * count.toNat < 2 ^ 64 by omega)
                by_cases hzero : count = 0
                · simp only [if_pos hzero]
                  rfl
                · simp only [if_neg hzero, hentries, hadd, Option.bind_some]
                  exact takeImmediate?_eq (by omega) (by omega)
          · rw [if_neg hflow, if_neg hflow]
            exact takeImmediate?_eq (by omega) (by omega)

/-! ## Jumping -/

/-- The offset behind an instruction. -/
def next? (i : Instruction) : Option Nat := do
  let start ← add? i.offset 1
  add? start i.immediate.length

/-- The bytes from a position on, if they go on so far. -/
def dropFrom? (bytes : List UInt8) (position : Nat) : Option (List UInt8) :=
  if position ≤ bytes.length then some (bytes.drop position) else none

/-- The displacements of a jump. -/
def displacements? (i : Instruction) : Option (List Int) :=
  match i.opcode.flow with
  | .jump | .branch => some (signedValues i.immediate)
  | .table => (dropFrom? i.immediate 1).map signedValues
  | _ => some []

/-- The targets of a jump. -/
def targets? (i : Instruction) : Option (Except DecodeError (List Nat)) := do
  let next ← next? i
  let base ← signed? next
  let displacements ← displacements? i
  let positions ← displacements.mapM fun displacement => signed? (base + displacement)
  return positions.mapM fun position =>
    if position < 0 then .error (.negativeTarget i.offset position) else .ok position.toNat

/-- A table is never empty, so it has a byte for the count and two at least for an entry. -/
theorem three_le_of_table (hwell : i.WellFormed) (hflow : i.opcode.flow = .table) :
    3 ≤ i.immediate.length := by
  obtain ⟨count, entries, himmediate, hzero, hlength⟩ := hwell.isTable hflow
  have hpos : count.toNat ≠ 0 := fun heq => hzero (UInt8.toNat_inj.mp heq)
  rw [himmediate, List.length_cons]
  omega

theorem next?_eq (h : i.next < 2 ^ 64) : next? i = some i.next := by
  have hnext : i.next = i.offset + 1 + i.immediate.length := rfl
  rw [next?, add?_eq (by omega), Option.bind_eq_bind, Option.bind_some, add?_eq (by omega), hnext]

theorem displacements?_eq (hwell : i.WellFormed) : displacements? i = some i.displacements := by
  unfold displacements? Instruction.displacements
  cases hflow : i.opcode.flow with
  | table =>
      have hlength := three_le_of_table hwell hflow
      simp only [dropFrom?, if_pos (show 1 ≤ i.immediate.length by omega), Option.map_some]
  | jump | branch | straight | call | ret | halt => rfl

/-- The targets are computed within words.  A displacement may lead before the code, but that is a
word with a sign. -/
theorem targets?_eq (hwell : i.WellFormed) (hnext : i.next < 2 ^ 55) :
    targets? i = some i.targets := by
  have hpositions : (i.displacements.mapM fun displacement => signed? (i.next + displacement)) =
      some (i.displacements.map fun displacement => (i.next : Int) + displacement) := by
    refine mapM_of_forall₂ (List.forall₂_map_right_iff.mpr (List.forall₂_same.mpr ?_))
    intro displacement hmem
    have hbounds := Instruction.bounds_of_mem_displacements hmem
    exact signed?_eq (by omega)
  rw [targets?, next?_eq (by omega), Option.bind_eq_bind, Option.bind_some,
    signed?_eq (by omega), Option.bind_eq_bind, Option.bind_some, displacements?_eq hwell,
    Option.bind_eq_bind, Option.bind_some, hpositions, Option.bind_some, List.mapM_map]
  rfl

/-- What is taken for granted of an instruction, and holds: a table has its first entry, a jump has
one displacement, a call has a callee, and the next instruction and the targets can be computed. -/
structure Intact (i : Instruction) : Prop where
  entry : i.opcode.flow = .table → 3 ≤ i.immediate.length
  displacement : i.opcode.flow = .jump ∨ i.opcode.flow = .branch →
    ∃ displacement, i.displacements = [displacement]
  callee : i.opcode.flow = .call → ∃ callee, i.callee? = some callee
  next : next? i = some i.next
  displacements : displacements? i = some i.displacements
  targets : targets? i = some i.targets

theorem intact_of_decodeAt (hsize : code.size < 2 ^ 55) (h : code.decodeAt offset = .ok i) :
    Intact i where
  entry := three_le_of_table (Code.wellFormed_of_decodeAt h)
  displacement := Instruction.exists_displacements_eq (Code.wellFormed_of_decodeAt h)
  callee hflow := ⟨_, (Instruction.callee?_of_call (Code.wellFormed_of_decodeAt h) hflow).2⟩
  next := next?_eq (by have := Code.next_le_of_decodeAt h; omega)
  displacements := displacements?_eq (Code.wellFormed_of_decodeAt h)
  targets := targets?_eq (Code.wellFormed_of_decodeAt h)
    (Nat.lt_of_le_of_lt (Code.next_le_of_decodeAt h) hsize)

end EofStack.Word
