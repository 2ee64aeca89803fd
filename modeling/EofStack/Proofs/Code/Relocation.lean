import EofStack.Proofs.Instruction

/-!
# Code in other surroundings

Decoding looks at the bytes of one instruction and at nothing else.  If code is put behind other
code, or other code behind it, then each of its instructions is still found, as far behind its old
place as the bytes that were put in front are many.  The same holds of the two errors that the bytes
themselves give rise to: an opcode that does not exist, and a jump table without entries.  The other
errors say that the code has ended too early, so they may go away when something is put behind it.

How many bytes an instruction has is announced by one of them.  That all are looked at, and no
others, is read off `decodeAt_eq_ok_iff` for instructions, and off `Invalid` for errors.
-/

namespace EofStack

namespace Instruction

/-- The instruction with that many bytes put in front of the code. -/
def shift (distance : Nat) (i : Instruction) : Instruction :=
  { i with offset := distance + i.offset }

/-- The second instruction is the first one, moved away from the beginning of the code.  Where it
jumps to has moved with it, unless that was in front of the code. -/
structure Moved (distance : Nat) (i j : Instruction) : Prop where
  offset : j.offset = distance + i.offset
  opcode : j.opcode = i.opcode
  immediate : j.immediate = i.immediate
  displacements : j.displacements = i.displacements
  next : j.next = distance + i.next
  target : ∀ d target, i.target d = .ok target → j.target d = .ok (distance + target)
  targets : ∀ targets, i.targets = .ok targets → j.targets = .ok (targets.map (distance + ·))

variable {i : Instruction}

theorem next_shift (distance : Nat) (i : Instruction) :
    (i.shift distance).next = distance + i.next := by
  simp only [next, shift, Nat.add_assoc]

theorem target_shift {d : Int} {target : Nat} (distance : Nat) (h : i.target d = .ok target) :
    (i.shift distance).target d = .ok (distance + target) := by
  rw [target_eq_ok_iff] at h ⊢
  rw [next_shift]
  omega

theorem targets_shift {targets : List Nat} (distance : Nat) (h : i.targets = .ok targets) :
    (i.shift distance).targets = .ok (targets.map (distance + ·)) := by
  refine mapM_eq_ok_iff.mpr (List.forall₂_map_right_iff.mpr ?_)
  exact (mapM_eq_ok_iff.mp h).imp fun _ _ htarget => target_shift distance htarget

theorem moved_shift (distance : Nat) (i : Instruction) : Moved distance i (i.shift distance) where
  offset := rfl
  opcode := rfl
  immediate := rfl
  displacements := rfl
  next := next_shift distance i
  target _ _ := target_shift distance
  targets _ := targets_shift distance

end Instruction

namespace Code

variable {code front back : Code} {offset : Nat} {i : Instruction} {e : DecodeError}

/-! ## Bytes -/

theorem drop_surrounded (h : offset ≤ code.size) :
    (front ++ code ++ back).toList.drop (front.size + offset) =
      code.toList.drop offset ++ back.toList := by
  rw [Array.toList_append, Array.toList_append, List.append_assoc, ← Array.length_toList,
    List.drop_length_add_append, List.drop_append_of_le_length (by rwa [Array.length_toList])]

theorem getElem?_surrounded {byte : UInt8} (h : code[offset]? = some byte) :
    (front ++ code ++ back)[front.size + offset]? = some byte := by
  have hsize : offset < code.size := (Array.getElem?_eq_some_iff.mp h).1
  rw [Array.append_assoc, Array.getElem?_append_right (Nat.le_add_right _ _),
    Nat.add_sub_cancel_left, Array.getElem?_append_left hsize, h]

/-! ## Instructions -/

/-- An instruction is found again in other surroundings. -/
theorem decodeAt_surrounded (h : code.decodeAt offset = .ok i) :
    Code.decodeAt (front ++ code ++ back) (front.size + offset) = .ok (i.shift front.size) := by
  have hsize := Nat.le_of_lt (lt_size_of_decodeAt h)
  obtain ⟨rfl, hwell, hpre⟩ := decodeAt_eq_ok_iff.mp h
  refine decodeAt_eq_ok_iff.mpr ⟨rfl, ⟨hwell.mem_table, hwell.isTable, hwell.length_immediate⟩, ?_⟩
  rw [drop_surrounded hsize]
  exact hpre.trans (List.prefix_append _ _)

/-! ## Errors -/

/-- The bytes at an offset are not those of an instruction, whatever may follow.  The error names
the offset. -/
inductive Invalid (code : Code) (offset : Nat) : (Nat → DecodeError) → Prop
  | unknownOpcode {byte : UInt8} (hbyte : code[offset]? = some byte)
      (hnone : Opcode.ofByte? byte = none) : Invalid code offset (.unknownOpcode · byte)
  | emptyJumpTable {byte : UInt8} {opcode : Opcode} (hbyte : code[offset]? = some byte)
      (hopcode : Opcode.ofByte? byte = some opcode) (hflow : opcode.flow = .table)
      (hcount : code[offset + 1]? = some 0) : Invalid code offset .emptyJumpTable

/-- The code has ended before the instruction has. -/
inductive Short (offset : Nat) : DecodeError → Prop
  | outOfBounds {length : Nat} : Short offset (.outOfBounds offset length)
  | truncatedImmediate {expected available : Nat} :
      Short offset (.truncatedImmediate offset expected available)

theorem Invalid.decodeAt_eq {error : Nat → DecodeError} (h : Invalid code offset error) :
    code.decodeAt offset = .error (error offset) := by
  cases h with
  | unknownOpcode hbyte hnone => simp only [decodeAt, hbyte, hnone]
  | emptyJumpTable hbyte hopcode hflow hcount =>
      simp only [decodeAt, hbyte, hopcode, hflow, hcount, if_true]

/-- Bytes that are invalid are so wherever they stand. -/
theorem Invalid.imp {code' : Code} {offset' : Nat} {error : Nat → DecodeError}
    (h : Invalid code offset error)
    (hbytes : ∀ {k byte}, code[offset + k]? = some byte → code'[offset' + k]? = some byte) :
    Invalid code' offset' error := by
  cases h with
  | unknownOpcode hbyte hnone => exact .unknownOpcode (hbytes (k := 0) hbyte) hnone
  | emptyJumpTable hbyte hopcode hflow hcount =>
      exact .emptyJumpTable (hbytes (k := 0) hbyte) hopcode hflow (hbytes hcount)

theorem Invalid.surrounded {error : Nat → DecodeError} (h : Invalid code offset error) :
    Invalid (front ++ code ++ back) (front.size + offset) error :=
  h.imp fun hbyte => by
    rw [Nat.add_assoc]
    exact getElem?_surrounded hbyte

theorem short_of_takeImmediate {opcode : Opcode} {size : Nat}
    (h : takeImmediate code offset opcode size = .error e) : Short offset e := by
  unfold takeImmediate at h
  split at h <;> cases h
  exact .truncatedImmediate

/-- Decoding fails because of the bytes that are there, or for want of others. -/
theorem invalid_or_short (h : code.decodeAt offset = .error e) :
    (∃ error, Invalid code offset error ∧ error offset = e) ∨ Short offset e := by
  unfold decodeAt at h
  split at h
  · cases h
    exact Or.inr .outOfBounds
  next byte hbyte =>
  split at h
  · next hnone =>
    cases h
    exact Or.inl ⟨_, .unknownOpcode hbyte hnone, rfl⟩
  next opcode hopcode =>
  split at h
  · next hflow =>
    split at h
    · cases h
      exact Or.inr .truncatedImmediate
    next count hcount =>
    split at h
    · next hzero =>
      cases h
      exact Or.inl ⟨_, .emptyJumpTable hbyte hopcode hflow (hzero ▸ hcount), rfl⟩
    · exact Or.inr (short_of_takeImmediate h)
  · exact Or.inr (short_of_takeImmediate h)

/-- What is put behind the code makes no difference but where the code was too short. -/
theorem decodeAt_append (code back : Code) (offset : Nat) :
    Code.decodeAt (code ++ back) offset = code.decodeAt offset ∨
      ∃ e, code.decodeAt offset = .error e ∧ Short offset e := by
  have hbytes : ∀ {position : Nat}, position < code.size →
      (code ++ back)[position]? = code[position]? := Array.getElem?_append_left
  cases hdecode : code.decodeAt offset with
  | ok i =>
      refine Or.inl (decodeAt_of_getElem? hdecode fun position _ hlt => hbytes ?_)
      exact Nat.lt_of_lt_of_le hlt (next_le_of_decodeAt hdecode)
  | error e =>
      rcases invalid_or_short hdecode with ⟨error, hinvalid, rfl⟩ | hshort
      · refine Or.inl (Invalid.decodeAt_eq (hinvalid.imp fun {k byte} hbyte => ?_))
        rw [hbytes (Array.getElem?_eq_some_iff.mp hbyte).1, hbyte]
      · exact Or.inr ⟨e, rfl, hshort⟩

/-! ## Both -/

/-- **Decoding reads the bytes of the instruction, and depends on nothing else.**  An instruction
moves with the code that holds it, and stays the same whatever bytes are put in the place of those
around it.  Bytes that are invalid are so with other bytes around them; and with others behind it, code
holds the same at an offset, unless it has been too short there. -/
theorem decodeAt_relocates (code : Code) (offset : Nat) :
    (∀ i, code.decodeAt offset = .ok i →
      (∀ front back : Code, ∃ j, Code.decodeAt (front ++ code ++ back) (front.size + offset) = .ok j ∧
        i.Moved front.size j) ∧
      ∀ code' : Code, (∀ position, offset ≤ position → position < i.next →
        code'[position]? = code[position]?) → code'.decodeAt offset = .ok i) ∧
    (∀ position byte, code.decodeAt offset = .error (.unknownOpcode position byte) →
      ∀ front back : Code, Code.decodeAt (front ++ code ++ back) (front.size + offset) =
        .error (.unknownOpcode (front.size + offset) byte)) ∧
    (∀ position, code.decodeAt offset = .error (.emptyJumpTable position) →
      ∀ front back : Code, Code.decodeAt (front ++ code ++ back) (front.size + offset) =
        .error (.emptyJumpTable (front.size + offset))) ∧
    ∀ back : Code, Code.decodeAt (code ++ back) offset = code.decodeAt offset ∨
      (∃ length, code.decodeAt offset = .error (.outOfBounds offset length)) ∨
      ∃ expected available,
        code.decodeAt offset = .error (.truncatedImmediate offset expected available) := by
  refine ⟨fun i hdecode => ⟨fun front back => ?_, fun code' hbytes => ?_⟩, ?_, ?_, fun back => ?_⟩
  · exact ⟨_, decodeAt_surrounded hdecode, i.moved_shift front.size⟩
  · exact decodeAt_of_getElem? hdecode (offset_of_decodeAt hdecode ▸ hbytes)
  · intro position byte hdecode front back
    rcases invalid_or_short hdecode with ⟨error, hinvalid, heq⟩ | hshort
    · rw [hinvalid.surrounded.decodeAt_eq]
      cases hinvalid <;> cases heq
      rfl
    · cases hshort
  · intro position hdecode front back
    rcases invalid_or_short hdecode with ⟨error, hinvalid, heq⟩ | hshort
    · rw [hinvalid.surrounded.decodeAt_eq]
      cases hinvalid <;> cases heq
      rfl
    · cases hshort
  · refine (decodeAt_append code back offset).imp_right ?_
    rintro ⟨e, hdecode, hshort⟩
    cases hshort with
    | outOfBounds => exact Or.inl ⟨_, hdecode⟩
    | truncatedImmediate => exact Or.inr ⟨_, _, hdecode⟩

/-- A jump one byte back into its own immediate, and behind it a table without entries and a byte
that is no opcode. -/
def jumpThenFaults : Code :=
  #[0x00, 0x5c, 0xff, 0xff, 0x5e, 0x00, 0x0c]

theorem decodeAt_relocates_jumpThenFaults :
    ∃ jump, jumpThenFaults.decodeAt 1 = .ok jump ∧
      (∃ j, Code.decodeAt (#[0x5f, 0x5f] ++ jumpThenFaults ++ #[0x00]) (2 + 1) = .ok j ∧
        jump.Moved 2 j) ∧
      Code.decodeAt #[0xfe, 0x5c, 0xff, 0xff] 1 = .ok jump ∧
      jumpThenFaults.decodeAt 6 = .error (.unknownOpcode 6 0x0c) ∧
      Code.decodeAt (#[0x5f, 0x5f] ++ jumpThenFaults ++ #[0x00]) (2 + 6) =
        .error (.unknownOpcode (2 + 6) 0x0c) ∧
      jumpThenFaults.decodeAt 4 = .error (.emptyJumpTable 4) ∧
      Code.decodeAt (#[0x5f, 0x5f] ++ jumpThenFaults ++ #[0x00]) (2 + 4) =
        .error (.emptyJumpTable (2 + 4)) := by
  let jump : Instruction := ⟨1, ⟨0x5c, "rjump", 0, 0, 2, .jump⟩, [0xff, 0xff]⟩
  have hjump : jumpThenFaults.decodeAt 1 = .ok jump := by decide +kernel
  have hunknown : jumpThenFaults.decodeAt 6 = .error (.unknownOpcode 6 0x0c) := by decide +kernel
  have hempty : jumpThenFaults.decodeAt 4 = .error (.emptyJumpTable 4) := by decide +kernel
  have hsame : ∀ position, 1 ≤ position → position < jump.next →
      (#[0xfe, 0x5c, 0xff, 0xff] : Code)[position]? = jumpThenFaults[position]? := by
    intro position hle hlt
    have hlt' : position < 4 := hlt
    have hcases : position = 1 ∨ position = 2 ∨ position = 3 := by omega
    rcases hcases with rfl | rfl | rfl <;> rfl
  obtain ⟨hmoves, hkept⟩ := (decodeAt_relocates jumpThenFaults 1).1 jump hjump
  refine ⟨jump, hjump, hmoves #[0x5f, 0x5f] #[0x00], hkept _ hsame, hunknown, ?_, hempty, ?_⟩
  · exact (decodeAt_relocates jumpThenFaults 6).2.1 6 0x0c hunknown #[0x5f, 0x5f] #[0x00]
  · exact (decodeAt_relocates jumpThenFaults 4).2.2.1 4 hempty #[0x5f, 0x5f] #[0x00]

end Code

end EofStack
