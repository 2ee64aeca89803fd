import EofStack.Proofs.Assembly.Agreement
import EofStack.Proofs.Assembly.PushValue
import EofStack.Proofs.Word.Arithmetic

/-!
# What encoding takes for granted

When a source has been laid out and its operands are encoded, some things are not checked again.
An instruction is taken to have the operand that is read, the entries of a jump table to fit into a
count byte, the number of a push to fit into its width, an instruction of no known kind to have no
immediate, and the code so far to end where the instruction begins.  Every one of these has been
settled by the layout.

To say so, encoding is written down once more as a loop that puts one instruction behind the other
(`emitAll?`).  Where something that is taken for granted does not hold, the result is `none`.

## Strategy

* **Operands.**  The layout has counted them (`Places.arity`), and the size of an immediate goes
  with the kind of its instruction.  So no instruction comes to nothing, and each is encoded as
  before (`Places.emit?_eq`).
* **Offsets.**  The code so far ends where the next instruction begins at the start of the loop, and
  an instruction has just the size that the layout has set aside for it, so it does so again behind
  every instruction (`Emitted.stacked`).
-/

namespace EofStack

namespace Opcode

variable {opcode : Opcode}

/-- An opcode with an immediate is a jump, a call or a push. -/
theorem kind_of_immediateSize_pos (h : opcode ∈ table) (hsize : 0 < opcode.immediateSize) :
    opcode.isJump = true ∨ opcode.flow = .call ∨ opcode.isPush = true := by
  cases hflow : opcode.flow with
  | jump | branch | table => exact Or.inl (by simp [isJump, hflow])
  | call => exact Or.inr (Or.inl rfl)
  | straight => exact Or.inr (Or.inr (by simp [isPush, hflow, hsize]))
  | ret | halt =>
      rw [immediateSize_of_flow h (by rw [hflow]; rfl)] at hsize
      exact absurd hsize (Nat.lt_irrefl 0)

/-- A jump, a call or a push has an immediate. -/
theorem immediateSize_pos (h : opcode ∈ table)
    (hkind : opcode.isJump = true ∨ opcode.flow = .call ∨ opcode.isPush = true) :
    0 < opcode.immediateSize := by
  apply Nat.pos_of_ne_zero
  intro hzero
  obtain ⟨hjump, hcall⟩ := flow_of_immediateSize_eq_zero h hzero
  rcases hkind with hkind | hkind | hkind
  · exact absurd hkind (by simp [hjump])
  · exact hcall hkind
  · simp [isPush, hzero] at hkind

end Opcode

namespace Assembly

open BigEndian (encodeSigned significant)

variable {labels : Labels} {statement : Statement} {placed : Placed}

/-! ## Encoding with nothing taken for granted -/

/-- The immediate of a push, its number filled up to the width. -/
def pushBytes? (width : Nat) (text : List Char) : Option (Except Reason (List UInt8)) :=
  match numberBytes text with
  | .error reason => some (.error reason)
  | .ok bytes =>
    if width < (significant bytes).length then some (.error .tooWide)
    else
      (Word.sub? width (significant bytes).length).map fun missing =>
        .ok (List.replicate missing 0 ++ significant bytes)

/-- The count of a jump table, if there are entries and a byte can count them. -/
def countByte? (entries : Nat) : Option UInt8 :=
  if 0 < entries ∧ entries < 256 then some (UInt8.ofNat entries) else none

namespace Placed

/-- The immediate of an instruction. -/
def immediate? (labels : Labels) (placed : Placed) : Option (Except Fault (List UInt8)) :=
  match placed.opcode.flow with
  | .jump | .branch =>
    placed.operands[0]?.map fun operand =>
      (displacement labels placed.next placed.line operand).map encodeSigned
  | .table =>
    (countByte? placed.operands.length).map fun count =>
      (placed.operands.mapM (displacement labels placed.next placed.line)).map fun entries =>
        count :: entries.flatMap encodeSigned
  | .call =>
    placed.operands[0]?.map fun operand =>
      (functionId placed.line operand).map (BigEndian.encode 2)
  | .straight | .ret | .halt =>
    if placed.opcode.isPush then do
      let operand ← placed.operands[0]?
      let bytes ← pushBytes? placed.opcode.immediateSize operand.toList
      return bytes.mapError (.invalidImmediate operand placed.line)
    else if placed.opcode.immediateSize = 0 then some (.ok [])
    else none

/-- The code with an instruction put behind it. -/
def emit? (labels : Labels) (placed : Placed) (code : List UInt8) :
    Option (Except Fault (List UInt8)) :=
  (placed.immediate? labels).map fun encoded =>
    encoded.map fun immediate => code ++ placed.opcode.byte :: immediate

end Placed

/-- The code with all instructions put behind it, up to the first fault. -/
def emitAll? (labels : Labels) : List Placed → List UInt8 → Option (Except Fault (List UInt8))
  | [], code => some (.ok code)
  | placed :: rest, code =>
    match placed.emit? labels code with
    | none => none
    | some (.error fault) => some (.error fault)
    | some (.ok code) => emitAll? labels rest code

/-- Some instructions of the layout have been encoded as the code, and the others are left. -/
inductive Emitted (layout : Layout) : List UInt8 → List Placed → Prop
  | start : Emitted layout [] layout.placed.toList
  | step {code code' : List UInt8} {placed : Placed} {rest : List Placed}
      (h : Emitted layout code (placed :: rest))
      (hemit : placed.emit? layout.labels code = some (.ok code')) : Emitted layout code' rest

/-! ## Operands -/

/-- What is missing of a push is never less than nothing. -/
theorem pushBytes?_eq (width : Nat) (text : List Char) :
    pushBytes? width text = some (pushBytes width text) := by
  rw [pushBytes_eq, pushBytes?]
  cases numberBytes text with
  | error reason => rfl
  | ok bytes =>
      show _ = some (Option.elim (BigEndian.fit? width bytes) (Except.error Reason.tooWide) Except.ok)
      rw [BigEndian.fit?]
      by_cases hfits : (significant bytes).length ≤ width
      · simp only [if_neg (Nat.not_lt.mpr hfits), Word.sub?_eq hfits, if_pos hfits, Option.map_some,
          Option.elim_some]
      · simp only [if_pos (Nat.lt_of_not_le hfits), if_neg hfits, Option.elim_none]

namespace Places

/-- A jump with one target, a call and a push have one operand. -/
theorem exists_operand (h : Places statement placed)
    (hkind : placed.opcode.flow = .jump ∨ placed.opcode.flow = .branch ∨
      placed.opcode.flow = .call ∨ placed.opcode.isPush = true) :
    ∃ operand, placed.operands = [operand] := by
  have hkinds : placed.opcode.flow ≠ .table ∧ (placed.opcode.isJump = true ∨
      placed.opcode.flow = .call ∨ placed.opcode.isPush = true) := by
    rcases hkind with hflow | hflow | hflow | hpush
    · simp [Opcode.isJump, hflow]
    · simp [Opcode.isJump, hflow]
    · simp [hflow]
    · refine ⟨fun hflow => ?_, Or.inr (Or.inr hpush)⟩
      simp [Opcode.isPush, hflow] at hpush
  have hsize := Opcode.immediateSize_pos h.mem_table hkinds.2
  rcases checkOperands_eq_ok_iff.mp h.arity with ⟨hzero, -⟩ | ⟨-, hflow, -⟩ | ⟨-, -, hoperand⟩
  · exact absurd hzero (Nat.ne_of_gt hsize)
  · exact absurd hflow hkinds.1
  · exact hoperand

/-- A jump table has entries, and not more of them than a byte can count. -/
theorem length_operands (h : Places statement placed) (htable : placed.opcode.flow = .table) :
    0 < placed.operands.length ∧ placed.operands.length ≤ 255 := by
  have hsize := Opcode.immediateSize_pos h.mem_table (Or.inl (by simp [Opcode.isJump, htable]))
  rcases checkOperands_eq_ok_iff.mp h.arity with ⟨hzero, -⟩ | ⟨-, -, hne, hle⟩ | ⟨-, hflow, -⟩
  · exact absurd hzero (Nat.ne_of_gt hsize)
  · exact ⟨List.length_pos_iff.mpr hne, hle⟩
  · exact absurd htable hflow

theorem operands_eq_nil (h : Places statement placed) (hsize : placed.opcode.immediateSize = 0) :
    placed.operands = [] := by
  rcases checkOperands_eq_ok_iff.mp h.arity with ⟨-, hnil⟩ | ⟨hpos, -⟩ | ⟨hpos, -⟩
  · exact hnil
  · exact absurd hsize (Nat.ne_of_gt hpos)
  · exact absurd hsize (Nat.ne_of_gt hpos)

end Places

/-! ## One instruction -/

/-- Nothing that is taken for granted of an instruction fails, so it is encoded as before. -/
theorem Places.immediate?_eq (h : Places statement placed) (labels : Labels) :
    ∃ immediate, placed.immediate? labels = some immediate ∧
      placed.encode labels = immediate.map (placed.opcode.byte :: ·) := by
  unfold Placed.immediate?
  cases hflow : placed.opcode.flow with
  | jump | branch =>
      have htable : placed.opcode.flow ≠ .table := by simp [hflow]
      have hjump : placed.opcode.isJump = true := by simp [Opcode.isJump, hflow]
      obtain ⟨operand, hoperand⟩ := h.exists_operand (by simp [hflow])
      refine ⟨_, by rw [hoperand]; rfl, ?_⟩
      rw [Placed.encode_of_operand htable hoperand, Placed.encodeOperand_of_isJump hjump]
  | call =>
      have htable : placed.opcode.flow ≠ .table := by simp [hflow]
      obtain ⟨operand, hoperand⟩ := h.exists_operand (by simp [hflow])
      refine ⟨_, by rw [hoperand]; rfl, ?_⟩
      rw [Placed.encode_of_operand htable hoperand, Placed.encodeOperand, hflow]
  | table =>
      have hjump : placed.opcode.isJump = true := by simp [Opcode.isJump, hflow]
      obtain ⟨hpos, hle⟩ := h.length_operands hflow
      have hcount : countByte? placed.operands.length =
          some (UInt8.ofNat placed.operands.length) := if_pos ⟨hpos, Nat.lt_succ_of_le hle⟩
      refine ⟨_, by rw [hcount]; rfl, ?_⟩
      rw [Placed.encode, Placed.encodeOperand_of_isJump hjump, mapM_map_except, Placed.countByte,
        if_pos hflow]
      cases placed.operands.mapM (displacement labels placed.next placed.line) <;> rfl
  | straight | ret | halt =>
      have htable : placed.opcode.flow ≠ .table := by simp [hflow]
      by_cases hpush : placed.opcode.isPush = true
      · obtain ⟨operand, hoperand⟩ := h.exists_operand (by simp [hpush])
        refine ⟨(pushBytes placed.opcode.immediateSize operand.toList).mapError
          (.invalidImmediate operand placed.line), ?_, ?_⟩
        · simp only [if_pos hpush, hoperand, pushBytes?_eq]
          rfl
        · rw [Placed.encode_of_operand htable hoperand, encodeOperand_of_isPush hpush]
      · have hsize : placed.opcode.immediateSize = 0 := by
          apply Nat.eq_zero_of_not_pos
          intro hpos
          rcases Opcode.kind_of_immediateSize_pos h.mem_table hpos with hjump | hcall | hpush'
          · simp [Opcode.isJump, hflow] at hjump
          · rw [hflow] at hcall
            cases hcall
          · exact hpush hpush'
        refine ⟨.ok [], by rw [if_neg hpush, if_pos hsize], ?_⟩
        rw [Placed.encode, h.operands_eq_nil hsize, Placed.countByte, if_neg htable]
        rfl

theorem Places.emit?_eq (h : Places statement placed) (code : List UInt8) :
    placed.emit? labels code = some ((placed.encode labels).map (code ++ ·)) := by
  obtain ⟨immediate, himmediate, hencode⟩ := h.immediate?_eq labels
  rw [Placed.emit?, himmediate, hencode]
  cases immediate <;> rfl

/-- The size that the layout has set aside is the one that the instruction takes up. -/
theorem Places.length_of_encode (h : Places statement placed) {bytes : List UInt8}
    (hencode : placed.encode labels = .ok bytes) : bytes.length = placed.size := by
  obtain ⟨immediate, rfl, hcarries⟩ := carries_of_encode h hencode
  rw [List.length_cons, hcarries.length_eq h.mem_table]

/-! ## All instructions -/

/-- The loop puts the instructions one behind the other, as they are encoded, behind the code. -/
theorem emitAll?_eq {statements : List Statement} {instructions : List Placed}
    (hplaces : List.Forall₂ Places statements instructions) (code : List UInt8) :
    emitAll? labels instructions code =
      some ((instructions.mapM (Placed.encode labels)).map fun chunks => code ++ chunks.flatten) := by
  induction hplaces generalizing code with
  | nil =>
      show some (Except.ok code) = some (Except.ok (code ++ [].flatten))
      rw [List.flatten_nil, List.append_nil]
  | @cons statement placed statements rest hplace _ ih =>
      rw [emitAll?, hplace.emit?_eq, mapM_cons_except]
      cases placed.encode labels with
      | error fault => rfl
      | ok bytes =>
          show emitAll? labels rest (code ++ bytes) = _
          rw [ih]
          cases rest.mapM (Placed.encode labels) with
          | error fault => rfl
          | ok chunks =>
              show some (Except.ok (code ++ bytes ++ chunks.flatten)) =
                some (Except.ok (code ++ (bytes :: chunks).flatten))
              rw [List.flatten_cons, List.append_assoc]

variable {lines : List Line} {layout : Layout} {code : List UInt8} {rest : List Placed}

/-- At any time the instructions that are left have their places behind the code. -/
theorem Emitted.stacked (hlayout : Layout.ofLines lines = .ok layout) (h : Emitted layout code rest) :
    Stacked code.length rest layout.size ∧
      ∃ statements, List.Forall₂ Places statements rest := by
  induction h with
  | start =>
      obtain ⟨hplaces, hstacked⟩ := Layout.places_of_ofLines hlayout
      exact ⟨hstacked, _, hplaces⟩
  | @step code code' placed rest _ hemit ih =>
      obtain ⟨hstacked, statements, hplaces⟩ := ih
      obtain ⟨statement, others, hplace, hothers, -⟩ := List.forall₂_cons_right_iff.mp hplaces
      rw [hplace.emit?_eq, Option.some.injEq, map_eq_ok_iff] at hemit
      obtain ⟨bytes, hencode, rfl⟩ := hemit
      refine ⟨?_, others, hothers⟩
      generalize hoffset : code.length = offset at hstacked
      cases hstacked with
      | cons hrest =>
          rw [List.length_append, hplace.length_of_encode hencode, hoffset]
          exact hrest

/-- Everything that is taken for granted while a layout is encoded. -/
structure Guarded (layout : Layout) : Prop where
  operand : ∀ placed ∈ layout.placed,
    placed.opcode.flow = .jump ∨ placed.opcode.flow = .branch ∨ placed.opcode.flow = .call ∨
      placed.opcode.isPush = true → ∃ operand, placed.operands[0]? = some operand
  entries : ∀ placed ∈ layout.placed, placed.opcode.flow = .table →
    0 < placed.operands.length ∧ placed.operands.length ≤ 255 ∧
      (UInt8.ofNat placed.operands.length).toNat = placed.operands.length
  kind : ∀ placed ∈ layout.placed, 0 < placed.opcode.immediateSize →
    placed.opcode.isJump = true ∨ placed.opcode.flow = .call ∨ placed.opcode.isPush = true
  padding : ∀ placed ∈ layout.placed, placed.opcode.isPush = true → ∀ operand ∈ placed.operands,
    pushBytes? placed.opcode.immediateSize operand.toList =
      some (pushBytes placed.opcode.immediateSize operand.toList)
  begins : ∀ code placed rest, Emitted layout code (placed :: rest) → code.length = placed.offset
  ends : ∀ code placed rest code', Emitted layout code (placed :: rest) →
    placed.emit? layout.labels code = some (.ok code') →
      code <+: code' ∧ code'.length = placed.offset + placed.size
  emitAll : emitAll? layout.labels layout.placed.toList [] = some layout.encode

/-- **Whatever encoding takes for granted, the layout has made sure of.**  Operands are there to be
read, tables can be counted, pushes filled up, and no immediate is forgotten.  Each instruction
begins where the layout has put it, and ends behind as many bytes as it has set aside.  So nothing
ever fails in the loop but what is reported as a fault. -/
theorem guarded_of_ofLines {source : String} {layout : Layout}
    (h : Layout.ofLines (parse source) = .ok layout) : Guarded layout := by
  obtain ⟨hplaces, -⟩ := Layout.places_of_ofLines h
  have hplace : ∀ placed ∈ layout.placed, ∃ statement, Places statement placed := by
    intro placed hmem
    obtain ⟨k, hk⟩ := List.mem_iff_getElem?.mp (Array.mem_toList_iff.mpr hmem)
    obtain ⟨statement, -, hplace⟩ := exists_getElem?_eq hplaces.flip hk
    exact ⟨statement, hplace⟩
  have hends : ∀ code placed rest, Emitted layout code (placed :: rest) →
      code.length = placed.offset ∧ ∃ statement, Places statement placed := by
    intro code placed rest hemitted
    obtain ⟨hstacked, statements, hplaces⟩ := hemitted.stacked h
    obtain ⟨statement, _, hplace, -, -⟩ := List.forall₂_cons_right_iff.mp hplaces
    generalize code.length = offset at hstacked
    cases hstacked
    exact ⟨rfl, statement, hplace⟩
  refine { operand := ?operand, entries := ?entries, kind := ?kind,
           padding := fun _ _ _ operand _ => pushBytes?_eq _ operand.toList,
           begins := fun code placed rest hemitted => (hends code placed rest hemitted).1,
           ends := ?ends, emitAll := ?emitAll }
  case operand =>
    intro placed hmem hkind
    obtain ⟨statement, hplace⟩ := hplace placed hmem
    obtain ⟨operand, hoperand⟩ := hplace.exists_operand hkind
    exact ⟨operand, by rw [hoperand]; rfl⟩
  case entries =>
    intro placed hmem htable
    obtain ⟨statement, hplace⟩ := hplace placed hmem
    obtain ⟨hpos, hle⟩ := hplace.length_operands htable
    exact ⟨hpos, hle, by rw [UInt8.toNat_ofNat', Nat.mod_eq_of_lt (by omega)]⟩
  case kind =>
    intro placed hmem
    obtain ⟨statement, hplace⟩ := hplace placed hmem
    exact Opcode.kind_of_immediateSize_pos hplace.mem_table
  case ends =>
    intro code placed rest code' hemitted hemit
    obtain ⟨hbegins, statement, hplace⟩ := hends code placed rest hemitted
    rw [hplace.emit?_eq, Option.some.injEq, map_eq_ok_iff] at hemit
    obtain ⟨bytes, hencode, rfl⟩ := hemit
    refine ⟨List.prefix_append _ _, ?_⟩
    rw [List.length_append, hbegins, hplace.length_of_encode hencode]
  case emitAll =>
    rw [emitAll?_eq hplaces, Layout.encode]
    simp only [List.nil_append]

/-- A source that can be laid out, with a jump table, a call and a push in front of an operand that
denotes nothing. -/
def lateFault : String :=
  "push2 0x0A5\nrjumpv +3, start\nstart: callf 258\nrjumpi nowhere"

theorem guarded_of_ofLines_lateFault :
    ∃ layout, Layout.ofLines (parse lateFault) = .ok layout ∧ Guarded layout ∧
      emitAll? layout.labels layout.placed.toList [] =
        some (.error (.undefinedLabel "nowhere" 4)) := by
  have hok : (Layout.ofLines (parse lateFault)).isOk = true := by decide +kernel
  have hassemble : assemble lateFault = .error (.undefinedLabel "nowhere" 4) := by decide +kernel
  cases hlayout : Layout.ofLines (parse lateFault) with
  | error fault => simp [hlayout, Except.isOk, Except.toBool] at hok
  | ok layout =>
      have hguarded := guarded_of_ofLines hlayout
      simp only [assemble, assembleLines, hlayout, map_eq_error_iff] at hassemble
      exact ⟨layout, rfl, hguarded, by rw [hguarded.emitAll, hassemble]⟩

end Assembly

end EofStack
