import EofStack.Proofs.Code.UniqueDecoding

/-!
# Code that is cut short

Code that can be swept is cut off at some offset.  If the cut falls between two instructions, a
sweep finds the ones in front of it.  If it goes through an instruction, the sweep fails at that
instruction, for lack of the bytes that are missing there; what is left of the instruction is never
taken for another one.

## Strategy

The instructions in front of the cut tile what is in front of it, so a sweep arrives at the
instruction that is cut (`sweepFrom_of_tiles`).  The opcode is still there, and so is the count of a
jump table unless the cut is directly behind the opcode; both say how many bytes are missing
(`decodeAt_of_isCut`).  Every offset in the code is a boundary or cuts an instruction
(`Tiles.boundary_or_isCut`).
-/

namespace EofStack

/-- The code ends inside the instruction, with the opcode in front of the end. -/
structure Instruction.IsCut (i : Instruction) (cut : Nat) : Prop where
  offset_lt : i.offset < cut
  lt_next : cut < i.next

/-- How many bytes are asked for behind the opcode if the code ends at the cut: all of the
immediate, or the count of a jump table as long as it is not there itself. -/
def Instruction.announced (i : Instruction) (cut : Nat) : Nat :=
  if i.opcode.flow = .table ∧ cut = i.offset + 1 then 1 else i.immediate.length

/-- The cut does not go through an instruction. -/
def IsBoundary (instructions : List Instruction) (cut : Nat) : Prop :=
  cut = 0 ∨ ∃ i ∈ instructions, i.next = cut

/-! ## Instructions on both sides of an offset -/

namespace Tiles

variable {offset : Nat} {instructions before after : List Instruction} {bytes : List UInt8}

/-- What two sequences of instructions tile together, they tile one behind the other. -/
theorem split (h : Tiles offset (before ++ after) bytes) :
    ∃ front back, bytes = front ++ back ∧ Tiles offset before front ∧
      Tiles (offset + front.length) after back := by
  induction before generalizing offset bytes with
  | nil => exact ⟨[], bytes, rfl, .nil, h⟩
  | cons i before ih =>
      obtain - | ⟨hoffset, hwell, hrest⟩ := h
      obtain ⟨front, back, rfl, hfront, hback⟩ := ih hrest
      refine ⟨i.bytes ++ front, back, (List.append_assoc _ _ _).symm, .cons hoffset hwell hfront, ?_⟩
      rwa [List.length_append, ← Nat.add_assoc, ← hoffset, ← i.next_eq]

theorem offset_le (h : Tiles offset instructions bytes) {i : Instruction} (hi : i ∈ instructions) :
    offset ≤ i.offset := by
  induction h with
  | nil => exact absurd hi List.not_mem_nil
  | @cons offset head _ _ hoffset _ _ ih =>
      rcases List.mem_cons.mp hi with rfl | hi
      · exact Nat.le_of_eq hoffset.symm
      · have := head.offset_lt_next
        have := ih hi
        omega

theorem next_le (h : Tiles offset instructions bytes) {i : Instruction} (hi : i ∈ instructions) :
    i.next ≤ offset + bytes.length := by
  obtain ⟨before, after, rfl⟩ := List.append_of_mem hi
  obtain ⟨front, back, rfl, -, hback⟩ := h.split
  obtain - | ⟨hoffset, -, -⟩ := hback
  rw [i.next_eq, hoffset, List.length_append, List.length_append]
  omega

/-- Among the instructions on both sides of an offset, those in front of it begin before it. -/
theorem filter_offset_lt {front back : List UInt8} (hfront : Tiles offset before front)
    (hback : Tiles (offset + front.length) after back) :
    ((before ++ after).filter fun i => i.offset < offset + front.length) = before := by
  have hbefore : ∀ i ∈ before, decide (i.offset < offset + front.length) = true := by
    intro i hi
    exact decide_eq_true (Nat.lt_of_lt_of_le i.offset_lt_next (hfront.next_le hi))
  have hafter : ∀ i ∈ after, ¬ decide (i.offset < offset + front.length) = true := by
    intro i hi
    rw [decide_eq_true_iff, not_lt]
    exact hback.offset_le hi
  rw [List.filter_append, List.filter_eq_self.mpr hbefore, List.filter_eq_nil_iff.mpr hafter,
    List.append_nil]

/-- An offset in the code falls between two instructions or inside one. -/
theorem boundary_or_isCut (h : Tiles offset instructions bytes) {cut : Nat} (hle : offset ≤ cut)
    (hcut : cut ≤ offset + bytes.length) :
    (cut = offset ∨ ∃ i ∈ instructions, i.next = cut) ∨ ∃ i ∈ instructions, i.IsCut cut := by
  induction h with
  | nil => exact Or.inl (Or.inl (Nat.le_antisymm hcut hle))
  | @cons offset i rest tail hoffset _ _ ih =>
      have hnext : i.next = offset + i.bytes.length := hoffset ▸ i.next_eq
      rw [List.length_append] at hcut
      rcases Nat.lt_or_ge cut i.next with hlt | hge
      · rcases Nat.eq_or_lt_of_le hle with heq | hlt'
        · exact Or.inl (Or.inl heq.symm)
        · exact Or.inr ⟨i, List.mem_cons_self, hoffset ▸ hlt', hlt⟩
      · rcases ih hge (by omega) with (heq | ⟨j, hj, heq⟩) | ⟨j, hj, hcuts⟩
        · exact Or.inl (Or.inr ⟨i, List.mem_cons_self, heq.symm⟩)
        · exact Or.inl (Or.inr ⟨j, List.mem_cons_of_mem _ hj, heq⟩)
        · exact Or.inr ⟨j, List.mem_cons_of_mem _ hj, hcuts⟩

end Tiles

namespace Code

variable {code : Code} {instructions : List Instruction} {i : Instruction} {offset cut : Nat}

/-! ## Sweeping up to an offset -/

theorem sweepFrom_of_decodeAt (h : code.decodeAt offset = .ok i) (swept : Array Instruction) :
    code.sweepFrom offset swept = code.sweepFrom i.next (swept.push i) := by
  rw [sweepFrom, if_pos (lt_size_of_decodeAt h)]
  split
  · next hdecode =>
    rw [h] at hdecode
    cases hdecode
    rfl
  · next hdecode =>
    rw [h] at hdecode
    cases hdecode

theorem sweepFrom_of_decodeAt_eq_error {e : DecodeError} (hlt : offset < code.size)
    (h : code.decodeAt offset = .error e) (swept : Array Instruction) :
    code.sweepFrom offset swept = .error e := by
  rw [sweepFrom, if_pos hlt]
  split
  · next hdecode =>
    rw [h] at hdecode
    cases hdecode
  · next hdecode =>
    rw [h] at hdecode
    cases hdecode
    rfl

/-- A sweep gets past instructions that the code goes on with. -/
theorem sweepFrom_of_tiles {bytes : List UInt8} (h : Tiles offset instructions bytes)
    (hcode : bytes <+: code.toList.drop offset) (swept : Array Instruction) :
    code.sweepFrom offset swept =
      code.sweepFrom (offset + bytes.length) (swept ++ instructions.toArray) := by
  induction h generalizing swept with
  | nil => simp
  | @cons offset i rest tail hoffset hwell _ ih =>
      have hdecode : code.decodeAt offset = .ok i :=
        decodeAt_eq_ok_iff.mpr ⟨hoffset, hwell, (List.prefix_append _ _).trans hcode⟩
      have htail : tail <+: code.toList.drop i.next := by
        rw [(exists_drop_eq hdecode).2.2] at hcode
        exact (List.prefix_append_right_inj _).mp hcode
      have hstop : i.next + tail.length = offset + (i.bytes ++ tail).length := by
        rw [i.next_eq, hoffset, List.length_append, Nat.add_assoc]
      rw [sweepFrom_of_decodeAt hdecode, ih htail, hstop]
      simp

/-! ## Decoding what is left of an instruction -/

theorem takeImmediate_of_size_lt {opcode : Opcode} {size : Nat}
    (h : code.size < offset + 1 + size) : takeImmediate code offset opcode size =
      .error (.truncatedImmediate offset size (code.size - offset - 1)) := by
  rw [takeImmediate, if_neg (Nat.not_le.mpr h), Nat.sub_add_eq]

/-- Code that ends inside an instruction lacks bytes of its immediate. -/
theorem decodeAt_of_isCut (hwell : i.WellFormed) (hcut : i.IsCut code.size)
    (hcode : code.toList.drop i.offset <+: i.bytes) : code.decodeAt i.offset =
      .error (.truncatedImmediate i.offset (i.announced code.size)
        (code.size - i.offset - 1)) := by
  obtain ⟨hlt, hnext⟩ := hcut
  obtain ⟨missing, hmissing⟩ := hcode
  have hlength : (code.toList.drop i.offset).length = code.size - i.offset := by
    rw [List.length_drop, Array.length_toList]
  -- in front of the cut the code still holds the bytes of the instruction
  have hget : ∀ {n : Nat}, i.offset + n < code.size → code[i.offset + n]? = i.bytes[n]? := by
    intro n hn
    rw [getElem?_of_drop rfl n, ← hmissing, List.getElem?_append_left (by omega)]
  have hopcode : code[i.offset]? = some i.opcode.byte := hget (n := 0) hlt
  have hend : i.next = i.offset + 1 + i.immediate.length := rfl
  unfold decodeAt
  simp only [hopcode, Opcode.ofByte?_byte hwell.mem_table]
  by_cases hflow : i.opcode.flow = .table
  · obtain ⟨count, entries, himmediate, hzero, hentries⟩ := hwell.isTable hflow
    have hsize : i.opcode.immediateSize = 1 :=
      Opcode.immediateSize_of_flow hwell.mem_table (by rw [hflow]; rfl)
    rw [if_pos hflow]
    by_cases hcount : code.size = i.offset + 1
    · have hnone : code[i.offset + 1]? = none := Array.getElem?_eq_none (Nat.le_of_eq hcount)
      simp only [hnone, Instruction.announced, if_pos (And.intro hflow hcount), hsize,
        Nat.sub_add_eq]
    · have hsome : code[i.offset + 1]? = some count := by
        rw [hget (n := 1) (by omega), Instruction.bytes, himmediate]
        rfl
      have hannounced : i.announced code.size = i.opcode.immediateSize + 2 * count.toNat := by
        rw [Instruction.announced, if_neg (fun h => hcount h.2), himmediate, List.length_cons,
          hentries, hsize, Nat.add_comm]
      have himmediateSize : i.immediate.length = i.opcode.immediateSize + 2 * count.toNat := by
        rw [himmediate, List.length_cons, hentries, hsize, Nat.add_comm]
      simp only [hsome, if_neg hzero, hannounced]
      exact takeImmediate_of_size_lt (by omega)
  · have himmediate := hwell.length_immediate hflow
    have hannounced : i.announced code.size = i.opcode.immediateSize := by
      rw [Instruction.announced, if_neg (fun h => hflow h.1), himmediate]
    rw [if_neg hflow, hannounced]
    exact takeImmediate_of_size_lt (by omega)

/-! ## Sweeping a prefix -/

theorem size_take (hcut : cut ≤ code.size) : (code.take cut).size = cut := by
  rw [← Array.length_toList, toList_take, List.length_take, Array.length_toList,
    Nat.min_eq_left hcut]

/-- A sweep up to a boundary finds the instructions in front of it. -/
theorem sweep_take_of_isBoundary (h : code.sweep = .ok instructions)
    (hboundary : IsBoundary instructions cut) :
    Code.sweep (code.take cut) = .ok (instructions.filter fun i => i.offset < cut) := by
  have htiles := sweep_eq_ok_iff.mp h
  -- the boundary is where some of the instructions end
  obtain ⟨before, after, rfl, hcut⟩ : ∃ before after, instructions = before ++ after ∧
      ∀ front, Tiles 0 before front → front.length = cut := by
    obtain rfl | ⟨i, hi, hnext⟩ := hboundary
    · refine ⟨[], instructions, rfl, fun front hfront => ?_⟩
      rw [← hfront.flatMap_bytes]
      rfl
    · obtain ⟨before, after, rfl⟩ := List.append_of_mem hi
      refine ⟨before ++ [i], after, (List.append_cons before i after), fun front hfront => ?_⟩
      rw [← hnext, hfront.next_eq_of_getLast? List.getLast?_concat, Nat.zero_add]
  obtain ⟨front, back, hcode, hfront, hback⟩ := htiles.split
  have hlength := hcut front hfront
  have hfilter := hfront.filter_offset_lt hback
  rw [Nat.zero_add, hlength] at hfilter
  rw [hfilter, sweep_eq_ok_iff, toList_take, hcode, ← hlength, List.take_left]
  exact hfront

/-- A sweep up to a cut through an instruction fails at that instruction. -/
theorem sweep_take_of_isCut (h : code.sweep = .ok instructions) (hi : i ∈ instructions)
    (hcuts : i.IsCut cut) : Code.sweep (code.take cut) =
      .error (.truncatedImmediate i.offset (i.announced cut) (cut - i.offset - 1)) := by
  have htiles := sweep_eq_ok_iff.mp h
  have hlt := hcuts.lt_next
  have hsize : (code.take cut).size = cut := by
    have hle := htiles.next_le hi
    rw [Nat.zero_add, Array.length_toList] at hle
    exact size_take (by omega)
  obtain ⟨before, after, rfl⟩ := List.append_of_mem hi
  obtain ⟨front, back, hcode, hfront, hback⟩ := htiles.split
  cases hback with
  | @cons _ _ _ tail hoffset hwell _ =>
      rw [Nat.zero_add] at hoffset
      have hlength : i.bytes.length = i.next - i.offset := by
        rw [i.next_eq, Nat.add_sub_cancel_left]
      have htake : (code.take cut).toList = front ++ i.bytes.take (cut - i.offset) := by
        rw [toList_take, hcode, List.take_append, ← hoffset,
          List.take_append_of_le_length (by omega),
          List.take_of_length_le (hoffset ▸ Nat.le_of_lt hcuts.offset_lt)]
      have hdecode : Code.decodeAt (code.take cut) i.offset =
          .error (.truncatedImmediate i.offset (i.announced cut) (cut - i.offset - 1)) := by
        have hleft : (code.take cut).toList.drop i.offset <+: i.bytes := by
          rw [htake, hoffset, List.drop_left]
          exact List.take_prefix _ _
        rw [decodeAt_of_isCut hwell (hsize.symm ▸ hcuts) hleft, hsize]
      have hfrontCode : front <+: (code.take cut).toList.drop 0 := by
        rw [List.drop_zero, htake]
        exact List.prefix_append _ _
      rw [sweep, sweepFrom_of_tiles hfront hfrontCode, Nat.zero_add, ← hoffset,
        sweepFrom_of_decodeAt_eq_error (hsize.symm ▸ hcuts.offset_lt) hdecode]
      rfl

/-- Wherever an instruction is cut, it asks for more bytes than are left of its immediate. -/
theorem available_lt_announced (hcuts : i.IsCut cut) : cut - i.offset - 1 < i.announced cut := by
  obtain ⟨hlt, hnext⟩ := hcuts
  rw [Instruction.next] at hnext
  rw [Instruction.announced]
  split <;> omega

/-- **A sweep notices every cut through an instruction, and says which one is cut.**  It succeeds on
the code in front of a boundary, and only there, with the instructions in front of the boundary. -/
theorem sweep_take (h : code.sweep = .ok instructions) (hcut : cut ≤ code.size) :
    (∀ found, Code.sweep (code.take cut) = .ok found ↔
      IsBoundary instructions cut ∧ found = instructions.filter fun i => i.offset < cut) ∧
    (¬ IsBoundary instructions cut → ∃ i ∈ instructions, i.IsCut cut) ∧
    ∀ i ∈ instructions, i.IsCut cut →
      Code.sweep (code.take cut) =
        .error (.truncatedImmediate i.offset (i.announced cut) (cut - i.offset - 1)) ∧
      cut - i.offset - 1 < i.announced cut := by
  have hcases : IsBoundary instructions cut ∨ ∃ i ∈ instructions, i.IsCut cut := by
    refine (sweep_eq_ok_iff.mp h).boundary_or_isCut (Nat.zero_le cut) ?_
    rwa [Nat.zero_add, Array.length_toList]
  refine ⟨fun found => ⟨fun hfound => ?_, ?_⟩, fun hnot => hcases.resolve_left hnot, ?_⟩
  · rcases hcases with hboundary | ⟨i, hi, hcuts⟩
    · rw [sweep_take_of_isBoundary h hboundary] at hfound
      exact ⟨hboundary, (Except.ok.inj hfound).symm⟩
    · rw [sweep_take_of_isCut h hi hcuts] at hfound
      cases hfound
  · rintro ⟨hboundary, rfl⟩
    exact sweep_take_of_isBoundary h hboundary
  · intro i hi hcuts
    exact ⟨sweep_take_of_isCut h hi hcuts, available_lt_announced hcuts⟩

/-- A jump table with one entry, and behind it a push of two bytes. -/
def tableThenPush : Code :=
  #[0x5e, 1, 0, 0, 0x61, 0x61, 0]

/-- The table is cut behind its opcode and inside its entry, the push inside its value; between the
two nothing is cut. -/
theorem sweep_take_tableThenPush :
    ∃ table push, tableThenPush.sweep = .ok [table, push] ∧ 6 ≤ tableThenPush.size ∧
      table.IsCut 1 ∧ Code.sweep (tableThenPush.take 1) = .error (.truncatedImmediate 0 1 0) ∧
      table.IsCut 3 ∧ Code.sweep (tableThenPush.take 3) = .error (.truncatedImmediate 0 3 2) ∧
      IsBoundary [table, push] 4 ∧ Code.sweep (tableThenPush.take 4) = .ok [table] ∧
      push.IsCut 6 ∧ Code.sweep (tableThenPush.take 6) = .error (.truncatedImmediate 4 2 1) := by
  let table : Instruction := ⟨0, ⟨0x5e, "rjumpv", 1, -1, 1, .table⟩, [1, 0, 0]⟩
  let push : Instruction := ⟨4, .push 0x61 "push2" 2, [0x61, 0]⟩
  have hsweep : tableThenPush.sweep = .ok [table, push] := by decide +kernel
  have hboundary : IsBoundary [table, push] 4 := Or.inr ⟨table, List.mem_cons_self, rfl⟩
  have hcut₁ : table.IsCut 1 := ⟨by decide, by decide⟩
  have hcut₃ : table.IsCut 3 := ⟨by decide, by decide⟩
  have hcut₆ : push.IsCut 6 := ⟨by decide, by decide⟩
  refine ⟨table, push, hsweep, by decide, hcut₁, ?_, hcut₃, ?_, hboundary, ?_, hcut₆, ?_⟩
  · exact ((sweep_take hsweep (by decide)).2.2 table (by simp) hcut₁).1
  · exact ((sweep_take hsweep (by decide)).2.2 table (by simp) hcut₃).1
  · exact ((sweep_take hsweep (by decide)).1 [table]).mpr ⟨hboundary, rfl⟩
  · exact ((sweep_take hsweep (by decide)).2.2 push (by simp) hcut₆).1

end Code

end EofStack
