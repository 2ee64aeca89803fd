import EofStack.Code.Sweep
import EofStack.Proofs.Code.Decode

/-!
# What a sweep finds

`Tiles` says that well-formed instructions, each of which begins where the one before it ends,
have certain bytes together.  A sweep succeeds exactly on such bytes, and finds those
instructions (`sweep_eq_ok_iff`).
-/

namespace EofStack

/-- The instructions stand one behind the other from the offset on, and these are their bytes. -/
inductive Tiles : Nat → List Instruction → List UInt8 → Prop
  | nil {offset : Nat} : Tiles offset [] []
  | cons {offset : Nat} {i : Instruction} {rest : List Instruction} {tail : List UInt8}
      (hoffset : i.offset = offset) (hwell : i.WellFormed) (hrest : Tiles i.next rest tail) :
      Tiles offset (i :: rest) (i.bytes ++ tail)

namespace Tiles

variable {offset : Nat} {instructions : List Instruction} {bytes : List UInt8}

theorem wellFormed (h : Tiles offset instructions bytes) : ∀ i ∈ instructions, i.WellFormed := by
  induction h with
  | nil => simp
  | cons _ hwell _ ih => exact List.forall_mem_cons.mpr ⟨hwell, ih⟩

theorem flatMap_bytes (h : Tiles offset instructions bytes) :
    instructions.flatMap Instruction.bytes = bytes := by
  induction h with
  | nil => rfl
  | cons _ _ _ ih => rw [List.flatMap_cons, ih]

theorem offset_of_cons {i : Instruction} {rest : List Instruction}
    (h : Tiles offset (i :: rest) bytes) : i.offset = offset := by
  cases h
  assumption

/-- Where an instruction ends, the next one begins, unless it is the last. -/
theorem exists_offset_eq_next (h : Tiles offset instructions bytes) {i : Instruction}
    (hi : i ∈ instructions) :
    (∃ j ∈ instructions, j.offset = i.next) ∨ instructions.getLast? = some i := by
  induction h with
  | nil => cases hi
  | @cons _ head rest _ _ _ hrest ih =>
      rcases List.mem_cons.mp hi with rfl | hi
      · cases hrest with
        | nil => exact Or.inr rfl
        | cons hoffset =>
            exact Or.inl ⟨_, List.mem_cons_of_mem _ List.mem_cons_self, hoffset⟩
      · rw [List.getLast?_cons_of_ne_nil (List.ne_nil_of_mem hi)]
        refine (ih hi).imp_left ?_
        rintro ⟨j, hj, hoffset⟩
        exact ⟨j, List.mem_cons_of_mem _ hj, hoffset⟩

end Tiles

namespace Code

variable {code : Code} {instructions : List Instruction}

/-- What is left of the code behind an instruction. -/
theorem exists_drop_eq {offset : Nat} {i : Instruction}
    (h : code.decodeAt offset = .ok i) :
    i.offset = offset ∧ i.WellFormed ∧
      code.toList.drop offset = i.bytes ++ code.toList.drop i.next := by
  obtain ⟨rfl, hwell, tail, htail⟩ := decodeAt_eq_ok_iff.mp h
  refine ⟨rfl, hwell, ?_⟩
  rw [i.next_eq, ← List.drop_drop, ← htail, List.drop_left]

/-- Where instructions are left, the first is what decoding finds. -/
private theorem exists_decodeAt {offset : Nat} (hlt : offset < code.size)
    (h : Tiles offset instructions (code.toList.drop offset)) :
    ∃ i rest, instructions = i :: rest ∧ code.decodeAt offset = .ok i ∧
      Tiles i.next rest (code.toList.drop i.next) := by
  generalize hbytes : code.toList.drop offset = bytes at h
  cases h with
  | nil =>
      rw [List.drop_eq_nil_iff, Array.length_toList] at hbytes
      omega
  | @cons _ i rest tail hoffset hwell hrest =>
      subst hoffset
      have hdecode : code.decodeAt i.offset = .ok i :=
        decodeAt_eq_ok_iff.mpr ⟨rfl, hwell, hbytes ▸ List.prefix_append _ _⟩
      refine ⟨i, rest, rfl, hdecode, ?_⟩
      rw [(exists_drop_eq hdecode).2.2, List.append_cancel_left_eq] at hbytes
      rwa [hbytes]

/-- A sweep that goes on from an offset finds what the rest of the code consists of. -/
theorem sweepFrom_eq_ok_iff {offset : Nat} {swept result : Array Instruction} :
    code.sweepFrom offset swept = .ok result ↔
      ∃ rest, result.toList = swept.toList ++ rest ∧
        Tiles offset rest (code.toList.drop offset) := by
  induction offset, swept using sweepFrom.induct code with
  | case1 offset swept hlt i hdecode ih =>
      rw [sweepFrom, if_pos hlt]
      split
      · next i' hdecode' =>
        cases hdecode.symm.trans hdecode'
        rw [ih, Array.toList_push]
        -- one instruction moves from what is left to what has been swept
        constructor
        · rintro ⟨rest, hresult, htiles⟩
          obtain ⟨rfl, hwell, hdrop⟩ := exists_drop_eq hdecode
          refine ⟨i :: rest, by rw [hresult, List.append_assoc, List.singleton_append], ?_⟩
          rw [hdrop]
          exact .cons rfl hwell htiles
        · rintro ⟨instructions, hresult, htiles⟩
          obtain ⟨j, rest, rfl, hdecode'', hrest⟩ := exists_decodeAt hlt htiles
          cases hdecode.symm.trans hdecode''
          exact ⟨rest, by rw [hresult, List.append_assoc, List.singleton_append], hrest⟩
      · next hdecode' =>
        rw [hdecode] at hdecode'
        cases hdecode'
  | case2 offset swept hlt e hdecode =>
      rw [sweepFrom, if_pos hlt]
      split
      · next i hdecode' =>
        rw [hdecode] at hdecode'
        cases hdecode'
      · constructor
        · intro h
          cases h
        · rintro ⟨instructions, -, htiles⟩
          obtain ⟨i, -, -, hdecode', -⟩ := exists_decodeAt hlt htiles
          rw [hdecode] at hdecode'
          cases hdecode'
  | case3 offset swept hge =>
      have hdrop : code.toList.drop offset = [] := by
        rw [List.drop_eq_nil_iff, Array.length_toList]
        omega
      rw [sweepFrom, if_neg hge, hdrop, Except.ok.injEq]
      constructor
      · rintro rfl
        exact ⟨[], by rw [List.append_nil], .nil⟩
      · rintro ⟨rest, hresult, htiles⟩
        generalize hbytes : ([] : List UInt8) = bytes at htiles
        cases htiles with
        | nil => exact Array.toList_inj.mp (by rw [hresult, List.append_nil])
        | cons => cases hbytes

/-- A sweep succeeds exactly if the code consists of well-formed instructions, and finds them. -/
theorem sweep_eq_ok_iff : code.sweep = .ok instructions ↔ Tiles 0 instructions code.toList := by
  have hfrom : ∀ result, code.sweepFrom 0 #[] = .ok result ↔ Tiles 0 result.toList code.toList := by
    intro result
    rw [sweepFrom_eq_ok_iff]
    simp
  rw [sweep]
  constructor
  · intro h
    cases hresult : code.sweepFrom 0 #[] with
    | error e => rw [hresult] at h; cases h
    | ok result =>
        rw [hresult] at h
        cases h
        exact (hfrom result).mp hresult
  · intro h
    rw [(hfrom instructions.toArray).mpr h]
    rfl

/-- The instructions that tile the rest of the code are what decoding finds there. -/
private theorem decodeAt_of_tiles {offset : Nat}
    (h : Tiles offset instructions (code.toList.drop offset)) {i : Instruction}
    (hi : i ∈ instructions) : code.decodeAt i.offset = .ok i := by
  induction instructions generalizing offset with
  | nil => cases hi
  | cons head rest ih =>
      have hlt : offset < code.size := by
        by_contra hge
        rw [List.drop_eq_nil_of_le (by rw [Array.length_toList]; omega)] at h
        generalize hbytes : ([] : List UInt8) = bytes at h
        cases h
        cases hbytes
      obtain ⟨head', rest', heq, hdecode, hrest⟩ := exists_decodeAt hlt h
      cases heq
      rcases List.mem_cons.mp hi with rfl | hi
      · rw [offset_of_decodeAt hdecode, hdecode]
      · exact ih hrest hi

/-- Decoding at the offset of an instruction of the sweep finds that instruction. -/
theorem decodeAt_of_mem_sweep (h : code.sweep = .ok instructions) {i : Instruction}
    (hi : i ∈ instructions) : code.decodeAt i.offset = .ok i :=
  decodeAt_of_tiles (sweep_eq_ok_iff.mp h) hi

end Code

end EofStack
