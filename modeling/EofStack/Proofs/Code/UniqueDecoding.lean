import EofStack.Proofs.Code.Sweep

/-!
# Unique decoding

Instructions can be written one behind the other without anything between them, although the length
of a jump table depends on a byte inside it: a sweep over their bytes finds just these instructions
again.  So a sweep is the inverse of concatenation, and no two sequences of instructions have the
same bytes.

A sweep that fails has found everything up to a boundary in the code, and fails there as decoding
does.  No other boundary comes into question.

## Strategy

Of two instructions whose bytes are continued to the same text, both are what is decoded at its
beginning, so they are equal and so are the continuations (`Instruction.eq_of_append_eq`).  By
induction, what tiles a beginning of a text is also the beginning of what tiles the whole
(`Tiles.exists_append_eq`).  That settles uniqueness for sequences of instructions and for the
boundary at which a sweep fails: behind the earlier of two boundaries an instruction would follow,
and nothing can be decoded there.
-/

namespace EofStack

/-! ## Instructions without a place -/

/-- An opcode of the table with an immediate of the size that it asks for.  The immediate of a jump
table announces its own size. -/
structure Encoding where
  opcode : Opcode
  immediate : List UInt8
  mem_table : opcode ∈ Opcode.table
  isTable : opcode.flow = .table → Instruction.IsTable immediate
  length_immediate : opcode.flow ≠ .table → immediate.length = opcode.immediateSize

namespace Encoding

/-- The instruction that stands at the offset. -/
def placedAt (encoding : Encoding) (offset : Nat) : Instruction :=
  ⟨offset, encoding.opcode, encoding.immediate⟩

/-- The opcode byte and the immediate behind it. -/
def bytes (encoding : Encoding) : List UInt8 :=
  encoding.opcode.byte :: encoding.immediate

/-- The bytes of all encodings, one behind the other. -/
def concat (encodings : List Encoding) : List UInt8 :=
  encodings.flatMap bytes

/-- The instructions that stand one behind the other from the offset on, each behind all bytes of
the ones before it. -/
def inSequence (offset : Nat) (encodings : List Encoding) : List Instruction :=
  encodings.mapIdx fun k encoding =>
    encoding.placedAt (offset + (concat (encodings.take k)).length)

theorem wellFormed_placedAt (encoding : Encoding) (offset : Nat) :
    (encoding.placedAt offset).WellFormed :=
  ⟨encoding.mem_table, encoding.isTable, encoding.length_immediate⟩

theorem inSequence_cons (offset : Nat) (encoding : Encoding) (encodings : List Encoding) :
    inSequence offset (encoding :: encodings) =
      encoding.placedAt offset :: inSequence (encoding.placedAt offset).next encodings := by
  have hnext : (encoding.placedAt offset).next = offset + encoding.bytes.length :=
    Instruction.next_eq _
  simp only [inSequence, List.mapIdx_cons, hnext, List.take_succ_cons, concat, List.flatMap_cons,
    List.length_append, Nat.add_assoc]
  rfl

/-- Encodings in sequence tile their bytes. -/
theorem tiles_inSequence (offset : Nat) (encodings : List Encoding) :
    Tiles offset (inSequence offset encodings) (concat encodings) := by
  induction encodings generalizing offset with
  | nil => exact .nil
  | cons encoding encodings ih =>
      rw [inSequence_cons]
      exact .cons rfl (encoding.wellFormed_placedAt offset) (ih _)

/-- Encodings in sequence show which encodings they are. -/
theorem inSequence_injective {offset : Nat} {encodings encodings' : List Encoding}
    (h : inSequence offset encodings = inSequence offset encodings') : encodings = encodings' := by
  induction encodings generalizing offset encodings' with
  | nil =>
      cases encodings' with
      | nil => rfl
      | cons =>
          rw [inSequence_cons] at h
          cases h
  | cons encoding encodings ih =>
      rw [inSequence_cons] at h
      cases encodings' with
      | nil => cases h
      | cons encoding' encodings' =>
          rw [inSequence_cons, List.cons.injEq] at h
          obtain ⟨hhead, hrest⟩ := h
          have hencoding : encoding = encoding' := by
            cases encoding
            cases encoding'
            cases hhead
            rfl
          subst hencoding
          rw [ih hrest]

end Encoding

/-! ## No instruction begins another one -/

/-- Two instructions that begin the same text at the same offset are equal, and so is what follows
them. -/
theorem Instruction.eq_of_append_eq {i j : Instruction} (hi : i.WellFormed) (hj : j.WellFormed)
    (hoffset : i.offset = j.offset) {tail tail' : List UInt8}
    (h : i.bytes ++ tail = j.bytes ++ tail') : i = j ∧ tail = tail' := by
  -- the text with as many bytes before it as the offset demands
  let code : Code := (List.replicate i.offset 0 ++ (i.bytes ++ tail)).toArray
  have hdrop : code.toList.drop i.offset = i.bytes ++ tail := by
    rw [List.drop_left' List.length_replicate]
  have hdecode : code.decodeAt i.offset = .ok i :=
    Code.decodeAt_eq_ok_iff.mpr ⟨rfl, hi, by rw [hdrop]; exact List.prefix_append _ _⟩
  have hdecode' : code.decodeAt i.offset = .ok j :=
    Code.decodeAt_eq_ok_iff.mpr ⟨hoffset.symm, hj, by rw [hdrop, h]; exact List.prefix_append _ _⟩
  have heq : i = j := Except.ok.inj (hdecode.symm.trans hdecode')
  subst heq
  exact ⟨rfl, List.append_cancel_left h⟩

namespace Tiles

variable {offset : Nat} {instructions instructions' : List Instruction} {bytes : List UInt8}

/-- What tiles the beginning of a text begins what tiles the whole, and the rest of it tiles the
rest of the text. -/
theorem exists_append_eq (h : Tiles offset instructions bytes) {tail : List UInt8}
    (h' : Tiles offset instructions' (bytes ++ tail)) :
    ∃ rest, instructions' = instructions ++ rest ∧ Tiles (offset + bytes.length) rest tail := by
  induction h generalizing instructions' with
  | nil => exact ⟨instructions', rfl, h'⟩
  | @cons offset i rest bytes hoffset hwell _ ih =>
      generalize htext : i.bytes ++ bytes ++ tail = text at h'
      cases h' with
      | nil => cases htext
      | @cons _ j _ _ hoffset' hwell' hrest' =>
          rw [List.append_assoc] at htext
          obtain ⟨rfl, rfl⟩ :=
            Instruction.eq_of_append_eq hwell hwell' (hoffset.trans hoffset'.symm) htext
          obtain ⟨more, rfl, hmore⟩ := ih hrest'
          refine ⟨more, rfl, ?_⟩
          rwa [List.length_append, ← Nat.add_assoc, ← hoffset, ← i.next_eq]

/-- Instructions are determined by their bytes. -/
theorem unique (h : Tiles offset instructions bytes) (h' : Tiles offset instructions' bytes) :
    instructions = instructions' := by
  rw [← List.append_nil bytes] at h'
  obtain ⟨rest, rfl, hrest⟩ := h.exists_append_eq h'
  generalize hnil : ([] : List UInt8) = none at hrest
  cases hrest with
  | nil => rw [List.append_nil]
  | cons => cases hnil

/-- Each instruction begins where the one before it ends. -/
theorem isChain (h : Tiles offset instructions bytes) :
    instructions.IsChain fun i j => j.offset = i.next := by
  induction h with
  | nil => exact .nil
  | cons _ _ hrest ih =>
      cases hrest with
      | nil => exact .singleton _
      | cons hoffset => exact .cons_cons hoffset ih

/-- The last instruction ends where the bytes end. -/
theorem next_eq_of_getLast? (h : Tiles offset instructions bytes) {i : Instruction}
    (hlast : instructions.getLast? = some i) : i.next = offset + bytes.length := by
  induction h with
  | nil => cases hlast
  | @cons offset head rest bytes hoffset _ hrest ih =>
      rw [List.length_append, ← Nat.add_assoc, ← hoffset, ← head.next_eq]
      cases hrest with
      | nil =>
          cases hlast
          rfl
      | cons => exact ih hlast

end Tiles

namespace Code

variable {code : Code}

/-! ## Where a sweep fails -/

theorem toList_take (code : Code) (n : Nat) : (code.take n).toList = code.toList.take n := by
  rw [Array.take, Array.toList_extract, List.extract_eq_take_drop, List.drop_zero, Nat.sub_zero]

/-- What is found in a beginning of the code is found in the code. -/
theorem decodeAt_of_take {boundary offset : Nat} {i : Instruction}
    (h : Code.decodeAt (code.take boundary) offset = .ok i) : code.decodeAt offset = .ok i := by
  obtain ⟨hoffset, hwell, hpre⟩ := decodeAt_eq_ok_iff.mp h
  refine decodeAt_eq_ok_iff.mpr ⟨hoffset, hwell, hpre.trans ?_⟩
  rw [toList_take, List.drop_take]
  exact List.take_prefix _ _

/-- A sweep that goes on from an offset fails at a boundary behind it, as decoding does there, and
what it has found before tiles the code up to the boundary. -/
theorem exists_of_sweepFrom_eq_error {offset : Nat} {swept : Array Instruction} {e : DecodeError}
    (h : code.sweepFrom offset swept = .error e) :
    ∃ boundary instructions, offset ≤ boundary ∧ boundary < code.size ∧
      Tiles offset instructions ((code.toList.take boundary).drop offset) ∧
      code.decodeAt boundary = .error e := by
  induction offset, swept using sweepFrom.induct code with
  | case1 offset swept hlt i hdecode ih =>
      rw [sweepFrom, if_pos hlt] at h
      split at h
      · next i' hdecode' =>
        cases hdecode.symm.trans hdecode'
        obtain ⟨boundary, instructions, hle, hbound, htiles, herror⟩ := ih h
        obtain ⟨rfl, hwell, hbytes⟩ := exists_drop_eq hdecode
        refine ⟨boundary, i :: instructions, ?_, hbound, ?_, herror⟩
        · exact Nat.le_trans (Nat.le_of_lt i.offset_lt_next) hle
        · -- the instruction lies before the boundary, so its bytes come first
          have hdrop : (code.toList.take boundary).drop i.offset =
              i.bytes ++ (code.toList.take boundary).drop i.next := by
            have hlength : i.bytes.length ≤ boundary - i.offset := by
              have := i.next_eq
              omega
            rw [List.drop_take, List.drop_take, hbytes, List.take_append,
              List.take_of_length_le hlength, i.next_eq, Nat.sub_add_eq]
          rw [hdrop]
          exact .cons rfl hwell htiles
      · next hdecode' =>
        rw [hdecode] at hdecode'
        cases hdecode'
  | case2 offset swept hlt e' hdecode =>
      rw [sweepFrom, if_pos hlt] at h
      split at h
      · next i hdecode' =>
        rw [hdecode] at hdecode'
        cases hdecode'
      · next e'' hdecode' =>
        cases h
        refine ⟨offset, [], Nat.le_refl _, hlt, ?_, hdecode'⟩
        rw [List.drop_of_length_le (List.length_take_le _ _)]
        exact .nil
  | case3 offset swept hge =>
      rw [sweepFrom, if_neg hge] at h
      cases h

/-- A sweep that fails has swept the code up to a boundary, and fails there as decoding does. -/
theorem exists_boundary {e : DecodeError} (h : code.sweep = .error e) :
    ∃ boundary, boundary < code.size ∧
      (∃ instructions, Code.sweep (code.take boundary) = .ok instructions) ∧
      code.decodeAt boundary = .error e := by
  have hfrom : code.sweepFrom 0 #[] = .error e := by
    rw [sweep] at h
    cases hresult : code.sweepFrom 0 #[] with
    | ok result => rw [hresult] at h; cases h
    | error e' => rw [hresult] at h; cases h; rfl
  obtain ⟨boundary, instructions, -, hbound, htiles, herror⟩ := exists_of_sweepFrom_eq_error hfrom
  refine ⟨boundary, hbound, ⟨instructions, ?_⟩, herror⟩
  apply sweep_eq_ok_iff.mpr
  rwa [toList_take]

/-- Behind a boundary before another one, an instruction is found. -/
theorem exists_decodeAt_of_lt {boundary boundary' : Nat} (hlt : boundary < boundary')
    (hsize : boundary' ≤ code.size) {instructions instructions' : List Instruction}
    (h : Code.sweep (code.take boundary) = .ok instructions)
    (h' : Code.sweep (code.take boundary') = .ok instructions') :
    ∃ i, code.decodeAt boundary = .ok i := by
  have htiles := sweep_eq_ok_iff.mp h
  have htiles' := sweep_eq_ok_iff.mp h'
  rw [toList_take] at htiles htiles'
  have hsplit : code.toList.take boundary' =
      code.toList.take boundary ++ (code.toList.take boundary').drop boundary := by
    calc code.toList.take boundary'
        = (code.toList.take boundary').take boundary ++
            (code.toList.take boundary').drop boundary := (List.take_append_drop _ _).symm
      _ = _ := by rw [List.take_take, Nat.min_eq_left (Nat.le_of_lt hlt)]
  rw [hsplit] at htiles'
  obtain ⟨rest, rfl, hrest⟩ := htiles.exists_append_eq htiles'
  have hboundary : 0 + (code.toList.take boundary).length = boundary := by
    rw [List.length_take, Array.length_toList]
    omega
  rw [hboundary] at hrest
  -- something is left between the two boundaries, so an instruction stands there
  generalize htext : (code.toList.take boundary').drop boundary = text at hrest
  cases hrest with
  | nil =>
      rw [List.drop_eq_nil_iff, List.length_take, Array.length_toList] at htext
      omega
  | @cons _ i _ _ hoffset hwell =>
      have hdecode : Code.decodeAt (code.take boundary') boundary = .ok i := by
        refine decodeAt_eq_ok_iff.mpr ⟨hoffset, hwell, ?_⟩
        rw [toList_take, htext]
        exact List.prefix_append _ _
      exact ⟨i, decodeAt_of_take hdecode⟩

/-! ## Sweeping and concatenating -/

/-- The instructions are those of the code, from its beginning to its end and with no gap between
them. -/
structure Swept (code : Code) (instructions : List Instruction) : Prop where
  wellFormed : ∀ i ∈ instructions, i.WellFormed
  first : ∀ i, instructions.head? = some i → i.offset = 0
  adjacent : instructions.IsChain fun i j => j.offset = i.next
  last : ∀ i, instructions.getLast? = some i → i.next = code.size
  decodeAt : ∀ i ∈ instructions, code.decodeAt i.offset = .ok i
  bytes : instructions.flatMap Instruction.bytes = code.toList

theorem swept_of_sweep {instructions : List Instruction} (h : code.sweep = .ok instructions) :
    Swept code instructions := by
  have htiles := sweep_eq_ok_iff.mp h
  exact {
    wellFormed := htiles.wellFormed
    first := by
      intro i hi
      obtain ⟨rest, rfl⟩ := List.head?_eq_some_iff.mp hi
      exact htiles.offset_of_cons
    adjacent := htiles.isChain
    last := by
      intro i hi
      rw [htiles.next_eq_of_getLast? hi, Nat.zero_add, Array.length_toList]
    decodeAt := fun i hi => decodeAt_of_mem_sweep h hi
    bytes := htiles.flatMap_bytes }

/-- A sweep over the bytes of encodings finds just these, each behind the ones before it, so that
no two sequences of encodings have the same bytes.  Conversely a sweep that succeeds has taken the
code apart into instructions without a gap; one that fails does so at the only boundary up to which
the code can be swept and at which decoding fails with the same error. -/
theorem sweep_inverts_concat :
    (∀ encodings : List Encoding, Code.sweep (Encoding.concat encodings).toArray =
      .ok (Encoding.inSequence 0 encodings)) ∧
    (∀ encodings encodings' : List Encoding,
      Encoding.concat encodings = Encoding.concat encodings' → encodings = encodings') ∧
    (∀ (code : Code) instructions, code.sweep = .ok instructions → Swept code instructions) ∧
    ∀ (code : Code) e, code.sweep = .error e → ∃! boundary, boundary < code.size ∧
      (∃ instructions, Code.sweep (code.take boundary) = .ok instructions) ∧
      code.decodeAt boundary = .error e := by
  refine ⟨?_, ?_, ?_, ?_⟩
  · intro encodings
    exact sweep_eq_ok_iff.mpr (Encoding.tiles_inSequence 0 encodings)
  · intro encodings encodings' h
    have htiles := Encoding.tiles_inSequence 0 encodings
    rw [h] at htiles
    exact Encoding.inSequence_injective (htiles.unique (Encoding.tiles_inSequence 0 encodings'))
  · intro code instructions h
    exact swept_of_sweep h
  · intro code e h
    obtain ⟨boundary, hbound, ⟨instructions, hsweep⟩, herror⟩ := exists_boundary h
    refine ⟨boundary, ⟨hbound, ⟨instructions, hsweep⟩, herror⟩, ?_⟩
    rintro boundary' ⟨hbound', ⟨instructions', hsweep'⟩, herror'⟩
    -- behind the earlier of two boundaries decoding would succeed
    rcases Nat.lt_trichotomy boundary' boundary with hlt | heq | hlt
    · obtain ⟨i, hi⟩ := exists_decodeAt_of_lt hlt (Nat.le_of_lt hbound) hsweep' hsweep
      rw [herror'] at hi
      cases hi
    · exact heq
    · obtain ⟨i, hi⟩ := exists_decodeAt_of_lt hlt (Nat.le_of_lt hbound') hsweep hsweep'
      rw [herror] at hi
      cases hi

/-- A jump table with two entries and a push of two bytes. -/
def tableAndPush : List Encoding := [
  ⟨⟨0x5e, "rjumpv", 1, -1, 1, .table⟩, [2, 0, 0, 0, 3], by decide +kernel,
    fun _ => ⟨2, _, rfl, by decide, rfl⟩, fun hflow => absurd rfl hflow⟩,
  ⟨.push 0x61 "push2" 2, [0x61, 0], by decide +kernel, by rintro ⟨⟩, fun _ => rfl⟩]

theorem sweep_inverts_concat_tableAndPush :
    Encoding.concat tableAndPush = [0x5e, 2, 0, 0, 0, 3, 0x61, 0x61, 0] ∧
      Code.sweep (Encoding.concat tableAndPush).toArray =
        .ok (Encoding.inSequence 0 tableAndPush) ∧
      Code.sweep #[0x5e, 2, 0, 0, 0, 3, 0x61, 0x61] = .error (.truncatedImmediate 6 2 1) ∧
      ∃! boundary, boundary < 8 ∧
        (∃ instructions, Code.sweep (Array.take #[0x5e, 2, 0, 0, 0, 3, 0x61, 0x61] boundary) =
          .ok instructions) ∧
        Code.decodeAt #[0x5e, 2, 0, 0, 0, 3, 0x61, 0x61] boundary =
          .error (.truncatedImmediate 6 2 1) := by
  obtain ⟨hsweep, -, -, hfails⟩ := sweep_inverts_concat
  have herror : Code.sweep #[0x5e, 2, 0, 0, 0, 3, 0x61, 0x61] =
      .error (.truncatedImmediate 6 2 1) := by
    cbv
  exact ⟨rfl, hsweep tableAndPush, herror, hfails _ _ herror⟩

end Code

end EofStack
