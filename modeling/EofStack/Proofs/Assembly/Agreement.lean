import EofStack.Proofs.Assembly.Encoding
import EofStack.Proofs.Code.Sweep

/-!
# What is assembled is decoded

A sweep over assembled code finds the statements of the source, one instruction for each and in
order: under the name that was written, with the operands that were written, and in the place
that the layout has given it.

## Strategy

The layout puts the statements one behind the other (`Layout.places_of_ofLines`), and each of them
is encoded in just as many bytes as the layout has set aside (`Carries.length_eq`).  By induction
over the layout, the bytes tile the code from one place to the next (`exists_tiles`), and what
tiles the code is what a sweep finds (`Code.sweep_eq_ok_iff`).  What the operands say about each
instruction is known from `Carries` alone.
-/

namespace EofStack.Assembly

/-- The statements of a source, one for each line that holds an instruction. -/
def statements (source : String) : List Statement :=
  (parse source).filterMap Line.statement

/-- The instruction is what the statement has written, in the place that the layout has given
it. -/
structure Matches (labels : Labels) (statement : Statement) (placed : Placed) (i : Instruction) :
    Prop where
  mnemonic : i.opcode.mnemonic = String.ofList (statement.mnemonic.toList.map Char.toLower)
  opcode : placed.opcode = i.opcode
  operands : placed.operands = statement.operands
  offset : i.offset = placed.offset
  next : i.next = i.offset + placed.size
  callee : i.opcode.flow = .call → ∃ (operand : String) (id : Nat),
    statement.operands = [operand] ∧ Denotes operand.toList id ∧ i.callee? = some id
  push : ∀ width, i.opcode.mnemonic = "push" ++ toString width →
    i.immediate.length = width ∧ (0 < width → ∃ operand, statement.operands = [operand] ∧
      Denotes operand.toList (BigEndian.value i.immediate))
  displacements : i.opcode.isJump = true →
    List.Forall₂ (Refers labels i.next) statement.operands i.displacements

/-- The layout of the source and a sweep over the code agree on every statement. -/
structure Agrees (source : String) (code : Code) (layout : Layout)
    (instructions : List Instruction) : Prop where
  ofLines : Layout.ofLines (parse source) = .ok layout
  sweep : code.sweep = .ok instructions
  placed_size : layout.placed.size = (statements source).length
  instructions_length : instructions.length = (statements source).length
  code_size : code.size = layout.size
  layout_size : layout.size = (layout.placed.toList.map Placed.size).sum
  statement : ∀ (k : Nat) (statement : Statement), (statements source)[k]? = some statement →
    ∃ placed i, layout.placed[k]? = some placed ∧ instructions[k]? = some i ∧
      placed.offset = ((layout.placed.toList.take k).map Placed.size).sum ∧
      Matches layout.labels statement placed i

/-! ## One statement -/

variable {labels : Labels}

/-- The instruction stands where the other is placed, and holds what the operands there say. -/
inductive Fills (labels : Labels) (placed : Placed) : Instruction → Prop
  | fill {immediate : List UInt8} (h : Carries labels placed immediate) :
      Fills labels placed (placed.fill immediate)

theorem matches_of_fills {statement : Statement} {placed : Placed} {i : Instruction}
    (hplaces : Places statement placed) (h : Fills labels placed i) :
    Matches labels statement placed i := by
  have hmem := hplaces.mem_table
  obtain ⟨hcarries⟩ := h
  have hnext := hcarries.next_eq hmem
  exact {
    mnemonic := Opcode.mnemonic_of_ofName? hplaces.opcode
    opcode := rfl
    operands := hplaces.operands
    offset := rfl
    next := hnext
    callee := fun hcall => hplaces.operands ▸ hcarries.exists_callee?_eq hmem hcall
    push := fun width hname => hplaces.operands ▸ hcarries.value_of_push hmem hname
    displacements := fun hjump => by
      rw [hnext, ← hplaces.operands]
      exact hcarries.forall₂_displacements hjump }

/-! ## Whole programs -/

/-- Statements that stand one behind the other are encoded as instructions that do so. -/
theorem exists_tiles {offset stop : Nat} {placed : List Placed}
    (hstacked : Stacked offset placed stop) {statements : List Statement}
    (hplaces : List.Forall₂ Places statements placed) {chunks : List (List UInt8)}
    (hencode : placed.mapM (Placed.encode labels) = .ok chunks) :
    ∃ instructions, List.Forall₂ (Fills labels) placed instructions ∧
      Tiles offset instructions chunks.flatten ∧ offset + chunks.flatten.length = stop := by
  induction hstacked generalizing statements chunks with
  | nil =>
      cases hencode
      exact ⟨[], .nil, .nil, rfl⟩
  | @cons placed rest stop _ ih =>
      obtain ⟨statement, statements, hhead, hrest, rfl⟩ := List.forall₂_cons_right_iff.mp hplaces
      rw [mapM_cons_except] at hencode
      cases hbytes : placed.encode labels with
      | error fault => rw [hbytes] at hencode; cases hencode
      | ok bytes =>
          rw [hbytes] at hencode
          obtain ⟨chunks, hchunks, rfl⟩ := map_eq_ok_iff.mp hencode
          obtain ⟨instructions, hfills, htiles, hstop⟩ := ih hrest hchunks
          obtain ⟨immediate, rfl, hcarries⟩ := carries_of_encode hhead hbytes
          have hmem := hhead.mem_table
          refine ⟨placed.fill immediate :: instructions, .cons (.fill hcarries) hfills, ?_, ?_⟩
          · refine .cons rfl (hcarries.wellFormed hmem) ?_
            rwa [hcarries.next_eq hmem]
          · have hlength := hcarries.length_eq hmem
            rw [Placed.next] at hstop
            rw [List.flatten_cons, List.length_append, List.length_cons]
            omega

/-- A source that is assembled has been laid out, and each of its statements has been encoded. -/
theorem exists_of_assemble {source : String} {code : Code} (h : assemble source = .ok code) :
    ∃ layout chunks, Layout.ofLines (parse source) = .ok layout ∧
      layout.placed.toList.mapM (Placed.encode layout.labels) = .ok chunks ∧
      code.toList = chunks.flatten := by
  cases hlayout : Layout.ofLines (parse source) with
  | error fault =>
      simp only [assemble, assembleLines, hlayout] at h
      cases h
  | ok layout =>
      simp only [assemble, assembleLines, hlayout] at h
      obtain ⟨bytes, hbytes, rfl⟩ := map_eq_ok_iff.mp h
      obtain ⟨chunks, hchunks, rfl⟩ := map_eq_ok_iff.mp hbytes
      exact ⟨layout, chunks, rfl, hchunks, rfl⟩

/-- Whatever is assembled, a sweep finds the statements of the source in the places that the
layout has given them. -/
theorem agrees_of_assemble {source : String} {code : Code} (h : assemble source = .ok code) :
    ∃ layout instructions, Agrees source code layout instructions := by
  obtain ⟨layout, chunks, hlayout, hchunks, hcode⟩ := exists_of_assemble h
  obtain ⟨hplaces, hstacked⟩ := Layout.places_of_ofLines hlayout
  obtain ⟨instructions, hfills, htiles, hsize⟩ := exists_tiles hstacked hplaces hchunks
  rw [← hcode] at htiles hsize
  refine ⟨layout, instructions, ?_⟩
  exact {
    ofLines := hlayout
    sweep := Code.sweep_eq_ok_iff.mpr htiles
    placed_size := hplaces.length_eq.symm
    instructions_length := (hplaces.length_eq.trans hfills.length_eq).symm
    code_size := by rw [← hsize, Nat.zero_add, Array.length_toList]
    layout_size := by rw [hstacked.stop_eq, Nat.zero_add]
    statement := by
      intro k statement hstatement
      obtain ⟨placed, hplaced, hplace⟩ := exists_getElem?_eq hplaces hstatement
      obtain ⟨i, hi, hfill⟩ := exists_getElem?_eq hfills hplaced
      refine ⟨placed, i, ?_, hi, ?_, matches_of_fills hplace hfill⟩
      · rwa [← Array.getElem?_toList]
      · rw [hstacked.offset_eq hplaced, Nat.zero_add] }

/-- A source with labels and displacements in one jump table, numbers in either notation, names
in any case and comments. -/
def mixedSource : String :=
  "start: PUSH2 0x0A5 ; 165\n# a table\n rjumpv start, +3 -2\n\tCallF 258\nrjumpi end\nend: Stop"

/-- The code of `mixedSource`. -/
def mixedCode : Code :=
  #[0x61, 0x00, 0xa5, 0x5e, 0x03, 0xff, 0xf5, 0x00, 0x03, 0xff, 0xfe, 0xb0, 0x01, 0x02, 0x5d, 0x00,
    0x00, 0x00]

theorem agrees_of_assemble_mixedSource :
    assemble mixedSource = .ok mixedCode ∧
      ∃ layout instructions, Agrees mixedSource mixedCode layout instructions := by
  have hassemble : assemble mixedSource = .ok mixedCode := by decide +kernel
  exact ⟨hassemble, agrees_of_assemble hassemble⟩

end EofStack.Assembly
