import EofStack.Assembly.Assemble
import EofStack.Proofs.Assembly.Placement
import EofStack.Proofs.Instruction
import EofStack.Proofs.Readers

/-!
# What a placed instruction is encoded as

What an instruction is encoded as depends on its flow; `Carries` lists the five ways, and
`carries_of_encode` says that there are no others.  From then on nothing looks at the encoder
again: the bytes are as many as the layout has set aside (`Carries.length_eq`), they are those of
a well-formed instruction (`Carries.wellFormed`), and what that instruction holds is what its
operands say, be it displacements, a callee or a value.
-/

namespace EofStack.Assembly

open BigEndian (encodeSigned)

/-! ## Operands -/

/-- What the operand of a jump stands for: a displacement, or a label and so the way to it from
the offset behind the jump. -/
def Refers (labels : Labels) (next : Nat) (operand : String) (d : Int) : Prop :=
  if isDisplacement operand then Denotes operand.toList d
  else ∃ target : Nat, labels.lookup operand = some target ∧ d = target - next

theorem refers_of_displacement {labels : Labels} {next line : Nat} {operand : String} {d : Int}
    (h : displacement labels next line operand = .ok d) :
    Refers labels next operand d ∧ -32768 ≤ d ∧ d ≤ 32767 := by
  unfold displacement at h
  split at h
  · next hnumber =>
    split at h
    · next hread =>
      cases h
      rw [Refers, if_pos hnumber]
      obtain ⟨hsigned, hrange⟩ := Numeral.integer?_eq_some_iff.mp hread
      exact ⟨hsigned.denotes, hrange⟩
    · cases h
  · next hlabel =>
    split at h
    · cases h
    next target htarget =>
    rw [Refers, if_neg hlabel]
    dsimp only at h
    split at h
    · next hfits =>
      cases h
      exact ⟨⟨target, htarget, rfl⟩, by simpa [fitsWord] using hfits⟩
    · cases h

theorem denotes_of_functionId {line id : Nat} {operand : String}
    (h : functionId line operand = .ok id) : Denotes operand.toList id ∧ id ≤ 65535 := by
  unfold functionId at h
  split at h
  · next hread =>
    cases h
    obtain ⟨hunsigned, hle⟩ := Numeral.natural?_eq_some_iff.mp hread
    exact ⟨hunsigned.denotes, hle⟩
  · cases h

theorem denotes_of_pushValue {width n : Nat} {operand : List Char}
    (h : pushValue width operand = .ok n) :
    Denotes operand n ∧ n < BigEndian.capacity width := by
  obtain ⟨hnumber, hfits⟩ := pushValue_eq_ok_iff.mp h
  rw [BigEndian.capacity_eq_pow]
  exact ⟨hnumber.denotes, hfits⟩

namespace Placed

variable {labels : Labels} {placed : Placed}

theorem encodeOperand_of_isJump (h : placed.opcode.isJump = true) :
    placed.encodeOperand labels = fun operand =>
      (displacement labels placed.next placed.line operand).map encodeSigned := by
  funext operand
  cases hflow : placed.opcode.flow with
  | jump | branch | table => simp only [encodeOperand, hflow]
  | straight | call | ret | halt => simp [Opcode.isJump, hflow] at h

theorem exists_of_encodeOperand_call (h : placed.opcode.flow = .call) {operand : String}
    {bytes : List UInt8} (hencode : placed.encodeOperand labels operand = .ok bytes) :
    ∃ id, functionId placed.line operand = .ok id ∧ bytes = BigEndian.encode 2 id := by
  simp only [encodeOperand, h] at hencode
  obtain ⟨id, hid, rfl⟩ := map_eq_ok_iff.mp hencode
  exact ⟨id, hid, rfl⟩

theorem exists_of_encodeOperand_value (hjump : placed.opcode.isJump = false)
    (hcall : placed.opcode.flow ≠ .call) {operand : String} {bytes : List UInt8}
    (hencode : placed.encodeOperand labels operand = .ok bytes) :
    ∃ n, pushValue placed.opcode.immediateSize operand.toList = .ok n ∧
      bytes = BigEndian.encode placed.opcode.immediateSize n := by
  cases hflow : placed.opcode.flow with
  | jump | branch | table => simp [Opcode.isJump, hflow] at hjump
  | call => exact absurd hflow hcall
  | straight | ret | halt =>
      simp only [encodeOperand, hflow] at hencode
      split at hencode
      · next n hn =>
        cases hencode
        exact ⟨n, hn, rfl⟩
      · cases hencode

/-- An instruction with one operand is encoded as its opcode and this operand. -/
theorem encode_of_operand {operand : String} (htable : placed.opcode.flow ≠ .table)
    (hoperand : placed.operands = [operand]) :
    placed.encode labels =
      (placed.encodeOperand labels operand).map (placed.opcode.byte :: ·) := by
  rw [encode, hoperand, mapM_cons_except, countByte, if_neg htable]
  cases placed.encodeOperand labels operand with
  | error fault => rfl
  | ok bytes =>
      show Except.ok (placed.opcode.byte :: ([] ++ [bytes].flatten)) = _
      rw [List.nil_append, List.flatten_singleton]
      rfl

end Placed

/-! ## Instructions -/

variable {labels : Labels} {statement : Statement} {placed : Placed}

theorem Places.mem_table (h : Places statement placed) : placed.opcode ∈ Opcode.table :=
  Opcode.mem_table_of_ofName? h.opcode

/-- What an immediate holds: what the operands say, in as many bytes as the layout expects. -/
inductive Carries (labels : Labels) (placed : Placed) : List UInt8 → Prop
  | nothing (hjump : placed.opcode.isJump = false) (hcall : placed.opcode.flow ≠ .call)
      (hsize : placed.opcode.immediateSize = 0) (hoperands : placed.operands = []) :
      Carries labels placed []
  | value {operand : String} {n : Nat} (hjump : placed.opcode.isJump = false)
      (hcall : placed.opcode.flow ≠ .call) (hoperands : placed.operands = [operand])
      (hdenotes : Denotes operand.toList n)
      (hfits : n < BigEndian.capacity placed.opcode.immediateSize) :
      Carries labels placed (BigEndian.encode placed.opcode.immediateSize n)
  | callee {operand : String} {id : Nat} (hflow : placed.opcode.flow = .call)
      (hoperands : placed.operands = [operand]) (hdenotes : Denotes operand.toList id)
      (hfits : id ≤ 65535) : Carries labels placed (BigEndian.encode 2 id)
  | displacement {operand : String} {d : Int}
      (hflow : placed.opcode.flow = .jump ∨ placed.opcode.flow = .branch)
      (hoperands : placed.operands = [operand]) (hrefers : Refers labels placed.next operand d)
      (hfits : -32768 ≤ d ∧ d ≤ 32767) : Carries labels placed (encodeSigned d)
  | entries {displacements : List Int} (hflow : placed.opcode.flow = .table)
      (hne : placed.operands ≠ []) (hle : placed.operands.length ≤ 255)
      (hrefers : List.Forall₂ (Refers labels placed.next) placed.operands displacements)
      (hfits : ∀ d ∈ displacements, -32768 ≤ d ∧ d ≤ 32767) :
      Carries labels placed
        (UInt8.ofNat placed.operands.length :: displacements.flatMap encodeSigned)

/-- The operands of a jump are encoded as the displacements that they stand for. -/
theorem exists_displacements (hjump : placed.opcode.isJump = true) {operands : List (List UInt8)}
    (h : placed.operands.mapM (placed.encodeOperand labels) = .ok operands) :
    ∃ displacements, List.Forall₂ (Refers labels placed.next) placed.operands displacements ∧
      (∀ d ∈ displacements, -32768 ≤ d ∧ d ≤ 32767) ∧
      operands.flatten = displacements.flatMap encodeSigned := by
  rw [Placed.encodeOperand_of_isJump hjump, mapM_map_except] at h
  obtain ⟨displacements, hdisplacements, rfl⟩ := map_eq_ok_iff.mp h
  rw [mapM_eq_ok_iff] at hdisplacements
  have hread : List.Forall₂
      (fun d operand => (-32768 ≤ d ∧ d ≤ 32767) ∧ Refers labels placed.next operand d)
      displacements placed.operands :=
    hdisplacements.flip.imp fun _ _ hd => (refers_of_displacement hd).symm
  obtain ⟨hfits, hrefers⟩ := (List.forall₂_and_left _ _).mp hread
  exact ⟨displacements, hrefers.flip, hfits, (List.flatMap_def).symm⟩

/-- Whatever a placed instruction is encoded as, its immediate holds what its operands say. -/
theorem carries_of_encode (hplaces : Places statement placed) {bytes : List UInt8}
    (h : placed.encode labels = .ok bytes) :
    ∃ immediate, bytes = placed.opcode.byte :: immediate ∧ Carries labels placed immediate := by
  obtain ⟨operands, hoperands, rfl⟩ := map_eq_ok_iff.mp h
  refine ⟨_, rfl, ?_⟩
  rcases checkOperands_eq_ok_iff.mp hplaces.arity with
    ⟨hsize, hnil⟩ | ⟨-, hflow, hne, hle⟩ | ⟨-, hflow, operand, hoperand⟩
  · obtain ⟨hjump, hcall⟩ := Opcode.flow_of_immediateSize_eq_zero hplaces.mem_table hsize
    rw [hnil] at hoperands
    cases hoperands
    rw [Placed.countByte, if_neg fun hflow => by simp [Opcode.isJump, hflow] at hjump]
    exact .nothing hjump hcall hsize hnil
  · obtain ⟨displacements, hrefers, hfits, hflatten⟩ :=
      exists_displacements (by simp [Opcode.isJump, hflow]) hoperands
    rw [Placed.countByte, if_pos hflow, hflatten]
    exact .entries hflow hne hle hrefers hfits
  · -- the operand alone is the immediate
    rw [hoperand, mapM_eq_ok_iff, List.forall₂_cons_left_iff] at hoperands
    obtain ⟨bytes, rest, hencode, hrest, rfl⟩ := hoperands
    cases hrest
    rw [Placed.countByte, if_neg hflow, List.nil_append, List.flatten_singleton]
    by_cases hjump : placed.opcode.isJump = true
    · rw [Placed.encodeOperand_of_isJump hjump] at hencode
      obtain ⟨d, hd, rfl⟩ := map_eq_ok_iff.mp hencode
      obtain ⟨hrefers, hfits⟩ := refers_of_displacement hd
      exact .displacement (by simpa [Opcode.isJump, hflow] using hjump) hoperand hrefers hfits
    rw [Bool.not_eq_true] at hjump
    by_cases hcall : placed.opcode.flow = .call
    · obtain ⟨id, hid, rfl⟩ := Placed.exists_of_encodeOperand_call hcall hencode
      obtain ⟨hdenotes, hfits⟩ := denotes_of_functionId hid
      exact .callee hcall hoperand hdenotes hfits
    · obtain ⟨n, hn, rfl⟩ := Placed.exists_of_encodeOperand_value hjump hcall hencode
      obtain ⟨hdenotes, hfits⟩ := denotes_of_pushValue hn
      exact .value hjump hcall hoperand hdenotes hfits

/-! ## Size -/

theorem length_flatMap_encodeSigned (displacements : List Int) :
    (displacements.flatMap encodeSigned).length = 2 * displacements.length := by
  simp [List.length_flatMap, Nat.mul_comm]

/-- The instruction that has the immediate in this place. -/
def Placed.fill (placed : Placed) (immediate : List UInt8) : Instruction :=
  ⟨placed.offset, placed.opcode, immediate⟩

namespace Carries

variable {immediate : List UInt8}

/-- As many bytes are encoded as the layout has set aside. -/
theorem length_eq (hmem : placed.opcode ∈ Opcode.table) (h : Carries labels placed immediate) :
    immediate.length + 1 = placed.size := by
  have hsize : ∀ size, Opcode.immediateSizeOf placed.opcode.flow = some size →
      placed.opcode.immediateSize = size :=
    fun _ => Opcode.immediateSize_of_flow hmem
  have htable : placed.opcode.isJump = false → placed.opcode.flow ≠ .table := by
    intro hjump hflow
    simp [Opcode.isJump, hflow] at hjump
  unfold Placed.size
  cases h with
  | nothing hjump _ hzero => rw [if_neg (htable hjump), hzero, List.length_nil]
  | value hjump => rw [if_neg (htable hjump), BigEndian.length_encode, Nat.add_comm, Nat.add_zero]
  | callee hflow =>
      rw [if_neg (by simp [hflow]), BigEndian.length_encode, hsize 2 (by rw [hflow]; rfl)]
  | displacement hflow =>
      rw [if_neg (by rcases hflow with hflow | hflow <;> simp [hflow]),
        BigEndian.length_encodeSigned,
        hsize 2 (by rcases hflow with hflow | hflow <;> rw [hflow] <;> rfl)]
  | entries hflow _ _ hrefers =>
      rw [if_pos hflow, List.length_cons, length_flatMap_encodeSigned, ← hrefers.length_eq,
        hsize 1 (by rw [hflow]; rfl)]
      omega

theorem next_eq (hmem : placed.opcode ∈ Opcode.table) (h : Carries labels placed immediate) :
    (placed.fill immediate).next = placed.next := by
  have hlength := h.length_eq hmem
  simp only [Instruction.next, Placed.fill, Placed.next]
  omega

theorem wellFormed (hmem : placed.opcode ∈ Opcode.table) (h : Carries labels placed immediate) :
    (placed.fill immediate).WellFormed := by
  refine ⟨hmem, fun (htable : placed.opcode.flow = .table) => ?_,
    fun (htable : placed.opcode.flow ≠ .table) => ?_⟩
  · cases h with
    | nothing hjump | value hjump => simp [Opcode.isJump, htable] at hjump
    | callee hflow | displacement hflow => simp [htable] at hflow
    | entries _ hne hle hrefers =>
        have hpos := List.length_pos_iff.mpr hne
        have hcount : (UInt8.ofNat placed.operands.length).toNat = placed.operands.length := by
          rw [UInt8.toNat_ofNat', Nat.mod_eq_of_lt (by omega)]
        refine ⟨_, _, rfl, ?_, ?_⟩
        · intro hzero
          rw [hzero] at hcount
          exact Nat.ne_of_lt hpos hcount
        · rw [length_flatMap_encodeSigned, hcount, hrefers.length_eq]
  · have hlength := h.length_eq hmem
    rw [Placed.size, if_neg htable] at hlength
    simp only [Placed.fill]
    omega

/-! ### What the instruction says -/

/-- The displacements of a jump are what its operands stand for, one for each and in order. -/
theorem forall₂_displacements (hjump : placed.opcode.isJump = true)
    (h : Carries labels placed immediate) :
    List.Forall₂ (Refers labels placed.next) placed.operands
      (placed.fill immediate).displacements := by
  unfold Instruction.displacements Placed.fill
  cases h with
  | nothing hjump' | value hjump' => simp [hjump] at hjump'
  | callee hflow => simp [Opcode.isJump, hflow] at hjump
  | @displacement operand d hflow hoperands hrefers hfits =>
      have hword : BigEndian.signedValues (encodeSigned d) = [d] := by
        simpa using BigEndian.signedValues_flatMap (List.forall_mem_singleton.mpr hfits)
      rw [hoperands]
      rcases hflow with hflow | hflow <;> simpa only [hflow, hword] using .cons hrefers .nil
  | entries hflow _ _ hrefers hfits =>
      simpa only [hflow, List.drop_one, List.tail_cons,
        BigEndian.signedValues_flatMap hfits] using hrefers

theorem exists_callee?_eq (hmem : placed.opcode ∈ Opcode.table) (hcall : placed.opcode.flow = .call)
    (h : Carries labels placed immediate) :
    ∃ (operand : String) (id : Nat), placed.operands = [operand] ∧ Denotes operand.toList id ∧
      (placed.fill immediate).callee? = some id := by
  have hcallee := (Instruction.callee?_of_call (h.wellFormed hmem) hcall).2
  cases h with
  | nothing _ hcall' | value _ hcall' => exact absurd hcall hcall'
  | displacement hflow => simp [hcall] at hflow
  | entries hflow => simp [hcall] at hflow
  | @callee operand id _ hoperands hdenotes hfits =>
      refine ⟨operand, id, hoperands, hdenotes, ?_⟩
      rw [hcallee, Placed.fill, BigEndian.value_encode (Nat.lt_succ_of_le hfits)]

/-- The immediate of a push has the size that its name says, and holds the number that is
written. -/
theorem value_of_push (hmem : placed.opcode ∈ Opcode.table) {width : Nat}
    (hname : placed.opcode.mnemonic = "push" ++ toString width)
    (h : Carries labels placed immediate) :
    immediate.length = width ∧
      (0 < width → ∃ operand, placed.operands = [operand] ∧
        Denotes operand.toList (BigEndian.value immediate)) := by
  obtain ⟨hflow, rfl⟩ := Opcode.immediateSize_of_push hmem hname
  cases h with
  | nothing _ _ hsize => exact ⟨hsize.symm, fun hpos => absurd hsize (Nat.ne_of_gt hpos)⟩
  | @value operand n _ _ hoperands hdenotes hfits =>
      refine ⟨BigEndian.length_encode _ _, fun _ => ⟨operand, hoperands, ?_⟩⟩
      rwa [BigEndian.value_encode hfits]
  | callee hflow' | displacement hflow' | entries hflow' => simp [hflow] at hflow'

end Carries

end EofStack.Assembly
