import EofStack.Proofs.BigEndian
import EofStack.Proofs.Code.Decode
import EofStack.Proofs.Collect

/-!
# Displacements and targets

How many displacements a well-formed jump holds, and what becomes of them: `targets_spec` and
`exists_of_targets_eq_error` describe the targets without the order in which they are computed.
-/

namespace EofStack

namespace Instruction

variable {i : Instruction}

/-! ## Displacements -/

/-- A jump that is not a table holds one displacement. -/
theorem exists_displacements_eq (hwell : i.WellFormed)
    (hflow : i.opcode.flow = .jump ∨ i.opcode.flow = .branch) :
    ∃ displacement, i.displacements = [displacement] := by
  have hlength : i.displacements.length = 1 := by
    have hsize : i.opcode.immediateSize = 2 := by
      refine Opcode.immediateSize_of_flow hwell.mem_table ?_
      rcases hflow with hflow | hflow <;> rw [hflow] <;> rfl
    have hlength := hwell.length_immediate (by rcases hflow with hflow | hflow <;> simp [hflow])
    rcases hflow with hflow | hflow <;>
      simp [displacements, hflow, BigEndian.length_signedValues, hlength, hsize]
  exact List.length_eq_one_iff.mp hlength

/-- Only jumps hold displacements. -/
theorem displacements_eq_nil (hflow : i.opcode.isJump = false) : i.displacements = [] := by
  unfold displacements
  split <;> simp_all [Opcode.isJump]

/-- Displacements are signed words. -/
theorem bounds_of_mem_displacements {displacement : Int} (h : displacement ∈ i.displacements) :
    -32768 ≤ displacement ∧ displacement ≤ 32767 := by
  unfold displacements at h
  split at h
  · exact BigEndian.bounds_of_mem_signedValues h
  · exact BigEndian.bounds_of_mem_signedValues h
  · exact BigEndian.bounds_of_mem_signedValues h
  · cases h

/-- Only calls name a callee. -/
theorem flow_of_callee? {callee : Nat} (h : i.callee? = some callee) :
    i.opcode.flow = .call := by
  unfold callee? at h
  split at h
  · assumption
  · cases h

theorem callee?_eq_none (hflow : i.opcode.flow ≠ .call) : i.callee? = none := by
  cases hcallee : i.callee? with
  | none => rfl
  | some callee => exact absurd (flow_of_callee? hcallee) hflow

/-- A call names its callee with its whole immediate. -/
theorem callee?_of_call (hwell : i.WellFormed) (hflow : i.opcode.flow = .call) :
    i.immediate.length = 2 ∧ i.callee? = some (BigEndian.value i.immediate) := by
  have hlength : i.immediate.length = 2 := by
    rw [hwell.length_immediate (by simp [hflow])]
    exact Opcode.immediateSize_of_flow hwell.mem_table (by simp [hflow]; rfl)
  obtain ⟨high, low, himmediate⟩ := List.length_eq_two.mp hlength
  refine ⟨hlength, ?_⟩
  simp only [callee?, hflow, himmediate]

/-! ## Targets -/

theorem target_eq_ok_iff {displacement : Int} {target : Nat} :
    i.target displacement = .ok target ↔ (target : Int) = i.next + displacement := by
  simp only [Instruction.target]
  split
  · next hneg => exact ⟨fun h => (by cases h), fun h => (by omega)⟩
  · next hpos =>
    rw [Except.ok.injEq]
    omega

theorem target_eq_error {displacement : Int} {e : DecodeError}
    (h : i.target displacement = .error e) :
    (i.next : Int) + displacement < 0 ∧
      e = .negativeTarget i.offset (i.next + displacement) := by
  simp only [Instruction.target] at h
  split at h
  · next hneg =>
    cases h
    exact ⟨hneg, rfl⟩
  · cases h

/-- The targets of a jump are where its displacements lead to, and there are none before the
code. -/
theorem targets_spec {targets : List Nat} (h : i.targets = .ok targets) :
    (∀ d ∈ i.displacements, 0 ≤ (i.next : Int) + d) ∧
      ∀ target : Nat, target ∈ targets ↔ ∃ d ∈ i.displacements, (target : Int) = i.next + d := by
  have hall := mapM_eq_ok_iff.mp h
  clear h
  generalize i.displacements = displacements at hall ⊢
  induction hall with
  | nil => simp
  | cons hhead _ ih =>
      rw [target_eq_ok_iff] at hhead
      rw [List.forall_mem_cons]
      refine ⟨⟨by omega, ih.1⟩, fun target => ?_⟩
      rw [List.mem_cons, ih.2, List.exists_mem_cons_iff]
      refine or_congr_left ⟨fun heq => heq ▸ hhead, fun heq => ?_⟩
      omega

/-- A jump without targets has a displacement that leads to a negative offset. -/
theorem exists_of_targets_eq_error {e : DecodeError} (h : i.targets = .error e) :
    ∃ d ∈ i.displacements, (i.next : Int) + d < 0 ∧ e = .negativeTarget i.offset (i.next + d) := by
  obtain ⟨d, hd, htarget⟩ := exists_of_mapM_eq_error h
  exact ⟨d, hd, target_eq_error htarget⟩

end Instruction

end EofStack
