import EofStack.Proofs.Code.Sweep
import EofStack.Proofs.Stack.Rejection

/-!
# Staying on the instructions of a sweep

A sweep reads code from end to end, while the walk follows control and may decode from any offset.
On code that a structural check has let pass the two agree: wherever execution arrives, the sweep
has an instruction, and that is the one which is executed.  So nothing the walk finds there can be
malformed, whatever may be wrong with the heights.

## Strategy

`WellStructured` says what the check establishes of the instructions of the sweep.  Each successor
of one of them is the offset of another (`WellStructured.exists_of_leads`), and the first stands at
the entry, so all that can be reached is among them (`WellStructured.exists_of_reach`).
-/

namespace EofStack.Stack

/-- The code consists of the instructions, jumps lead from one of them to another, callees exist,
and control does not fall off the end. -/
structure WellStructured (types : TypeTable) (code : Code) (instructions : List Instruction) :
    Prop where
  sweep : code.sweep = .ok instructions
  targets : ∀ i ∈ instructions, ∀ displacement ∈ i.displacements,
    ∃ j ∈ instructions, (j.offset : Int) = i.next + displacement
  callees : ∀ i ∈ instructions, ∀ callee ∈ i.callee?, callee < types.size
  last : ∃ i, instructions.getLast? = some i ∧ i.opcode.isTerminating = true

namespace WellStructured

variable {types : TypeTable} {code : Code} {instructions : List Instruction}

/-- The first instruction stands at the entry. -/
theorem exists_offset_eq_zero (h : WellStructured types code instructions) :
    ∃ i ∈ instructions, i.offset = 0 := by
  have htiles := Code.sweep_eq_ok_iff.mp h.sweep
  obtain ⟨last, hlast, -⟩ := h.last
  obtain ⟨i, rest, rfl⟩ := List.exists_cons_of_ne_nil (List.ne_nil_of_mem
    (List.mem_of_getLast? hlast))
  exact ⟨i, List.mem_cons_self, htiles.offset_of_cons⟩

/-- Control goes from an instruction of the sweep to another one. -/
theorem exists_of_leads (h : WellStructured types code instructions) {i : Instruction}
    (hi : i ∈ instructions) {offset : Nat} (hleads : Leads i offset) :
    ∃ j ∈ instructions, j.offset = offset := by
  cases hleads with
  | next hflow =>
      rcases (Code.sweep_eq_ok_iff.mp h.sweep).exists_offset_eq_next hi with hnext | hlast
      · exact hnext
      · -- the last instruction is terminating, and this one is not
        obtain ⟨last, hlast', hterminating⟩ := h.last
        cases hlast.symm.trans hlast'
        rw [hflow] at hterminating
        cases hterminating
  | target hmem hoffset =>
      obtain ⟨j, hj, htarget⟩ := h.targets i hi _ hmem
      exact ⟨j, hj, Int.ofNat_inj.mp (htarget.trans hoffset.symm)⟩

/-- Wherever execution arrives, an instruction of the sweep is found. -/
theorem exists_of_reach {type : FunctionType} (h : WellStructured types code instructions)
    {offset height : Nat} (hreach : Reach ⟨types, type, code⟩ offset height) :
    ∃ i ∈ instructions, code.decodeAt offset = .ok i := by
  have hfound : ∀ {offset}, (∃ i ∈ instructions, i.offset = offset) →
      ∃ i ∈ instructions, code.decodeAt offset = .ok i := by
    rintro _ ⟨i, hi, rfl⟩
    exact ⟨i, hi, Code.decodeAt_of_mem_sweep h.sweep hi⟩
  -- along the execution, which starts at the first instruction
  induction hreach with
  | entry => exact hfound h.exists_offset_eq_zero
  | step _ hdecode _ _ _ hleads ih =>
      obtain ⟨i, hi, hdecode'⟩ := ih
      cases hdecode.symm.trans hdecode'
      exact hfound (h.exists_of_leads hi hleads)

/-- Well-structured code is not malformed. -/
theorem not_flaw_malformed {type : FunctionType} {limit : Nat}
    (h : WellStructured types code instructions) (offset : Nat) (cause : Malformation) :
    ¬ Flaw ⟨types, type, code⟩ limit (.malformed offset cause) := by
  intro hflaw
  cases cause with
  | undecodable error =>
      obtain ⟨height, hreach, hcause⟩ := hflaw
      obtain ⟨i, hi, hdecode⟩ := h.exists_of_reach hreach
      rcases hcause with herror | ⟨i', hdecode', displacement, hmem, hneg, -⟩
      · rw [hdecode] at herror
        cases herror
      · cases hdecode.symm.trans hdecode'
        obtain ⟨j, -, htarget⟩ := h.targets _ hi displacement hmem
        omega
  | unknownCallee callee functions =>
      obtain ⟨height, i', hreach, hdecode', hcallee, rfl, hsize⟩ := hflaw
      obtain ⟨i, hi, hdecode⟩ := h.exists_of_reach hreach
      cases hdecode.symm.trans hdecode'
      exact Nat.not_lt.mpr hsize (h.callees _ hi callee hcallee)
  | jumpWithoutTarget => exact hflaw

/-- Of well-structured code, validation visits none but the instructions of the sweep, each where
the sweep has it, and never finds the code malformed or the function unknown. -/
theorem visits_mem_sweep (validator : Validator) {function : Nat}
    (hfunction : function < validator.types.size)
    (h : WellStructured validator.types code instructions) :
    (∀ offset cause, validator.validate function code ≠ .error (.malformed offset cause)) ∧
    (∀ id functions, validator.validate function code ≠ .error (.unknownFunction id functions)) ∧
    ∀ v ∈ (validator.trace function code).visits, v.instruction ∈ instructions ∧
      ∀ i ∈ instructions, i.offset = v.instruction.offset → i = v.instruction := by
  have htype := Array.getElem?_eq_getElem hfunction
  refine ⟨fun offset cause herror => ?_, fun id functions herror => ?_, fun v hv => ?_⟩
  · exact h.not_flaw_malformed offset cause (Validator.flaw_of_type htype herror)
  · exact Validator.flaw_of_type htype herror
  · rw [Validator.trace_of_type htype] at hv
    obtain ⟨hreach, hdecode⟩ := reach_of_mem_visits hv
    obtain ⟨i, hi, hdecode'⟩ := h.exists_of_reach hreach
    cases hdecode.symm.trans hdecode'
    refine ⟨hi, fun j hj hoffset => ?_⟩
    have hdecode'' := Code.decodeAt_of_mem_sweep h.sweep hj
    rw [hoffset] at hdecode''
    exact Except.ok.inj (hdecode''.symm.trans hdecode)

/-- A table with two entries and a call, in a loop that a jump at the end closes. -/
def tableLoop : List Instruction := [
  ⟨0, .plain 0x5f "push0" 0 1, []⟩,
  ⟨1, ⟨0x5e, "rjumpv", 1, -1, 1, .table⟩, [2, 0, 0, 0, 3]⟩,
  ⟨7, ⟨0xb0, "callf", 0, 0, 2, .call⟩, [0, 1]⟩,
  ⟨10, ⟨0x5c, "rjump", 0, 0, 2, .jump⟩, [0xff, 0xf3]⟩]

/-- The bytes of the loop. -/
def tableLoopCode : Code :=
  (tableLoop.flatMap Instruction.bytes).toArray

/-- The second function takes three items, which the first does not have when it calls it. -/
def tableLoopTypes : TypeTable :=
  #[⟨0, 0, none⟩, ⟨3, 3, none⟩]

theorem visits_mem_sweep_tableLoop :
    0 < tableLoopTypes.size ∧ WellStructured tableLoopTypes tableLoopCode tableLoop ∧
      (∀ offset cause, ({ types := tableLoopTypes } : Validator).validate 0 tableLoopCode ≠
        .error (.malformed offset cause)) ∧
      ∀ v ∈ (({ types := tableLoopTypes } : Validator).trace 0 tableLoopCode).visits,
        v.instruction ∈ tableLoop := by
  have htiles : Tiles 0 tableLoop tableLoopCode.toList := by
    refine .cons rfl ⟨by decide +kernel, by rintro ⟨⟩, fun _ => rfl⟩ ?_
    refine .cons rfl ⟨by decide +kernel, ?_, fun h => absurd rfl h⟩ ?_
    · exact fun _ => ⟨2, _, rfl, by decide, rfl⟩
    refine .cons rfl ⟨by decide +kernel, by rintro ⟨⟩, fun _ => rfl⟩ ?_
    exact .cons rfl ⟨by decide +kernel, by rintro ⟨⟩, fun _ => rfl⟩ .nil
  have hwell : WellStructured tableLoopTypes tableLoopCode tableLoop :=
    { sweep := Code.sweep_eq_ok_iff.mpr htiles
      targets := by decide +kernel
      callees := by decide +kernel
      last := ⟨_, rfl, rfl⟩ }
  obtain ⟨hmalformed, -, hvisits⟩ :=
    visits_mem_sweep { types := tableLoopTypes } (Nat.zero_lt_succ 1) hwell
  exact ⟨Nat.zero_lt_succ 1, hwell, hmalformed, fun v hv => (hvisits v hv).1⟩

end WellStructured

end EofStack.Stack
