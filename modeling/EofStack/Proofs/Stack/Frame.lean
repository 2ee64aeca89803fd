import EofStack.Proofs.Stack.Locality

/-!
# Items below the inputs

Validation never notices items that lie below the inputs of a function.  Give a valid function a
type that takes `extra` more items and leaves as many more, and a limit that has room for them: it is
valid again, the same instructions are visited in the same order, and every height is larger by
`extra`.  This is why a function can be validated without regard to what its callers have left on
the stack.

Two things that a walk may visit do notice them.  The end of the program has to leave nothing, and a
call of the function itself sees its other type.

## Strategy

Whether an instruction finds what it requires, how it changes the height and where control goes
from it depends on the height only through comparisons that a shift keeps (`execute_raise`).  So
two walks whose heights differ by `extra` (`Raised`) stay in lockstep: a step of the lower one is
matched by a step of the higher one (`Raised.advanced`), and both end together
(`Raised.resume_eq`).  The other body only has to find the instructions that the first one visits.
-/

namespace EofStack

/-- The type with `extra` more items below its inputs and below its outputs. -/
def FunctionType.deepen (extra : Nat) (type : FunctionType) : FunctionType :=
  { type with
    inputs := UInt8.ofNat (type.inputs.toNat + extra)
    outputs := UInt8.ofNat (type.outputs.toNat + extra) }

namespace Stack

/-! ## Larger heights -/

/-- The arrival with `extra` more items. -/
def Arrival.raise (extra : Nat) (arrival : Arrival) : Arrival :=
  { arrival with height := arrival.height + extra }

@[simp] theorem Arrival.offset_raise (extra : Nat) (arrival : Arrival) :
    (arrival.raise extra).offset = arrival.offset :=
  rfl

@[simp] theorem Arrival.height_raise (extra : Nat) (arrival : Arrival) :
    (arrival.raise extra).height = arrival.height + extra :=
  rfl

/-- The visit with `extra` more items. -/
def Visit.raise (extra : Nat) (visit : Visit) : Visit :=
  { visit with height := visit.height + extra }

/-- The exits with `extra` more items. -/
def Exits.raise (extra : Nat) (exits : Exits) : Exits :=
  { exits with height := exits.height + extra }

variable {body body' : Body} {i : Instruction} {e : Effect} {extra : Nat}

/-- Where control goes from an instruction does not depend on what lies below, unless the program
ends there. -/
theorem exitsAt_raise {outputs height : Nat} {exits : Exits} (hflow : i.opcode.flow ≠ .halt)
    (h : exitsAt outputs i height = .ok exits) :
    exitsAt (outputs + extra) i (height + extra) = .ok (exits.raise extra) := by
  unfold exitsAt at h ⊢
  cases hcase : i.opcode.flow with
  | halt => exact absurd hcase hflow
  | jump =>
      simp only [hcase] at h ⊢
      split at h <;> cases h
      rfl
  | branch | table =>
      simp only [hcase] at h ⊢
      obtain ⟨ts, htargets, rfl⟩ := map_eq_ok_iff.mp h
      simp only [htargets, Except.map, Exits.raise]
  | ret =>
      simp only [hcase] at h ⊢
      split at h
      · next heq =>
        cases h
        rw [if_pos (by omega), Exits.raise]
      · cases h
  | straight | call =>
      simp only [hcase] at h ⊢
      cases h
      rfl

/-- What succeeds with some items succeeds with more items below them. -/
theorem execute_raise {height : Nat} {exits : Exits}
    (houtputs : body'.type.outputs.toNat = body.type.outputs.toNat + extra)
    (hflow : i.opcode.flow ≠ .halt) (h : body.execute i e height = .ok exits) :
    body'.execute i e (height + extra) = .ok (exits.raise extra) := by
  unfold Body.execute at h ⊢
  split at h
  · cases h
  · next henough =>
    have hleft : (((height + extra : Nat) : Int) + e.change).toNat =
        ((height : Int) + e.change).toNat + extra := by omega
    rw [if_neg (by omega), hleft, houtputs]
    exact exitsAt_raise hflow h

/-! ## Two walks in lockstep -/

/-- The other body finds the instruction as it is here, and does not end the program with it. -/
structure Shares (body body' : Body) (i : Instruction) : Prop where
  reads : Reads body body' i
  flow : i.opcode.flow ≠ .halt

/-- Two walks that have come to the same, one of them with `extra` more items all the way. -/
structure Raised (extra : Nat) (walk : Walk body.code.size) (walk' : Walk body'.code.size) :
    Prop where
  agenda : walk'.agenda.toList = walk.agenda.toList.map (Arrival.raise extra)
  peak : walk'.peak = walk.peak + extra
  visits : walk'.visits = walk.visits.map (Visit.raise extra)
  record : ∀ offset, walk'.heightAt? offset = (walk.heightAt? offset).map (· + extra)

variable {walk next : Walk body.code.size} {walk' : Walk body'.code.size}

theorem raised_start (body body' : Body) (height extra : Nat) :
    Raised extra (Walk.start body.code.size height)
      (Walk.start body'.code.size (height + extra)) where
  agenda := rfl
  peak := rfl
  visits := by rw [Walk.visits_start, Walk.visits_start, Array.map_empty]
  record offset := by rw [Walk.heightAt?_start, Walk.heightAt?_start, Option.map_none]

/-- A walk goes on by taking an arrival off its agenda: either the offset is recorded with the same
height, or the instruction there is visited. -/
theorem exists_of_advanced (h : body.step walk = .advanced next) :
    ∃ (arrival : Arrival) (rest : Agenda Arrival), walk.agenda.pop? = some (arrival, rest) ∧
      (walk.heightAt? arrival.offset = some arrival.height ∧
          next = { walk with agenda := rest } ∨
        walk.heightAt? arrival.offset = none ∧ ∃ i e exits,
          body.inspect arrival.offset = .ok (i, e) ∧
          body.execute i e arrival.height = .ok exits ∧
          next = walk.visit rest arrival i exits) := by
  unfold Body.step at h
  split at h
  · cases h
  next arrival rest hpop =>
  refine ⟨arrival, rest, hpop, ?_⟩
  split at h
  · next height hrecord =>
    split at h
    · next heq =>
      cases h
      exact Or.inl ⟨heq ▸ hrecord, rfl⟩
    · cases h
  · next hrecord =>
    split at h
    · cases h
    next i e hinspect =>
    split at h
    · cases h
    next exits hexecute =>
    cases h
    exact Or.inr ⟨hrecord, i, e, exits, hinspect, hexecute, rfl⟩

/-- A visit raises what it adds to the walk along with the rest. -/
theorem Raised.visit (h : Raised extra walk walk') {arrival : Arrival} {exits : Exits}
    {rest rest' : Agenda Arrival} (hrest : rest'.toList = rest.toList.map (Arrival.raise extra))
    (hsize : arrival.offset < body.code.size)
    (hsize' : (arrival.raise extra).offset < body'.code.size) :
    Raised extra (walk.visit rest arrival i exits)
      (walk'.visit rest' (arrival.raise extra) i (exits.raise extra)) where
  agenda := by
    simp only [Walk.visit, Exits.raise, Agenda.toList_prepend, Agenda.toList_append, hrest,
      List.map_append, List.map_map]
    rfl
  peak := by
    simp only [Walk.visit, Exits.raise, h.peak]
    exact Nat.add_max_add_right _ _ _
  visits := by
    simp only [Walk.visit, h.visits, Array.map_push]
    rfl
  record := by
    intro offset
    rw [Walk.heightAt?_visit hsize, Walk.heightAt?_visit hsize', h.record, Arrival.offset_raise]
    by_cases heq : offset = arrival.offset
    · rw [if_pos heq, if_pos heq]
      rfl
    · rw [if_neg heq, if_neg heq]

/-- If the lower walk goes on, so does the higher one, and they are in lockstep again. -/
theorem Raised.advanced (h : Raised extra walk walk')
    (houtputs : body'.type.outputs.toNat = body.type.outputs.toNat + extra)
    (hadvanced : body.step walk = .advanced next)
    (hshares : ∀ v ∈ next.visits, Shares body body' v.instruction) :
    ∃ next', body'.step walk' = .advanced next' ∧ Raised extra next next' := by
  obtain ⟨arrival, rest, hpop, hcase⟩ := exists_of_advanced hadvanced
  have hagenda : walk'.agenda.toList =
      arrival.raise extra :: rest.toList.map (Arrival.raise extra) := by
    rw [h.agenda, Agenda.toList_of_pop? hpop, List.map_cons]
  obtain ⟨rest', hpop', hrest⟩ := Agenda.exists_pop?_eq hagenda
  have hrecord := h.record arrival.offset
  rcases hcase with ⟨hheight, rfl⟩ | ⟨hnone, i, e, exits, hinspect, hexecute, rfl⟩
  · -- both have been here before, and with the same difference of heights
    rw [hheight, Option.map_some] at hrecord
    refine ⟨{ walk' with agenda := rest' }, ?_, hrest, h.peak, h.visits, h.record⟩
    simp only [Body.step, hpop', Arrival.offset_raise, Arrival.height_raise, hrecord, if_true]
  · rw [hnone, Option.map_none] at hrecord
    -- the instruction is visited now, so the other body has it as well
    have hshare := hshares ⟨i, arrival.height⟩ Array.mem_push_self
    have hinspect' := hshare.reads.inspect_eq hinspect
    have hexecute' := execute_raise houtputs hshare.flow hexecute
    have hsize := Code.lt_size_of_decodeAt (decodeAt_of_inspect hinspect)
    have hsize' := Code.lt_size_of_decodeAt (decodeAt_of_inspect hinspect')
    refine ⟨walk'.visit rest' (arrival.raise extra) i (exits.raise extra), ?_,
      h.visit hrest hsize hsize'⟩
    simp only [Body.step, hpop', Arrival.offset_raise, Arrival.height_raise, hrecord, hinspect',
      hexecute']

/-- If the lower walk has nothing left to do, neither has the higher one. -/
theorem Raised.ended (h : Raised extra walk walk') {outcome : Outcome} {peak : Nat}
    (hended : body.step walk = .ended outcome) (hresult : outcome.result = .ok peak) :
    body'.step walk' =
      .ended ⟨outcome.visits.map (Visit.raise extra), .ok (peak + extra)⟩ := by
  have hcase := body.step_cases walk
  rw [hended] at hcase
  cases hcase with
  | done hagenda =>
      cases hresult
      have hnil : walk'.agenda.toList = [] := by rw [h.agenda, hagenda, List.map_nil]
      cases hpop : walk'.agenda.pop? with
      | none => simp only [Body.step, hpop, h.visits, h.peak]
      | some taken =>
          rw [Agenda.toList_of_pop? hpop] at hnil
          cases hnil
  | mismatch | undecodable | unknownCallee | violation => cases hresult

/-- Walks in lockstep come to the same, up to the items below. -/
theorem Raised.resume_eq (h : Raised extra walk walk')
    (houtputs : body'.type.outputs.toNat = body.type.outputs.toNat + extra)
    (hshares : ∀ v ∈ (body.resume walk).visits, Shares body body' v.instruction) {peak : Nat}
    (hresult : (body.resume walk).result = .ok peak) :
    body'.resume walk' =
      ⟨(body.resume walk).visits.map (Visit.raise extra), .ok (peak + extra)⟩ := by
  induction walk using Body.resume.induct body generalizing walk' with
  | case1 walk outcome hended =>
      rw [Body.resume_of_ended hended] at hresult ⊢
      exact Body.resume_of_ended (h.ended hended hresult)
  | case2 walk next hadvanced ih =>
      rw [Body.resume_of_advanced hadvanced] at hshares hresult ⊢
      have hvisits : ∀ v ∈ next.visits, Shares body body' v.instruction :=
        fun v hv => hshares v (mem_visits_resume hv)
      obtain ⟨next', hadvanced', hnext⟩ := h.advanced houtputs hadvanced hvisits
      rw [Body.resume_of_advanced hadvanced']
      exact ih hnext hshares hresult

/-- A walk that starts with `extra` more items goes the same way. -/
theorem walk_raise (hinputs : body'.type.inputs.toNat = body.type.inputs.toNat + extra)
    (houtputs : body'.type.outputs.toNat = body.type.outputs.toNat + extra)
    (hshares : ∀ v ∈ body.walk.visits, Shares body body' v.instruction) {peak : Nat}
    (hresult : body.walk.result = .ok peak) :
    body'.walk = ⟨body.walk.visits.map (Visit.raise extra), .ok (peak + extra)⟩ := by
  have hstart := raised_start body body' body.type.inputs.toNat extra
  rw [← hinputs] at hstart
  exact hstart.resume_eq houtputs hshares hresult

/-! ## Validation -/

namespace Validator

variable {validator : Validator} {function : Nat} {code : Code}

/-- The validator for a table in which the function has `extra` more items below its inputs and
outputs. -/
def deepen (validator : Validator) (function extra limit : Nat) : Validator where
  types := validator.types.modify function (FunctionType.deepen extra)
  limit := limit

/-- **The frame rule.**  A valid function that neither ends the program nor calls itself is valid
with `extra` more items below its inputs and outputs, and the limit need only have room for these.
The visits are the same and in the same order, each with `extra` more items. -/
theorem trace_deepen {type : FunctionType} {peak extra limit : Nat}
    (htype : validator.types[function]? = some type)
    (hinputs : type.inputs.toNat + extra ≤ 255) (houtputs : type.outputs.toNat + extra ≤ 255)
    (hvalidate : validator.validate function code = .ok peak) (hlimit : peak + extra ≤ limit)
    (hhalt : ∀ v ∈ (validator.trace function code).visits, v.instruction.opcode.flow ≠ .halt)
    (hself : ∀ v ∈ (validator.trace function code).visits,
      v.instruction.callee? ≠ some function) :
    (validator.deepen function extra limit).validate function code = .ok (peak + extra) ∧
      ((validator.deepen function extra limit).trace function code).visits =
        (validator.trace function code).visits.map (Visit.raise extra) := by
  obtain ⟨_, htype', hresult, -⟩ := validate_eq_ok_iff.mp hvalidate
  cases htype.symm.trans htype'
  have hdeepen : (validator.deepen function extra limit).types[function]? =
      some (type.deepen extra) := by
    simp [deepen, Array.getElem?_modify, htype]
  have htrace : (validator.trace function code).visits =
      (Body.walk ⟨validator.types, type, code⟩).visits := by rw [trace_of_type htype]
  rw [htrace] at hhalt hself ⊢
  have hshares : ∀ v ∈ (Body.walk ⟨validator.types, type, code⟩).visits,
      Shares ⟨validator.types, type, code⟩
        ⟨(validator.deepen function extra limit).types, type.deepen extra, code⟩
        v.instruction := by
    intro v hv
    refine ⟨⟨?_, fun _ _ _ => rfl⟩, hhalt v hv⟩
    intro callee hcallee
    have hne : function ≠ callee := by
      rintro rfl
      exact hself v hv hcallee
    simp [deepen, Array.getElem?_modify, hne]
  have hinputs' : (type.deepen extra).inputs.toNat = type.inputs.toNat + extra := by
    simp only [FunctionType.deepen, UInt8.toNat_ofNat']
    omega
  have houtputs' : (type.deepen extra).outputs.toNat = type.outputs.toNat + extra := by
    simp only [FunctionType.deepen, UInt8.toNat_ofNat']
    omega
  have hwalk := walk_raise hinputs' houtputs' hshares hresult
  rw [trace_of_type hdeepen, hwalk]
  refine ⟨?_, rfl⟩
  rw [validate_eq_ok_iff]
  exact ⟨_, hdeepen, by rw [hwalk], hlimit⟩

/-- Calls function `2`, branches back to the start, and returns what the rest adds up to. -/
def callAndRepeat : Code :=
  #[0xb0, 0, 2, 0x80, 0x5d, 0xff, 0xf9, 0x01, 0xb1]

/-- The function under test takes two items and leaves one, as does its callee with one item. -/
def callAndRepeatTypes : TypeTable := #[⟨0, 0, none⟩, ⟨2, 1, none⟩, ⟨1, 1, none⟩]

/-- There is room for all that the types can say, and for no more. -/
theorem trace_deepen_callAndRepeat :
    ({ types := callAndRepeatTypes } : Validator).validate 1 callAndRepeat = .ok 3 ∧
      (Validator.deepen { types := callAndRepeatTypes } 1 253 256).validate 1 callAndRepeat =
        .ok 256 ∧
      ((Validator.deepen { types := callAndRepeatTypes } 1 253 256).trace 1 callAndRepeat).visits =
        (({ types := callAndRepeatTypes } : Validator).trace 1 callAndRepeat).visits.map
          (Visit.raise 253) := by
  have htype : callAndRepeatTypes[1]? = some ⟨2, 1, none⟩ := rfl
  have hresult : (Body.walk ⟨callAndRepeatTypes, ⟨2, 1, none⟩, callAndRepeat⟩).result = .ok 3 :=
    Body.result_of_runFor 20 (by decide +kernel)
  have hvisits : (Body.walk ⟨callAndRepeatTypes, ⟨2, 1, none⟩, callAndRepeat⟩).visits.all
      (fun v => v.instruction.opcode.flow ≠ .halt ∧ v.instruction.callee? ≠ some 1) = true :=
    Body.walk_of_runFor (fun outcome => outcome.visits.all _) 20 (by decide +kernel)
  have hvalidate : ({ types := callAndRepeatTypes } : Validator).validate 1 callAndRepeat = .ok 3 :=
    validate_eq_ok_iff.mpr ⟨_, htype, hresult, by decide⟩
  have htrace : ∀ v ∈ (({ types := callAndRepeatTypes } : Validator).trace 1 callAndRepeat).visits,
      v.instruction.opcode.flow ≠ .halt ∧ v.instruction.callee? ≠ some 1 := by
    intro v hv
    rw [trace_of_type htype] at hv
    exact of_decide_eq_true (Array.all_eq_true'.mp hvisits v hv)
  refine ⟨hvalidate, ?_⟩
  apply trace_deepen htype (by decide) (by decide) hvalidate (by decide)
  · exact fun v hv => (htrace v hv).1
  · exact fun v hv => (htrace v hv).2

end Validator

end Stack

end EofStack
