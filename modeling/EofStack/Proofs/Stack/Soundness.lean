import EofStack.Proofs.Stack.Invariant
import EofStack.Stack.Validator

/-!
# What an accepted function guarantees

A function that validates with greatest height `peak` is sound: wherever execution can arrive,
there is an instruction, it is safe at the height it is reached with, and no height exceeds
`peak`.  The walk has seen neither more nor less than execution can reach, and `peak` is a height
that the stack really has.
-/

namespace EofStack.Stack

/-! ## Soundness of code -/

/-- Nothing goes wrong wherever execution can arrive, no offset has two heights, and no height
exceeds the bound. -/
structure Sound (body : Body) (bound : Nat) : Prop where
  safe : ∀ {offset height}, Reach body offset height → ∃ i e,
    body.code.decodeAt offset = .ok i ∧ HasEffect body.types i e ∧ Safe body i e height ∧
      height ≤ bound ∧ (height : Int) + e.change ≤ bound
  height_unique : ∀ {offset height height'}, Reach body offset height →
    Reach body offset height' → height = height'

/-- The stack has the height when the function is entered, or behind some instruction that is
executed. -/
def Attained (body : Body) (peak : Nat) : Prop :=
  peak = body.type.inputs.toNat ∨ ∃ offset height i e, Reach body offset height ∧
    body.code.decodeAt offset = .ok i ∧ HasEffect body.types i e ∧ (peak : Int) = height + e.change

/-! ## Walks without violation -/

variable {body : Body} {walk : Walk body.code.size}

theorem Invariant.sound (h : Invariant body walk) (hagenda : walk.agenda.toList = []) :
    Sound body walk.peak where
  safe hreach := by
    obtain ⟨v, hv, rfl, rfl⟩ := h.visits_of_reach hagenda hreach
    obtain ⟨e, heffect, hsafe⟩ := (h.visited v hv).safe
    obtain ⟨hbefore, hafter⟩ := h.visited_le v hv
    exact ⟨v.instruction, e, (h.visited v hv).decode, heffect, hsafe, hbefore, hafter e heffect⟩
  height_unique hreach hreach' := by
    obtain ⟨v, hv, rfl, rfl⟩ := h.visits_of_reach hagenda hreach
    obtain ⟨v', hv', heq, rfl⟩ := h.visits_of_reach hagenda hreach'
    exact h.height_unique hv hv' heq.symm

theorem Invariant.attained_peak (h : Invariant body walk) : Attained body walk.peak := by
  refine h.attained.imp_right ?_
  rintro ⟨v, hv, e, heffect, heq⟩
  exact ⟨_, v.height, v.instruction, e, (h.visited v hv).reach, (h.visited v hv).decode, heffect,
    heq⟩

/-- A walk that ends without violation has visited all that execution can reach. -/
theorem walk_of_ok {peak : Nat} (hresult : body.walk.result = .ok peak) :
    Sound body peak ∧ Attained body peak ∧
      ∀ offset height, Reach body offset height ↔
        ∃ v ∈ body.walk.visits, v.instruction.offset = offset ∧ v.height = height := by
  obtain ⟨last, hinvariant, hended⟩ := exists_last_walk_invariant body
  have hcase := body.step_cases last
  rw [hended] at hcase
  generalize body.walk = outcome at hcase hresult
  cases hcase with
  | done hagenda =>
      cases hresult
      refine ⟨hinvariant.sound hagenda, hinvariant.attained_peak, fun offset height => ?_⟩
      constructor
      · exact hinvariant.visits_of_reach hagenda
      · rintro ⟨v, hv, rfl, rfl⟩
        exact (hinvariant.visited v hv).reach
  | mismatch | undecodable | unknownCallee | violation => cases hresult

/-! ## Validation -/

namespace Validator

variable {validator : Validator} {function : Nat} {code : Code}

theorem trace_of_type {type : FunctionType} (htype : validator.types[function]? = some type) :
    validator.trace function code =
      ⟨(Body.walk ⟨validator.types, type, code⟩).visits,
        (Body.walk ⟨validator.types, type, code⟩).result.bind validator.checkPeak⟩ := by
  simp only [trace, htype]

theorem checkPeak_eq_ok_iff {greatest peak : Nat} :
    validator.checkPeak greatest = .ok peak ↔ greatest = peak ∧ peak ≤ validator.limit := by
  unfold checkPeak
  split
  · next hlt => exact ⟨fun h => (by cases h), fun ⟨heq, hle⟩ => (by omega)⟩
  · next hge =>
    rw [Except.ok.injEq]
    omega

/-- Validation of a function of the table succeeds if the walk does and its peak is not above the
limit. -/
theorem validate_eq_ok_iff {peak : Nat} :
    validator.validate function code = .ok peak ↔
      ∃ type, validator.types[function]? = some type ∧
        (Body.walk ⟨validator.types, type, code⟩).result = .ok peak ∧ peak ≤ validator.limit := by
  unfold validate
  cases htype : validator.types[function]? with
  | none => simp [trace, htype]
  | some type =>
      rw [trace_of_type htype]
      simp only [Option.some.injEq, exists_eq_left']
      cases (Body.walk ⟨validator.types, type, code⟩).result with
      | error violation => simp [Except.bind]
      | ok greatest =>
          simp only [Except.bind, checkPeak_eq_ok_iff, Except.ok.injEq]

/-- What the walk finds is what a function of the table is refused for. -/
theorem validate_eq_error_of_walk {type : FunctionType} {violation : Violation}
    (htype : validator.types[function]? = some type)
    (h : (Body.walk ⟨validator.types, type, code⟩).result = .error violation) :
    validator.validate function code = .error violation := by
  rw [validate, trace_of_type htype, h]
  rfl

/-- Wherever an accepted function can be, it is safe: an instruction stands there, its callee
exists, it finds the items that it requires, no target is negative, a halt leaves nothing and a
return what is declared.  The height at an offset is unique and at most the peak, before the
instruction and behind it.  What the walk visited is what can be reached, and the peak is
attained and within the limit. -/
theorem sound_of_validate {peak : Nat} (h : validator.validate function code = .ok peak) :
    ∃ type, validator.types[function]? = some type ∧
      Sound ⟨validator.types, type, code⟩ peak ∧
      (∀ offset height, Reach ⟨validator.types, type, code⟩ offset height ↔
        ∃ v ∈ (validator.trace function code).visits,
          v.instruction.offset = offset ∧ v.height = height) ∧
      peak ≤ validator.limit ∧ Attained ⟨validator.types, type, code⟩ peak := by
  obtain ⟨type, htype, hresult, hle⟩ := validate_eq_ok_iff.mp h
  obtain ⟨hsound, hattained, hvisits⟩ := walk_of_ok hresult
  rw [trace_of_type htype]
  exact ⟨type, htype, hsound, hvisits, hle, hattained⟩

/-- Calls function `1` and goes on to `stop` if the entry of a table is chosen; otherwise it
branches back to the start. -/
def callLoop : Code :=
  #[0x5f, 0x5f, 0xb0, 0, 1, 0x5e, 1, 0, 4, 0x5f, 0x5d, 0xff, 0xf3, 0x00]

/-- The function under test takes nothing; the one it calls takes two items and leaves one. -/
def callLoopTypes : TypeTable := #[⟨0, 0, none⟩, ⟨2, 1, none⟩]

theorem sound_of_validate_callLoop :
    ({ types := callLoopTypes } : Validator).validate 0 callLoop = .ok 2 ∧
      ∃ type, callLoopTypes[0]? = some type ∧
        Sound ⟨callLoopTypes, type, callLoop⟩ 2 ∧
        (∀ offset height, Reach ⟨callLoopTypes, type, callLoop⟩ offset height ↔
          ∃ v ∈ (({ types := callLoopTypes } : Validator).trace 0 callLoop).visits,
            v.instruction.offset = offset ∧ v.height = height) ∧
        2 ≤ 1024 ∧ Attained ⟨callLoopTypes, type, callLoop⟩ 2 := by
  have hresult : (Body.walk ⟨callLoopTypes, ⟨0, 0, none⟩, callLoop⟩).result = .ok 2 :=
    Body.result_of_runFor 20 (by decide +kernel)
  have hvalidate : ({ types := callLoopTypes } : Validator).validate 0 callLoop = .ok 2 :=
    validate_eq_ok_iff.mpr ⟨_, rfl, hresult, by decide⟩
  exact ⟨hvalidate, sound_of_validate hvalidate⟩

end Validator

end EofStack.Stack
