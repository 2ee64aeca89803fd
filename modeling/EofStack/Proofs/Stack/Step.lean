import EofStack.Proofs.Stack.Reach
import EofStack.Stack.Walk

/-!
# Steps and runs of the walk

`step_cases` lists everything that a step of the walk can do, guards included, so that no later
proof opens `Body.step`.  `exists_last_walk` is the induction over a whole run: what every step
keeps holds of the walk whose step ends the run.

A run can also be cut off after a number of steps (`Body.runFor`), which is how the runs on fixed
code below are computed.
-/

namespace EofStack.Stack

namespace Body

variable {body : Body} {walk : Walk body.code.size}

/-! ## One step -/

/-- How a step deals with the next arrival. -/
inductive StepCase (body : Body) (walk : Walk body.code.size) : Progress body.code.size → Prop
  | done (hagenda : walk.agenda.toList = []) :
      StepCase body walk (.ended ⟨walk.visits, .ok walk.peak⟩)
  | repeated {arrival : Arrival} {rest : Agenda Arrival}
      (hagenda : walk.agenda.toList = arrival :: rest.toList)
      (hrecord : walk.heightAt? arrival.offset = some arrival.height) :
      StepCase body walk (.advanced { walk with agenda := rest })
  | mismatch {arrival : Arrival} {rest : Agenda Arrival} {height : Nat}
      (hagenda : walk.agenda.toList = arrival :: rest.toList)
      (hrecord : walk.heightAt? arrival.offset = some height) (hne : height ≠ arrival.height) :
      StepCase body walk
        (.ended ⟨walk.visits, .error (.heightMismatch arrival.offset height arrival.height)⟩)
  | undecodable {arrival : Arrival} {rest : Agenda Arrival} {error : DecodeError}
      (hagenda : walk.agenda.toList = arrival :: rest.toList)
      (hrecord : walk.heightAt? arrival.offset = none)
      (hdecode : body.code.decodeAt arrival.offset = .error error) :
      StepCase body walk
        (.ended ⟨walk.visits, .error (.malformed arrival.offset (.undecodable error))⟩)
  | unknownCallee {arrival : Arrival} {rest : Agenda Arrival} {i : Instruction} {callee : Nat}
      (hagenda : walk.agenda.toList = arrival :: rest.toList)
      (hrecord : walk.heightAt? arrival.offset = none)
      (hdecode : body.code.decodeAt arrival.offset = .ok i) (hcallee : i.callee? = some callee)
      (hsize : body.types.size ≤ callee) :
      StepCase body walk
        (.ended ⟨walk.visits,
          .error (.malformed arrival.offset (.unknownCallee callee body.types.size))⟩)
  | violation {arrival : Arrival} {rest : Agenda Arrival} {i : Instruction} {e : Effect}
      {violation : Violation} (hagenda : walk.agenda.toList = arrival :: rest.toList)
      (hrecord : walk.heightAt? arrival.offset = none)
      (hdecode : body.code.decodeAt arrival.offset = .ok i)
      (heffect : HasEffect body.types i e)
      (hviolates : Violates body i e arrival.height violation) :
      StepCase body walk (.ended ⟨walk.visits.push ⟨i, arrival.height⟩, .error violation⟩)
  | visit {arrival : Arrival} {rest : Agenda Arrival} {i : Instruction} {e : Effect}
      {exits : Exits} (hagenda : walk.agenda.toList = arrival :: rest.toList)
      (hrecord : walk.heightAt? arrival.offset = none)
      (hdecode : body.code.decodeAt arrival.offset = .ok i)
      (heffect : HasEffect body.types i e) (hsafe : Safe body i e arrival.height)
      (hheight : (exits.height : Int) = arrival.height + e.change)
      (hleads : ∀ target, target ∈ exits.successors ↔ Leads i target) :
      StepCase body walk (.advanced (walk.visit rest arrival i exits))

theorem step_cases (body : Body) (walk : Walk body.code.size) :
    StepCase body walk (body.step walk) := by
  unfold step
  cases hpop : walk.agenda.pop? with
  | none => exact .done (Agenda.toList_eq_nil_of_pop? hpop)
  | some next =>
      obtain ⟨arrival, rest⟩ := next
      have hagenda := Agenda.toList_of_pop? hpop
      cases hrecord : walk.heightAt? arrival.offset with
      | some height =>
          by_cases heq : height = arrival.height
          · simp only [hrecord, if_pos heq]
            exact .repeated hagenda (heq ▸ hrecord)
          · simp only [hrecord, if_neg heq]
            exact .mismatch hagenda hrecord heq
      | none =>
          simp only [hrecord]
          rcases inspect_spec body arrival.offset with ⟨i, e, heq, hdecode, heffect⟩ |
            ⟨error, hdecode, heq⟩ | ⟨i, callee, hdecode, hcallee, hsize, heq⟩
          · have hwell := Code.wellFormed_of_decodeAt hdecode
            have hexecute := execute_spec hwell heffect arrival.height
            simp only [heq]
            cases hresult : body.execute i e arrival.height with
            | error violation =>
                rw [hresult] at hexecute
                exact .violation hagenda hrecord hdecode heffect hexecute
            | ok exits =>
                rw [hresult] at hexecute
                obtain ⟨hsafe, hheight, hleads⟩ := hexecute
                exact .visit hagenda hrecord hdecode heffect hsafe hheight hleads
          · simp only [heq]
            exact .undecodable hagenda hrecord hdecode
          · simp only [heq]
            exact .unknownCallee hagenda hrecord hdecode hcallee hsize

/-! ## A whole run -/

theorem resume_of_ended {outcome : Outcome} (h : body.step walk = .ended outcome) :
    body.resume walk = outcome := by
  rw [resume]
  split
  · next hended =>
    rw [h] at hended
    cases hended
    rfl
  · next hadvanced =>
    rw [h] at hadvanced
    cases hadvanced

theorem resume_of_advanced {walk' : Walk body.code.size} (h : body.step walk = .advanced walk') :
    body.resume walk = body.resume walk' := by
  rw [resume]
  split
  · next hended =>
    rw [h] at hended
    cases hended
  · next hadvanced =>
    rw [h] at hadvanced
    cases hadvanced
    rfl

/-- A run ends at a last walk, and what every step keeps holds there. -/
theorem exists_last_walk {kept : Walk body.code.size → Prop}
    (hstep : ∀ {walk walk'}, kept walk → body.step walk = .advanced walk' → kept walk')
    (hstart : kept walk) : ∃ last, kept last ∧ body.step last = .ended (body.resume walk) := by
  induction walk using resume.induct with
  | case1 walk outcome hended => exact ⟨walk, hstart, by rw [hended, resume_of_ended hended]⟩
  | case2 walk walk' hadvanced ih =>
      rw [resume_of_advanced hadvanced]
      exact ih (hstep hstart hadvanced)

/-! ## Runs of bounded length -/

/-- The outcome of a run that takes no more than the given number of steps. -/
def runFor (body : Body) : Nat → Walk body.code.size → Option Outcome
  | 0, _ => none
  | steps + 1, walk =>
    match body.step walk with
    | .ended outcome => some outcome
    | .advanced walk' => body.runFor steps walk'

theorem resume_of_runFor {steps : Nat} {outcome : Outcome}
    (h : body.runFor steps walk = some outcome) : body.resume walk = outcome := by
  induction steps generalizing walk with
  | zero => cases h
  | succ steps ih =>
      rw [runFor] at h
      split at h
      · next hended =>
        cases h
        exact resume_of_ended hended
      · next hadvanced =>
        rw [resume_of_advanced hadvanced]
        exact ih h

/-- Whatever a run of bounded length says of the outcome holds of the walk. -/
theorem walk_of_runFor {β : Type} (read : Outcome → β) (steps : Nat) {value : β}
    (h : (body.runFor steps (Walk.start body.code.size body.type.inputs.toNat)).map read =
      some value) : read body.walk = value := by
  obtain ⟨outcome, houtcome, rfl⟩ := Option.map_eq_some_iff.mp h
  rw [walk, resume_of_runFor houtcome]

theorem result_of_runFor (steps : Nat) {result : Except Violation Nat}
    (h : (body.runFor steps (Walk.start body.code.size body.type.inputs.toNat)).map Outcome.result =
      some result) : body.walk.result = result :=
  walk_of_runFor Outcome.result steps h

end Body

end EofStack.Stack
