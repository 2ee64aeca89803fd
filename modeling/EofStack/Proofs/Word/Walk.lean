import EofStack.Proofs.Stack.Ceiling
import EofStack.Proofs.Stack.Soundness
import EofStack.Proofs.Word.Decode

/-!
# Validating in words

The walk through a function once more, with its arithmetic in words: the sums and differences that
make up the effect of an instruction, the height behind it, its targets and the offset behind it.
The result is `none` where a word is left.

For code of less than `2 ^ 55` bytes this does not happen (`infallible_of_size`), and so a walk in
words ends like a walk in numbers.  No height goes below zero, since an instruction never takes more
than it asks for.  None gets too great for a word either, since all heights of a run are bounded by
the size of the code (`Stack.Passes.confined`).
-/

namespace EofStack.Word

open Stack

/-! ## One instruction -/

/-- The effect of an instruction. -/
def effect? (types : TypeTable) (i : Instruction) : Option (Except Violation Effect) :=
  match i.callee? with
  | none => some (.ok ⟨i.opcode.required, i.opcode.change⟩)
  | some callee =>
    match types[callee]? with
    | none => some (.error (.malformed i.offset (.unknownCallee callee types.size)))
    | some type => do
      let required ← add? i.opcode.required type.inputs.toNat
      let difference ← signed? ((type.outputs.toNat : Int) - type.inputs.toNat)
      let change ← signed? (i.opcode.change + difference)
      return .ok ⟨required, change⟩

/-- The targets of a jump; a negative one makes the code malformed. -/
def jumpTargets? (i : Instruction) : Option (Except Violation (List Nat)) :=
  (targets? i).map (Except.mapError fun e => .malformed i.offset (.undecodable e))

/-- Where control goes from an instruction that leaves `height` items. -/
def exitsAt? (outputs : Nat) (i : Instruction) (height : Nat) : Option (Except Violation Exits) :=
  match i.opcode.flow with
  | .jump => do
    match ← jumpTargets? i with
    | .ok (target :: _) => return .ok ⟨height, some target, []⟩
    | .ok [] => return .error (.malformed i.offset .jumpWithoutTarget)
    | .error violation => return .error violation
  | .branch | .table => do
    let targets ← jumpTargets? i
    let next ← next? i
    return targets.map fun targets => ⟨height, some next, targets⟩
  | .halt =>
    if height = 0 then some (.ok ⟨height, none, []⟩)
    else some (.error (.itemsLeft i.offset i.opcode.mnemonic height))
  | .ret =>
    if height = outputs then some (.ok ⟨height, none, []⟩)
    else some (.error (.returnArity i.offset outputs height))
  | .straight | .call => do
    let next ← next? i
    return .ok ⟨height, some next, []⟩

/-- Executes an instruction on a stack of the given height.  That there are too few items is found
out before the height is changed. -/
def execute? (body : Body) (i : Instruction) (e : Effect) (height : Nat) :
    Option (Except Violation Exits) :=
  if height < e.required then
    some (.error (.underflow i.offset i.opcode.mnemonic e.required height))
  else do
    let left ← addSigned? height e.change
    exitsAt? body.type.outputs.toNat i left

/-- The instruction at an offset and its effect. -/
def inspect? (body : Body) (offset : Nat) : Option (Except Violation (Instruction × Effect)) := do
  match ← decodeAt? body.code offset with
  | .error e => return .error (.malformed offset (.undecodable e))
  | .ok i =>
    let effect ← effect? body.types i
    return effect.map fun e => (i, e)

variable {body : Body} {walk : Walk body.code.size} {i : Instruction} {e : Effect}

theorem effect?_eq (hmem : i.opcode ∈ Opcode.table) (types : TypeTable) :
    effect? types i = some (effect types i) := by
  obtain ⟨hrequired, hleast, hgreatest, -⟩ := Opcode.bounds hmem
  unfold effect? effect
  cases i.callee? with
  | none => rfl
  | some callee =>
      dsimp only
      cases types[callee]? with
      | none => rfl
      | some type =>
          have hinputs := type.inputs.toNat_lt
          have houtputs := type.outputs.toNat_lt
          dsimp only
          rw [add?_eq (by omega), Option.bind_eq_bind, Option.bind_some, signed?_eq (by omega),
            Option.bind_eq_bind, Option.bind_some, signed?_eq (by omega), Option.bind_some]
          rfl

theorem jumpTargets?_eq (h : Intact i) : jumpTargets? i = some (Stack.targets i) := by
  rw [jumpTargets?, h.targets, Option.map_some, Stack.targets]
  cases i.targets with
  | error e => rfl
  | ok targets => rfl

theorem exitsAt?_eq (h : Intact i) (outputs height : Nat) :
    exitsAt? outputs i height = some (exitsAt outputs i height) := by
  unfold exitsAt? exitsAt
  rw [jumpTargets?_eq h, h.next]
  cases i.opcode.flow with
  | jump =>
      dsimp only
      rw [Option.bind_eq_bind, Option.bind_some]
      cases Stack.targets i with
      | error violation => rfl
      | ok targets => cases targets <;> rfl
  | branch | table | straight | call => rfl
  | halt =>
      dsimp only
      split <;> rfl
  | ret =>
      dsimp only
      split <;> rfl

theorem execute?_eq {height : Nat} (h : Intact i) (hmem : i.opcode ∈ Opcode.table)
    (heffect : HasEffect body.types i e) (hheight : (height : Int) + e.change < 2 ^ 64) :
    execute? body i e height = some (body.execute i e height) := by
  unfold execute? Body.execute
  by_cases hfew : height < e.required
  · rw [if_pos hfew, if_pos (Or.inl hfew)]
  · have hnonneg := heffect.change_nonneg hmem (Nat.le_of_not_lt hfew)
    rw [if_neg hfew, if_neg (by omega), addSigned?_eq ⟨hnonneg, hheight⟩, Option.bind_eq_bind,
      Option.bind_some]
    exact exitsAt?_eq h _ _

theorem inspect?_eq (hsize : body.code.size < 2 ^ 55) (offset : Nat) :
    inspect? body offset = some (body.inspect offset) := by
  unfold inspect? Body.inspect
  rw [decodeAt?_eq hsize, Option.bind_eq_bind, Option.bind_some]
  cases hdecode : body.code.decodeAt offset with
  | error e => rfl
  | ok i =>
      dsimp only
      rw [effect?_eq (Code.mem_table_of_decodeAt hdecode), Option.bind_eq_bind, Option.bind_some]
      rfl

/-! ## A run -/

/-- Deals with the next arrival. -/
def step? (body : Body) (walk : Walk body.code.size) : Option (Progress body.code.size) :=
  match walk.agenda.pop? with
  | none => some (.ended ⟨walk.visits, .ok walk.peak⟩)
  | some (arrival, rest) =>
    match walk.heightAt? arrival.offset with
    | some height =>
      if height = arrival.height then some (.advanced { walk with agenda := rest })
      else some
        (.ended ⟨walk.visits, .error (.heightMismatch arrival.offset height arrival.height)⟩)
    | none => do
      match ← inspect? body arrival.offset with
      | .error violation => return .ended ⟨walk.visits, .error violation⟩
      | .ok (i, e) =>
        match ← execute? body i e arrival.height with
        | .error violation =>
          return .ended ⟨walk.visits.push ⟨i, arrival.height⟩, .error violation⟩
        | .ok exits => return .advanced (walk.visit rest arrival i exits)

/-- Goes on with a walk for as many steps at most. -/
def resume? (body : Body) : Nat → Walk body.code.size → Option Outcome
  | 0, _ => none
  | steps + 1, walk => do
    match ← step? body walk with
    | .ended outcome => return outcome
    | .advanced walk' => resume? body steps walk'

/-- Validates the code of a function in as many steps at most, and tells which instructions were
visited. -/
def trace? (validator : Validator) (steps function : Nat) (code : Code) : Option Outcome :=
  match validator.types[function]? with
  | none => some ⟨#[], .error (.unknownFunction function validator.types.size)⟩
  | some type => do
    let outcome ← resume? ⟨validator.types, type, code⟩ steps
      (Walk.start code.size type.inputs.toNat)
    return ⟨outcome.visits, outcome.result.bind validator.checkPeak⟩

/-- No step of a run leaves the words. -/
theorem step?_eq (hsize : body.code.size < 2 ^ 55) (h : Passes body walk) :
    step? body walk = some (body.step walk) := by
  unfold step? Body.step
  cases hpop : walk.agenda.pop? with
  | none => rfl
  | some next =>
      obtain ⟨arrival, rest⟩ := next
      dsimp only
      cases hrecord : walk.heightAt? arrival.offset with
      | some height =>
          dsimp only
          split <;> rfl
      | none =>
          dsimp only
          rw [inspect?_eq hsize, Option.bind_eq_bind, Option.bind_some]
          cases hinspect : body.inspect arrival.offset with
          | error violation => rfl
          | ok found =>
              obtain ⟨i, e⟩ := found
              have hdecode := decodeAt_of_inspect hinspect
              have hheight := h.confined.next_le arrival rest hpop hrecord i e hinspect
              dsimp only
              rw [execute?_eq (intact_of_decodeAt hsize hdecode) (Code.mem_table_of_decodeAt hdecode)
                (hasEffect_of_effect (Body.effect_of_inspect hinspect)) (by omega),
                Option.bind_eq_bind, Option.bind_some]
              cases body.execute i e arrival.height <;> rfl

/-- A run in words ends, and in the same way. -/
theorem exists_resume?_eq (hsize : body.code.size < 2 ^ 55) (h : Passes body walk) :
    ∃ steps, resume? body steps walk = some (body.resume walk) := by
  induction walk using Body.resume.induct with
  | case1 walk outcome hended =>
      refine ⟨1, ?_⟩
      rw [resume?, step?_eq hsize h, hended, Body.resume_of_ended hended]
      rfl
  | case2 walk walk' hadvanced ih =>
      obtain ⟨steps, hsteps⟩ := ih (.step h hadvanced)
      refine ⟨steps + 1, ?_⟩
      rw [resume?, step?_eq hsize h, hadvanced, Body.resume_of_advanced hadvanced]
      exact hsteps

theorem exists_trace?_eq {code : Code} (hsize : code.size < 2 ^ 55) (validator : Validator)
    (function : Nat) :
    ∃ steps, trace? validator steps function code = some (validator.trace function code) := by
  unfold trace?
  cases htype : validator.types[function]? with
  | none => exact ⟨0, by simp only [Validator.trace, htype]⟩
  | some type =>
      have hpasses : Passes ⟨validator.types, type, code⟩
          (Walk.start code.size type.inputs.toNat) := .start
      obtain ⟨steps, hsteps⟩ := exists_resume?_eq hsize hpasses
      refine ⟨steps, ?_⟩
      dsimp only
      rw [hsteps, Validator.trace_of_type htype]
      rfl

/-! ## Validation -/

/-- A jump always has the target that it needs. -/
theorem result_ne_jumpWithoutTarget (validator : Validator) (function : Nat) (code : Code)
    (offset : Nat) :
    (validator.trace function code).result ≠ .error (.malformed offset .jumpWithoutTarget) := by
  cases htype : validator.types[function]? with
  | none => simp [Validator.trace, htype]
  | some type =>
      rw [Validator.trace_of_type htype]
      obtain ⟨last, -, hended⟩ := exists_last_walk_invariant ⟨validator.types, type, code⟩
      have hcase := Body.step_cases _ last
      rw [hended] at hcase
      generalize Body.walk _ = outcome at hcase ⊢
      cases hcase with
      | done =>
          simp only [Except.bind, Validator.checkPeak]
          split <;> simp
      | mismatch | undecodable | unknownCallee => simp [Except.bind]
      | violation _ _ _ _ hviolates => cases hviolates <;> simp [Except.bind]

/-- Nothing fails that decoding and validating a function compute in words. -/
structure Infallible (validator : Validator) (function : Nat) (code : Code) : Prop where
  decodes : ∀ offset, decodeAt? code offset = some (code.decodeAt offset)
  intact : ∀ offset i, code.decodeAt offset = .ok i → Intact i
  /-- A jump never lacks the target that it needs. -/
  jumps : ∀ offset, (validator.trace function code).result ≠
    .error (.malformed offset .jumpWithoutTarget)
  /-- Whatever has the items that it asks for leaves no negative height. -/
  leaves : ∀ i, i.opcode ∈ Opcode.table → ∀ e, effect validator.types i = .ok e →
    ∀ height : Nat, e.required ≤ height → 0 ≤ (height : Int) + e.change
  /-- Every height is bounded by the size of the code. -/
  confined : ∀ type, validator.types[function]? = some type →
    ∀ walk, Passes ⟨validator.types, type, code⟩ walk →
      Confined ⟨validator.types, type, code⟩ walk (255 * (code.size + 1))
  steps : ∀ type, validator.types[function]? = some type →
    ∀ walk, Passes ⟨validator.types, type, code⟩ walk →
      step? ⟨validator.types, type, code⟩ walk =
        some (Body.step ⟨validator.types, type, code⟩ walk)
  traces : ∃ steps, trace? validator steps function code = some (validator.trace function code)

/-- Code of less than `2 ^ 55` bytes is decoded and validated within words, whatever it consists of
and whichever types and limit it is validated against. -/
theorem infallible_of_size {code : Code} (hsize : code.size < 2 ^ 55) (validator : Validator)
    (function : Nat) : Infallible validator function code where
  decodes := decodeAt?_eq hsize
  intact _ _ hdecode := intact_of_decodeAt hsize hdecode
  jumps := result_ne_jumpWithoutTarget validator function code
  leaves _ hmem _ heffect _ henough := (hasEffect_of_effect heffect).change_nonneg hmem henough
  confined _ _ _ hpasses := hpasses.confined
  steps _ _ _ hpasses := step?_eq hsize hpasses
  traces := exists_trace?_eq hsize validator function

/-- The entry of a table, a loop and a call. -/
theorem infallible_of_size_callLoop :
    Validator.callLoop.size < 2 ^ 55 ∧
      (trace? { types := Validator.callLoopTypes } 20 0 Validator.callLoop).map Outcome.result =
        some (.ok 2) ∧
      Infallible { types := Validator.callLoopTypes } 0 Validator.callLoop :=
  ⟨by decide, by decide +kernel, infallible_of_size (by decide) _ _⟩

end EofStack.Word
