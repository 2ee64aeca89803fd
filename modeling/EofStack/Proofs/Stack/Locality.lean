import EofStack.Proofs.Stack.Rejection

/-!
# What a walk looks at

A walk reads the bytes of the instructions that it visits, the number of inputs and outputs of the
functions that these call and of its own, and nothing else.  So two walks that find the same there
are the same walk: they make the same visits in the same order and come to the same result.  That
holds for walks that end with a violation as well, unless the code is malformed: what is reported
of malformed code tells its size or the size of the type table.

What is looked at is known from the first walk alone.  The other may be a walk through shorter or
longer code, with other bytes where the first one has visited nothing.

## Strategy

Two walks in lockstep have the same agenda, peak and visits and the same recorded heights
(`Mirror`), although their records differ in size.  As long as what the first walk visits is the
same for the second one (`Reads`), a step of the first is matched by a step of the second
(`Mirror.advanced`, `Mirror.ended`).  What is visited in a step stays among the visits of the whole
run, so it is enough to compare the two at what the first run has visited in the end.
-/

namespace EofStack

/-- What is known of a function from outside: how many items it takes and how many it leaves. -/
def FunctionType.arity (type : FunctionType) : UInt8 × UInt8 :=
  (type.inputs, type.outputs)

namespace Stack

/-! ## One instruction -/

/-- In the other body, the instruction has the same bytes, and its callee the same arity. -/
structure Reads (body body' : Body) (i : Instruction) : Prop where
  callee : ∀ callee, i.callee? = some callee →
    body'.types[callee]?.map FunctionType.arity = body.types[callee]?.map FunctionType.arity
  bytes : ∀ position, i.offset ≤ position → position < i.next →
    body'.code[position]? = body.code[position]?

variable {body body' : Body} {i : Instruction} {e : Effect}

theorem Reads.effect_eq (h : Reads body body' i) (heffect : effect body.types i = .ok e) :
    effect body'.types i = .ok e := by
  unfold effect at heffect ⊢
  cases hcallee : i.callee? with
  | none =>
      rw [hcallee] at heffect
      exact heffect
  | some callee =>
      have harity := h.callee callee hcallee
      simp only [hcallee] at heffect ⊢
      cases htype : body.types[callee]? with
      | none => simp [htype] at heffect
      | some type =>
          rw [htype, Option.map_some, Option.map_eq_some_iff] at harity
          obtain ⟨type', htype', heq⟩ := harity
          obtain ⟨hinputs, houtputs⟩ := Prod.mk.inj heq
          simp only [htype] at heffect
          simpa only [htype', hinputs, houtputs] using heffect

theorem Reads.inspect_eq {offset : Nat} (h : Reads body body' i)
    (hinspect : body.inspect offset = .ok (i, e)) : body'.inspect offset = .ok (i, e) := by
  have hdecode := decodeAt_of_inspect hinspect
  have hdecode' := Code.decodeAt_of_getElem? hdecode h.bytes
  simp only [Body.inspect, hdecode] at hinspect
  obtain ⟨e', he', heq⟩ := map_eq_ok_iff.mp hinspect
  cases heq
  simp only [Body.inspect, hdecode', h.effect_eq he']
  rfl

/-- Executing an instruction depends on the outputs of the function only. -/
theorem execute_congr (h : body'.type.arity = body.type.arity) (i : Instruction) (e : Effect)
    (height : Nat) : body'.execute i e height = body.execute i e height := by
  have houtputs : body'.type.outputs = body.type.outputs := (Prod.mk.inj h).2
  simp only [Body.execute, houtputs]

/-- Where there is no instruction, or none with the callee that it names, code is malformed. -/
theorem exists_malformed_of_inspect {offset : Nat} {violation : Violation}
    (h : body.inspect offset = .error violation) :
    ∃ cause, violation = .malformed offset cause := by
  rcases inspect_spec body offset with ⟨i, e, heq, -⟩ | ⟨error, -, heq⟩ | ⟨i, callee, -, -, -, heq⟩
  · rw [h] at heq
    cases heq
  · cases h.symm.trans heq
    exact ⟨_, rfl⟩
  · cases h.symm.trans heq
    exact ⟨_, rfl⟩

/-! ## Two walks in lockstep -/

/-- Two walks that have come to the same, through code of different sizes. -/
structure Mirror (walk : Walk body.code.size) (walk' : Walk body'.code.size) : Prop where
  agenda : walk'.agenda = walk.agenda
  peak : walk'.peak = walk.peak
  visits : walk'.visits = walk.visits
  record : ∀ offset, walk'.heightAt? offset = walk.heightAt? offset

variable {walk next : Walk body.code.size} {walk' : Walk body'.code.size} {outcome : Outcome}

theorem mirror_start (body body' : Body) (height : Nat) :
    Mirror (Walk.start body.code.size height) (Walk.start body'.code.size height) where
  agenda := rfl
  peak := rfl
  visits := rfl
  record offset := by rw [Walk.heightAt?_start, Walk.heightAt?_start]

/-- The visits of a walk are among those that it comes to. -/
theorem mem_visits_resume {v : Visit} (hv : v ∈ walk.visits) : v ∈ (body.resume walk).visits := by
  have hstep : ∀ {walk next : Walk body.code.size}, v ∈ walk.visits →
      body.step walk = .advanced next → v ∈ next.visits := by
    intro walk next hv hadvanced
    have hcase := body.step_cases walk
    rw [hadvanced] at hcase
    cases hcase with
    | repeated => exact hv
    | visit => exact Array.mem_push_of_mem _ hv
  obtain ⟨last, hlast, hended⟩ := Body.exists_last_walk hstep hv
  have hcase := body.step_cases last
  rw [hended] at hcase
  generalize body.resume walk = outcome at hcase
  cases hcase with
  | done | mismatch | undecodable | unknownCallee => exact hlast
  | violation => exact Array.mem_push_of_mem _ hlast

/-- If one walk goes on, so does the other, and they are in lockstep again. -/
theorem Mirror.advanced (h : Mirror walk walk') (harity : body'.type.arity = body.type.arity)
    (hadvanced : body.step walk = .advanced next)
    (hreads : ∀ v ∈ next.visits, Reads body body' v.instruction) :
    ∃ next', body'.step walk' = .advanced next' ∧ Mirror next next' := by
  simp only [Body.step, h.agenda, h.record, h.visits, h.peak] at hadvanced ⊢
  cases hpop : walk.agenda.pop? with
  | none => simp [hpop] at hadvanced
  | some taken =>
      obtain ⟨arrival, rest⟩ := taken
      simp only [hpop] at hadvanced ⊢
      cases hrecord : walk.heightAt? arrival.offset with
      | some height =>
          simp only [hrecord] at hadvanced ⊢
          split at hadvanced
          · next heq =>
            cases hadvanced
            exact ⟨_, if_pos heq, rfl, rfl, rfl, h.record⟩
          · cases hadvanced
      | none =>
          simp only [hrecord] at hadvanced ⊢
          cases hinspect : body.inspect arrival.offset with
          | error violation => simp [hinspect] at hadvanced
          | ok found =>
              obtain ⟨i, e⟩ := found
              simp only [hinspect] at hadvanced
              cases hexecute : body.execute i e arrival.height with
              | error violation => simp [hexecute] at hadvanced
              | ok exits =>
                  simp only [hexecute, Progress.advanced.injEq] at hadvanced
                  subst hadvanced
                  -- the instruction is visited now, so the other body has it as well
                  have hinspect' := (hreads ⟨i, arrival.height⟩ Array.mem_push_self).inspect_eq
                    hinspect
                  have hsize := Code.lt_size_of_decodeAt (decodeAt_of_inspect hinspect)
                  have hsize' := Code.lt_size_of_decodeAt (decodeAt_of_inspect hinspect')
                  simp only [hinspect', execute_congr harity, hexecute]
                  refine ⟨_, rfl, ?_⟩
                  exact {
                    agenda := rfl
                    peak := by simp only [Walk.visit, h.peak]
                    visits := by simp only [Walk.visit, h.visits]
                    record := by
                      intro offset
                      rw [Walk.heightAt?_visit hsize, Walk.heightAt?_visit hsize', h.record] }

/-- If one walk ends, so does the other, unless the code is malformed. -/
theorem Mirror.ended (h : Mirror walk walk') (harity : body'.type.arity = body.type.arity)
    (hended : body.step walk = .ended outcome)
    (hreads : ∀ v ∈ outcome.visits, Reads body body' v.instruction)
    (hresult : ∀ offset cause, outcome.result ≠ .error (.malformed offset cause)) :
    body'.step walk' = .ended outcome := by
  simp only [Body.step, h.agenda, h.record, h.visits, h.peak] at hended ⊢
  cases hpop : walk.agenda.pop? with
  | none =>
      simp only [hpop, Progress.ended.injEq] at hended
      subst hended
      rfl
  | some taken =>
      obtain ⟨arrival, rest⟩ := taken
      simp only [hpop] at hended ⊢
      cases hrecord : walk.heightAt? arrival.offset with
      | some height =>
          simp only [hrecord] at hended ⊢
          split at hended
          · cases hended
          · next hne =>
            rw [Progress.ended.injEq] at hended
            subst hended
            exact if_neg hne
      | none =>
          simp only [hrecord] at hended ⊢
          cases hinspect : body.inspect arrival.offset with
          | error violation =>
              simp only [hinspect, Progress.ended.injEq] at hended
              subst hended
              obtain ⟨cause, rfl⟩ := exists_malformed_of_inspect hinspect
              exact absurd rfl (hresult arrival.offset cause)
          | ok found =>
              obtain ⟨i, e⟩ := found
              simp only [hinspect] at hended
              cases hexecute : body.execute i e arrival.height with
              | ok exits => simp [hexecute] at hended
              | error violation =>
                  simp only [hexecute, Progress.ended.injEq] at hended
                  subst hended
                  have hinspect' := (hreads ⟨i, arrival.height⟩ Array.mem_push_self).inspect_eq
                    hinspect
                  simp only [hinspect', execute_congr harity, hexecute]

/-- Walks in lockstep come to the same, if what the first one visits is the same for the other. -/
theorem Mirror.resume_eq (h : Mirror walk walk') (harity : body'.type.arity = body.type.arity)
    (hreads : ∀ v ∈ (body.resume walk).visits, Reads body body' v.instruction)
    (hresult : ∀ offset cause,
      (body.resume walk).result ≠ .error (.malformed offset cause)) :
    body'.resume walk' = body.resume walk := by
  induction walk using Body.resume.induct body generalizing walk' with
  | case1 walk outcome hended =>
      rw [Body.resume_of_ended hended] at hreads hresult ⊢
      exact Body.resume_of_ended (h.ended harity hended hreads hresult)
  | case2 walk next hadvanced ih =>
      rw [Body.resume_of_advanced hadvanced] at hreads hresult ⊢
      have hvisits : ∀ v ∈ next.visits, Reads body body' v.instruction :=
        fun v hv => hreads v (mem_visits_resume hv)
      obtain ⟨next', hadvanced', hnext⟩ := h.advanced harity hadvanced hvisits
      rw [Body.resume_of_advanced hadvanced']
      exact ih hnext hreads hresult

/-- A walk depends on the arity of the function and on what it visits. -/
theorem walk_eq_of_reads (harity : body'.type.arity = body.type.arity)
    (hreads : ∀ v ∈ body.walk.visits, Reads body body' v.instruction)
    (hresult : ∀ offset cause, body.walk.result ≠ .error (.malformed offset cause)) :
    body'.walk = body.walk := by
  have hinputs : body'.type.inputs = body.type.inputs := (Prod.mk.inj harity).1
  unfold Body.walk
  rw [hinputs]
  exact (mirror_start body body' _).resume_eq harity hreads hresult

/-! ## Validation -/

/-- Execution of the function can arrive at the instruction. -/
def Executes (body : Body) (i : Instruction) : Prop :=
  body.code.decodeAt i.offset = .ok i ∧ ∃ height, Reach body i.offset height

theorem executes_of_mem_visits {v : Visit} (hv : v ∈ body.walk.visits) :
    Executes body v.instruction := by
  obtain ⟨hreach, hdecode⟩ := reach_of_mem_visits hv
  exact ⟨hdecode, _, hreach⟩

namespace Validator

variable {validator validator' : Validator} {function : Nat} {code code' : Code}

/-- Validation with `validator'` finds the same in `code'` wherever validation with `validator` looks
in `code`. -/
structure SameView (validator validator' : Validator) (function : Nat) (code code' : Code) :
    Prop where
  limit : validator'.limit = validator.limit
  arity : validator'.types[function]?.map FunctionType.arity =
    validator.types[function]?.map FunctionType.arity
  callees : ∀ v ∈ (validator.trace function code).visits, ∀ callee,
    v.instruction.callee? = some callee →
      validator'.types[callee]?.map FunctionType.arity =
        validator.types[callee]?.map FunctionType.arity
  bytes : ∀ v ∈ (validator.trace function code).visits, ∀ position,
    v.instruction.offset ≤ position → position < v.instruction.next →
      code'[position]? = code[position]?

/-- A trace depends on the limit and on the walk. -/
theorem trace_eq_of_walk_eq {type type' : FunctionType}
    (htype : validator.types[function]? = some type)
    (htype' : validator'.types[function]? = some type')
    (hlimit : validator'.limit = validator.limit)
    (hwalk : Body.walk ⟨validator'.types, type', code'⟩ =
      Body.walk ⟨validator.types, type, code⟩) :
    validator'.trace function code' = validator.trace function code := by
  have hcheck : validator'.checkPeak = validator.checkPeak := by
    funext peak
    simp only [checkPeak, hlimit]
  rw [trace_of_type htype, trace_of_type htype', hwalk, hcheck]

theorem SameView.trace_eq (h : SameView validator validator' function code code')
    (hmalformed : ∀ offset cause,
      validator.validate function code ≠ .error (.malformed offset cause))
    (hunknown : ∀ id functions,
      validator.validate function code ≠ .error (.unknownFunction id functions)) :
    validator'.trace function code' = validator.trace function code := by
  cases htype : validator.types[function]? with
  | none =>
      have hvalidate : validator.validate function code = _ :=
        validate_of_size_le (Array.getElem?_eq_none_iff.mp htype)
      exact absurd hvalidate (hunknown _ _)
  | some type =>
      have harity := h.arity
      rw [htype, Option.map_some, Option.map_eq_some_iff] at harity
      obtain ⟨type', htype', harity⟩ := harity
      have htrace : validator.trace function code = _ := trace_of_type htype
      refine trace_eq_of_walk_eq htype htype' h.limit (walk_eq_of_reads harity ?_ ?_)
      · intro v hv
        have hv' : v ∈ (validator.trace function code).visits := by
          rw [htrace]
          exact hv
        exact ⟨h.callees v hv', h.bytes v hv'⟩
      · intro offset cause hresult
        refine hmalformed offset cause ?_
        rw [validate, htrace, hresult]
        rfl

/-- An accepted function is traced alike wherever all that execution can arrive at is the same. -/
theorem trace_eq_of_executes {type : FunctionType} {types' : TypeTable} {peak : Nat}
    (htype : validator.types[function]? = some type)
    (hvalidate : validator.validate function code = .ok peak)
    (harity : types'[function]?.map FunctionType.arity = some type.arity)
    (hreads : ∀ i, Executes ⟨validator.types, type, code⟩ i →
      Reads ⟨validator.types, type, code⟩ ⟨types', type, code'⟩ i) :
    ({ validator with types := types' } : Validator).trace function code' =
      validator.trace function code := by
  have hvisits : ∀ v ∈ (validator.trace function code).visits,
      Reads ⟨validator.types, type, code⟩ ⟨types', type, code'⟩ v.instruction := by
    intro v hv
    rw [trace_of_type htype] at hv
    exact hreads _ (executes_of_mem_visits hv)
  have hview : SameView validator { validator with types := types' } function code code' := {
    limit := rfl
    arity := by rw [htype]; exact harity
    callees := fun v hv => (hvisits v hv).callee
    bytes := fun v hv => (hvisits v hv).bytes }
  refine hview.trace_eq ?_ ?_
  · intro offset cause
    rw [hvalidate]
    nofun
  · intro id functions
    rw [hvalidate]
    nofun

/-- In an accepted function, an instruction that is executed has its bytes in the code, and its callee
in the table. -/
theorem within_of_executes {type : FunctionType} {peak : Nat} {i : Instruction}
    (htype : validator.types[function]? = some type)
    (hvalidate : validator.validate function code = .ok peak)
    (h : Executes ⟨validator.types, type, code⟩ i) :
    i.next ≤ code.size ∧ ∀ callee, i.callee? = some callee → callee < validator.types.size := by
  obtain ⟨hdecode, height, hreach⟩ := h
  refine ⟨Code.next_le_of_decodeAt hdecode, ?_⟩
  intro callee hcallee
  obtain ⟨type', htype', hresult, -⟩ := validate_eq_ok_iff.mp hvalidate
  cases htype.symm.trans htype'
  obtain ⟨hsound, -, -⟩ := walk_of_ok hresult
  obtain ⟨i', e, hdecode', heffect, -⟩ := hsound.safe hreach
  cases hdecode.symm.trans hdecode'
  exact heffect.callee_lt hcallee

/-- Validation sees only what it visits.  It makes the same visits with the same result wherever it
finds the same bytes and arities there, unless it reports the code as malformed or the function as
unknown.  In particular, what is refused stays refused for the same reason, and what is accepted
stays accepted with the same peak if only unreachable code, functions that are never called or
declared heights change, or if code or types are appended. -/
theorem trace_eq_of_agreement (validator : Validator) (function : Nat) (code : Code) :
    (∀ validator' code', SameView validator validator' function code code' →
      (∀ offset cause, validator.validate function code ≠ .error (.malformed offset cause)) →
      (∀ id functions, validator.validate function code ≠ .error (.unknownFunction id functions)) →
      validator'.trace function code' = validator.trace function code) ∧
    ∀ type peak, validator.types[function]? = some type →
      validator.validate function code = .ok peak →
      (∀ types' code', types'[function]?.map FunctionType.arity = some type.arity →
        (∀ i, Executes ⟨validator.types, type, code⟩ i →
          Reads ⟨validator.types, type, code⟩ ⟨types', type, code'⟩ i) →
        ({ validator with types := types' } : Validator).trace function code' =
          validator.trace function code) ∧
      (∀ extra, validator.trace function (code ++ extra) = validator.trace function code) ∧
      (∀ extra, ({ validator with types := validator.types ++ extra } : Validator).trace function
        code = validator.trace function code) ∧
      ∀ types', types'.map FunctionType.arity = validator.types.map FunctionType.arity →
        ({ validator with types := types' } : Validator).trace function code =
          validator.trace function code := by
  refine ⟨fun validator' code' h hmalformed hunknown => h.trace_eq hmalformed hunknown, ?_⟩
  intro type peak htype hvalidate
  have harity : validator.types[function]?.map FunctionType.arity = some type.arity := by
    rw [htype, Option.map_some]
  refine ⟨?reads, ?code, ?types, ?declared⟩
  case reads =>
    intro types' code' harity' hreads
    exact trace_eq_of_executes htype hvalidate harity' hreads
  case code =>
    intro extra
    refine trace_eq_of_executes htype hvalidate harity fun i hi => ⟨fun _ _ => rfl, ?_⟩
    intro position _ hlt
    have hle := (within_of_executes htype hvalidate hi).1
    exact Array.getElem?_append_left (Nat.lt_of_lt_of_le hlt hle)
  case types =>
    intro extra
    have hfunction := (Array.getElem?_eq_some_iff.mp htype).1
    refine trace_eq_of_executes htype hvalidate ?_ fun i hi => ⟨?_, fun _ _ _ => rfl⟩
    · rw [Array.getElem?_append_left hfunction]
      exact harity
    · intro callee hcallee
      have hlt := (within_of_executes htype hvalidate hi).2 callee hcallee
      show (validator.types ++ extra)[callee]?.map _ = _
      rw [Array.getElem?_append_left hlt]
  case declared =>
    intro types' hmap
    have hget : ∀ id : Nat, types'[id]?.map FunctionType.arity =
        validator.types[id]?.map FunctionType.arity := by
      intro id
      rw [← Array.getElem?_map, ← Array.getElem?_map, hmap]
    exact trace_eq_of_executes htype hvalidate ((hget function).trans harity)
      fun i _ => ⟨fun callee _ => hget callee, fun _ _ _ => rfl⟩

/-- Both ways come to offset `9`, the one that is put off with an item less.  Nothing leads to
offset `8`. -/
def lateMismatch : Code :=
  #[0x5f, 0x5d, 0, 5, 0x5f, 0x5c, 0, 1, 0xfe, 0x50, 0x00]

/-- The same up to the byte at offset `8` and what is appended. -/
def lateMismatchToo : Code :=
  #[0x5f, 0x5d, 0, 5, 0x5f, 0x5c, 0, 1, 0x0c, 0x50, 0x00, 0xb0, 0xff]

theorem trace_eq_of_agreement_lateMismatch :
    ({ types := #[⟨0, 0, none⟩] } : Validator).validate 0 lateMismatch =
        .error (.heightMismatch 9 1 0) ∧
      ({ types := #[⟨0, 0, some 7⟩, ⟨3, 1, none⟩] } : Validator).trace 0 lateMismatchToo =
        ({ types := #[⟨0, 0, none⟩] } : Validator).trace 0 lateMismatch ∧
      ({ types := callLoopTypes } : Validator).validate 0 callLoop = .ok 2 ∧
      ({ types := callLoopTypes } : Validator).trace 0 (callLoop ++ #[0x50, 0x0c]) =
        ({ types := callLoopTypes } : Validator).trace 0 callLoop := by
  have htype : (#[⟨0, 0, none⟩] : TypeTable)[0]? = some ⟨0, 0, none⟩ := rfl
  have hresult : (Body.walk ⟨#[⟨0, 0, none⟩], ⟨0, 0, none⟩, lateMismatch⟩).result =
      .error (.heightMismatch 9 1 0) :=
    Body.result_of_runFor 20 (by decide +kernel)
  have hvalidate : ({ types := #[⟨0, 0, none⟩] } : Validator).validate 0 lateMismatch =
      .error (.heightMismatch 9 1 0) := by
    rw [validate, trace_of_type htype, hresult]
    rfl
  -- no visited instruction is a call or has its bytes at offset `8` or behind the code
  have hvisits : (Body.walk ⟨#[⟨0, 0, none⟩], ⟨0, 0, none⟩, lateMismatch⟩).visits.all (fun v =>
      v.instruction.callee?.isNone && decide (v.instruction.next ≤ 8 ∨
        8 < v.instruction.offset ∧ v.instruction.next ≤ 11)) = true :=
    Body.walk_of_runFor (fun outcome => outcome.visits.all _) 20 (by decide +kernel)
  have hsame : ∀ position < 11, position ≠ 8 →
      lateMismatchToo[position]? = lateMismatch[position]? := by decide
  have hview : SameView { types := #[⟨0, 0, none⟩] } { types := #[⟨0, 0, some 7⟩, ⟨3, 1, none⟩] } 0
      lateMismatch lateMismatchToo := by
    refine ⟨rfl, rfl, ?_, ?_⟩
    · intro v hv callee hcallee
      rw [trace_of_type htype] at hv
      have := Array.all_eq_true'.mp hvisits v hv
      simp [hcallee] at this
    · intro v hv position hle hlt
      rw [trace_of_type htype] at hv
      have := Array.all_eq_true'.mp hvisits v hv
      simp only [Bool.and_eq_true, decide_eq_true_eq] at this
      exact hsame position (by omega) (by omega)
  have hcall : ({ types := callLoopTypes } : Validator).validate 0 callLoop = .ok 2 :=
    validate_eq_ok_iff.mpr
      ⟨_, rfl, Body.result_of_runFor 20 (by decide +kernel), by decide⟩
  refine ⟨hvalidate, ?_, hcall, ?_⟩
  · refine (trace_eq_of_agreement _ 0 lateMismatch).1 _ _ hview ?_ ?_
    · intro offset cause
      rw [hvalidate]
      nofun
    · intro id functions
      rw [hvalidate]
      nofun
  · exact ((trace_eq_of_agreement _ 0 callLoop).2 _ 2 rfl hcall).2.1 _

end Validator

end Stack

end EofStack
