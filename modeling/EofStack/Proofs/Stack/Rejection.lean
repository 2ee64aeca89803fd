import EofStack.Proofs.Stack.Soundness

/-!
# What a refused function did wrong

Every violation that validation reports is one that execution can run into: `Flaw` says for each
kind of violation which reachable states prove it, with all numbers of the report.  Heights are
taken from states that execution can reach, not from the path the walk happened to be on, so a
violation found late, behind many arrivals that were put off, is as genuine as the first.

Since nothing is refused without a flaw, code without flaws is accepted: validation succeeds on
every function that is sound up to the limit.
-/

namespace EofStack.Stack

/-! ## Flaws -/

/-- What is wrong with the code if the violation is reported of it. -/
def Flaw (body : Body) (limit : Nat) : Violation → Prop
  | .underflow offset mnemonic required actual =>
    Reach body offset actual ∧ ∃ i e, body.code.decodeAt offset = .ok i ∧
      HasEffect body.types i e ∧ i.opcode.mnemonic = mnemonic ∧ e.required = required ∧
      actual < required
  | .heightMismatch offset recorded arriving =>
    Reach body offset recorded ∧ Reach body offset arriving ∧ recorded ≠ arriving
  | .itemsLeft offset mnemonic actual =>
    ∃ height i e, Reach body offset height ∧ body.code.decodeAt offset = .ok i ∧
      HasEffect body.types i e ∧ i.opcode.flow = .halt ∧ i.opcode.mnemonic = mnemonic ∧
      (actual : Int) = height + e.change ∧ actual ≠ 0
  | .returnArity offset declared actual =>
    ∃ height i e, Reach body offset height ∧ body.code.decodeAt offset = .ok i ∧
      HasEffect body.types i e ∧ i.opcode.flow = .ret ∧ (actual : Int) = height + e.change ∧
      declared = body.type.outputs.toNat ∧ actual ≠ declared
  | .tooDeep peak limit' =>
    limit' = limit ∧ limit < peak ∧ Sound body peak ∧ Attained body peak
  | .malformed offset (.undecodable error) =>
    ∃ height, Reach body offset height ∧ (body.code.decodeAt offset = .error error ∨
      ∃ i, body.code.decodeAt offset = .ok i ∧ ∃ displacement ∈ i.displacements,
        (i.next : Int) + displacement < 0 ∧
        error = .negativeTarget offset (i.next + displacement))
  | .malformed offset (.unknownCallee callee functions) =>
    ∃ height i, Reach body offset height ∧ body.code.decodeAt offset = .ok i ∧
      i.callee? = some callee ∧ functions = body.types.size ∧ functions ≤ callee
  | .malformed _ .jumpWithoutTarget => False
  | .unknownFunction .. => False

variable {body : Body} {limit : Nat}

/-- What a reachable instruction violates is a flaw. -/
theorem Violates.flaw {offset height : Nat} {i : Instruction} {e : Effect} {violation : Violation}
    (h : Violates body i e height violation) (hreach : Reach body offset height)
    (hdecode : body.code.decodeAt offset = .ok i) (heffect : HasEffect body.types i e) :
    Flaw body limit violation := by
  have hoffset : i.offset = offset := Code.offset_of_decodeAt hdecode
  subst hoffset
  cases h with
  | underflow hfew => exact ⟨hreach, i, e, hdecode, heffect, rfl, rfl, hfew⟩
  | negativeTarget hmem hneg => exact ⟨height, hreach, Or.inr ⟨i, hdecode, _, hmem, hneg, rfl⟩⟩
  | itemsLeft hflow hleft hne =>
      exact ⟨height, i, e, hreach, hdecode, heffect, hflow, rfl, hleft, hne⟩
  | returnArity hflow hleft hne =>
      exact ⟨height, i, e, hreach, hdecode, heffect, hflow, hleft, rfl, hne⟩

/-- The violation that ends a step is a flaw of the code. -/
theorem Invariant.flaw {walk : Walk body.code.size} {outcome : Outcome} {violation : Violation}
    (h : Invariant body walk) (hended : body.step walk = .ended outcome)
    (hresult : outcome.result = .error violation) : Flaw body limit violation := by
  have hcase := body.step_cases walk
  rw [hended] at hcase
  -- the arrival that the step takes is pending, hence reachable
  have hreach : ∀ {arrival : Arrival} {rest : Agenda Arrival},
      walk.agenda.toList = arrival :: rest.toList → Reach body arrival.offset arrival.height :=
    fun hagenda => h.pending _ (hagenda ▸ List.mem_cons_self)
  cases hcase with
  | done => cases hresult
  | mismatch hagenda hrecord hne =>
      cases hresult
      obtain ⟨v, hv, heq, rfl⟩ := (h.recorded _ _).mp hrecord
      exact ⟨heq ▸ (h.visited v hv).reach, hreach hagenda, hne⟩
  | undecodable hagenda _ hdecode =>
      cases hresult
      exact ⟨_, hreach hagenda, Or.inl hdecode⟩
  | unknownCallee hagenda _ hdecode hcallee hsize =>
      cases hresult
      exact ⟨_, _, hreach hagenda, hdecode, hcallee, rfl, hsize⟩
  | violation hagenda _ hdecode heffect hviolates =>
      cases hresult
      exact hviolates.flaw (hreach hagenda) hdecode heffect

/-- The violation that ends a walk is a flaw of the code. -/
theorem flaw_of_walk {violation : Violation} (hresult : body.walk.result = .error violation) :
    Flaw body limit violation := by
  obtain ⟨last, hinvariant, hended⟩ := exists_last_walk_invariant body
  exact hinvariant.flaw hended hresult

/-! ## Sound code has no flaw -/

/-- Code that is sound up to the limit has no flaw. -/
theorem Sound.not_flaw (h : Sound body limit) (violation : Violation) :
    ¬ Flaw body limit violation := by
  -- decoding and effects are functions, so the instruction of a flaw is the one that is safe
  have hsafe : ∀ {offset height i e}, Reach body offset height →
      body.code.decodeAt offset = .ok i → HasEffect body.types i e → Safe body i e height := by
    intro offset height i e hreach hdecode heffect
    obtain ⟨i', e', hdecode', heffect', hsafe, -⟩ := h.safe hreach
    cases hdecode.symm.trans hdecode'
    exact heffect.unique heffect' ▸ hsafe
  intro hflaw
  cases violation with
  | underflow offset mnemonic required actual =>
      obtain ⟨hreach, i, e, hdecode, heffect, -, rfl, hfew⟩ := hflaw
      exact (Violates.underflow hfew).not_safe (hsafe hreach hdecode heffect)
  | heightMismatch offset recorded arriving =>
      obtain ⟨hreach, hreach', hne⟩ := hflaw
      exact hne (h.height_unique hreach hreach')
  | itemsLeft offset mnemonic actual =>
      obtain ⟨height, i, e, hreach, hdecode, heffect, hflow, -, hleft, hne⟩ := hflaw
      exact (Violates.itemsLeft hflow hleft hne).not_safe (hsafe hreach hdecode heffect)
  | returnArity offset declared actual =>
      obtain ⟨height, i, e, hreach, hdecode, heffect, hflow, hleft, rfl, hne⟩ := hflaw
      exact (Violates.returnArity hflow hleft hne).not_safe (hsafe hreach hdecode heffect)
  | tooDeep peak limit' =>
      obtain ⟨-, hlt, -, hattained⟩ := hflaw
      rcases hattained with rfl | ⟨offset, height, i, e, hreach, hdecode, heffect, heq⟩
      · obtain ⟨_, _, _, _, _, hle, -⟩ := h.safe .entry
        omega
      · obtain ⟨i', e', hdecode', heffect', -, -, hle⟩ := h.safe hreach
        cases hdecode.symm.trans hdecode'
        rw [heffect.unique heffect'] at heq
        omega
  | malformed offset cause =>
      cases cause with
      | undecodable error =>
          obtain ⟨height, hreach, herror | ⟨i, hdecode, d, hmem, hneg, -⟩⟩ := hflaw
          · obtain ⟨i, e, hdecode, -⟩ := h.safe hreach
            rw [herror] at hdecode
            cases hdecode
          · obtain ⟨i', e, hdecode', -, hsafe, -⟩ := h.safe hreach
            cases hdecode.symm.trans hdecode'
            exact Int.not_le.mpr hneg (hsafe.targets d hmem)
      | unknownCallee callee functions =>
          obtain ⟨height, i, hreach, hdecode, hcallee, rfl, hsize⟩ := hflaw
          obtain ⟨i', e, hdecode', heffect, -⟩ := h.safe hreach
          cases hdecode.symm.trans hdecode'
          cases heffect with
          | own hnone => rw [hnone] at hcallee; cases hcallee
          | call hcallee' htype =>
              cases hcallee.symm.trans hcallee'
              rw [Array.getElem?_eq_none hsize] at htype
              cases htype
      | jumpWithoutTarget => exact hflaw
  | unknownFunction => exact hflaw

/-! ## Validation -/

namespace Validator

variable {validator : Validator} {function : Nat} {code : Code}

/-- Without a type for the function, validation says so. -/
theorem validate_of_size_le (h : validator.types.size ≤ function) :
    validator.validate function code =
      .error (.unknownFunction function validator.types.size) := by
  simp [validate, trace, Array.getElem?_eq_none h]

/-- With a type for the function, the violation that is reported is a flaw of its code. -/
theorem flaw_of_type {type : FunctionType} (htype : validator.types[function]? = some type)
    {violation : Violation} (h : validator.validate function code = .error violation) :
    Flaw ⟨validator.types, type, code⟩ validator.limit violation := by
  rw [validate, trace_of_type htype] at h
  cases hresult : (Body.walk ⟨validator.types, type, code⟩).result with
  | error violation' =>
      rw [hresult] at h
      cases h
      exact flaw_of_walk hresult
  | ok peak =>
      rw [hresult] at h
      simp only [Except.bind, checkPeak] at h
      split at h
      · next hlt =>
        cases h
        obtain ⟨hsound, hattained, -⟩ := walk_of_ok hresult
        exact ⟨rfl, hlt, hsound, hattained⟩
      · cases h

/-- A function without type is refused as unknown, and no other.  Every other refusal reports a
flaw of the code, so code that is sound up to the limit is accepted. -/
theorem flaw_of_validate (validator : Validator) (function : Nat) (code : Code) :
    (∀ id functions, validator.validate function code = .error (.unknownFunction id functions) ↔
      validator.types.size ≤ function ∧ id = function ∧ functions = validator.types.size) ∧
    (∀ type, validator.types[function]? = some type →
      (∀ violation, validator.validate function code = .error violation →
        Flaw ⟨validator.types, type, code⟩ validator.limit violation) ∧
      (Sound ⟨validator.types, type, code⟩ validator.limit →
        ∃ peak, validator.validate function code = .ok peak)) := by
  refine ⟨fun id functions => ⟨?_, ?_⟩, fun type htype => ⟨?_, ?_⟩⟩
  · intro h
    rcases Nat.lt_or_ge function validator.types.size with hlt | hge
    · -- with a type the violation would be a flaw, and this one never is
      exact (flaw_of_type (Array.getElem?_eq_getElem hlt) h).elim
    · rw [validate_of_size_le hge] at h
      cases h
      exact ⟨hge, rfl, rfl⟩
  · rintro ⟨hge, rfl, rfl⟩
    exact validate_of_size_le hge
  · intro violation h
    exact flaw_of_type htype h
  · intro hsound
    cases hvalidate : validator.validate function code with
    | ok peak => exact ⟨peak, rfl⟩
    | error violation => exact (hsound.not_flaw violation (flaw_of_type htype hvalidate)).elim

/-- One way to offset `8` pushes an item first, and the other, which is put off, does not. -/
def unevenBranch : Code :=
  #[0x5f, 0x5d, 0, 4, 0x5f, 0x5c, 0, 0, 0x50, 0x00]

theorem flaw_of_validate_unevenBranch :
    ({ types := #[⟨0, 0, none⟩] } : Validator).validate 0 unevenBranch =
        .error (.heightMismatch 8 1 0) ∧
      Flaw ⟨#[⟨0, 0, none⟩], ⟨0, 0, none⟩, unevenBranch⟩ 1024 (.heightMismatch 8 1 0) := by
  have hresult : (Body.walk ⟨#[⟨0, 0, none⟩], ⟨0, 0, none⟩, unevenBranch⟩).result =
      .error (.heightMismatch 8 1 0) :=
    Body.result_of_runFor 20 (by decide +kernel)
  have hvalidate : ({ types := #[⟨0, 0, none⟩] } : Validator).validate 0 unevenBranch =
      .error (.heightMismatch 8 1 0) := validate_eq_error_of_walk rfl hresult
  exact ⟨hvalidate, ((flaw_of_validate _ _ _).2 _ rfl).1 _ hvalidate⟩

end Validator

end EofStack.Stack
