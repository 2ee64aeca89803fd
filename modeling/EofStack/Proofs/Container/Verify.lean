import EofStack.Proofs.Collect
import EofStack.Container.Verifier

/-!
# What an accepted container satisfies

Verification succeeds if the layout is right and every function, verified on its own, is accepted
with the height that the report has for it.  The functions do not depend on each other here; what
one assumes of another it takes from the table of types.

`Accepts` and `Refuses` say what verifying one function comes to.
-/

namespace EofStack.Verifier

variable {verifier : Verifier}

/-! ## Layout -/

/-- The layout is right if there is a type for each of the functions, of which there is at least
one, and the first takes and leaves nothing. -/
theorem checkLayout_eq_ok_iff {sections : List Code} :
    verifier.checkLayout sections = .ok () ↔
      sections.length = verifier.types.size ∧
        ∃ entry, verifier.types[0]? = some entry ∧ entry.inputs = 0 ∧ entry.outputs = 0 := by
  unfold checkLayout
  by_cases hempty : sections.length = 0
  · rw [if_pos hempty]
    constructor
    · intro h
      cases h
    · rintro ⟨hsize, entry, hentry, -⟩
      have hlt := (Array.getElem?_eq_some_iff.mp hentry).1
      omega
  by_cases hsize : sections.length = verifier.types.size
  · have hlt : 0 < verifier.types.size := by omega
    rw [if_neg hempty, if_neg (not_not.mpr hsize)]
    simp only [Array.getElem?_eq_getElem hlt, Option.getD_some, Option.some.injEq, exists_eq_left',
      hsize, true_and]
    by_cases hentry : verifier.types[0].inputs = 0 ∧ verifier.types[0].outputs = 0
    · rw [if_pos hentry]
      exact iff_of_true rfl hentry
    · rw [if_neg hentry]
      exact iff_of_false (by simp) hentry
  · rw [if_neg hempty, if_pos hsize]
    exact iff_of_false (by simp) fun h => hsize h.1

/-! ## Functions -/

/-- The function is valid with the height, which is also the declared one if there is one. -/
structure Accepts (verifier : Verifier) (id : Nat) (code : Code) (height : Nat) : Prop where
  validate : verifier.validate id code = .ok height
  declared : ∀ declared ∈ verifier.types[id]?.bind FunctionType.declaredHeight,
    declared.toNat = height

/-- Why a function is refused.  Its declared height is compared only if it is valid. -/
inductive Refuses (verifier : Verifier) (id : Nat) (code : Code) : ContainerError → Prop
  | function {violation : Stack.Violation}
      (hvalidate : verifier.validate id code = .error violation) :
      Refuses verifier id code (.function id violation)
  | declaredHeight {computed : Nat} {declared : UInt16}
      (hvalidate : verifier.validate id code = .ok computed)
      (hdeclared : verifier.types[id]?.bind FunctionType.declaredHeight = some declared)
      (hne : declared.toNat ≠ computed) :
      Refuses verifier id code (.declaredHeight id declared computed)

theorem Accepts.verifyFunction_eq {id height : Nat} {code : Code}
    (h : verifier.Accepts id code height) : verifier.verifyFunction id code = .ok height := by
  simp only [verifyFunction, h.validate]
  split
  · next declared hdeclared => rw [if_pos (h.declared declared hdeclared)]
  · rfl

theorem Refuses.verifyFunction_eq {id : Nat} {code : Code} {e : ContainerError}
    (h : verifier.Refuses id code e) : verifier.verifyFunction id code = .error e := by
  cases h with
  | function hvalidate => simp only [verifyFunction, hvalidate]
  | declaredHeight hvalidate hdeclared hne =>
      simp only [verifyFunction, hvalidate, hdeclared, if_neg hne]

theorem accepts_or_refuses (verifier : Verifier) (id : Nat) (code : Code) :
    (∃ height, verifier.Accepts id code height) ∨ ∃ e, verifier.Refuses id code e := by
  cases hvalidate : verifier.validate id code with
  | error violation => exact Or.inr ⟨_, .function hvalidate⟩
  | ok computed =>
      cases hdeclared : verifier.types[id]?.bind FunctionType.declaredHeight with
      | none => exact Or.inl ⟨computed, hvalidate, by simp [hdeclared]⟩
      | some declared =>
          by_cases heq : declared.toNat = computed
          · exact Or.inl ⟨computed, hvalidate, by simp [hdeclared, heq]⟩
          · exact Or.inr ⟨_, .declaredHeight hvalidate hdeclared heq⟩

theorem verifyFunction_eq_ok_iff {id height : Nat} {code : Code} :
    verifier.verifyFunction id code = .ok height ↔ verifier.Accepts id code height :=
  eq_ok_iff_of_described (fun _ => Accepts.verifyFunction_eq) (fun _ => Refuses.verifyFunction_eq)
    (verifier.accepts_or_refuses id code)

theorem verifyFunction_eq_error_iff {id : Nat} {code : Code} {e : ContainerError} :
    verifier.verifyFunction id code = .error e ↔ verifier.Refuses id code e :=
  eq_error_iff_of_described (fun _ => Accepts.verifyFunction_eq)
    (fun _ => Refuses.verifyFunction_eq) (verifier.accepts_or_refuses id code)

/-- The results behind the first failure make no difference to what they come to together. -/
theorem heightsOf_resultsFrom (id : Nat) (sections : List Code) :
    heightsOf (verifier.resultsFrom id sections) =
      (sections.zipIdx id).mapM fun (code, id) => verifier.verifyFunction id code := by
  induction sections generalizing id with
  | nil => rfl
  | cons code rest ih =>
      rw [resultsFrom, List.zipIdx_cons, mapM_cons_except]
      cases hcode : verifier.verifyFunction id code with
      | error e =>
          simp only [hcode]
          rfl
      | ok height =>
          simp only [hcode]
          rw [heightsOf, mapM_cons_except, ← ih]
          rfl

/-- The heights from `id` on are those of the functions that are verified there. -/
theorem getElem?_of_heightsOf {id : Nat} {sections : List Code} {heights : List Nat}
    (h : heightsOf (verifier.resultsFrom id sections) = .ok heights) {k : Nat} {code : Code}
    (hcode : sections[k]? = some code) :
    ∃ height, heights[k]? = some height ∧ verifier.verifyFunction (id + k) code = .ok height := by
  rw [heightsOf_resultsFrom, mapM_eq_ok_iff] at h
  obtain ⟨hlength, hall⟩ := List.forall₂_iff_get.mp h
  obtain ⟨hk, rfl⟩ := List.getElem?_eq_some_iff.mp hcode
  have hzip : k < (sections.zipIdx id).length := by rwa [List.length_zipIdx]
  have hk' : k < heights.length := hlength ▸ hzip
  refine ⟨heights[k], List.getElem?_eq_getElem hk', ?_⟩
  have hverify := hall k hzip hk'
  simpa only [List.get_eq_getElem, List.getElem_zipIdx] using hverify

/-! ## Containers -/

theorem verify_of_checkLayout {sections : List Code} (h : verifier.checkLayout sections = .ok ()) :
    verifier.verify sections =
      (heightsOf (verifier.resultsFrom 0 sections)).map Report.mk := by
  simp only [verify, verifyInTurn, h]
  rfl

theorem verify_of_checkLayout_eq_error {sections : List Code} {e : ContainerError}
    (h : verifier.checkLayout sections = .error e) : verifier.verify sections = .error e := by
  simp only [verify, verifyInTurn, h]

/-- In an accepted container every function is valid, and the report has its height. -/
theorem validate_of_verify {sections : List Code} {report : Report}
    (h : verifier.verify sections = .ok report) :
    verifier.checkLayout sections = .ok () ∧
      ∀ {id code}, sections[id]? = some code →
        ∃ height, report.heights[id]? = some height ∧ verifier.validate id code = .ok height := by
  cases hlayout : verifier.checkLayout sections with
  | error e => cases (verify_of_checkLayout_eq_error hlayout).symm.trans h
  | ok =>
      rw [verify_of_checkLayout hlayout, map_eq_ok_iff] at h
      obtain ⟨heights, hheights, rfl⟩ := h
      refine ⟨rfl, fun hcode => ?_⟩
      obtain ⟨height, hheight, hverify⟩ := getElem?_of_heightsOf hheights hcode
      rw [Nat.zero_add] at hverify
      exact ⟨height, hheight, (verifyFunction_eq_ok_iff.mp hverify).validate⟩

end EofStack.Verifier
