import EofStack.Proofs.Container.Verify
import Mathlib.Data.List.Induction

/-!
# The verdict on a container

Functions are verified one after the other up to the first that fails, or all at a time in
whatever order they are completed.  Both ways come to the same verdict, and `Verdict` says which,
without an order: the layout is looked at first, then the failing function with the lowest id is
reported, and a container in which none fails is accepted with the height of each.

## Strategy

Every check is characterised by an equivalence for each way that it can come out, from
`verifyFunction` upwards; `verify_eq_iff` assembles them.  Workers that complete in some order
leave, in each place, the result of the function there (`result?_ofCompletions`), so collecting
place by place is collecting the results in the order of the ids (`verifyCompleting_eq_verify`).
-/

namespace EofStack.Verifier

variable {verifier : Verifier}

/-! ## The layout -/

/-- There is a type for each of the functions, and the first takes and leaves nothing. -/
def WellLaidOut (verifier : Verifier) (sections : List Code) : Prop :=
  sections.length = verifier.types.size ∧
    ∃ entry, verifier.types[0]? = some entry ∧ entry.inputs = 0 ∧ entry.outputs = 0

/-- What is wrong with the layout, the first of three things. -/
inductive Misfit (verifier : Verifier) (sections : List Code) : ContainerError → Prop
  | empty (hempty : sections = []) : Misfit verifier sections .empty
  | sectionCount (hne : sections ≠ []) (hsize : sections.length ≠ verifier.types.size) :
      Misfit verifier sections (.sectionCount sections.length verifier.types.size)
  | entryType {entry : FunctionType} (hne : sections ≠ [])
      (hsize : sections.length = verifier.types.size)
      (htype : verifier.types[0]? = some entry)
      (hentry : ¬ (entry.inputs = 0 ∧ entry.outputs = 0)) :
      Misfit verifier sections (.entryType entry)

theorem Misfit.checkLayout_eq {sections : List Code} {e : ContainerError}
    (h : verifier.Misfit sections e) : verifier.checkLayout sections = .error e := by
  have hlength : sections ≠ [] → sections.length ≠ 0 := mt List.eq_nil_of_length_eq_zero
  cases h with
  | empty hempty => rw [checkLayout, hempty, List.length_nil, if_pos rfl]
  | sectionCount hne hsize => rw [checkLayout, if_neg (hlength hne), if_pos hsize]
  | entryType hne hsize htype hentry =>
      rw [checkLayout, if_neg (hlength hne), if_neg (not_not.mpr hsize)]
      simp only [htype, Option.getD_some, if_neg hentry]

theorem wellLaidOut_or_misfit (verifier : Verifier) (sections : List Code) :
    verifier.WellLaidOut sections ∨ ∃ e, verifier.Misfit sections e := by
  by_cases hempty : sections = []
  · exact Or.inr ⟨_, .empty hempty⟩
  by_cases hsize : sections.length = verifier.types.size
  · have hpos : 0 < verifier.types.size := hsize ▸ List.length_pos_of_ne_nil hempty
    have htype := Array.getElem?_eq_getElem hpos
    by_cases hentry : verifier.types[0].inputs = 0 ∧ verifier.types[0].outputs = 0
    · exact Or.inl ⟨hsize, _, htype, hentry⟩
    · exact Or.inr ⟨_, .entryType hempty hsize htype hentry⟩
  · exact Or.inr ⟨_, .sectionCount hempty hsize⟩

/-! ## One function after the other -/

/-- What verification comes to. -/
inductive Verdict (verifier : Verifier) (sections : List Code) :
    Except ContainerError Report → Prop
  | misfit {e : ContainerError} (h : verifier.Misfit sections e) :
      Verdict verifier sections (.error e)
  /-- The function is refused, and none before it is. -/
  | refused {id : Nat} {code : Code} {e : ContainerError} (hlayout : verifier.WellLaidOut sections)
      (hcode : sections[id]? = some code) (hrefuses : verifier.Refuses id code e)
      (hbefore : ∀ id' < id, ∀ code', sections[id']? = some code' →
        ∃ height, verifier.Accepts id' code' height) :
      Verdict verifier sections (.error e)
  /-- No function is refused. -/
  | accepted {heights : List Nat} (hlayout : verifier.WellLaidOut sections)
      (hlength : heights.length = sections.length)
      (haccepts : ∀ (id : Nat) (code : Code), sections[id]? = some code →
        ∃ height, heights[id]? = some height ∧ verifier.Accepts id code height) :
      Verdict verifier sections (.ok ⟨heights⟩)

private theorem getElem?_zipIdx_eq_some {sections : List Code} {k id : Nat} {code : Code} :
    sections.zipIdx[k]? = some (code, id) ↔ sections[k]? = some code ∧ id = k := by
  rw [List.getElem?_zipIdx, Nat.zero_add, Option.map_eq_some_iff]
  constructor
  · rintro ⟨code', hcode, heq⟩
    cases heq
    exact ⟨hcode, rfl⟩
  · rintro ⟨hcode, rfl⟩
    exact ⟨code, hcode, rfl⟩

theorem heightsOf_eq_error_iff {sections : List Code} {e : ContainerError} :
    heightsOf (verifier.resultsFrom 0 sections) = .error e ↔
      ∃ (id : Nat) (code : Code), sections[id]? = some code ∧ verifier.Refuses id code e ∧
        ∀ id' < id, ∀ code', sections[id']? = some code' →
          ∃ height, verifier.Accepts id' code' height := by
  rw [heightsOf_resultsFrom, mapM_eq_error_iff]
  constructor
  · rintro ⟨k, ⟨code, id⟩, hitem, hfail, hbefore⟩
    obtain ⟨hcode, rfl⟩ := getElem?_zipIdx_eq_some.mp hitem
    refine ⟨id, code, hcode, verifyFunction_eq_error_iff.mp hfail, fun id' hlt code' hcode' => ?_⟩
    obtain ⟨height, hheight⟩ := hbefore id' hlt _ (getElem?_zipIdx_eq_some.mpr ⟨hcode', rfl⟩)
    exact ⟨height, verifyFunction_eq_ok_iff.mp hheight⟩
  · rintro ⟨id, code, hcode, hrefuses, hbefore⟩
    refine ⟨id, (code, id), getElem?_zipIdx_eq_some.mpr ⟨hcode, rfl⟩, hrefuses.verifyFunction_eq, ?_⟩
    rintro id' hlt ⟨code', id''⟩ hitem
    obtain ⟨hcode', rfl⟩ := getElem?_zipIdx_eq_some.mp hitem
    obtain ⟨height, haccepts⟩ := hbefore id'' hlt code' hcode'
    exact ⟨height, haccepts.verifyFunction_eq⟩

theorem heightsOf_eq_ok_iff {sections : List Code} {heights : List Nat} :
    heightsOf (verifier.resultsFrom 0 sections) = .ok heights ↔
      heights.length = sections.length ∧
        ∀ (id : Nat) (code : Code), sections[id]? = some code →
          ∃ height, heights[id]? = some height ∧ verifier.Accepts id code height := by
  constructor
  · intro h
    refine ⟨?_, fun id code hcode => ?_⟩
    · rw [heightsOf_resultsFrom, mapM_eq_ok_iff] at h
      rw [← h.length_eq, List.length_zipIdx]
    · obtain ⟨height, hheight, hverify⟩ := getElem?_of_heightsOf h hcode
      rw [Nat.zero_add] at hverify
      exact ⟨height, hheight, verifyFunction_eq_ok_iff.mp hverify⟩
  · rintro ⟨hlength, haccepts⟩
    rw [heightsOf_resultsFrom, mapM_eq_ok_iff, List.forall₂_iff_get]
    refine ⟨by rw [List.length_zipIdx, hlength], fun id hid hid' => ?_⟩
    rw [List.length_zipIdx] at hid
    obtain ⟨height, hheight, haccept⟩ := haccepts id _ (List.getElem?_eq_getElem hid)
    obtain ⟨_, rfl⟩ := List.getElem?_eq_some_iff.mp hheight
    simpa using haccept.verifyFunction_eq

theorem verify_of_wellLaidOut {sections : List Code} (h : verifier.WellLaidOut sections) :
    verifier.verify sections =
      (heightsOf (verifier.resultsFrom 0 sections)).map Report.mk :=
  verify_of_checkLayout (checkLayout_eq_ok_iff.mpr h)

theorem verify_of_misfit {sections : List Code} {e : ContainerError}
    (h : verifier.Misfit sections e) : verifier.verify sections = .error e :=
  verify_of_checkLayout_eq_error h.checkLayout_eq

/-- Verification comes to its verdict, and to no other. -/
theorem verify_eq_iff {sections : List Code} {verdict : Except ContainerError Report} :
    verifier.verify sections = verdict ↔ verifier.Verdict sections verdict := by
  constructor
  · rintro rfl
    rcases verifier.wellLaidOut_or_misfit sections with hlayout | ⟨e, hmisfit⟩
    · rw [verify_of_wellLaidOut hlayout]
      cases hheights : heightsOf (verifier.resultsFrom 0 sections) with
      | error e =>
          obtain ⟨id, code, hcode, hrefuses, hbefore⟩ := heightsOf_eq_error_iff.mp hheights
          exact .refused hlayout hcode hrefuses hbefore
      | ok heights =>
          obtain ⟨hlength, haccepts⟩ := heightsOf_eq_ok_iff.mp hheights
          exact .accepted hlayout hlength haccepts
    · rw [verify_of_misfit hmisfit]
      exact .misfit hmisfit
  · intro h
    cases h with
    | misfit hmisfit => exact verify_of_misfit hmisfit
    | refused hlayout hcode hrefuses hbefore =>
        rw [verify_of_wellLaidOut hlayout,
          heightsOf_eq_error_iff.mpr ⟨_, _, hcode, hrefuses, hbefore⟩]
        rfl
    | accepted hlayout hlength haccepts =>
        rw [verify_of_wellLaidOut hlayout, heightsOf_eq_ok_iff.mpr ⟨hlength, haccepts⟩]
        rfl

/-! ## All functions at a time -/

section Slots

variable {size : Nat} {result : Fin size → Result}

/-- Every function that has been completed has left its result in its own place, whatever was
completed before it or after it, and no other place is filled. -/
theorem result?_ofCompletions {completed : List (Fin size)} {id : Fin size} {found : Result} :
    (Slots.ofCompletions (completed.map fun id => (id, result id))).result? id = some found ↔
      id ∈ completed ∧ result id = found := by
  induction completed using List.reverseRecOn with
  | nil => simp [Slots.ofCompletions, Slots.result?]
  | append_singleton completed other ih =>
      have hstore : Slots.ofCompletions ((completed ++ [other]).map fun id => (id, result id)) =
          (Slots.ofCompletions (completed.map fun id => (id, result id))).store
            (other, result other) := by
        simp only [Slots.ofCompletions, List.map_append, List.map_singleton, List.foldl_concat]
      rw [hstore, Slots.result?_store, List.mem_append, List.mem_singleton]
      by_cases heq : other = id
      · subst heq
        simp
      · rw [if_neg heq, ih, or_iff_left (Ne.symm heq)]

/-- The results are collected in the order of the ids. -/
theorem collect_eq (completed : List (Fin size))
    (h : ∀ id, id ∈ (completed.map fun id => (id, result id)).map Prod.fst) :
    collect (completed.map fun id => (id, result id)) h = (List.finRange size).map result := by
  refine List.map_congr_left fun id _ => Option.get_of_eq_some _ ?_
  have hmem : id ∈ completed := by simpa using h id
  exact result?_ofCompletions.mpr ⟨hmem, rfl⟩

end Slots

/-- Whatever order functions are completed in, the verdict is the one of verifying them one after
the other. -/
theorem verifyCompleting_eq_verify (sections : List Code) (schedule : Schedule sections.length) :
    (verifier.verifyCompleting sections schedule).verdict = verifier.verify sections := by
  cases hlayout : verifier.checkLayout sections with
  | error e =>
      rw [verify_of_checkLayout_eq_error hlayout]
      simp only [verifyCompleting, hlayout]
  | ok =>
      have hids : sections.zipIdx =
          (List.finRange sections.length).map fun id => (sections.get id, id.val) :=
        List.ext_getElem (by simp) fun id _ _ => by simp
      rw [verify_of_checkLayout hlayout, heightsOf_resultsFrom, hids, List.mapM_map]
      simp only [verifyCompleting, hlayout, Outcome.ofResults, completions, collect_eq, heightsOf,
        List.mapM_map]
      rfl

/-- Verifying all functions at a time comes to what verifying them one after the other does,
whatever order they are completed in, and `Verdict` says what that is.  In particular no container
with a function that fails is accepted. -/
theorem verdict_of_verifyParallel (verifier : Verifier) (sections : List Code) :
    verifier.verifyParallel sections = verifier.verify sections ∧
    (∀ schedule,
      (verifier.verifyCompleting sections schedule).verdict = verifier.verify sections) ∧
    (∀ verdict, verifier.verify sections = verdict ↔ verifier.Verdict sections verdict) ∧
    ¬ ∃ report id code e, verifier.verify sections = .ok report ∧
      sections[id]? = some code ∧ verifier.verifyFunction id code = .error e := by
  refine ⟨verifyCompleting_eq_verify _ _, fun schedule => verifyCompleting_eq_verify _ _,
    fun verdict => verify_eq_iff, ?_⟩
  rintro ⟨report, id, code, e, hverify, hcode, hfail⟩
  cases verify_eq_iff.mp hverify with
  | accepted _ _ haccepts =>
      obtain ⟨height, -, haccept⟩ := haccepts id code hcode
      cases haccept.verifyFunction_eq.symm.trans hfail

end EofStack.Verifier
