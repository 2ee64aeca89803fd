import EofStack.Proofs.Container.Verdict
import Mathlib.Data.List.Nodup
import Mathlib.Data.List.Perm.Basic

/-!
# What verification logs

The verdict on a container does not depend on how its functions are verified, but the log does.

* One after the other, verification gets no further than to the function that is reported.  So the
  log has this function, or nothing if it is for another reason that the container is refused
  (`warnings_verifyInTurn`).
* All at a time, every function whose code violates a rule is logged, once each
  (`mem_warnings_verifyCompleting`, `nodup_warnings_verifyCompleting`), and in any order
  (`exists_schedule`).

`Logs` describes both, without an order.  A container that is accepted leaves no trace in either.
-/

namespace EofStack.Verifier

variable {verifier : Verifier} {sections : List Code} {warning : Warning}

/-! ## Single functions -/

/-- The container gets as far as its functions, and the code of this one violates a rule. -/
def Rejects (verifier : Verifier) (sections : List Code) (warning : Warning) : Prop :=
  verifier.WellLaidOut sections ∧
    ∃ code, sections[warning.id]? = some code ∧
      verifier.validate warning.id code = .error warning.violation

theorem ofResult?_verifyFunction {id : Nat} {code : Code} :
    Warning.ofResult? (verifier.verifyFunction id code) = some warning ↔
      warning.id = id ∧ verifier.validate id code = .error warning.violation := by
  constructor
  · intro h
    rcases verifier.accepts_or_refuses id code with ⟨height, haccepts⟩ | ⟨e, hrefuses⟩
    · rw [haccepts.verifyFunction_eq] at h
      cases h
    · rw [hrefuses.verifyFunction_eq] at h
      cases hrefuses with
      | function hvalidate =>
          cases h
          exact ⟨rfl, hvalidate⟩
      | declaredHeight => cases h
  · rintro ⟨rfl, hvalidate⟩
    rw [(Refuses.function hvalidate).verifyFunction_eq]
    rfl

/-- No function of an accepted container violates a rule. -/
theorem not_rejects_of_verify {report : Report} (h : verifier.verify sections = .ok report) :
    ¬ verifier.Rejects sections warning := by
  rintro ⟨-, code, hcode, hvalidate⟩
  cases verify_eq_iff.mp h with
  | accepted _ _ haccepts =>
      obtain ⟨height, -, haccept⟩ := haccepts _ code hcode
      cases haccept.validate.symm.trans hvalidate

/-- A function that is reported for a violation is one that violates a rule. -/
theorem rejects_of_verify (h : Warning.ofResult? (verifier.verify sections) = some warning) :
    verifier.Rejects sections warning := by
  cases hverify : verifier.verify sections with
  | ok report => rw [hverify] at h; cases h
  | error e =>
      rw [hverify] at h
      cases verify_eq_iff.mp hverify with
      | misfit hmisfit => cases hmisfit <;> cases h
      | refused hlayout hcode hrefuses =>
          cases hrefuses with
          | function hvalidate =>
              cases h
              exact ⟨hlayout, _, hcode, hvalidate⟩
          | declaredHeight => cases h

/-! ## One function after the other -/

theorem ofResult?_map {α β : Type} (f : α → β) (result : Except ContainerError α) :
    Warning.ofResult? (result.map f) = Warning.ofResult? result := by
  cases result with
  | ok a => rfl
  | error e => cases e <;> rfl

/-- Of the results up to the first failure only the failure can be logged. -/
theorem filterMap_resultsFrom (id : Nat) (sections : List Code) :
    (verifier.resultsFrom id sections).filterMap Warning.ofResult? =
      (Warning.ofResult? (heightsOf (verifier.resultsFrom id sections))).toList := by
  induction sections generalizing id with
  | nil => rfl
  | cons code rest ih =>
      rw [resultsFrom]
      cases hcode : verifier.verifyFunction id code with
      | error e => cases e <;> rfl
      | ok height =>
          have hheights : heightsOf (.ok height :: verifier.resultsFrom (id + 1) rest) =
              (heightsOf (verifier.resultsFrom (id + 1) rest)).map (height :: ·) :=
            mapM_cons_except _ _
          rw [hheights, ofResult?_map, ← ih]
          rfl

/-- The function that is reported is the only one that is logged, if its code violates a rule. -/
theorem warnings_verifyInTurn (sections : List Code) :
    (verifier.verifyInTurn sections).warnings =
      (Warning.ofResult? (verifier.verify sections)).toList := by
  rcases verifier.wellLaidOut_or_misfit sections with hlayout | ⟨e, hmisfit⟩
  · rw [verify_of_wellLaidOut hlayout, ofResult?_map, ← filterMap_resultsFrom]
    simp only [verifyInTurn, checkLayout_eq_ok_iff.mpr hlayout]
    rfl
  · rw [verify_of_misfit hmisfit]
    simp only [verifyInTurn, hmisfit.checkLayout_eq]
    cases hmisfit <;> rfl

/-! ## All functions at a time -/

theorem warnings_verifyCompleting_of_misfit {e : ContainerError}
    (h : verifier.Misfit sections e) (schedule : Schedule sections.length) :
    (verifier.verifyCompleting sections schedule).warnings = [] := by
  simp only [verifyCompleting, h.checkLayout_eq]

theorem warnings_verifyCompleting (h : verifier.WellLaidOut sections)
    (schedule : Schedule sections.length) :
    (verifier.verifyCompleting sections schedule).warnings =
      schedule.order.filterMap fun id : Fin sections.length =>
        Warning.ofResult? (verifier.verifyFunction id (sections.get id)) := by
  simp only [verifyCompleting, checkLayout_eq_ok_iff.mpr h, Outcome.ofResults, completions,
    List.filterMap_map]
  rfl

/-- Every function whose code violates a rule is logged, and no other. -/
theorem mem_warnings_verifyCompleting (schedule : Schedule sections.length) :
    warning ∈ (verifier.verifyCompleting sections schedule).warnings ↔
      verifier.Rejects sections warning := by
  rcases verifier.wellLaidOut_or_misfit sections with hlayout | ⟨e, hmisfit⟩
  · rw [warnings_verifyCompleting hlayout, List.mem_filterMap]
    constructor
    · rintro ⟨id, -, hwarning⟩
      obtain ⟨hid, hvalidate⟩ := ofResult?_verifyFunction.mp hwarning
      refine ⟨hlayout, sections.get id, ?_, ?_⟩
      · rw [hid]
        exact List.getElem?_eq_getElem id.isLt
      · rw [hid]
        exact hvalidate
    · rintro ⟨-, code, hcode, hvalidate⟩
      obtain ⟨hid, rfl⟩ := List.getElem?_eq_some_iff.mp hcode
      exact ⟨⟨_, hid⟩, schedule.complete _, ofResult?_verifyFunction.mpr ⟨rfl, hvalidate⟩⟩
  · rw [warnings_verifyCompleting_of_misfit hmisfit]
    refine iff_of_false List.not_mem_nil fun ⟨hlayout, _⟩ => ?_
    cases (checkLayout_eq_ok_iff.mpr hlayout).symm.trans hmisfit.checkLayout_eq

/-- No function is logged twice. -/
theorem nodup_warnings_verifyCompleting (schedule : Schedule sections.length) :
    (verifier.verifyCompleting sections schedule).warnings.Nodup := by
  rcases verifier.wellLaidOut_or_misfit sections with hlayout | ⟨e, hmisfit⟩
  · rw [warnings_verifyCompleting hlayout]
    refine schedule.nodup.filterMap fun id id' warning hid hid' => Fin.ext ?_
    exact (ofResult?_verifyFunction.mp hid).1.symm.trans (ofResult?_verifyFunction.mp hid').1
  · rw [warnings_verifyCompleting_of_misfit hmisfit]
    exact List.nodup_nil

/-- The kept items can be put in any order by putting all of them in some order. -/
theorem exists_perm_filterMap {α β : Type} {f : α → Option β} {items : List α} {kept : List β}
    (h : kept.Perm (items.filterMap f)) :
    ∃ items' : List α, items'.Perm items ∧ items'.filterMap f = kept := by
  induction kept generalizing items with
  | nil => exact ⟨items, .refl _, h.nil_eq.symm⟩
  | cons first kept ih =>
      obtain ⟨item, hitem, hfirst⟩ :=
        List.mem_filterMap.mp (h.subset List.mem_cons_self)
      -- the item of the first one is taken to the front
      obtain ⟨before, after, rfl⟩ := List.append_of_mem hitem
      have hfront : (before ++ item :: after).Perm (item :: (before ++ after)) :=
        List.perm_middle
      have hrest := h.trans (hfront.filterMap f)
      rw [List.filterMap_cons_some hfirst] at hrest
      obtain ⟨rest, hperm, hkept⟩ := ih hrest.cons_inv
      exact ⟨item :: rest, (hperm.cons item).trans hfront.symm,
        by rw [List.filterMap_cons_some hfirst, hkept]⟩

/-- Whatever the order is in which they are listed, the functions can be completed so that they are
logged in that order. -/
theorem exists_schedule {warnings : List Warning} (hnodup : warnings.Nodup)
    (hmem : ∀ warning, warning ∈ warnings ↔ verifier.Rejects sections warning) :
    ∃ schedule, (verifier.verifyCompleting sections schedule).warnings = warnings := by
  let inOrder := Schedule.inOrder sections.length
  have hperm : warnings.Perm (verifier.verifyCompleting sections inOrder).warnings := by
    refine (List.perm_ext_iff_of_nodup hnodup (nodup_warnings_verifyCompleting inOrder)).mpr ?_
    exact fun warning => (hmem warning).trans (mem_warnings_verifyCompleting inOrder).symm
  rcases verifier.wellLaidOut_or_misfit sections with hlayout | ⟨e, hmisfit⟩
  · rw [warnings_verifyCompleting hlayout] at hperm
    obtain ⟨order, horder, hwarnings⟩ := exists_perm_filterMap hperm
    refine ⟨⟨order, horder.nodup_iff.mpr inOrder.nodup,
      fun id => horder.mem_iff.mpr (inOrder.complete id)⟩, ?_⟩
    rw [warnings_verifyCompleting hlayout, hwarnings]
  · rw [warnings_verifyCompleting_of_misfit hmisfit] at hperm
    exact ⟨inOrder, (warnings_verifyCompleting_of_misfit hmisfit _).trans hperm.eq_nil.symm⟩

/-! ## Both -/

/-- What can be logged of a container, if its functions are verified one after the other or, as the
flag says, all at a time. -/
inductive Logs (verifier : Verifier) (sections : List Code) : Bool → List Warning → Prop
  | inTurn : Logs verifier sections false (Warning.ofResult? (verifier.verify sections)).toList
  | atOnce {warnings : List Warning} (hnodup : warnings.Nodup)
      (hmem : ∀ warning, warning ∈ warnings ↔ verifier.Rejects sections warning) :
      Logs verifier sections true warnings

namespace Logs

variable {parallel : Bool} {warnings warnings' : List Warning}

theorem rejects (h : verifier.Logs sections parallel warnings) (hwarning : warning ∈ warnings) :
    verifier.Rejects sections warning := by
  cases h with
  | inTurn => exact rejects_of_verify (Option.mem_toList.mp hwarning)
  | atOnce _ hmem => exact (hmem warning).mp hwarning

/-- What is logged in either way is logged if all functions are verified at a time. -/
theorem subset (h : verifier.Logs sections parallel warnings)
    (h' : verifier.Logs sections true warnings') : warnings ⊆ warnings' := by
  intro warning hwarning
  cases h' with
  | atOnce _ hmem => exact (hmem warning).mpr (h.rejects hwarning)

/-- Of an accepted container nothing is logged. -/
theorem eq_nil {report : Report} (h : verifier.Logs sections parallel warnings)
    (hverify : verifier.verify sections = .ok report) : warnings = [] :=
  List.eq_nil_iff_forall_not_mem.mpr fun _ hwarning =>
    not_rejects_of_verify hverify (h.rejects hwarning)

end Logs

end EofStack.Verifier
