import EofStack.Proofs.Structured.Program
import Mathlib.Data.List.Basic

/-!
# The shape of structured programs

`Shaped` says that rows are those of segments, with any labels whatever.  It is what the proofs
about structured programs go by induction on, once and for all instead of the three recursions of
the emitter.
-/

namespace EofStack.Structured

open Command Row

/-- A case of a jump table. -/
structure Case where
  label : Label
  rows : List Row
  peak : Nat

/-- The rows are those of segments with the given peak. -/
inductive Shaped : List Row → Nat → Prop
  | nil : Shaped [] 0
  | append {rows others : List Row} {peak peak' : Nat} (hrows : Shaped rows peak)
      (hothers : Shaped others peak') : Shaped (rows ++ others) (max peak peak')
  | arithmetic (additions : Nat) : Shaped (arithmeticRows additions) (additions + 1)
  | call : Shaped callRows 2
  | branch (taken join : Label) {directRows takenRows : List Row} {peak peak' : Nat}
      (hdirect : Shaped directRows peak) (htaken : Shaped takenRows peak') :
      Shaped (branchRows taken join directRows takenRows []) (max 1 (max peak peak'))
  | loop (head : Label) {body : List Row} {peak : Nat} (hbody : Shaped body peak) :
      Shaped (loopRows head body) (max 1 peak)
  | table (join : Label) {cases : List Case} (hcases : ∀ c ∈ cases, Shaped c.rows c.peak) :
      Shaped (tableRows join (cases.map Case.label)
          (cases.flatMap fun c => caseRows join c.label c.rows))
        (max 1 (cases.foldr (fun c peak => max c.peak peak) 0))

/-- As many labels are asked for as there are items. -/
theorem length_mapM_fresh {α : Type} (stem : Stem) (items : List α) (number : Nat) :
    ((items.mapM fun _ => fresh stem) number).1.length = items.length := by
  induction items generalizing number with
  | nil => rfl
  | cons item items ih =>
      rw [List.mapM_cons]
      exact congrArg (· + 1) (ih (number + 1))

mutual

theorem Segment.shaped_emit (segment : Segment) (number : Nat) :
    Shaped (segment.emit number).1 segment.peak := by
  cases segment with
  | arithmetic additions => exact .arithmetic additions
  | call => exact .call
  | branch direct taken =>
      exact .branch _ _ (shaped_emitAll direct _) (shaped_emitAll taken _)
  | loop body => exact .loop _ (shaped_emitAll body _)
  | table cases =>
      have hlength := length_mapM_fresh .case cases number
      let asked := (cases.mapM fun _ => fresh .case) number
      let join : Label := ⟨.join, asked.2 + 1⟩
      obtain ⟨shaped, hshaped, hnames, hrows, hpeak⟩ :=
        exists_cases cases hlength join (asked.2 + 1)
      have htable := Shaped.table join hshaped
      rw [← hnames, ← hrows, ← hpeak] at htable
      exact htable

theorem shaped_emitAll (segments : List Segment) (number : Nat) :
    Shaped (emitAll segments number).1 (peakAll segments) := by
  cases segments with
  | nil => exact .nil
  | cons segment segments => exact .append (segment.shaped_emit _) (shaped_emitAll segments _)

theorem exists_cases (cases : List (List Segment)) {names : List Label}
    (hlength : names.length = cases.length) (join : Label) (number : Nat) :
    ∃ shaped : List Case, (∀ c ∈ shaped, Shaped c.rows c.peak) ∧ names = shaped.map Case.label ∧
      (emitCases join names cases number).1 =
        shaped.flatMap (fun c => caseRows join c.label c.rows) ∧
      peakCases cases = shaped.foldr (fun c peak => max c.peak peak) 0 := by
  cases cases with
  | nil =>
      obtain rfl := List.eq_nil_of_length_eq_zero hlength
      exact ⟨[], by simp, rfl, rfl, rfl⟩
  | cons segments cases =>
      obtain ⟨name, names, rfl⟩ := List.exists_cons_of_length_eq_add_one hlength
      obtain ⟨shaped, hshaped, hnames, hrows, hpeak⟩ := exists_cases cases
        (Nat.succ.inj hlength) join (emitAll segments number).2
      refine ⟨⟨name, (emitAll segments number).1, peakAll segments⟩ :: shaped, ?_, ?_, ?_, ?_⟩
      · exact List.forall_mem_cons.mpr ⟨shaped_emitAll segments number, hshaped⟩
      · rw [List.map_cons, hnames]
      · rw [List.flatMap_cons, ← hrows]
        rfl
      · rw [List.foldr_cons, ← hpeak]
        rfl

end

end EofStack.Structured
