import EofStack.Proofs.Stack.FirstPath
import EofStack.Proofs.Stack.Soundness
import EofStack.Proofs.Structured.Heights
import EofStack.Proofs.Structured.Shape

/-!
# What segments do

Three facts about rows that are those of segments, each by induction on their shape:

* they are balanced from an empty stack to an empty stack, and the peak bounds their heights
  (`Shaped.balanced`);
* a walk that goes on at once goes through them to their end (`Shaped.falls`);
* the stack gets as high as the peak, if execution arrives at them (`Shaped.attained`).
-/

namespace EofStack.Structured

open Assembly Stack

variable {labels : Labels} {code : Code} {rows others : List Row} {offset stop peak : Nat}

/-! ## Balance -/

section

variable {bound : Nat}

theorem balanced_pushes {height : Nat} (count : Nat) (hle : height + count ≤ bound) :
    Balanced bound height (List.replicate count (.command .push)) (height + count) := by
  induction count generalizing height with
  | zero => exact .nil
  | succ count ih =>
      have hrest : Balanced bound (height + 1) (List.replicate count (.command .push))
          (height + 1 + count) := ih (by omega)
      rw [Nat.add_assoc, Nat.add_comm 1 count] at hrest
      have hchange : ((height + 1 : Nat) : Int) = height + Command.push.effect.change := rfl
      exact .command nofun (Nat.zero_le _) hchange (absurd rfl) (by omega) (by omega) hrest

theorem balanced_adds (count : Nat) (hle : count + 1 ≤ bound) :
    Balanced bound (count + 1) (List.replicate count (.command .add)) 1 := by
  induction count with
  | zero => exact .nil
  | succ count ih =>
      refine .command nofun ?_ ?_ (absurd rfl) (by omega) (by omega) (ih (by omega))
      · show 2 ≤ count + 1 + 1
        omega
      · show ((count + 1 : Nat) : Int) = (count + 1 + 1 : Nat) + (-1)
        omega

theorem balanced_push (hle : 1 ≤ bound) : Balanced bound 0 [.command .push] 1 :=
  .command nofun (Nat.le_refl 0) rfl (absurd rfl) (Nat.zero_le _) hle .nil

/-- A command that finds one item and leaves none. -/
theorem balanced_drop {c : Command} (heffect : c.effect = ⟨1, -1⟩) (hle : 1 ≤ bound) :
    Balanced bound 1 [.command c] 0 := by
  refine .command ?_ ?_ ?_ (fun _ => rfl) hle (Nat.zero_le _) .nil
  · rintro rfl
    cases heffect
  · rw [heffect]
  · rw [heffect]
    rfl

theorem balanced_jump (target : Label) : Balanced bound 0 [.command (.jump target)] 0 :=
  .command nofun (Nat.le_refl 0) rfl (fun _ => rfl) (Nat.zero_le _) (Nat.zero_le _) .nil

theorem balanced_mark (label : Label) : Balanced bound 0 [.mark label] 0 :=
  .mark .nil

theorem balanced_arms (taken join : Label) {directRows takenRows : List Row} (hle : 1 ≤ bound)
    (hdirect : Balanced bound 0 directRows 0) (htaken : Balanced bound 0 takenRows 0) :
    Balanced bound 0 (armRows taken join directRows takenRows) 0 := by
  have hbranch : Balanced bound 1 [.command (.branch taken)] 0 := balanced_drop rfl hle
  have hmiddle : Balanced bound 0 [.command (.jump join), .mark taken] 0 :=
    (balanced_jump join).append (balanced_mark taken)
  exact ((((balanced_push hle).append hbranch).append hdirect).append hmiddle).append htaken

theorem balanced_cases (join : Label) {cases : List Case}
    (h : ∀ c ∈ cases, Balanced bound 0 c.rows 0) :
    Balanced bound 0 (cases.flatMap fun c => caseRows join c.label c.rows) 0 := by
  induction cases with
  | nil => exact .nil
  | cons c cases ih =>
      rw [List.forall_mem_cons] at h
      rw [List.flatMap_cons]
      have hcase := ((balanced_mark c.label).append h.1).append (balanced_jump join)
      exact hcase.append (ih h.2)

end

theorem le_foldr_peak {c : Case} {cases : List Case} (h : c ∈ cases) :
    c.peak ≤ cases.foldr (fun c peak => max c.peak peak) 0 := by
  induction cases with
  | nil => cases h
  | cons head cases ih =>
      rcases List.mem_cons.mp h with rfl | h
      · exact Nat.le_max_left _ _
      · exact Nat.le_trans (ih h) (Nat.le_max_right _ _)

/-- Segments find the stack empty and leave it empty, and their peak bounds all heights. -/
theorem Shaped.balanced (h : Shaped rows peak) : Balanced peak 0 rows 0 := by
  induction h with
  | nil => exact .nil
  | append _ _ ihrows ihothers =>
      exact (ihrows.mono (Nat.le_max_left _ _)).append (ihothers.mono (Nat.le_max_right _ _))
  | arithmetic additions =>
      have hpushes : Balanced (additions + 1) 0 _ (0 + (additions + 1)) :=
        balanced_pushes (additions + 1) (by omega)
      rw [Nat.zero_add] at hpushes
      have hpop : Balanced (additions + 1) 1 [.command .pop] 0 :=
        balanced_drop rfl (Nat.le_add_left _ _)
      exact (hpushes.append (balanced_adds additions (Nat.le_refl _))).append hpop
  | call =>
      have hpushes : Balanced 2 0 [.command .push, .command .push] 2 := balanced_pushes 2 (by decide)
      have hcall : Balanced 2 2 [.command .call] 1 :=
        .command nofun (Nat.le_refl 2) rfl (absurd rfl) (by decide) (by decide) .nil
      exact (hpushes.append hcall).append (balanced_drop rfl (by decide))
  | @branch taken join _ _ peak peak' _ _ ihdirect ihtaken =>
      have hdirect : peak ≤ max 1 (max peak peak') := by omega
      have htaken : peak' ≤ max 1 (max peak peak') := by omega
      have harms := balanced_arms taken join (Nat.le_max_left 1 _) (ihdirect.mono hdirect)
        (ihtaken.mono htaken)
      exact (harms.append .nil).append (balanced_mark join)
  | @loop head _ peak _ ih =>
      have hone := Nat.le_max_left 1 peak
      have hbranch := (balanced_push hone).append (balanced_drop (c := .branch head) rfl hone)
      exact ((balanced_mark head).append (ih.mono (Nat.le_max_right 1 peak))).append hbranch
  | @table join cases _ ih =>
      let peak := cases.foldr (fun c peak => max c.peak peak) 0
      have hone : 1 ≤ max 1 peak := Nat.le_max_left 1 peak
      have htable := ((balanced_push hone).append
        (balanced_drop (c := .table (cases.map Case.label)) rfl hone)).append (balanced_jump join)
      have hcases := balanced_cases join fun c hc =>
        (ih c hc).mono (Nat.le_trans (le_foldr_peak hc) (Nat.le_max_right 1 peak))
      exact (htable.append hcases).append (balanced_mark join)

/-! ## Single commands -/

section

variable {height target : Nat} {c : Command}

theorem falls_command (h : Laid labels code offset [.command c] stop)
    (hflow : c.opcode.isTerminating = false) {height' : Nat} (henough : c.effect.required ≤ height)
    (hheight : (height' : Int) = height + c.effect.change) :
    Falls (body code) offset height stop height' := by
  cases h with
  | @command _ _ i _ _ hdecode hruns hrest =>
      cases hrest
      have hlt := i.offset_lt_next
      rw [Code.offset_of_decodeAt hdecode] at hlt
      have hsafe : Safe (body code) i c.effect height := by
        refine hruns.safe henough ?_
        rintro rfl
        cases hflow
      have hfirst : First i i.next := .next (by rw [hruns.opcode, hflow])
      exact .step hdecode hruns.hasEffect hsafe hheight hfirst hlt .refl

theorem falls_push (h : Laid labels code offset [.command .push] stop) :
    Falls (body code) offset height stop (height + 1) :=
  falls_command h rfl (Nat.zero_le _) rfl

theorem falls_drop (h : Laid labels code offset [.command c] stop)
    (hflow : c.opcode.isTerminating = false) (heffect : c.effect = ⟨1, -1⟩) :
    Falls (body code) offset (height + 1) stop height := by
  refine falls_command h hflow ?_ ?_
  · rw [heffect]
    exact Nat.le_add_left 1 height
  · rw [heffect]
    show (height : Int) = ((height + 1 : Nat) : Int) + (-1)
    omega

theorem falls_jump {label : Label} (h : Laid labels code offset [.command (.jump label)] stop)
    (hlookup : labels.lookup label.text = some target) (hle : stop ≤ target) :
    Falls (body code) offset 0 target 0 := by
  cases h with
  | @command _ _ i _ _ hdecode hruns hrest =>
      cases hrest
      have hlt := i.offset_lt_next
      rw [Code.offset_of_decodeAt hdecode] at hlt
      have hleads : Leads i target :=
        hruns.leads_iff.mpr (Or.inr ⟨label, List.mem_singleton_self label, hlookup⟩)
      have hfirst : First i target := .jump (by rw [hruns.opcode]; rfl) hleads
      have hsafe : Safe (body code) i _ 0 := hruns.safe (Nat.le_refl 0) nofun
      exact .step hdecode hruns.hasEffect hsafe rfl hfirst (Nat.lt_of_lt_of_le hlt hle) .refl

/-- A command that drops an item leads to each of its targets. -/
theorem reach_target (h : Laid labels code offset [.command c] stop) (heffect : c.effect = ⟨1, -1⟩)
    {label : Label} (hmem : label ∈ c.targets) (hlookup : labels.lookup label.text = some target)
    (hreach : Reach (body code) offset 1) : Reach (body code) target 0 := by
  cases h with
  | command hdecode hruns =>
      have hleads := hruns.leads_iff.mpr (Or.inr ⟨label, hmem, hlookup⟩)
      refine .step hreach hdecode hruns.hasEffect ?_ ?_ hleads
      · rw [heffect]
      · rw [heffect]
        rfl

theorem attained_push (h : Laid labels code offset [.command .push] stop)
    (hreach : Reach (body code) offset height) : Attained (body code) (height + 1) := by
  cases h with
  | @command _ _ i _ _ hdecode hruns =>
      exact Or.inr ⟨offset, height, i, _, hreach, hdecode, hruns.hasEffect, rfl⟩

theorem falls_pushes {count : Nat}
    (h : Laid labels code offset (List.replicate count (.command .push)) stop) :
    Falls (body code) offset height stop (height + count) := by
  induction count generalizing offset height with
  | zero =>
      cases h
      exact .refl
  | succ count ih =>
      obtain ⟨middle, hpush, hrest⟩ := h.uncons
      have hfalls : Falls (body code) middle (height + 1) stop (height + 1 + count) := ih hrest
      rw [Nat.add_assoc, Nat.add_comm 1 count] at hfalls
      exact (falls_push hpush).trans hfalls

theorem falls_adds {count : Nat}
    (h : Laid labels code offset (List.replicate count (.command .add)) stop) :
    Falls (body code) offset (count + 1) stop 1 := by
  induction count generalizing offset with
  | zero =>
      cases h
      exact .refl
  | succ count ih =>
      obtain ⟨middle, hadd, hrest⟩ := h.uncons
      refine (falls_command hadd rfl ?_ ?_).trans (ih hrest)
      · show 2 ≤ count + 1 + 1
        omega
      · show ((count + 1 : Nat) : Int) = (count + 1 + 1 : Nat) + (-1)
        omega

end

/-! ## Branches and tables -/

/-- The arms of a branch, each at its offset. -/
structure LaidArms (labels : Labels) (code : Code) (taken join : Label)
    (directRows takenRows : List Row) (offset branchAt directAt jumpAt takenAt stop : Nat) :
    Prop where
  push : Laid labels code offset [.command .push] branchAt
  branch : Laid labels code branchAt [.command (.branch taken)] directAt
  direct : Laid labels code directAt directRows jumpAt
  jump : Laid labels code jumpAt [.command (.jump join)] takenAt
  mark : labels.lookup taken.text = some takenAt
  taken : Laid labels code takenAt takenRows stop

theorem exists_laidArms {taken join : Label} {directRows takenRows : List Row}
    (h : Laid labels code offset (armRows taken join directRows takenRows) stop) :
    ∃ branchAt directAt jumpAt takenAt, LaidArms labels code taken join directRows takenRows offset
      branchAt directAt jumpAt takenAt stop := by
  obtain ⟨takenAt, hfront, htaken⟩ := h.split
  obtain ⟨jumpAt, hfront, hend⟩ := hfront.split
  obtain ⟨directAt, hhead, hdirect⟩ := hfront.split
  obtain ⟨branchAt, hpush, hbranch⟩ := hhead.uncons
  obtain ⟨markAt, hjump, hmark⟩ := hend.uncons
  obtain ⟨hlookup, rfl⟩ := hmark.of_mark
  exact ⟨branchAt, directAt, jumpAt, markAt, hpush, hbranch, hdirect, hjump, hlookup, htaken⟩

namespace LaidArms

variable {taken join : Label} {directRows takenRows : List Row}
  {branchAt directAt jumpAt takenAt joinAt : Nat}

theorem falls_direct (h : LaidArms labels code taken join directRows takenRows offset branchAt
    directAt jumpAt takenAt stop) : Falls (body code) offset 0 directAt 0 :=
  (falls_push h.push).trans (falls_drop h.branch rfl rfl)

/-- A walk that goes on at once takes the first arm, and from there the jump to the join. -/
theorem falls_join (h : LaidArms labels code taken join directRows takenRows offset branchAt
    directAt jumpAt takenAt stop) (hdirect : Falls (body code) directAt 0 jumpAt 0)
    (hjoin : labels.lookup join.text = some joinAt) (hle : stop ≤ joinAt) :
    Falls (body code) offset 0 joinAt 0 :=
  (h.falls_direct.trans hdirect).trans (falls_jump h.jump hjoin (Nat.le_trans h.taken.le hle))

theorem reach_taken (h : LaidArms labels code taken join directRows takenRows offset branchAt
    directAt jumpAt takenAt stop) (hreach : Reach (body code) offset 0) :
    Reach (body code) takenAt 0 :=
  reach_target h.branch rfl (List.mem_singleton_self taken) h.mark ((falls_push h.push).reach hreach)

end LaidArms

/-- The parts of a jump table, each at its offset. -/
structure LaidTable (labels : Labels) (code : Code) (join : Label) (names : List Label)
    (cases : List Row) (offset tableAt jumpAt casesAt stop : Nat) : Prop where
  push : Laid labels code offset [.command .push] tableAt
  table : Laid labels code tableAt [.command (.table names)] jumpAt
  jump : Laid labels code jumpAt [.command (.jump join)] casesAt
  cases : Laid labels code casesAt cases stop
  mark : labels.lookup join.text = some stop

theorem exists_laidTable {join : Label} {names : List Label} {cases : List Row}
    (h : Laid labels code offset (tableRows join names cases) stop) :
    ∃ tableAt jumpAt casesAt,
      LaidTable labels code join names cases offset tableAt jumpAt casesAt stop := by
  obtain ⟨markAt, hfront, hmark⟩ := h.split
  obtain ⟨hlookup, rfl⟩ := hmark.of_mark
  obtain ⟨casesAt, hfront, hcases⟩ := hfront.split
  obtain ⟨tableAt, hpush, hrest⟩ := hfront.uncons
  obtain ⟨jumpAt, htable, hjump⟩ := hrest.uncons
  exact ⟨tableAt, jumpAt, casesAt, hpush, htable, hjump, hcases, hlookup⟩

/-- Each case stands at the offset that its label stands for. -/
theorem exists_laid_of_mem {join : Label} {cases : List Case}
    (h : Laid labels code offset (cases.flatMap fun c => caseRows join c.label c.rows) stop)
    {c : Case} (hc : c ∈ cases) :
    ∃ caseAt caseStop, labels.lookup c.label.text = some caseAt ∧
      Laid labels code caseAt c.rows caseStop := by
  induction cases generalizing offset with
  | nil => cases hc
  | cons head cases ih =>
      rw [List.flatMap_cons] at h
      obtain ⟨middle, hhead, hrest⟩ := h.split
      rcases List.mem_cons.mp hc with rfl | hc
      · obtain ⟨jumpAt, hfront, -⟩ := hhead.split
        obtain ⟨markAt, hmark, hrows⟩ := hfront.uncons
        obtain ⟨hlookup, -⟩ := hmark.of_mark
        exact ⟨markAt, jumpAt, hlookup, hrows⟩
      · exact ih hrest hc

/-! ## Falling through segments -/

/-- A walk that goes on at once goes through segments to their end. -/
theorem Shaped.falls (h : Shaped rows peak) (hlaid : Laid labels code offset rows stop) :
    Falls (body code) offset 0 stop 0 := by
  induction h generalizing offset stop with
  | nil =>
      cases hlaid
      exact .refl
  | append _ _ ihrows ihothers =>
      obtain ⟨middle, hrows, hothers⟩ := hlaid.split
      exact (ihrows hrows).trans (ihothers hothers)
  | arithmetic additions =>
      obtain ⟨popAt, hfront, hpop⟩ := hlaid.split
      obtain ⟨addsAt, hpushes, hadds⟩ := hfront.split
      have hfalls : Falls (body code) offset 0 addsAt (0 + (additions + 1)) := falls_pushes hpushes
      rw [Nat.zero_add] at hfalls
      exact (hfalls.trans (falls_adds hadds)).trans (falls_drop hpop rfl rfl)
  | call =>
      obtain ⟨_, hfirst, hrest⟩ := hlaid.uncons
      obtain ⟨_, hsecond, hrest⟩ := hrest.uncons
      obtain ⟨_, hcall, hpop⟩ := hrest.uncons
      have hreturn : Falls (body code) _ 2 _ 1 := falls_command hcall rfl (Nat.le_refl 2) rfl
      exact (((falls_push hfirst).trans (falls_push hsecond)).trans hreturn).trans
        (falls_drop hpop rfl rfl)
  | branch taken join _ _ ihdirect _ =>
      obtain ⟨markAt, hfront, hmark⟩ := hlaid.split
      rw [List.append_nil] at hfront
      obtain ⟨hlookup, rfl⟩ := hmark.of_mark
      obtain ⟨_, _, _, _, harms⟩ := exists_laidArms hfront
      exact harms.falls_join (ihdirect harms.direct) hlookup (Nat.le_refl _)
  | loop head _ ih =>
      obtain ⟨pushAt, hfront, hback⟩ := hlaid.split
      obtain ⟨_, hmark, hbody⟩ := hfront.uncons
      obtain ⟨-, rfl⟩ := hmark.of_mark
      obtain ⟨_, hpush, hbranch⟩ := hback.uncons
      exact (ih hbody).trans ((falls_push hpush).trans (falls_drop hbranch rfl rfl))
  | table join =>
      obtain ⟨_, _, _, htable⟩ := exists_laidTable hlaid
      exact ((falls_push htable.push).trans (falls_drop htable.table rfl rfl)).trans
        (falls_jump htable.jump htable.mark htable.cases.le)

/-! ## How high the stack gets -/

theorem Attained.max {peak' : Nat} (h : Attained (body code) peak)
    (h' : Attained (body code) peak') : Attained (body code) (max peak peak') := by
  rcases Nat.le_total peak peak' with hle | hle
  · rwa [Nat.max_eq_right hle]
  · rwa [Nat.max_eq_left hle]

theorem attained_foldr {cases : List Case} (h : ∀ c ∈ cases, Attained (body code) c.peak) :
    Attained (body code) (cases.foldr (fun c peak => max c.peak peak) 0) := by
  induction cases with
  | nil => exact Or.inl rfl
  | cons c cases ih =>
      rw [List.forall_mem_cons] at h
      exact Attained.max h.1 (ih h.2)

/-- If execution arrives at segments, the stack gets as high as their peak. -/
theorem Shaped.attained (h : Shaped rows peak) (hlaid : Laid labels code offset rows stop)
    (hreach : Reach (body code) offset 0) : Attained (body code) peak := by
  induction h generalizing offset stop with
  | nil => exact Or.inl rfl
  | append hrows _ ihrows ihothers =>
      obtain ⟨middle, hlaid, hothers⟩ := hlaid.split
      exact Attained.max (ihrows hlaid hreach)
        (ihothers hothers ((hrows.falls hlaid).reach hreach))
  | arithmetic additions =>
      -- the last push is the highest
      obtain ⟨_, hfront, -⟩ := hlaid.split
      obtain ⟨_, hpushes, -⟩ := hfront.split
      rw [List.replicate_succ'] at hpushes
      obtain ⟨_, hpushes, hlast⟩ := hpushes.split
      have hfalls : Falls (body code) offset 0 _ (0 + additions) := falls_pushes hpushes
      rw [Nat.zero_add] at hfalls
      exact attained_push hlast (hfalls.reach hreach)
  | call =>
      obtain ⟨_, hfirst, hrest⟩ := hlaid.uncons
      obtain ⟨_, hsecond, -⟩ := hrest.uncons
      exact attained_push hsecond ((falls_push hfirst).reach hreach)
  | branch taken join _ _ ihdirect ihtaken =>
      obtain ⟨_, hfront, -⟩ := hlaid.split
      rw [List.append_nil] at hfront
      obtain ⟨_, _, _, _, harms⟩ := exists_laidArms hfront
      exact Attained.max (attained_push harms.push hreach)
        (Attained.max (ihdirect harms.direct (harms.falls_direct.reach hreach))
          (ihtaken harms.taken (harms.reach_taken hreach)))
  | loop head hbody ih =>
      obtain ⟨_, hfront, hback⟩ := hlaid.split
      obtain ⟨_, hmark, hlaid⟩ := hfront.uncons
      obtain ⟨-, rfl⟩ := hmark.of_mark
      obtain ⟨_, hpush, -⟩ := hback.uncons
      exact Attained.max (attained_push hpush ((hbody.falls hlaid).reach hreach)) (ih hlaid hreach)
  | @table join cases _ ih =>
      obtain ⟨_, _, _, htable⟩ := exists_laidTable hlaid
      refine Attained.max (attained_push htable.push hreach) ?_
      have hcase : ∀ c ∈ cases, Attained (body code) c.peak := by
        intro c hc
        obtain ⟨caseAt, caseStop, hlookup, hrows⟩ := exists_laid_of_mem htable.cases hc
        have hstart := reach_target htable.table rfl (List.mem_map_of_mem hc) hlookup
          ((falls_push htable.push).reach hreach)
        exact ih c hc hrows hstart
      exact attained_foldr hcase

end EofStack.Structured
