import EofStack.Proofs.Stack.Rejection
import Mathlib.Data.Finset.Card
import Mathlib.Data.Multiset.Basic
import Mathlib.Logic.Relation

/-!
# Walks in any order

`Body.walk` deals with arrivals in a fixed order.  A free walk keeps them in a multiset and may
take any of them next, so that it stands for every way of scheduling the same work.  Two free
walks can record different heights at the same offset and run into different violations; yet all
of them come to the same verdict as validation, with the same greatest height.

## Strategy

Runs in different orders do not simulate each other, so each is compared with what execution can
reach.  `IsPeak` says what an accepted function satisfies without mentioning a walk, and no more
than one height satisfies it.  A verdict that is an `IsPeak` or a `Flaw` of the code is therefore
determined by the code (`eq_ok_iff_isPeak`), and it remains to see that the verdict of a free walk
is one or the other.

A step of a free walk is a step of a walk whose agenda has been rearranged (`Follows`), and
rearranging an agenda keeps the invariant of the walk (`Invariant.rearrange`).  So free walks
inherit the invariant, and with it everything that was concluded from it.
-/

namespace EofStack.Stack

/-! ## Free walks -/

/-- The state of a walk that may deal with its arrivals in any order. -/
structure FreeWalk where
  /-- The arrivals to be dealt with. -/
  pending : Multiset Arrival
  /-- The height that each offset was first reached with. -/
  record : Nat → Option Nat
  /-- The greatest height so far. -/
  peak : Nat

/-- The arrivals that follow an instruction, one for each of its successors. -/
def Exits.arrivals (exits : Exits) : Multiset Arrival :=
  (exits.successors.map fun offset => ⟨offset, exits.height⟩ : List Arrival)

namespace FreeWalk

/-- The free walk that is about to enter the code with `height` items on the stack. -/
def start (height : Nat) : FreeWalk where
  pending := {⟨0, height⟩}
  record _ := none
  peak := height

/-- Some pending arrival is taken: it is dropped if its offset has the same height already, and
otherwise the instruction there is visited. -/
inductive Step (body : Body) (walk : FreeWalk) : FreeWalk → Prop
  | drop {arrival : Arrival} {rest : Multiset Arrival} (htake : walk.pending = arrival ::ₘ rest)
      (hrecord : walk.record arrival.offset = some arrival.height) :
      Step body walk { walk with pending := rest }
  | visit {arrival : Arrival} {rest : Multiset Arrival} {i : Instruction} {e : Effect}
      {exits : Exits} (htake : walk.pending = arrival ::ₘ rest)
      (hrecord : walk.record arrival.offset = none)
      (hinspect : body.inspect arrival.offset = .ok (i, e))
      (hexecute : body.execute i e arrival.height = .ok exits) :
      Step body walk
        { pending := exits.arrivals + rest
          record := Function.update walk.record arrival.offset (some arrival.height)
          peak := max walk.peak exits.height }

/-- Some pending arrival is taken, and it is refused. -/
inductive Refuses (body : Body) (walk : FreeWalk) : Violation → Prop
  | mismatch {arrival : Arrival} {rest : Multiset Arrival} {height : Nat}
      (htake : walk.pending = arrival ::ₘ rest)
      (hrecord : walk.record arrival.offset = some height) (hne : height ≠ arrival.height) :
      Refuses body walk (.heightMismatch arrival.offset height arrival.height)
  | inspect {arrival : Arrival} {rest : Multiset Arrival} {violation : Violation}
      (htake : walk.pending = arrival ::ₘ rest) (hrecord : walk.record arrival.offset = none)
      (hinspect : body.inspect arrival.offset = .error violation) :
      Refuses body walk violation
  | execute {arrival : Arrival} {rest : Multiset Arrival} {i : Instruction} {e : Effect}
      {violation : Violation} (htake : walk.pending = arrival ::ₘ rest)
      (hrecord : walk.record arrival.offset = none)
      (hinspect : body.inspect arrival.offset = .ok (i, e))
      (hexecute : body.execute i e arrival.height = .error violation) :
      Refuses body walk violation

/-- The walk is over: nothing is pending and the greatest height is compared with the limit, or an
arrival is refused. -/
inductive Ends (validator : Validator) (body : Body) (walk : FreeWalk) :
    Except Violation Nat → Prop
  | finished (hpending : walk.pending = 0) :
      Ends validator body walk (validator.checkPeak walk.peak)
  | refused {violation : Violation} (h : Refuses body walk violation) :
      Ends validator body walk (.error violation)

/-- Steps in some order lead from the start to the walk. -/
def Reachable (body : Body) : FreeWalk → Prop :=
  Relation.ReflTransGen (Step body) (start body.type.inputs.toNat)

end FreeWalk

/-! ## Free walks end -/

namespace FreeWalk

variable {body : Body} {walk next : FreeWalk}

/-- The offsets of code of the given size that have not been reached. -/
def unreached (walk : FreeWalk) (size : Nat) : Finset Nat :=
  (Finset.range size).filter fun offset => walk.record offset = none

/-- A step reaches a new offset, or takes an arrival off and reaches none. -/
theorem lt_of_step (h : Step body walk next) :
    (next.unreached body.code.size).card < (walk.unreached body.code.size).card ∨
      next.unreached body.code.size = walk.unreached body.code.size ∧
        next.pending.card < walk.pending.card := by
  cases h with
  | drop htake => exact Or.inr ⟨rfl, by simp [htake]⟩
  | @visit arrival _ _ _ _ _ hrecord hinspect =>
      have hsize := Code.lt_size_of_decodeAt (decodeAt_of_inspect hinspect)
      refine Or.inl (Finset.card_lt_card ⟨fun offset hmem => ?_, fun hsub => ?_⟩)
      · simp only [unreached, Finset.mem_filter] at hmem ⊢
        refine ⟨hmem.1, ?_⟩
        rw [Function.update_apply] at hmem
        split at hmem
        · cases hmem.2
        · exact hmem.2
      · -- the offset that is visited was unreached before and is reached now
        have hold : arrival.offset ∈ walk.unreached body.code.size := by
          simp [unreached, hsize, hrecord]
        simpa [unreached] using hsub hold

/-- No free walk goes on for ever. -/
theorem wellFounded_step (body : Body) : WellFounded fun next walk => Step body walk next := by
  refine Subrelation.wf (fun {next walk} h => ?_) (InvImage.wf
    (fun walk : FreeWalk => ((walk.unreached body.code.size).card, walk.pending.card))
    (WellFounded.prod_lex Nat.lt_wfRel.wf Nat.lt_wfRel.wf))
  rcases lt_of_step h with hlt | ⟨heq, hlt⟩
  · exact Prod.Lex.left _ _ hlt
  · simp only [InvImage, heq]
    exact Prod.Lex.right _ hlt

/-- A free walk that is not over can take a step, whichever arrival comes next. -/
theorem ends_or_step (validator : Validator) (body : Body) (walk : FreeWalk) :
    (∃ verdict, Ends validator body walk verdict) ∨ ∃ next, Step body walk next := by
  rcases walk.pending.empty_or_exists_mem with hpending | ⟨arrival, hmem⟩
  · exact Or.inl ⟨_, .finished hpending⟩
  obtain ⟨rest, htake⟩ := Multiset.exists_cons_of_mem hmem
  cases hrecord : walk.record arrival.offset with
  | some height =>
      by_cases heq : height = arrival.height
      · exact Or.inr ⟨_, .drop htake (heq ▸ hrecord)⟩
      · exact Or.inl ⟨_, .refused (.mismatch htake hrecord heq)⟩
  | none =>
      cases hinspect : body.inspect arrival.offset with
      | error violation => exact Or.inl ⟨_, .refused (.inspect htake hrecord hinspect)⟩
      | ok found =>
          obtain ⟨i, e⟩ := found
          cases hexecute : body.execute i e arrival.height with
          | error violation =>
              exact Or.inl ⟨_, .refused (.execute htake hrecord hinspect hexecute)⟩
          | ok exits => exact Or.inr ⟨_, .visit htake hrecord hinspect hexecute⟩

/-- Every free walk can be completed. -/
theorem exists_ends (validator : Validator) (body : Body) (walk : FreeWalk) :
    ∃ last verdict, Relation.ReflTransGen (Step body) walk last ∧
      Ends validator body last verdict := by
  induction walk using (wellFounded_step body).induction with
  | _ walk ih =>
      rcases ends_or_step validator body walk with ⟨verdict, hends⟩ | ⟨next, hstep⟩
      · exact ⟨walk, verdict, .refl, hends⟩
      · obtain ⟨last, verdict, hrun, hends⟩ := ih next hstep
        exact ⟨last, verdict, .head hstep hrun, hends⟩

end FreeWalk

/-! ## Free walks follow walks -/

/-- The order of the agenda does not matter to the invariant. -/
theorem Invariant.rearrange {body : Body} {walk : Walk body.code.size} (h : Invariant body walk)
    {agenda : Agenda Arrival} (hperm : walk.agenda.toList.Perm agenda.toList) :
    Invariant body { walk with agenda := agenda } := by
  have hcovers : ∀ {offset height}, walk.Covers offset height →
      ({ walk with agenda := agenda } : Walk body.code.size).Covers offset height :=
    fun hcovers => hcovers.imp_right hperm.mem_iff.mp
  exact {
    pending := fun arrival hmem => h.pending arrival (hperm.mem_iff.mpr hmem)
    visited := h.visited
    recorded := h.recorded
    entry := hcovers h.entry
    closed := fun v hv e he target hleads height hheight =>
      hcovers (h.closed v hv e he target hleads height hheight)
    pending_le := fun arrival hmem => h.pending_le arrival (hperm.mem_iff.mpr hmem)
    inputs_le := h.inputs_le
    visited_le := h.visited_le
    attained := h.attained }

namespace FreeWalk

variable {body : Body} {free next : FreeWalk} {walk : Walk body.code.size}

/-- The walk is the free walk with its arrivals in some order. -/
structure Follows (free : FreeWalk) (walk : Walk body.code.size) : Prop where
  pending : free.pending = walk.agenda.toList
  record : ∀ offset, free.record offset = walk.heightAt? offset
  peak : free.peak = walk.peak

theorem follows_start (body : Body) :
    Follows (start body.type.inputs.toNat)
      (Walk.start body.code.size body.type.inputs.toNat) where
  pending := by rw [Walk.agenda_start]; rfl
  record offset := (Walk.heightAt?_start _ offset).symm
  peak := rfl

/-- The walk that takes the given arrival next. -/
theorem Follows.take {arrival : Arrival} {rest : Multiset Arrival} (h : Follows free walk)
    (hinvariant : Invariant body walk) (htake : free.pending = arrival ::ₘ rest) :
    ∃ (walk' : Walk body.code.size) (rest' : Agenda Arrival), Follows free walk' ∧
      Invariant body walk' ∧ walk'.agenda.pop? = some (arrival, rest') ∧ rest = rest'.toList := by
  obtain ⟨others, rfl⟩ := Quot.exists_rep rest
  have hperm : walk.agenda.toList.Perm (arrival :: others) :=
    Multiset.coe_eq_coe.mp (h.pending.symm.trans htake)
  let agenda : Agenda Arrival := { front := arrival :: others }
  have hagenda : agenda.toList = arrival :: others := by simp [agenda, Agenda.toList]
  refine ⟨{ walk with agenda := agenda }, { front := others }, ⟨?_, h.record, h.peak⟩,
    hinvariant.rearrange (hagenda ▸ hperm), rfl, by simp [Agenda.toList]⟩
  rw [htake, hagenda]
  rfl

/-- A step of the free walk is one of a walk that takes the same arrival. -/
theorem Follows.step (h : Follows free walk) (hinvariant : Invariant body walk)
    (hstep : Step body free next) :
    ∃ walk' : Walk body.code.size, Follows next walk' ∧ Invariant body walk' := by
  cases hstep with
  | drop htake hrecord =>
      obtain ⟨walk, rest, hfollows, hinvariant, hpop, rfl⟩ := h.take hinvariant htake
      rw [hfollows.record] at hrecord
      have hadvanced : body.step walk = .advanced { walk with agenda := rest } := by
        simp only [Body.step, hpop, hrecord, if_true]
      exact ⟨{ walk with agenda := rest }, ⟨rfl, hfollows.record, hfollows.peak⟩,
        hinvariant.step hadvanced⟩
  | @visit arrival _ i e exits htake hrecord hinspect hexecute =>
      obtain ⟨walk, rest, hfollows, hinvariant, hpop, rfl⟩ := h.take hinvariant htake
      rw [hfollows.record] at hrecord
      have hadvanced : body.step walk = .advanced (walk.visit rest arrival i exits) := by
        simp only [Body.step, hpop, hrecord, hinspect, hexecute]
      have hsize := Code.lt_size_of_decodeAt (decodeAt_of_inspect hinspect)
      refine ⟨_, ⟨?_, fun offset => ?_, ?_⟩, hinvariant.step hadvanced⟩
      · -- the successors that are put off stand behind the rest, the next one before it
        simp only [Exits.arrivals, Exits.successors, Walk.visit, Agenda.toList_prepend,
          Agenda.toList_append, List.map_append, Multiset.coe_add, Multiset.coe_eq_coe,
          List.append_assoc]
        exact List.perm_append_comm.append_left _
      · simp only [Walk.heightAt?_visit hsize, Function.update_apply, hfollows.record]
      · simp only [Walk.visit, hfollows.peak]

/-- What the free walk refuses, a walk that takes the same arrival refuses. -/
theorem Follows.flaw {violation : Violation} {limit : Nat} (h : Follows free walk)
    (hinvariant : Invariant body walk) (hrefuses : Refuses body free violation) :
    Flaw body limit violation := by
  cases hrefuses with
  | @mismatch arrival _ height htake hrecord hne =>
      obtain ⟨walk, rest, hfollows, hinvariant, hpop, -⟩ := h.take hinvariant htake
      rw [hfollows.record] at hrecord
      have hended : body.step walk = .ended
          ⟨walk.visits, .error (.heightMismatch arrival.offset height arrival.height)⟩ := by
        simp only [Body.step, hpop, hrecord, if_neg hne]
      exact hinvariant.flaw hended rfl
  | inspect htake hrecord hinspect =>
      obtain ⟨walk, rest, hfollows, hinvariant, hpop, -⟩ := h.take hinvariant htake
      rw [hfollows.record] at hrecord
      have hended : body.step walk = .ended ⟨walk.visits, .error violation⟩ := by
        simp only [Body.step, hpop, hrecord, hinspect]
      exact hinvariant.flaw hended rfl
  | @execute arrival _ i e _ htake hrecord hinspect hexecute =>
      obtain ⟨walk, rest, hfollows, hinvariant, hpop, -⟩ := h.take hinvariant htake
      rw [hfollows.record] at hrecord
      have hended : body.step walk = .ended
          ⟨walk.visits.push ⟨i, arrival.height⟩, .error violation⟩ := by
        simp only [Body.step, hpop, hrecord, hinspect, hexecute]
      exact hinvariant.flaw hended rfl

/-- What is reached in any order, a walk with the invariant follows. -/
theorem Reachable.exists_follows (h : Reachable body free) :
    ∃ walk : Walk body.code.size, Follows free walk ∧ Invariant body walk := by
  induction h with
  | refl => exact ⟨_, follows_start body, invariant_start body⟩
  | tail _ hstep ih =>
      obtain ⟨walk, hfollows, hinvariant⟩ := ih
      exact hfollows.step hinvariant hstep

end FreeWalk

/-! ## The greatest height, without a walk -/

/-- The greatest height of code that is accepted: nothing goes wrong below it, the stack gets as
high, and that is not above the limit. -/
structure IsPeak (body : Body) (limit peak : Nat) : Prop where
  sound : Sound body peak
  attained : Attained body peak
  le_limit : peak ≤ limit

theorem Sound.mono {body : Body} {bound bound' : Nat} (h : Sound body bound)
    (hle : bound ≤ bound') : Sound body bound' where
  safe hreach := by
    obtain ⟨i, e, hdecode, heffect, hsafe, hbefore, hafter⟩ := h.safe hreach
    exact ⟨i, e, hdecode, heffect, hsafe, by omega, by omega⟩
  height_unique := h.height_unique

/-- What the stack attains is not above what bounds it. -/
theorem Attained.le_of_sound {body : Body} {peak bound : Nat} (h : Attained body peak)
    (hsound : Sound body bound) : peak ≤ bound := by
  rcases h with rfl | ⟨offset, height, i, e, hreach, hdecode, heffect, heq⟩
  · obtain ⟨_, _, _, _, _, hle, -⟩ := hsound.safe .entry
    exact hle
  · obtain ⟨i', e', hdecode', heffect', -, -, hle⟩ := hsound.safe hreach
    cases hdecode.symm.trans hdecode'
    rw [heffect.unique heffect'] at heq
    omega

section

variable {body : Body} {limit : Nat}

theorem IsPeak.unique {peak peak' : Nat} (h : IsPeak body limit peak)
    (h' : IsPeak body limit peak') : peak = peak' :=
  Nat.le_antisymm (h.attained.le_of_sound h'.sound) (h'.attained.le_of_sound h.sound)

/-- A verdict that the code bears out is the only one. -/
theorem eq_ok_iff_isPeak {verdict : Except Violation Nat}
    (hok : ∀ peak, verdict = .ok peak → IsPeak body limit peak)
    (herror : ∀ violation, verdict = .error violation → Flaw body limit violation) (peak : Nat) :
    verdict = .ok peak ↔ IsPeak body limit peak := by
  cases verdict with
  | ok greatest =>
      have hgreatest := hok greatest rfl
      rw [Except.ok.injEq]
      exact ⟨fun heq => heq ▸ hgreatest, hgreatest.unique⟩
  | error violation =>
      refine iff_of_false (by simp) fun hpeak => ?_
      exact (hpeak.sound.mono hpeak.le_limit).not_flaw violation (herror violation rfl)

end

/-! ## The verdict of any order -/

namespace Validator

variable {validator : Validator} {function : Nat} {code : Code} {type : FunctionType}

/-- A greatest height that the code has is compared with the limit, and nothing else. -/
theorem checkPeak_eq_ok_iff_isPeak {body : Body} {greatest : Nat} (hsound : Sound body greatest)
    (hattained : Attained body greatest) (peak : Nat) :
    validator.checkPeak greatest = .ok peak ↔ IsPeak body validator.limit peak := by
  refine eq_ok_iff_isPeak (fun peak h => ?_) (fun violation h => ?_) peak
  · obtain ⟨rfl, hle⟩ := checkPeak_eq_ok_iff.mp h
    exact ⟨hsound, hattained, hle⟩
  · unfold checkPeak at h
    split at h
    · next hlt =>
      cases h
      exact ⟨rfl, hlt, hsound, hattained⟩
    · cases h

/-- Validation succeeds with the greatest height of the code. -/
theorem validate_eq_ok_iff_isPeak (htype : validator.types[function]? = some type) (peak : Nat) :
    validator.validate function code = .ok peak ↔
      IsPeak ⟨validator.types, type, code⟩ validator.limit peak := by
  refine eq_ok_iff_isPeak (fun greatest h => ?_) (fun violation => flaw_of_type htype) peak
  obtain ⟨type', htype', hresult, hle⟩ := validate_eq_ok_iff.mp h
  cases htype.symm.trans htype'
  obtain ⟨hsound, hattained, -⟩ := walk_of_ok hresult
  exact ⟨hsound, hattained, hle⟩

end Validator

namespace FreeWalk

/-- A free walk succeeds with the greatest height of the code. -/
theorem Ends.eq_ok_iff_isPeak {validator : Validator} {body : Body} {last : FreeWalk}
    {verdict : Except Violation Nat} (h : Ends validator body last verdict)
    (hreachable : Reachable body last) (peak : Nat) :
    verdict = .ok peak ↔ IsPeak body validator.limit peak := by
  obtain ⟨walk, hfollows, hinvariant⟩ := hreachable.exists_follows
  cases h with
  | finished hpending =>
      have hagenda : walk.agenda.toList = [] :=
        (Multiset.coe_eq_zero _).mp (hfollows.pending.symm.trans hpending)
      rw [hfollows.peak]
      exact Validator.checkPeak_eq_ok_iff_isPeak (hinvariant.sound hagenda)
        hinvariant.attained_peak peak
  | refused hrefuses =>
      refine Stack.eq_ok_iff_isPeak (fun _ hok => by cases hok) (fun violation herror => ?_) peak
      cases herror
      exact hfollows.flaw hinvariant hrefuses

/-- Whatever order arrivals are taken in, a walk that is over has accepted a function with the
greatest height with which validation accepts it, and has refused it if validation does.  Every
walk can be brought to such an end, whatever has been taken so far. -/
theorem verdict_eq_ok_iff_validate (validator : Validator) (function : Nat) (code : Code)
    {type : FunctionType} (htype : validator.types[function]? = some type) :
    (∀ last verdict, Reachable ⟨validator.types, type, code⟩ last →
      Ends validator ⟨validator.types, type, code⟩ last verdict →
      ∀ peak, verdict = .ok peak ↔ validator.validate function code = .ok peak) ∧
    ∀ walk, ∃ last verdict, Relation.ReflTransGen (Step ⟨validator.types, type, code⟩) walk last ∧
      Ends validator ⟨validator.types, type, code⟩ last verdict := by
  refine ⟨fun last verdict hreachable hends peak => ?_, exists_ends validator _⟩
  rw [hends.eq_ok_iff_isPeak hreachable, Validator.validate_eq_ok_iff_isPeak htype]

/-- A branch whose two ways meet again at offset `5`, one of them by way of offset `4`. -/
def shortcut : Body :=
  ⟨#[⟨0, 0, none⟩], ⟨0, 0, none⟩, #[0x5f, 0x5d, 0, 1, 0x5b, 0x00]⟩

theorem verdict_eq_ok_iff_validate_shortcut :
    shortcut.types[0]? = some shortcut.type ∧
      ∃ last, Reachable shortcut last ∧ Ends { types := shortcut.types } shortcut last (.ok 1) ∧
        ({ types := shortcut.types } : Validator).validate 0 shortcut.code = .ok 1 := by
  have hstart : Reachable shortcut _ := .single (@Step.visit _ _ ⟨0, 0⟩ 0 _ _ _ rfl rfl rfl rfl)
  have hbranch := hstart.tail (@Step.visit _ _ ⟨1, 1⟩ 0 _ _ _ rfl rfl rfl rfl)
  -- the way that validation puts off is gone to its end first
  have htarget := hbranch.tail
    (@Step.visit _ _ ⟨5, 0⟩ {⟨4, 0⟩} _ _ _ (by decide +kernel) rfl rfl rfl)
  have hnext := htarget.tail (@Step.visit _ _ ⟨4, 0⟩ 0 _ _ _ (by decide +kernel) rfl rfl rfl)
  have hagain := hnext.tail (@Step.drop _ _ ⟨5, 0⟩ 0 rfl rfl)
  obtain ⟨last, hlast, hpending, hpeak⟩ :
      ∃ last, Reachable shortcut last ∧ last.pending = 0 ∧ last.peak = 1 := ⟨_, hagain, rfl, rfl⟩
  have hends : Ends { types := shortcut.types } shortcut last (.ok 1) := by
    have hfinished : Ends { types := shortcut.types } shortcut last _ := .finished hpending
    rw [hpeak] at hfinished
    exact hfinished
  exact ⟨rfl, last, hlast, hends,
    ((verdict_eq_ok_iff_validate { types := shortcut.types } 0 shortcut.code rfl).1
      last _ hlast hends 1).mp rfl⟩

end FreeWalk

end EofStack.Stack
