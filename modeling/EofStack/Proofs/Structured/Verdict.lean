import EofStack.FunctionType.Parse
import EofStack.Proofs.Stack.FreeWalk
import EofStack.Proofs.Structured.Segments

/-!
# The verdict on structured programs

Every structured program is accepted with its peak, if that is within the limit.  If the last branch
of a program leaves an item behind on one of its ways, the program is refused for it, whatever stands
in front of the branch.

## Strategy

The heights that execution can arrive with are read off the rows (`Closed.reach_cases`), so a
program whose rows leave nothing behind is sound, and its peak is attained by `Shaped.attained`.

If the rows leave an item behind, there are two heights at the end and one everywhere else.  The
walk comes to the end by the way that it goes first, with an empty stack (`Shaped.falls`), whatever
it has put off.  Zero is what is recorded there from then on.  So the walk cannot run into anything
else than the other height, and it cannot finish without it.
-/

namespace EofStack.Structured

open Assembly Stack

variable {labels : Labels} {code : Code} {bound stop last offset height : Nat} {rows : List Row}

namespace Closed

/-- Wherever execution arrives there is an instruction, and it is safe before the end. -/
theorem exists_of_reach (h : Closed labels code bound rows stop last)
    (hreach : Reach (body code) offset height) :
    ∃ i e, code.decodeAt offset = .ok i ∧ HasEffect types i e ∧
      (offset ≠ stop → Safe (body code) i e height) := by
  have hend : ∃ i e, code.decodeAt stop = .ok i ∧ HasEffect types i e ∧
      (stop ≠ stop → Safe (body code) i e height) := by
    obtain ⟨i, e, hdecode, heffect, -⟩ := h.safe_stop
    exact ⟨i, e, hdecode, heffect, absurd rfl⟩
  rcases h.reach_cases hreach with hspot | ⟨rfl, -⟩
  · rcases h.exists_of_spot hspot with ⟨rfl, -⟩ | ⟨c, i, hdecode, hruns, hsafe, -⟩
    · exact hend
    · exact ⟨i, _, hdecode, hruns.hasEffect, fun _ => hsafe⟩
  · exact hend

/-! ## Nothing is left behind -/

/-- A program that leaves nothing behind is sound. -/
theorem sound (h : Closed labels code bound rows stop 0) : Sound (body code) bound := by
  have hspot : ∀ {offset height}, Reach (body code) offset height →
      Spot labels code bound rows offset height := by
    intro offset height hreach
    rcases h.reach_cases hreach with hspot | ⟨rfl, rfl⟩
    · exact hspot
    · exact ⟨rows, [], (List.append_nil _).symm, h.laid, h.balanced⟩
  refine ⟨?_, ?_⟩
  · intro offset height hreach
    rcases h.exists_of_spot (hspot hreach) with
      ⟨rfl, rfl⟩ | ⟨c, i, hdecode, hruns, hsafe, hle, height', hheight, hle', -⟩
    · obtain ⟨i, e, hdecode, heffect, hsafe, hchange⟩ := h.safe_stop
      exact ⟨i, e, hdecode, heffect, hsafe, Nat.zero_le _, by omega⟩
    · exact ⟨i, _, hdecode, hruns.hasEffect, hsafe, hle, by omega⟩
  · intro offset height height' hreach hreach'
    exact (hspot hreach).height_unique (hspot hreach')

/-! ## An item is left behind -/

/-- The end is the only offset with two heights. -/
theorem eq_stop_of_reach (h : Closed labels code bound rows stop 1) {height' : Nat}
    (hreach : Reach (body code) offset height) (hreach' : Reach (body code) offset height')
    (hne : height ≠ height') : offset = stop := by
  rcases h.reach_cases hreach with hspot | ⟨heq, -⟩
  · rcases h.reach_cases hreach' with hspot' | ⟨heq, -⟩
    · exact absurd (hspot.height_unique hspot') hne
    · exact heq
  · exact heq

/-- The walk comes to the end first with an empty stack, and records that. -/
theorem exists_recorded (h : Closed labels code bound rows stop last)
    (hfalls : Falls (body code) 0 0 stop 0) :
    ∃ walk : Walk (body code).code.size, Invariant (body code) walk ∧
      walk.heightAt? stop = some 0 ∧ (body code).walk = (body code).resume walk := by
  obtain ⟨walk, rest, hinvariant, hagenda, hfresh, hresume⟩ :=
    hfalls.exists_walk (invariant_start (body code)) rfl fun _ _ => Walk.heightAt?_start _ _
  obtain ⟨i, e, hdecode, heffect, hsafe, -⟩ := h.safe_stop
  obtain ⟨others, exits, -, hadvanced⟩ :=
    exists_visit hagenda (hfresh stop (Nat.le_refl stop)) hdecode heffect hsafe
  refine ⟨_, hinvariant.step hadvanced, ?_, ?_⟩
  · rw [Walk.heightAt?_visit (Code.lt_size_of_decodeAt hdecode), if_pos rfl]
  · rw [← Body.resume_of_advanced hadvanced]
    exact hresume

/-- If the end is also reached with an item, that is what the walk ends with. -/
theorem result_eq (h : Closed labels code bound rows stop 1)
    (hfalls : Falls (body code) 0 0 stop 0) (hreach : Reach (body code) stop 1) :
    (body code).walk.result = .error (.heightMismatch stop 0 1) := by
  have hkept : ∀ {walk walk' : Walk (body code).code.size},
      Invariant (body code) walk ∧ walk.heightAt? stop = some 0 →
      (body code).step walk = .advanced walk' →
      Invariant (body code) walk' ∧ walk'.heightAt? stop = some 0 :=
    fun hkept hstep => ⟨hkept.1.step hstep, heightAt?_of_step hkept.2 hstep⟩
  obtain ⟨walk, hinvariant, hrecorded, hresume⟩ := h.exists_recorded hfalls
  obtain ⟨final, ⟨hinvariant, hrecorded⟩, hended⟩ :=
    Body.exists_last_walk hkept ⟨hinvariant, hrecorded⟩
  rw [hresume]
  have hcase := (body code).step_cases final
  rw [hended] at hcase
  generalize (body code).resume walk = outcome at hcase
  cases hcase with
  | done hagenda =>
      -- with nothing left to do, the end would be recorded with the item
      have hvisited := (hinvariant.recorded stop 1).mpr (hinvariant.visits_of_reach hagenda hreach)
      cases hrecorded.symm.trans hvisited
  | @mismatch arrival rest height hagenda hrecord hne =>
      have hpending := hinvariant.pending arrival (hagenda ▸ List.mem_cons_self)
      obtain ⟨v, hv, hoffset, hheight⟩ := (hinvariant.recorded _ _).mp hrecord
      have hvisited := (hinvariant.visited v hv).reach
      rw [hoffset, hheight] at hvisited
      have heq := h.eq_stop_of_reach hvisited hpending hne
      rw [heq] at hrecord hpending
      cases hrecorded.symm.trans hrecord
      have hone : arrival.height = 1 := by
        rcases h.reach_cases hpending with hspot | ⟨-, hzero⟩
        · exact h.eq_last_of_spot hspot
        · exact absurd hzero.symm hne
      rw [heq, hone]
  | undecodable hagenda _ hdecode =>
      obtain ⟨i, e, hdecode', -⟩ :=
        h.exists_of_reach (hinvariant.pending _ (hagenda ▸ List.mem_cons_self))
      cases hdecode.symm.trans hdecode'
  | unknownCallee hagenda _ hdecode hcallee hsize =>
      obtain ⟨i, e, hdecode', heffect, -⟩ :=
        h.exists_of_reach (hinvariant.pending _ (hagenda ▸ List.mem_cons_self))
      cases hdecode.symm.trans hdecode'
      exact absurd (heffect.callee_lt hcallee) (Nat.not_lt_of_le hsize)
  | violation hagenda hnone hdecode heffect hviolates =>
      obtain ⟨i, e, hdecode', heffect', hsafe⟩ :=
        h.exists_of_reach (hinvariant.pending _ (hagenda ▸ List.mem_cons_self))
      cases hdecode.symm.trans hdecode'
      cases heffect.unique heffect'
      refine absurd (hsafe ?_) hviolates.not_safe
      rintro heq
      rw [heq, hrecorded] at hnone
      cases hnone

end Closed

/-! ## Whole programs -/

/-- What stands at the end of an assembled program. -/
theorem exists_stop (h : Laid labels code stop [.command .stop] code.size) :
    code.size - 1 = stop ∧ ∃ i, code.decodeAt stop = .ok i ∧ Runs labels .stop i := by
  generalize hsize : code.size = size at h
  cases h with
  | @command _ _ i _ _ hdecode hruns hrest =>
      cases hrest
      have hlength : i.immediate.length = 0 := by
        have hwell := Code.wellFormed_of_decodeAt hdecode
        rw [hwell.length_immediate (by rw [hruns.opcode]; nofun), hruns.opcode]
        rfl
      have hoffset := Code.offset_of_decodeAt hdecode
      refine ⟨?_, i, hdecode, hruns⟩
      rw [Instruction.next, hlength, hoffset]
      rfl

/-- Code that is sound up to a height that it attains is accepted if that is within the limit. -/
theorem validate_eq {peak : Nat} (hsound : Sound (body code) peak)
    (hattained : Attained (body code) peak) (limit : Nat) :
    ({ types := types, limit := limit } : Validator).validate 0 code =
      if limit < peak then .error (.tooDeep peak limit) else .ok peak := by
  have hvalidate : ({ types := types, limit := peak } : Validator).validate 0 code = .ok peak :=
    (Validator.validate_eq_ok_iff_isPeak rfl peak).mpr ⟨hsound, hattained, Nat.le_refl peak⟩
  obtain ⟨type, htype, hresult, -⟩ := Validator.validate_eq_ok_iff.mp hvalidate
  have htrace : ({ types := types, limit := limit } : Validator).trace 0 code = _ :=
    Validator.trace_of_type htype
  rw [Validator.validate, htrace, hresult]
  rfl

/-- Code whose walk ends with an error is refused for it, whatever the limit is. -/
theorem validate_eq_error {e : Violation} (h : (body code).walk.result = .error e)
    (limit : Nat) :
    ({ types := types, limit := limit } : Validator).validate 0 code = .error e :=
  Validator.validate_eq_error_of_walk rfl h

/-- A program that consists of segments is accepted with its peak. -/
theorem validate_program {segments : List Segment}
    (h : assemble (source (program segments)) = .ok code) (limit : Nat) :
    ({ types := types, limit := limit } : Validator).validate 0 code =
      if limit < peakAll segments then .error (.tooDeep (peakAll segments) limit)
      else .ok (peakAll segments) := by
  have hshaped := shaped_emitAll segments 0
  obtain ⟨labels, hlaid, hmarked⟩ := exists_laid h
  obtain ⟨stop, hrows, hstop⟩ := hlaid.split
  have hclosed : Closed labels code (peakAll segments) (emitAll segments 0).1 stop 0 := {
    laid := hrows
    balanced := hshaped.balanced
    stops := (exists_stop hstop).2
    marked := by
      intro label target hlookup
      refine (hmarked label target hlookup).append_cases.imp_right ?_
      rintro ⟨middle, -, hend⟩
      exact absurd rfl (hend.of_singleton.2 .stop) }
  exact validate_eq hclosed.sound (hshaped.attained hrows .entry) limit

/-- A program whose last branch leaves an item behind is refused where the arms of the branch
join. -/
theorem validate_divergent {segments direct taken : List Segment}
    (h : assemble (source (divergent segments direct taken)) = .ok code) (limit : Nat) :
    ({ types := types, limit := limit } : Validator).validate 0 code =
      .error (.heightMismatch (code.size - 1) 0 1) := by
  obtain ⟨takenLabel, join, number, number', hrows⟩ : ∃ takenLabel join number number',
      divergent segments direct taken = (emitAll segments 0).1 ++
        (armRows takenLabel join (emitAll direct number).1 (emitAll taken number').1 ++
          [.command .push] ++ [.mark join]) ++ [.command .stop] :=
    ⟨_, _, _, _, rfl⟩
  rw [← List.append_assoc (emitAll segments 0).1] at hrows
  have hshaped := shaped_emitAll segments 0
  have hdirect := shaped_emitAll direct number
  have htaken := shaped_emitAll taken number'
  obtain ⟨labels, hlaid, hmarked⟩ := exists_laid h
  rw [hrows] at hlaid hmarked
  obtain ⟨stop, hmarkedFront, hstop⟩ := hlaid.split
  obtain ⟨joinAt, hfront, hmark⟩ := hmarkedFront.split
  obtain ⟨hjoin, rfl⟩ := hmark.of_mark
  obtain ⟨armsAt, hbefore, hbranch⟩ := hfront.split
  obtain ⟨pushAt, hlaidArms, hpush⟩ := hbranch.split
  obtain ⟨_, _, _, takenAt, harms⟩ := exists_laidArms hlaidArms
  let bound := max 1 (max (peakAll segments) (max (peakAll direct) (peakAll taken)))
  have hbalanced : Balanced bound 0 _ 1 :=
    (hshaped.balanced.mono (by omega)).append ((balanced_arms takenLabel join (by omega)
      (hdirect.balanced.mono (by omega)) (htaken.balanced.mono (by omega))).append
        (balanced_push (by omega)))
  have hclosed : Closed labels code bound _ joinAt 1 := {
    laid := hfront
    balanced := hbalanced
    stops := (exists_stop hstop).2
    marked := by
      intro label target hlookup
      rcases (hmarked label target hlookup).append_cases with hmarked | ⟨_, -, hend⟩
      · refine hmarked.append_cases.imp_right ?_
        rintro ⟨middle, hmiddle, hjoin⟩
        rw [hjoin.of_singleton.1, hmiddle.unique hfront]
      · exact absurd rfl (hend.of_singleton.2 .stop) }
  -- the first way to the join, and the other one
  have hfirst : Falls (body code) 0 0 joinAt 0 :=
    (hshaped.falls hbefore).trans (harms.falls_join (hdirect.falls harms.direct) hjoin hpush.le)
  have hother : Reach (body code) joinAt 1 := by
    have hbranch : Reach (body code) armsAt 0 := (hshaped.falls hbefore).reach .entry
    have hend : Reach (body code) pushAt 0 :=
      (htaken.falls harms.taken).reach (harms.reach_taken hbranch)
    exact (falls_push hpush).reach hend
  rw [(exists_stop hstop).1]
  exact validate_eq_error (hclosed.result_eq hfirst hother) limit

/-- With the types `0:0` and `2:1`, every structured program that can be assembled is accepted with
its peak or refused for it, whatever the limit is.  If its last branch leaves an item behind on the
way that is taken, it is refused at the join: the other way has been there before, with nothing on
the stack. -/
theorem verdict_of_assemble (limit : Nat) :
    TypeTable.parse "0:0,2:1" = .ok types ∧
    (∀ segments code, assemble (source (program segments)) = .ok code →
      (peakAll segments ≤ limit →
        ({ types := types, limit := limit } : Validator).validate 0 code =
          .ok (peakAll segments)) ∧
      (limit < peakAll segments →
        ({ types := types, limit := limit } : Validator).validate 0 code =
          .error (.tooDeep (peakAll segments) limit))) ∧
    ∀ segments direct taken code, assemble (source (divergent segments direct taken)) = .ok code →
      ({ types := types, limit := limit } : Validator).validate 0 code =
        .error (.heightMismatch (code.size - 1) 0 1) := by
  refine ⟨by decide +kernel, ?_, ?_⟩
  · intro segments code h
    rw [validate_program h limit]
    refine ⟨?_, ?_⟩
    · intro hle
      rw [if_neg (Nat.not_lt_of_le hle)]
    · intro hlt
      rw [if_pos hlt]
  · intro segments direct taken code h
    exact validate_divergent h limit

/-- A call on one way through a loop. -/
def callInLoop : List Segment :=
  [.loop [.branch [.call] []]]

theorem verdict_of_assemble_callInLoop :
    ∃ code code', assemble (source (program callInLoop)) = .ok code ∧
      assemble (source (divergent [.table [[]]] [] [])) = .ok code' ∧ code'.size = 20 ∧
      ({ types := types } : Validator).validate 0 code = .ok 2 ∧
      ({ types := types, limit := 1 } : Validator).validate 0 code = .error (.tooDeep 2 1) ∧
      ({ types := types } : Validator).validate 0 code' = .error (.heightMismatch 19 0 1) := by
  have hcode : assemble (source (program callInLoop)) = .ok
      #[0x5f, 0x5d, 0, 9, 0x5f, 0x5f, 0xb0, 0, 1, 0x50, 0x5c, 0, 0, 0x5f, 0x5d, 0xff, 0xef,
        0] := by decide +kernel
  have hcode' : assemble (source (divergent [.table [[]]] [] [])) = .ok
      #[0x5f, 0x5e, 1, 0, 3, 0x5c, 0, 3, 0x5c, 0, 0, 0x5f, 0x5d, 0, 3, 0x5c, 0, 1, 0x5f,
        0] := by decide +kernel
  refine ⟨_, _, hcode, hcode', rfl, ?_, ?_, ?_⟩
  · exact ((verdict_of_assemble 1024).2.1 callInLoop _ hcode).1 (by decide)
  · exact ((verdict_of_assemble 1).2.1 callInLoop _ hcode).2 (by decide)
  · exact (verdict_of_assemble 1024).2.2 [.table [[]]] [] [] _ hcode'

end EofStack.Structured
