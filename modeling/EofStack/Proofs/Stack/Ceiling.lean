import EofStack.Proofs.Stack.Invariant

/-!
# How high the stack can get

A walk through code of `n` bytes never has to do with a height above `255 * (n + 1)`, whatever the
code is, and also if it is refused in the end.

## Strategy

An instruction adds at most 255 items to the stack (`HasEffect.change_le`).  That is no bound for the
heights, since the code may have loops and the walk may come by an instruction many times.  But it
visits an instruction only if its offset has no height yet.  So what the visits have added so far,
and what the offsets that are left could add, is bounded from the beginning by 255 for the inputs and
255 for each offset: `Walk.ceiling` does not rise in any step (`ceiling_of_step`).  The peak is below
the ceiling, and by the invariant of the walk every other height is below the peak.
-/

namespace EofStack.Stack

variable {body : Body} {walk walk' : Walk body.code.size}

/-! ## One instruction -/

/-- No instruction adds more than 255 items. -/
theorem HasEffect.change_le {types : TypeTable} {i : Instruction} {e : Effect}
    (hmem : i.opcode ∈ Opcode.table) (h : HasEffect types i e) : e.change ≤ 255 := by
  cases h with
  | own =>
      obtain ⟨-, -, hown, -⟩ := Opcode.bounds hmem
      exact Int.le_trans hown (by decide)
  | @call _ type hcallee _ =>
      -- the opcode itself changes nothing, and the callee adds its outputs at most
      obtain ⟨-, hzero⟩ := Opcode.effect_of_call hmem (Instruction.flow_of_callee? hcallee)
      have houtputs := type.outputs.toNat_lt
      simp only
      omega

/-! ## A run -/

/-- The walk is the first one of a run through the function, or a later one. -/
inductive Passes (body : Body) : Walk body.code.size → Prop
  | start : Passes body (Walk.start body.code.size body.type.inputs.toNat)
  | step {walk walk' : Walk body.code.size} (hpasses : Passes body walk)
      (hstep : body.step walk = .advanced walk') : Passes body walk'

theorem Passes.invariant (h : Passes body walk) : Invariant body walk := by
  induction h with
  | start => exact invariant_start body
  | step _ hstep ih => exact ih.step hstep

/-- The peak so far, and what the offsets could add that have not been reached. -/
def Walk.ceiling {size : Nat} (walk : Walk size) : Nat :=
  walk.peak + 255 * walk.unreached

/-- Reaching an offset uses up what it could add. -/
theorem ceiling_of_step (h : Invariant body walk) (hstep : body.step walk = .advanced walk') :
    walk'.ceiling ≤ walk.ceiling := by
  have hcase := body.step_cases walk
  rw [hstep] at hcase
  cases hcase with
  | repeated => exact Nat.le_refl _
  | @visit arrival rest i e exits hagenda hrecord hdecode heffect _ hheight =>
      have hbefore : arrival.height ≤ walk.peak := h.pending_le _ (hagenda ▸ List.mem_cons_self)
      have hchange := heffect.change_le (Code.mem_table_of_decodeAt hdecode)
      have hreached : (walk.visit rest arrival i exits).unreached < walk.unreached :=
        Walk.unreached_visit (Code.lt_size_of_decodeAt hdecode) hrecord
      have hpeak : (walk.visit rest arrival i exits).peak = max walk.peak exits.height := rfl
      unfold Walk.ceiling
      omega

theorem Passes.ceiling_le (h : Passes body walk) : walk.ceiling ≤ 255 * (body.code.size + 1) := by
  induction h with
  | start =>
      have hinputs := body.type.inputs.toNat_lt
      have hunreached : (Walk.start body.code.size body.type.inputs.toNat).unreached ≤
          body.code.size := Vector.countP_le_size
      rw [Walk.ceiling, Walk.peak_start]
      omega
  | step hpasses hstep ih => exact Nat.le_trans (ceiling_of_step hpasses.invariant hstep) ih

/-! ## All heights -/

/-- The heights that a walk holds are within the bound, and so is the one behind the instruction
that it visits next. -/
structure Confined (body : Body) (walk : Walk body.code.size) (bound : Nat) : Prop where
  peak_le : walk.peak ≤ bound
  pending_le : ∀ arrival ∈ walk.agenda.toList, arrival.height ≤ bound
  recorded_le : ∀ offset height, walk.heightAt? offset = some height → height ≤ bound
  next_le : ∀ arrival rest, walk.agenda.pop? = some (arrival, rest) →
    walk.heightAt? arrival.offset = none → ∀ i e, body.inspect arrival.offset = .ok (i, e) →
      (arrival.height : Int) + e.change ≤ bound

/-- Throughout a run, no height is above 255 for each byte of the code and once more. -/
theorem Passes.confined (h : Passes body walk) :
    Confined body walk (255 * (body.code.size + 1)) := by
  have hinvariant := h.invariant
  have hceiling : walk.peak + 255 * walk.unreached ≤ 255 * (body.code.size + 1) := h.ceiling_le
  refine ⟨by omega, ?pending, ?recorded, ?next⟩
  case pending =>
    intro arrival harrival
    have := hinvariant.pending_le arrival harrival
    omega
  case recorded =>
    intro offset height hrecord
    obtain ⟨v, hv, -, rfl⟩ := (hinvariant.recorded offset height).mp hrecord
    have := (hinvariant.visited_le v hv).1
    omega
  case next =>
    intro arrival rest hpop hrecord i e hinspect
    have hbefore : arrival.height ≤ walk.peak :=
      hinvariant.pending_le _ (Agenda.toList_of_pop? hpop ▸ List.mem_cons_self)
    have hdecode := decodeAt_of_inspect hinspect
    -- the offset is one of those that have not been reached
    have hunreached : (walk.visit rest arrival i ⟨0, none, []⟩).unreached < walk.unreached :=
      Walk.unreached_visit (Code.lt_size_of_decodeAt hdecode) hrecord
    have hchange := (hasEffect_of_effect (Body.effect_of_inspect hinspect)).change_le
      (Code.mem_table_of_decodeAt hdecode)
    omega

end EofStack.Stack
