import EofStack.Proofs.Stack.Step

/-!
# The invariant of the walk

A walk has recorded some offsets and has arrivals left on its agenda.  `Invariant` says, of any
such intermediate state, that

* nothing was made up: every visit and every pending arrival is reachable, and the visits so far
  are safe;
* nothing was forgotten: the entry and every successor of a visit are recorded with their height
  or still pending with it (`Walk.Covers`);
* the peak bounds all heights seen so far, and one of them attains it.

The invariant holds at the start and is kept by every step, so it holds of the last walk of a
run (`exists_last_walk_invariant`).  When nothing is pending any more, the visits are closed
under successors and hence contain all that can be reached (`Invariant.visits_of_reach`).
-/

namespace EofStack.Stack

/-! ## What a walk has dealt with or is going to -/

namespace Walk

variable {size : Nat} {walk : Walk size} {rest : Agenda Arrival} {arrival : Arrival}
  {i : Instruction} {exits : Exits}

/-- The offset is recorded with the height, or still to be arrived at with it. -/
def Covers (walk : Walk size) (offset height : Nat) : Prop :=
  walk.heightAt? offset = some height ∨ ⟨offset, height⟩ ∈ walk.agenda.toList

@[simp] theorem heightAt?_start (height offset : Nat) :
    (start size height).heightAt? offset = none := by
  simp only [heightAt?, start]
  by_cases hlt : offset < size <;> simp [hlt]

@[simp] theorem agenda_start (height : Nat) : (start size height).agenda.toList = [⟨0, height⟩] :=
  rfl

@[simp] theorem visits_start (height : Nat) : (start size height).visits = #[] := rfl

@[simp] theorem peak_start (height : Nat) : (start size height).peak = height := rfl

theorem heightAt?_visit (hsize : arrival.offset < size) (offset : Nat) :
    (walk.visit rest arrival i exits).heightAt? offset =
      if offset = arrival.offset then some arrival.height else walk.heightAt? offset := by
  simp only [heightAt?, visit]
  by_cases heq : offset = arrival.offset
  · subst heq
    simp [hsize]
  · rw [if_neg heq, Vector.getElem?_setIfInBounds_ne (Ne.symm heq)]

theorem mem_agenda_visit {other : Arrival} :
    other ∈ (walk.visit rest arrival i exits).agenda.toList ↔
      other.height = exits.height ∧ other.offset ∈ exits.successors ∨ other ∈ rest.toList := by
  obtain ⟨offset, height⟩ := other
  simp only [visit, Agenda.toList_prepend, Agenda.toList_append, List.mem_append, List.mem_map,
    Exits.successors, Arrival.mk.injEq]
  constructor
  · rintro (⟨_, hmem, rfl, rfl⟩ | hrest | ⟨_, hmem, rfl, rfl⟩)
    · exact Or.inl ⟨rfl, Or.inl hmem⟩
    · exact Or.inr hrest
    · exact Or.inl ⟨rfl, Or.inr hmem⟩
  · rintro (⟨rfl, hmem | hmem⟩ | hrest)
    · exact Or.inl ⟨offset, hmem, rfl, rfl⟩
    · exact Or.inr (Or.inr ⟨offset, hmem, rfl, rfl⟩)
    · exact Or.inr (Or.inl hrest)

/-- Dropping an arrival that is recorded already loses nothing. -/
theorem Covers.drop {offset height : Nat} (h : walk.Covers offset height)
    (hagenda : walk.agenda.toList = arrival :: rest.toList)
    (hrecord : walk.heightAt? arrival.offset = some arrival.height) :
    ({ walk with agenda := rest } : Walk size).Covers offset height := by
  rcases h with hheight | hpending
  · exact Or.inl hheight
  · rw [hagenda] at hpending
    rcases List.mem_cons.mp hpending with rfl | hrest
    · exact Or.inl hrecord
    · exact Or.inr hrest

/-- A visit records the arrival that it takes off the agenda. -/
theorem Covers.visit {offset height : Nat} (h : walk.Covers offset height)
    (hagenda : walk.agenda.toList = arrival :: rest.toList) (hsize : arrival.offset < size)
    (hrecord : walk.heightAt? arrival.offset = none) :
    (walk.visit rest arrival i exits).Covers offset height := by
  unfold Covers
  rw [heightAt?_visit hsize]
  rcases h with hheight | hpending
  · have hne : offset ≠ arrival.offset := by
      rintro rfl
      rw [hrecord] at hheight
      cases hheight
    rw [if_neg hne]
    exact Or.inl hheight
  · rw [hagenda] at hpending
    rcases List.mem_cons.mp hpending with rfl | hrest
    · exact Or.inl (by simp)
    · exact Or.inr (mem_agenda_visit.mpr (Or.inr hrest))

theorem mem_visits_visit {v : Visit} :
    v ∈ (walk.visit rest arrival i exits).visits ↔ v ∈ walk.visits ∨ v = ⟨i, arrival.height⟩ := by
  simp [Walk.visit]

end Walk

/-! ## The invariant -/

/-- A visit is made at a reachable height of an instruction that is safe there. -/
structure Visited (body : Body) (v : Visit) : Prop where
  decode : body.code.decodeAt v.instruction.offset = .ok v.instruction
  reach : Reach body v.instruction.offset v.height
  safe : ∃ e, HasEffect body.types v.instruction e ∧ Safe body v.instruction e v.height

/-- What holds of a walk at any time. -/
structure Invariant (body : Body) (walk : Walk body.code.size) : Prop where
  pending : ∀ arrival ∈ walk.agenda.toList, Reach body arrival.offset arrival.height
  visited : ∀ v ∈ walk.visits, Visited body v
  recorded : ∀ offset height, walk.heightAt? offset = some height ↔
    ∃ v ∈ walk.visits, v.instruction.offset = offset ∧ v.height = height
  entry : walk.Covers 0 body.type.inputs.toNat
  closed : ∀ v ∈ walk.visits, ∀ e, HasEffect body.types v.instruction e →
    ∀ target, Leads v.instruction target → ∀ height : Nat, (height : Int) = v.height + e.change →
      walk.Covers target height
  pending_le : ∀ arrival ∈ walk.agenda.toList, arrival.height ≤ walk.peak
  inputs_le : body.type.inputs.toNat ≤ walk.peak
  visited_le : ∀ v ∈ walk.visits, v.height ≤ walk.peak ∧
    ∀ e, HasEffect body.types v.instruction e → (v.height : Int) + e.change ≤ walk.peak
  attained : walk.peak = body.type.inputs.toNat ∨
    ∃ v ∈ walk.visits, ∃ e, HasEffect body.types v.instruction e ∧
      (walk.peak : Int) = v.height + e.change

variable {body : Body} {walk : Walk body.code.size}

theorem invariant_start (body : Body) :
    Invariant body (Walk.start body.code.size body.type.inputs.toNat) where
  pending arrival harrival := by
    rw [Walk.agenda_start, List.mem_singleton] at harrival
    subst harrival
    exact .entry
  visited := by simp
  recorded := by simp
  entry := Or.inr (by simp)
  closed := by simp
  pending_le := by simp
  inputs_le := Nat.le_refl _
  visited_le := by simp
  attained := Or.inl rfl

/-- Dropping an arrival that is recorded already keeps the invariant. -/
theorem Invariant.drop {arrival : Arrival} {rest : Agenda Arrival} (h : Invariant body walk)
    (hagenda : walk.agenda.toList = arrival :: rest.toList)
    (hrecord : walk.heightAt? arrival.offset = some arrival.height) :
    Invariant body { walk with agenda := rest } where
  pending other hother := h.pending other (hagenda ▸ List.mem_cons_of_mem _ hother)
  visited := h.visited
  recorded := h.recorded
  entry := h.entry.drop hagenda hrecord
  closed v hv e he target hleads height hheight :=
    (h.closed v hv e he target hleads height hheight).drop hagenda hrecord
  pending_le other hother := h.pending_le other (hagenda ▸ List.mem_cons_of_mem _ hother)
  inputs_le := h.inputs_le
  visited_le := h.visited_le
  attained := h.attained

/-- A visit of a safe instruction keeps the invariant. -/
theorem Invariant.visit {arrival : Arrival} {rest : Agenda Arrival} {i : Instruction} {e : Effect}
    {exits : Exits} (h : Invariant body walk)
    (hagenda : walk.agenda.toList = arrival :: rest.toList)
    (hrecord : walk.heightAt? arrival.offset = none)
    (hdecode : body.code.decodeAt arrival.offset = .ok i) (heffect : HasEffect body.types i e)
    (hsafe : Safe body i e arrival.height)
    (hheight : (exits.height : Int) = arrival.height + e.change)
    (hleads : ∀ target, target ∈ exits.successors ↔ Leads i target) :
    Invariant body (walk.visit rest arrival i exits) := by
  have hsize := Code.lt_size_of_decodeAt hdecode
  have hoffset := Code.offset_of_decodeAt hdecode
  have hmem : arrival ∈ walk.agenda.toList := hagenda ▸ List.mem_cons_self
  have hrest : ∀ other ∈ rest.toList, other ∈ walk.agenda.toList :=
    fun other hother => hagenda ▸ List.mem_cons_of_mem _ hother
  have hreach := h.pending arrival hmem
  have hle := h.pending_le arrival hmem
  have hpeak : (walk.visit rest arrival i exits).peak = max walk.peak exits.height := rfl
  -- the offset is visited for the first time
  have hfresh : ∀ v ∈ walk.visits, v.instruction.offset ≠ arrival.offset := by
    intro v hv heq
    rw [(h.recorded arrival.offset v.height).mpr ⟨v, hv, heq, rfl⟩] at hrecord
    cases hrecord
  refine { pending := ?pending, visited := ?visited, recorded := ?recorded,
           entry := h.entry.visit hagenda hsize hrecord, closed := ?closed,
           pending_le := ?pending_le, inputs_le := ?inputs_le, visited_le := ?visited_le,
           attained := ?attained }
  case pending =>
    -- every new arrival is one step behind the one that was taken
    intro other hother
    rcases Walk.mem_agenda_visit.mp hother with ⟨heq, hsuccessor⟩ | hother
    · exact .step hreach hdecode heffect hsafe.enough (heq ▸ hheight)
        ((hleads other.offset).mp hsuccessor)
    · exact h.pending other (hrest other hother)
  case visited =>
    intro v hv
    rcases Walk.mem_visits_visit.mp hv with hv | rfl
    · exact h.visited v hv
    · exact ⟨by rw [hoffset, hdecode], by rw [hoffset]; exact hreach, e, heffect, hsafe⟩
  case recorded =>
    intro offset height
    rw [Walk.heightAt?_visit hsize]
    constructor
    · intro hheight
      split at hheight
      · next heq =>
        cases hheight
        exact ⟨_, Walk.mem_visits_visit.mpr (Or.inr rfl), hoffset.trans heq.symm, rfl⟩
      · obtain ⟨v, hv, heq⟩ := (h.recorded offset height).mp hheight
        exact ⟨v, Walk.mem_visits_visit.mpr (Or.inl hv), heq⟩
    · rintro ⟨v, hv, rfl, rfl⟩
      rcases Walk.mem_visits_visit.mp hv with hv | rfl
      · rw [if_neg (hfresh v hv)]
        exact (h.recorded _ _).mpr ⟨v, hv, rfl, rfl⟩
      · rw [if_pos hoffset]
  case closed =>
    -- the successors of the visited instruction are on the agenda now
    intro v hv e' he' target hleads' height hheight'
    rcases Walk.mem_visits_visit.mp hv with hv | rfl
    · exact (h.closed v hv e' he' target hleads' height hheight').visit hagenda hsize hrecord
    · rw [heffect.unique he'] at hheight
      refine Or.inr (Walk.mem_agenda_visit.mpr (Or.inl ⟨?_, (hleads target).mpr hleads'⟩))
      exact Int.ofNat_inj.mp (hheight'.trans hheight.symm)
  case pending_le =>
    intro other hother
    rw [hpeak]
    rcases Walk.mem_agenda_visit.mp hother with ⟨heq, -⟩ | hother
    · omega
    · have := h.pending_le other (hrest other hother)
      omega
  case inputs_le =>
    have := h.inputs_le
    omega
  case visited_le =>
    intro v hv
    rw [hpeak]
    rcases Walk.mem_visits_visit.mp hv with hv | rfl
    · obtain ⟨hbefore, hafter⟩ := h.visited_le v hv
      refine ⟨by omega, ?_⟩
      intro e' he'
      have := hafter e' he'
      omega
    · refine ⟨by simp only; omega, ?_⟩
      intro e' he'
      rw [← heffect.unique he']
      simp only
      omega
  case attained =>
    -- the peak is the old one or the height behind the visited instruction, whichever is higher
    rw [hpeak]
    rcases Nat.le_total exits.height walk.peak with hlower | hhigher
    · rw [Nat.max_eq_left hlower]
      refine h.attained.imp_right ?_
      rintro ⟨v, hv, hattained⟩
      exact ⟨v, Walk.mem_visits_visit.mpr (Or.inl hv), hattained⟩
    · rw [Nat.max_eq_right hhigher]
      exact Or.inr ⟨_, Walk.mem_visits_visit.mpr (Or.inr rfl), e, heffect, hheight⟩

theorem Invariant.step {walk' : Walk body.code.size} (h : Invariant body walk)
    (hstep : body.step walk = .advanced walk') : Invariant body walk' := by
  have hcase := body.step_cases walk
  rw [hstep] at hcase
  cases hcase with
  | repeated hagenda hrecord => exact h.drop hagenda hrecord
  | visit hagenda hrecord hdecode heffect hsafe hheight hleads =>
      exact h.visit hagenda hrecord hdecode heffect hsafe hheight hleads

/-- The invariant holds of the walk whose step ends the run. -/
theorem exists_last_walk_invariant (body : Body) :
    ∃ last, Invariant body last ∧ body.step last = .ended body.walk :=
  Body.exists_last_walk Invariant.step (invariant_start body)

/-! ## The end of a run -/

/-- Every visit is made at a reachable height of the instruction that stands there, also the one
that ends the run with a violation. -/
theorem Invariant.reach_of_ended {outcome : Outcome} (h : Invariant body walk)
    (hended : body.step walk = .ended outcome) {v : Visit} (hv : v ∈ outcome.visits) :
    Reach body v.instruction.offset v.height ∧
      body.code.decodeAt v.instruction.offset = .ok v.instruction := by
  have hvisited : v ∈ walk.visits → Reach body v.instruction.offset v.height ∧
      body.code.decodeAt v.instruction.offset = .ok v.instruction :=
    fun hv => ⟨(h.visited v hv).reach, (h.visited v hv).decode⟩
  have hcase := body.step_cases walk
  rw [hended] at hcase
  cases hcase with
  | done | mismatch | undecodable | unknownCallee => exact hvisited hv
  | violation hagenda _ hdecode =>
      rcases Array.mem_push.mp hv with hv | rfl
      · exact hvisited hv
      · rw [Code.offset_of_decodeAt hdecode]
        exact ⟨h.pending _ (hagenda ▸ List.mem_cons_self), hdecode⟩

theorem reach_of_mem_visits {v : Visit} (hv : v ∈ body.walk.visits) :
    Reach body v.instruction.offset v.height ∧
      body.code.decodeAt v.instruction.offset = .ok v.instruction := by
  obtain ⟨last, hinvariant, hended⟩ := exists_last_walk_invariant body
  exact hinvariant.reach_of_ended hended hv

/-- With nothing pending, everything that can be reached has been visited. -/
theorem Invariant.visits_of_reach (h : Invariant body walk) (hagenda : walk.agenda.toList = [])
    {offset height : Nat} (hreach : Reach body offset height) :
    ∃ v ∈ walk.visits, v.instruction.offset = offset ∧ v.height = height := by
  have hcovers : ∀ {offset height}, walk.Covers offset height →
      ∃ v ∈ walk.visits, v.instruction.offset = offset ∧ v.height = height := by
    intro offset height hcovers
    rcases hcovers with hheight | hpending
    · exact (h.recorded offset height).mp hheight
    · rw [hagenda] at hpending
      cases hpending
  -- along the execution: the visits contain the entry and are closed under steps
  induction hreach with
  | entry => exact hcovers h.entry
  | step _ hdecode heffect _ hheight hleads ih =>
      obtain ⟨v, hv, rfl, rfl⟩ := ih
      have hsame : v.instruction = _ :=
        Except.ok.inj ((h.visited v hv).decode.symm.trans hdecode)
      subst hsame
      exact hcovers (h.closed v hv _ heffect _ hleads _ hheight)

theorem Invariant.height_unique (h : Invariant body walk) {v v' : Visit} (hv : v ∈ walk.visits)
    (hv' : v' ∈ walk.visits) (heq : v.instruction.offset = v'.instruction.offset) :
    v.height = v'.height := by
  have hrecord := (h.recorded _ _).mpr ⟨v, hv, heq, rfl⟩
  rw [(h.recorded _ _).mpr ⟨v', hv', rfl, rfl⟩, Option.some.injEq] at hrecord
  exact hrecord.symm

end EofStack.Stack
