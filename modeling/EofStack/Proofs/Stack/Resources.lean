import EofStack.Proofs.Stack.Invariant
import EofStack.Proofs.Stack.Loops
import EofStack.Proofs.Stack.Soundness
import Mathlib.Data.List.Nodup
import Mathlib.Data.List.Perm.Subperm
import Mathlib.Data.List.ProdSigma

/-!
# What a walk costs

Whatever the code is, the walk visits no offset twice and none outside the code, so it makes at most
as many visits as the code has bytes.  Every arrival that is taken off the agenda, apart from the
entry, was put off by an entry of a jump that was visited, and no entry of a jump puts off two.  A
jump has at most 255 entries; that bounds the rounds of both loops of the walk.

## Strategy

* **Visits.**  An offset is visited when it has no recorded height, and has one from then on
  (`nodup_offsets`).
* **Arrivals.**  What has been taken off the agenda and what is still on it are, together and in
  order, the entry and what the visits have put off (`History`).  So the arrivals that were taken
  can be numbered by visits and entries of jumps.
* **Rounds.**  Each round of the inner loop but the last reaches a new offset.  A round of the outer
  loop takes one arrival off the agenda, and puts 255 there at most for each offset that is reached
  for the first time: `Walk.load` counts both, and falls in every round of the outer loop.  A loop
  that has rounds enough does not use more of them (`Body.drain_of_le`).
-/

namespace EofStack

/-- A jump holds at most 255 displacements. -/
theorem Instruction.length_displacements_le {i : Instruction} (hwell : i.WellFormed) :
    i.displacements.length ≤ 255 := by
  cases hflow : i.opcode.flow with
  | jump | branch =>
      obtain ⟨d, hd⟩ := exists_displacements_eq hwell (by simp [hflow])
      rw [hd, List.length_singleton]
      omega
  | table =>
      obtain ⟨count, entries, himmediate, -, hlength⟩ := hwell.isTable hflow
      have hcount := count.toNat_lt
      have hlength' : i.displacements.length = entries.length / 2 := by
        simp [displacements, hflow, himmediate, BigEndian.length_signedValues]
      omega
  | straight | call | ret | halt =>
      rw [displacements_eq_nil (by simp [Opcode.isJump, hflow])]
      decide

namespace Stack

variable {body : Body} {walk : Walk body.code.size}

/-! ## What a visit puts off -/

theorem targets_eq_ok {i : Instruction} {ts : List Nat} (h : targets i = .ok ts) :
    i.targets = .ok ts := by
  unfold targets at h
  split at h
  · next heq =>
    cases h
    exact heq
  · cases h

theorem deferred_of_exitsAt {outputs height : Nat} {i : Instruction} {exits : Exits}
    (h : exitsAt outputs i height = .ok exits) :
    exits.height = height ∧ (exits.deferred = [] ∨
      (i.opcode.flow = .branch ∨ i.opcode.flow = .table) ∧ i.targets = .ok exits.deferred) := by
  unfold exitsAt at h
  cases hflow : i.opcode.flow with
  | jump =>
      simp only [hflow] at h
      split at h <;> cases h
      exact ⟨rfl, Or.inl rfl⟩
  | branch | table =>
      simp only [hflow] at h
      obtain ⟨ts, hts, rfl⟩ := map_eq_ok_iff.mp h
      exact ⟨rfl, Or.inr ⟨by simp, targets_eq_ok hts⟩⟩
  | halt | ret =>
      simp only [hflow] at h
      split at h <;> cases h
      exact ⟨rfl, Or.inl rfl⟩
  | straight | call =>
      simp only [hflow] at h
      cases h
      exact ⟨rfl, Or.inl rfl⟩

namespace Body

/-- What is put off when an instruction is executed are the targets of a branch or of a table. -/
theorem deferred_of_execute {i : Instruction} {e : Effect} {height : Nat} {exits : Exits}
    (h : body.execute i e height = .ok exits) :
    (exits.height : Int) = height + e.change ∧ (exits.deferred = [] ∨
      (i.opcode.flow = .branch ∨ i.opcode.flow = .table) ∧ i.targets = .ok exits.deferred) := by
  unfold execute at h
  split at h
  · cases h
  · next henough =>
    obtain ⟨hheight, hdeferred⟩ := deferred_of_exitsAt h
    exact ⟨by omega, hdeferred⟩

/-- The arrivals that a visit puts off, in order. -/
def deferrals (body : Body) (v : Visit) : List Arrival :=
  match effect body.types v.instruction with
  | .error _ => []
  | .ok e =>
    match body.execute v.instruction e v.height with
    | .error _ => []
    | .ok exits => exits.deferred.map fun offset => ⟨offset, exits.height⟩

/-- An entry of a jump that was visited has put off the arrival.  The origin is the offset of the
jump and the number of the entry. -/
def PutOff (types : TypeTable) (visits : Array Visit) (origin : Nat × Nat) (arrival : Arrival) :
    Prop :=
  ∃ v ∈ visits, v.instruction.offset = origin.1 ∧
    (v.instruction.opcode.flow = .branch ∨ v.instruction.opcode.flow = .table) ∧
    (∃ targets, v.instruction.targets = .ok targets ∧ targets[origin.2]? = some arrival.offset) ∧
    ∃ e, HasEffect types v.instruction e ∧ (arrival.height : Int) = v.height + e.change

/-- What a visit puts off comes from the entries of a jump, one after the other. -/
theorem putOff_of_deferrals {visits : Array Visit} {v : Visit} (hv : v ∈ visits) {k : Nat}
    {arrival : Arrival} (h : (body.deferrals v)[k]? = some arrival) :
    PutOff body.types visits (v.instruction.offset, k) arrival := by
  unfold deferrals at h
  rcases effect_spec body.types v.instruction with ⟨e, heq, heffect⟩ | ⟨callee, -, -, heq⟩
  · simp only [heq] at h
    split at h
    · simp at h
    · next exits hexecute =>
      obtain ⟨hheight, hdeferred⟩ := deferred_of_execute hexecute
      rw [List.getElem?_map] at h
      obtain ⟨offset, hoffset, rfl⟩ := Option.map_eq_some_iff.mp h
      rcases hdeferred with hnil | ⟨hflow, htargets⟩
      · rw [hnil] at hoffset
        cases hoffset
      · exact ⟨v, hv, rfl, hflow, ⟨_, htargets, hoffset⟩, e, heffect, hheight⟩
  · simp [heq] at h

theorem length_deferrals_le {v : Visit} (hwell : v.instruction.WellFormed) :
    (body.deferrals v).length ≤ 255 := by
  unfold deferrals
  split
  · exact Nat.zero_le _
  · split
    · exact Nat.zero_le _
    · next exits hexecute =>
      rw [List.length_map]
      rcases (deferred_of_execute hexecute).2 with hnil | ⟨-, htargets⟩
      · rw [hnil]
        exact Nat.zero_le _
      · calc exits.deferred.length
            = v.instruction.displacements.length := (mapM_eq_ok_iff.mp htargets).length_eq.symm
          _ ≤ 255 := Instruction.length_displacements_le hwell

/-! ## Dealing with one arrival -/

/-- How an arrival is dealt with that is not on the agenda. -/
inductive DealCase (body : Body) (walk : Walk body.code.size) (arrival : Arrival) :
    Dealt body.code.size → Prop
  | ended {outcome : Outcome} (hvisits : outcome.visits.toList.flatMap body.deferrals =
      walk.visits.toList.flatMap body.deferrals) : DealCase body walk arrival (.ended outcome)
  | repeated : DealCase body walk arrival (.rested walk)
  | settled {i : Instruction} {e : Effect} {exits : Exits}
      (hrecord : walk.heightAt? arrival.offset = none)
      (hinspect : body.inspect arrival.offset = .ok (i, e))
      (hexecute : body.execute i e arrival.height = .ok exits) :
      DealCase body walk arrival
        (match exits.next with
        | none => .rested (walk.settle arrival i exits)
        | some offset => .ledOn (walk.settle arrival i exits) ⟨offset, exits.height⟩)

theorem deal_cases (body : Body) (walk : Walk body.code.size) (arrival : Arrival) :
    DealCase body walk arrival (body.deal walk arrival) := by
  unfold deal
  cases hrecord : walk.heightAt? arrival.offset with
  | some height =>
      by_cases heq : height = arrival.height
      · simp only [if_pos heq]
        exact .repeated
      · simp only [if_neg heq]
        exact .ended rfl
  | none =>
      cases hinspect : body.inspect arrival.offset with
      | error violation => exact .ended rfl
      | ok found =>
          obtain ⟨i, e⟩ := found
          cases hexecute : body.execute i e arrival.height with
          | error violation =>
              simp only [hexecute]
              -- the instruction is visited, and puts nothing off
              refine .ended ?_
              simp [deferrals, effect_of_inspect hinspect, hexecute]
          | ok exits =>
              simp only [hexecute]
              exact .settled hrecord hinspect hexecute

end Body

/-! ## The arrivals that have been taken -/

/-- The entry and what the visits have put off has been taken off the agenda, or is still there. -/
def History (body : Body) (taken : List Arrival) (walk : Walk body.code.size) : Prop :=
  ⟨0, body.type.inputs.toNat⟩ :: walk.visits.toList.flatMap body.deferrals =
    taken ++ walk.agenda.toList

theorem agenda_settle {size : Nat} (walk : Walk size) (arrival : Arrival) (i : Instruction)
    (exits : Exits) : (walk.settle arrival i exits).agenda.toList =
      walk.agenda.toList ++ exits.deferred.map fun offset => ⟨offset, exits.height⟩ := by
  simp [Walk.settle, Walk.visit]

theorem history_start (body : Body) :
    History body [] (Walk.start body.code.size body.type.inputs.toNat) :=
  rfl

theorem History.settle {taken : List Arrival} (h : History body taken walk) {arrival : Arrival}
    {i : Instruction} {e : Effect} {exits : Exits}
    (hinspect : body.inspect arrival.offset = .ok (i, e))
    (hexecute : body.execute i e arrival.height = .ok exits) :
    History body taken (walk.settle arrival i exits) := by
  have hvisits : (walk.settle arrival i exits).visits = walk.visits.push ⟨i, arrival.height⟩ := rfl
  have hdeferrals : body.deferrals ⟨i, arrival.height⟩ =
      exits.deferred.map fun offset => ⟨offset, exits.height⟩ := by
    simp only [Body.deferrals, Body.effect_of_inspect hinspect, hexecute]
  unfold History at h ⊢
  rw [agenda_settle, hvisits, Array.toList_push, List.flatMap_append, ← List.cons_append, h,
    List.flatMap_singleton, hdeferrals, List.append_assoc]

/-- Going on from an arrival takes nothing off the agenda. -/
theorem History.follow {taken : List Arrival} (h : History body taken walk) {rounds : Nat}
    {arrival : Arrival} {progress : Progress body.code.size}
    (hfollow : body.follow rounds walk arrival = some progress) :
    (∀ walk', progress = .advanced walk' → History body taken walk') ∧
      ∀ outcome, progress = .ended outcome →
        taken <+: ⟨0, body.type.inputs.toNat⟩ :: outcome.visits.toList.flatMap body.deferrals := by
  induction rounds generalizing walk arrival with
  | zero => cases hfollow
  | succ rounds ih =>
      have hcase := body.deal_cases walk arrival
      rw [Body.follow] at hfollow
      generalize body.deal walk arrival = dealt at hcase hfollow
      cases hcase with
      | ended hvisits =>
          cases hfollow
          refine ⟨fun walk' heq => (by cases heq), ?_⟩
          rintro outcome ⟨⟩
          rw [hvisits, h]
          exact List.prefix_append _ _
      | repeated =>
          cases hfollow
          refine ⟨?_, fun _ heq => (by cases heq)⟩
          rintro walk' ⟨⟩
          exact h
      | @settled i e exits _ hinspect hexecute =>
          have hsettle := h.settle hinspect hexecute
          cases hnext : exits.next with
          | none =>
              simp only [hnext, Option.some.injEq] at hfollow
              subst hfollow
              refine ⟨?_, fun _ heq => (by cases heq)⟩
              rintro walk' ⟨⟩
              exact hsettle
          | some offset =>
              simp only [hnext] at hfollow
              exact ih hsettle hfollow

/-- The arrivals that the outer loop takes are the entry and, in order, what the visits put off. -/
theorem History.drain {taken : List Arrival} (h : History body taken walk) {rounds entries : Nat}
    {all : List Arrival} {outcome : Outcome}
    (hdrain : body.drain rounds entries taken walk = some (all, outcome)) :
    ∃ rest, all = ⟨0, body.type.inputs.toNat⟩ :: rest ∧
      rest <+: outcome.visits.toList.flatMap body.deferrals := by
  induction entries generalizing walk taken with
  | zero => cases hdrain
  | succ entries ih =>
      rw [Body.drain] at hdrain
      cases hpop : walk.agenda.pop? with
      | none =>
          rw [hpop] at hdrain
          cases hdrain
          rw [History, Agenda.toList_eq_nil_of_pop? hpop, List.append_nil] at h
          exact ⟨_, h.symm, List.prefix_rfl⟩
      | some next =>
          obtain ⟨arrival, rest⟩ := next
          have htaken : History body (taken ++ [arrival]) { walk with agenda := rest } := by
            rw [History, Agenda.toList_of_pop? hpop] at h
            rw [History, List.append_assoc, List.singleton_append]
            exact h
          simp only [hpop] at hdrain
          cases hfollow : body.follow rounds { walk with agenda := rest } arrival with
          | none => rw [hfollow] at hdrain; cases hdrain
          | some progress =>
              obtain ⟨hadvanced, hended⟩ := htaken.follow hfollow
              rw [hfollow] at hdrain
              cases progress with
              | advanced walk' => exact ih (hadvanced walk' rfl) hdrain
              | ended outcome' =>
                  cases hdrain
                  have hpre := hended _ rfl
                  cases taken with
                  | nil =>
                      obtain ⟨rfl, hrest⟩ := List.cons_prefix_cons.mp hpre
                      exact ⟨_, rfl, hrest⟩
                  | cons first taken =>
                      obtain ⟨rfl, hrest⟩ := List.cons_prefix_cons.mp hpre
                      exact ⟨_, rfl, hrest⟩

/-! ## How many rounds there are -/

namespace Walk

variable {size : Nat}

/-- The arrivals on the agenda, and the ones that may still be put there. -/
def load (walk : Walk size) : Nat :=
  walk.agenda.toList.length + 255 * walk.unreached

theorem unreached_le (walk : Walk size) : walk.unreached ≤ size :=
  Vector.countP_le_size

theorem load_start (height : Nat) : (start size height).load ≤ 1 + 255 * size := by
  have := (start size height).unreached_le
  unfold load
  rw [agenda_start, List.length_singleton]
  omega

end Walk

theorem settle_lt {arrival : Arrival} {i : Instruction} {e : Effect} {exits : Exits}
    (hrecord : walk.heightAt? arrival.offset = none)
    (hinspect : body.inspect arrival.offset = .ok (i, e))
    (hexecute : body.execute i e arrival.height = .ok exits) :
    (walk.settle arrival i exits).unreached < walk.unreached ∧
      (walk.settle arrival i exits).load ≤ walk.load := by
  have hdecode := decodeAt_of_inspect hinspect
  have hunreached : (walk.settle arrival i exits).unreached < walk.unreached :=
    Walk.unreached_visit (Code.lt_size_of_decodeAt hdecode) hrecord
  have hlength : exits.deferred.length ≤ 255 := by
    have hle := body.length_deferrals_le (v := ⟨i, arrival.height⟩)
      (Code.wellFormed_of_decodeAt hdecode)
    simpa [Body.deferrals, Body.effect_of_inspect hinspect, hexecute] using hle
  refine ⟨hunreached, ?_⟩
  unfold Walk.load
  rw [agenda_settle, List.length_append, List.length_map]
  omega

/-- The inner loop ends if it may go through more rounds than there are offsets to be reached. -/
theorem exists_follow {rounds : Nat} (h : walk.unreached < rounds) (arrival : Arrival) :
    ∃ progress, body.follow rounds walk arrival = some progress ∧
      ∀ walk', progress = .advanced walk' →
        walk'.unreached ≤ walk.unreached ∧ walk'.load ≤ walk.load := by
  induction rounds generalizing walk arrival with
  | zero => exact absurd h (Nat.not_lt_zero _)
  | succ rounds ih =>
      have hcase := body.deal_cases walk arrival
      rw [Body.follow]
      generalize body.deal walk arrival = dealt at hcase ⊢
      cases hcase with
      | ended => exact ⟨_, rfl, fun _ heq => (by cases heq)⟩
      | repeated =>
          refine ⟨_, rfl, ?_⟩
          rintro walk' ⟨⟩
          exact ⟨Nat.le_refl _, Nat.le_refl _⟩
      | @settled i e exits hrecord hinspect hexecute =>
          obtain ⟨hunreached, hload⟩ := settle_lt hrecord hinspect hexecute
          cases exits.next with
          | none =>
              refine ⟨_, rfl, ?_⟩
              rintro walk' ⟨⟩
              exact ⟨Nat.le_of_lt hunreached, hload⟩
          | some offset =>
              have hrounds : (walk.settle arrival i exits).unreached < rounds := by omega
              obtain ⟨progress, hfollow, hprogress⟩ := ih hrounds ⟨offset, exits.height⟩
              refine ⟨progress, hfollow, ?_⟩
              intro walk' heq
              obtain ⟨hunreached', hload'⟩ := hprogress walk' heq
              exact ⟨by omega, by omega⟩

/-- The outer loop ends if both loops may go through enough rounds. -/
theorem exists_drain {rounds entries : Nat} (hrounds : walk.unreached < rounds)
    (hentries : walk.load < entries) (taken : List Arrival) :
    ∃ all outcome, body.drain rounds entries taken walk = some (all, outcome) := by
  induction entries generalizing walk taken with
  | zero => exact absurd hentries (Nat.not_lt_zero _)
  | succ entries ih =>
      rw [Body.drain]
      cases hpop : walk.agenda.pop? with
      | none => exact ⟨_, _, rfl⟩
      | some next =>
          obtain ⟨arrival, rest⟩ := next
          have hload : ({ walk with agenda := rest } : Walk body.code.size).load + 1 = walk.load := by
            unfold Walk.load
            rw [Agenda.toList_of_pop? hpop, List.length_cons]
            show rest.toList.length + 255 * walk.unreached + 1 = _
            omega
          have hrounds' : ({ walk with agenda := rest } : Walk body.code.size).unreached < rounds :=
            hrounds
          obtain ⟨progress, hfollow, hprogress⟩ := exists_follow hrounds' arrival
          simp only [hfollow]
          cases progress with
          | ended outcome => exact ⟨_, _, rfl⟩
          | advanced walk' =>
              obtain ⟨hunreached, hload'⟩ := hprogress walk' rfl
              exact ih (Nat.lt_of_le_of_lt hunreached hrounds) (by omega) _

namespace Body

/-- More rounds of the inner loop change nothing. -/
theorem follow_of_le {rounds rounds' : Nat} (hle : rounds ≤ rounds') {arrival : Arrival}
    {progress : Progress body.code.size} (h : body.follow rounds walk arrival = some progress) :
    body.follow rounds' walk arrival = some progress := by
  induction rounds generalizing rounds' walk arrival with
  | zero => cases h
  | succ rounds ih =>
      obtain ⟨more, rfl⟩ := Nat.exists_eq_add_of_le' hle
      rw [follow] at h
      rw [← Nat.add_assoc, follow]
      cases hdeal : body.deal walk arrival with
      | ended | rested =>
          rw [hdeal] at h
          exact h
      | ledOn walk' next =>
          rw [hdeal] at h
          exact ih (Nat.le_add_left _ _) h

/-- More rounds of either loop change nothing. -/
theorem drain_of_le {rounds rounds' entries entries' : Nat} (hrounds : rounds ≤ rounds')
    (hentries : entries ≤ entries') {taken all : List Arrival} {outcome : Outcome}
    (h : body.drain rounds entries taken walk = some (all, outcome)) :
    body.drain rounds' entries' taken walk = some (all, outcome) := by
  induction entries generalizing entries' walk taken with
  | zero => cases h
  | succ entries ih =>
      obtain ⟨more, rfl⟩ := Nat.exists_eq_add_of_le' hentries
      rw [drain] at h
      rw [← Nat.add_assoc, drain]
      cases hpop : walk.agenda.pop? with
      | none =>
          rw [hpop] at h
          exact h
      | some next =>
          obtain ⟨arrival, rest⟩ := next
          simp only [hpop] at h ⊢
          cases hfollow : body.follow rounds { walk with agenda := rest } arrival with
          | none => rw [hfollow] at h; cases h
          | some progress =>
              rw [hfollow] at h
              rw [follow_of_le hrounds hfollow]
              cases progress with
              | ended outcome' => exact h
              | advanced walk' => exact ih (Nat.le_add_left _ _) h

end Body

/-! ## Visits -/

/-- The offsets that have been visited, in order. -/
def offsets (visits : Array Visit) : List Nat :=
  visits.toList.map fun v => v.instruction.offset

/-- An offset that has no recorded height has not been visited. -/
theorem Invariant.nodup_push (h : Invariant body walk) (hnodup : (offsets walk.visits).Nodup)
    {arrival : Arrival} (hrecord : walk.heightAt? arrival.offset = none) {i : Instruction}
    (hdecode : body.code.decodeAt arrival.offset = .ok i) :
    (offsets (walk.visits.push ⟨i, arrival.height⟩)).Nodup := by
  have hoffset := Code.offset_of_decodeAt hdecode
  rw [offsets, Array.toList_push, List.map_append, List.map_singleton]
  refine List.nodup_append'.mpr ⟨hnodup, List.nodup_singleton _, ?_⟩
  rw [List.disjoint_singleton]
  intro hmem
  obtain ⟨v, hv, heq⟩ := List.mem_map.mp hmem
  have hvisited := (h.recorded arrival.offset v.height).mpr
    ⟨v, Array.mem_toList_iff.mp hv, heq.trans hoffset, rfl⟩
  rw [hrecord] at hvisited
  cases hvisited

/-- No offset is visited twice. -/
theorem nodup_offsets (body : Body) : (offsets body.walk.visits).Nodup := by
  have hstep : ∀ {walk walk' : Walk body.code.size},
      Invariant body walk ∧ (offsets walk.visits).Nodup → body.step walk = .advanced walk' →
      Invariant body walk' ∧ (offsets walk'.visits).Nodup := by
    rintro walk walk' ⟨hinvariant, hnodup⟩ hadvanced
    refine ⟨hinvariant.step hadvanced, ?_⟩
    have hcase := body.step_cases walk
    rw [hadvanced] at hcase
    cases hcase with
    | repeated => exact hnodup
    | visit _ hrecord hdecode => exact hinvariant.nodup_push hnodup hrecord hdecode
  obtain ⟨last, ⟨hinvariant, hnodup⟩, hended⟩ :=
    Body.exists_last_walk hstep ⟨invariant_start body, List.nodup_nil⟩
  have hcase := body.step_cases last
  rw [hended] at hcase
  show (offsets (body.resume _).visits).Nodup
  generalize body.resume _ = outcome at hcase
  cases hcase with
  | done | mismatch | undecodable | unknownCallee => exact hnodup
  | violation _ hrecord hdecode => exact hinvariant.nodup_push hnodup hrecord hdecode

theorem lt_of_mem_visits {v : Visit} (hv : v ∈ body.walk.visits) :
    v.instruction.offset < body.code.size :=
  Code.lt_size_of_decodeAt (reach_of_mem_visits hv).2

/-- There are no more visits than bytes. -/
theorem size_visits_le (body : Body) : body.walk.visits.size ≤ body.code.size := by
  have hsub : offsets body.walk.visits ⊆ List.range body.code.size := by
    intro offset hmem
    obtain ⟨v, hv, rfl⟩ := List.mem_map.mp hmem
    exact List.mem_range.mpr (lt_of_mem_visits (Array.mem_toList_iff.mp hv))
  calc body.walk.visits.size
      = (offsets body.walk.visits).length := by simp [offsets]
    _ ≤ (List.range body.code.size).length := (List.subperm_of_subset (nodup_offsets body) hsub).length_le
    _ = body.code.size := List.length_range

/-! ## Where arrivals come from -/

/-- The entries of jumps that put off what the visits put off, in the same order. -/
def origins (body : Body) (visits : List Visit) : List (Nat × Nat) :=
  visits.flatMap fun v =>
    (List.range (body.deferrals v).length).map fun k => (v.instruction.offset, k)

theorem forall₂_origins (body : Body) {all : Array Visit} {visits : List Visit}
    (hall : ∀ v ∈ visits, v ∈ all) :
    List.Forall₂ (Body.PutOff body.types all) (origins body visits)
      (visits.flatMap body.deferrals) := by
  induction visits with
  | nil => exact .nil
  | cons v visits ih =>
      rw [List.forall_mem_cons] at hall
      refine List.rel_append ?_ (ih hall.2)
      rw [List.forall₂_iff_get]
      refine ⟨by simp, ?_⟩
      intro k hk hk'
      simp only [List.get_eq_getElem, List.getElem_map, List.getElem_range]
      exact Body.putOff_of_deferrals hall.1 (List.getElem?_eq_getElem hk')

theorem nodup_origins (body : Body) {visits : Array Visit} (h : (offsets visits).Nodup) :
    (origins body visits.toList).Nodup := by
  refine List.nodup_flatMap.mpr ⟨?_, ?_⟩
  · intro v _
    exact List.nodup_range.map fun k k' heq => (Prod.mk.inj heq).2
  · refine (List.pairwise_map.mp h).imp ?_
    intro v v' hne origin hmem hmem'
    obtain ⟨k, -, rfl⟩ := List.mem_map.mp hmem
    obtain ⟨k', -, heq⟩ := List.mem_map.mp hmem'
    exact hne (Prod.mk.inj heq).1.symm

/-- The origin of an arrival is an entry of a jump in the code, one of at most 255. -/
theorem Body.PutOff.lt {origin : Nat × Nat} {arrival : Arrival}
    (h : Body.PutOff body.types body.walk.visits origin arrival) :
    origin.1 < body.code.size ∧ origin.2 < 255 := by
  obtain ⟨v, hv, hoffset, -, ⟨targets, htargets, hget⟩, -⟩ := h
  refine ⟨hoffset ▸ lt_of_mem_visits hv, ?_⟩
  obtain ⟨hlt, -⟩ := List.getElem?_eq_some_iff.mp hget
  have hwell := Code.wellFormed_of_decodeAt (reach_of_mem_visits hv).2
  have hlength := Instruction.length_displacements_le hwell
  rw [(mapM_eq_ok_iff.mp htargets).length_eq] at hlength
  omega

/-- Arrivals of different origins are no more than 255 for each byte of the code. -/
theorem length_le_of_putOff {origins : List (Nat × Nat)} (hnodup : origins.Nodup)
    {arrivals : List Arrival}
    (h : List.Forall₂ (Body.PutOff body.types body.walk.visits) origins arrivals) :
    arrivals.length ≤ 255 * body.code.size := by
  have hsub : origins ⊆ List.range body.code.size ×ˢ List.range 255 := by
    intro origin hmem
    obtain ⟨k, hk⟩ := List.mem_iff_getElem?.mp hmem
    obtain ⟨arrival, -, hputOff⟩ := exists_getElem?_eq h hk
    rw [List.mem_product, List.mem_range, List.mem_range]
    exact hputOff.lt
  calc arrivals.length
      = origins.length := h.length_eq.symm
    _ ≤ (List.range body.code.size ×ˢ List.range 255).length :=
        (List.subperm_of_subset hnodup hsub).length_le
    _ = 255 * body.code.size := by
        rw [List.length_product, List.length_range, List.length_range, Nat.mul_comm]

/-- The loops come to the end of the walk as soon as they may go through enough rounds.  The
arrivals that are taken behind the entry are of different origins. -/
theorem exists_drain_eq_walk (body : Body) :
    ∃ rest origins, (∀ rounds entries, body.code.size < rounds →
        1 + 255 * body.code.size < entries →
        body.drain rounds entries [] (Walk.start body.code.size body.type.inputs.toNat) =
          some (⟨0, body.type.inputs.toNat⟩ :: rest, body.walk)) ∧
      origins.Nodup ∧
      List.Forall₂ (Body.PutOff body.types body.walk.visits) origins rest := by
  -- the least numbers of rounds that are enough
  obtain ⟨taken, outcome, hdrain⟩ : ∃ taken outcome,
      body.drain (body.code.size + 1) (1 + 255 * body.code.size + 1) []
        (Walk.start body.code.size body.type.inputs.toNat) = some (taken, outcome) :=
    exists_drain (Nat.lt_succ_of_le (Walk.unreached_le _))
      (Nat.lt_succ_of_le (Walk.load_start body.type.inputs.toNat)) []
  have houtcome : body.walk = outcome := Body.resume_of_drain hdrain
  subst houtcome
  obtain ⟨rest, rfl, hrest⟩ := (history_start body).drain hdrain
  refine ⟨rest, (origins body body.walk.visits.toList).take rest.length, ?_, ?_, ?_⟩
  · intro rounds entries hrounds hentries
    exact Body.drain_of_le hrounds hentries hdrain
  · exact (nodup_origins body (nodup_offsets body)).sublist (List.take_sublist _ _)
  · have hall : List.Forall₂ (Body.PutOff body.types body.walk.visits)
        (origins body body.walk.visits.toList) (body.walk.visits.toList.flatMap body.deferrals) :=
      forall₂_origins body fun v hv => Array.mem_toList_iff.mp hv
    have htake := List.forall₂_take rest.length hall
    rwa [← List.prefix_iff_eq_take.mp hrest] at htake

/-! ## Validation -/

namespace Validator

/-- Validation in two loops that stop after so many rounds; the first result lists the arrivals
that were taken off the agenda. -/
def traceWithin (validator : Validator) (rounds entries function : Nat) (code : Code) :
    Option (List Arrival × Outcome) :=
  match validator.types[function]? with
  | none => some ([], ⟨#[], .error (.unknownFunction function validator.types.size)⟩)
  | some type =>
    let body : Body := ⟨validator.types, type, code⟩
    (body.drain rounds entries [] (Walk.start body.code.size body.type.inputs.toNat)).map
      fun (taken, outcome) => (taken, ⟨outcome.visits, outcome.result.bind validator.checkPeak⟩)

/-- The arrivals are those that validation takes off the agenda, whatever more rounds its loops
may go through, and nothing is visited or taken more often than the code has room for. -/
structure Bounded (validator : Validator) (function : Nat) (code : Code) (taken : List Arrival) :
    Prop where
  traceWithin : ∀ rounds entries, code.size < rounds → 1 + 255 * code.size < entries →
    validator.traceWithin rounds entries function code =
      some (taken, validator.trace function code)
  nodup_offsets : (offsets (validator.trace function code).visits).Nodup
  offset_lt : ∀ v ∈ (validator.trace function code).visits, v.instruction.offset < code.size
  size_visits_le : (validator.trace function code).visits.size ≤ code.size
  entry : ∀ type, validator.types[function]? = some type →
    taken.head? = some ⟨0, type.inputs.toNat⟩
  origins : ∃ origins : List (Nat × Nat), origins.Nodup ∧
    List.Forall₂ (Body.PutOff validator.types (validator.trace function code).visits) origins
      taken.tail
  length_taken_le : taken.length ≤ 1 + 255 * code.size

/-- Validation ends on every input, with the answer that both of its loops give as soon as the
inner one may go through more rounds than the code has bytes, and the outer one through more than
255 for each of them and one for the entry.  No offset is visited twice or lies outside the code,
and the arrivals that are taken off the agenda behind the entry were put off by different entries
of jumps that were visited. -/
theorem exists_bounded (validator : Validator) (function : Nat) (code : Code) :
    ∃ taken, Bounded validator function code taken := by
  cases htype : validator.types[function]? with
  | none =>
      have htrace : validator.trace function code =
          ⟨#[], .error (.unknownFunction function validator.types.size)⟩ := by
        simp only [trace, htype]
      refine ⟨[], ?_⟩
      exact {
        traceWithin := fun rounds entries _ _ => by simp only [traceWithin, htype, htrace]
        nodup_offsets := by rw [htrace]; exact List.nodup_nil
        offset_lt := by simp [htrace]
        size_visits_le := by rw [htrace]; exact Nat.zero_le _
        entry := by simp [htype]
        origins := ⟨[], List.nodup_nil, .nil⟩
        length_taken_le := Nat.zero_le _ }
  | some type =>
      obtain ⟨rest, origins, hdrain, hnodup, horigins⟩ :=
        exists_drain_eq_walk ⟨validator.types, type, code⟩
      have hlength : rest.length ≤ 255 * code.size := length_le_of_putOff hnodup horigins
      have htrace : validator.trace function code = _ := trace_of_type htype
      refine ⟨⟨0, type.inputs.toNat⟩ :: rest, ?_⟩
      exact {
        traceWithin := by
          intro rounds entries hrounds hentries
          simp only [htrace, Validator.traceWithin, htype, hdrain rounds entries hrounds hentries,
            Option.map_some]
        nodup_offsets := by
          rw [htrace]
          exact Stack.nodup_offsets _
        offset_lt := by
          rw [htrace]
          exact fun v hv => lt_of_mem_visits hv
        size_visits_le := by
          rw [htrace]
          exact Stack.size_visits_le _
        entry := by
          rintro type' htype'
          cases htype.symm.trans htype'
          rfl
        origins := by
          rw [htrace]
          exact ⟨origins, hnodup, horigins⟩
        length_taken_le := by
          rw [List.length_cons]
          omega }

end Validator

end Stack

end EofStack
