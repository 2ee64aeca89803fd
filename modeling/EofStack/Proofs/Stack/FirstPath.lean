import EofStack.Proofs.Stack.Invariant

/-!
# The path that a walk goes first

A walk goes on at once where control falls through or jumps without condition, and puts off all
other targets.  As long as that leads forward, to offsets that nothing has reached yet, nothing else
is dealt with in between, however much has been put off before (`Falls.exists_walk`).
-/

namespace EofStack.Stack

/-! ## One step of the path -/

/-- A walk goes on at the offset as soon as it has visited the instruction. -/
inductive First (i : Instruction) : Nat → Prop
  | next (hflow : i.opcode.isTerminating = false) : First i i.next
  | jump {target : Nat} (hflow : i.opcode.flow = .jump) (hleads : Leads i target) : First i target

variable {body : Body} {i : Instruction} {e : Effect} {target : Nat}

theorem First.leads (h : First i target) : Leads i target := by
  cases h with
  | next hflow => exact .next hflow
  | jump _ hleads => exact hleads

/-- What control falls through to comes first, and what it jumps to is all that comes. -/
theorem next_of_exitsAt {outputs height : Nat} {exits : Exits}
    (h : exitsAt outputs i height = .ok exits) :
    (i.opcode.isTerminating = false → exits.next = some i.next) ∧
      (i.opcode.flow = .jump → exits.deferred = []) := by
  unfold exitsAt at h
  cases hflow : i.opcode.flow with
  | jump =>
      simp only [hflow] at h
      split at h <;> cases h
      simp [Opcode.isTerminating, hflow]
  | branch | table =>
      simp only [hflow] at h
      obtain ⟨ts, -, rfl⟩ := map_eq_ok_iff.mp h
      simp
  | halt | ret =>
      simp only [hflow] at h
      split at h <;> cases h
      simp [Opcode.isTerminating, hflow]
  | straight | call =>
      simp only [hflow] at h
      cases h
      simp

theorem exists_execute_of_safe {height : Nat} (hwell : i.WellFormed)
    (heffect : HasEffect body.types i e) (hsafe : Safe body i e height) :
    ∃ exits, body.execute i e height = .ok exits := by
  have hspec := execute_spec hwell heffect height
  cases hexecute : body.execute i e height with
  | error violation =>
      rw [hexecute] at hspec
      exact absurd hsafe (Violates.not_safe hspec)
  | ok exits => exact ⟨exits, rfl⟩

/-- What comes first is what an execution goes on with at once. -/
theorem First.next_eq (h : First i target) {height : Nat} {exits : Exits} (hwell : i.WellFormed)
    (heffect : HasEffect body.types i e) (hexecute : body.execute i e height = .ok exits) :
    exits.next = some target ∧ (exits.height : Int) = height + e.change := by
  have hspec := execute_spec hwell heffect height
  rw [hexecute] at hspec
  obtain ⟨-, hheight, hleads⟩ := hspec
  refine ⟨?_, hheight⟩
  unfold Body.execute at hexecute
  split at hexecute
  · cases hexecute
  · obtain ⟨hnext, hdeferred⟩ := next_of_exitsAt hexecute
    cases h with
    | next hflow => exact hnext hflow
    | jump hflow hjump =>
        have hmem := (hleads target).mpr hjump
        rw [Exits.successors, hdeferred hflow, List.append_nil] at hmem
        exact Option.mem_toList.mp hmem

/-- An arrival at a new offset is a visit, if the instruction there is safe. -/
theorem exists_visit {walk : Walk body.code.size} {offset height : Nat} {rest : List Arrival}
    (hagenda : walk.agenda.toList = ⟨offset, height⟩ :: rest)
    (hrecord : walk.heightAt? offset = none) (hdecode : body.code.decodeAt offset = .ok i)
    (heffect : HasEffect body.types i e) (hsafe : Safe body i e height) :
    ∃ others exits, body.execute i e height = .ok exits ∧
      body.step walk = .advanced (walk.visit others ⟨offset, height⟩ i exits) := by
  obtain ⟨others, hpop, -⟩ := Agenda.exists_pop?_eq hagenda
  have hinspect : body.inspect offset = .ok (i, e) := by
    rcases inspect_spec body offset with ⟨i', e', heq, hdecode', heffect'⟩ |
      ⟨error, hdecode', -⟩ | ⟨i', callee, hdecode', hcallee, hsize, -⟩
    · cases hdecode.symm.trans hdecode'
      rw [heq, heffect.unique heffect']
    · cases hdecode.symm.trans hdecode'
    · cases hdecode.symm.trans hdecode'
      exact absurd (heffect.callee_lt hcallee) (Nat.not_lt_of_le hsize)
  obtain ⟨exits, hexecute⟩ :=
    exists_execute_of_safe (Code.wellFormed_of_decodeAt hdecode) heffect hsafe
  refine ⟨others, exits, hexecute, ?_⟩
  simp only [Body.step, hpop, hrecord, hinspect, hexecute]

/-- What a walk has recorded stays recorded. -/
theorem heightAt?_of_step {walk walk' : Walk body.code.size} {offset height : Nat}
    (hrecord : walk.heightAt? offset = some height) (hstep : body.step walk = .advanced walk') :
    walk'.heightAt? offset = some height := by
  have hcase := body.step_cases walk
  rw [hstep] at hcase
  cases hcase with
  | repeated => exact hrecord
  | visit _ hnone hdecode =>
      rw [Walk.heightAt?_visit (Code.lt_size_of_decodeAt hdecode)]
      split
      · next heq =>
        rw [heq, hnone] at hrecord
        cases hrecord
      · exact hrecord

/-! ## The path -/

/-- Going on at once, and only forward, leads from one offset and height to the other. -/
inductive Falls (body : Body) : Nat → Nat → Nat → Nat → Prop
  | refl {offset height : Nat} : Falls body offset height offset height
  | step {offset height height' next stop last : Nat} {i : Instruction} {e : Effect}
      (hdecode : body.code.decodeAt offset = .ok i) (heffect : HasEffect body.types i e)
      (hsafe : Safe body i e height) (hheight : (height' : Int) = height + e.change)
      (hfirst : First i next) (hlt : offset < next) (hrest : Falls body next height' stop last) :
      Falls body offset height stop last

namespace Falls

variable {offset height middle between stop last : Nat}

theorem trans (h : Falls body offset height middle between)
    (hrest : Falls body middle between stop last) : Falls body offset height stop last := by
  induction h with
  | refl => exact hrest
  | step hdecode heffect hsafe hheight hfirst hlt _ ih =>
      exact .step hdecode heffect hsafe hheight hfirst hlt (ih hrest)

/-- Execution can go the path. -/
theorem reach (h : Falls body offset height stop last) (hreach : Reach body offset height) :
    Reach body stop last := by
  induction h with
  | refl => exact hreach
  | step hdecode heffect hsafe hheight hfirst _ _ ih =>
      exact ih (.step hreach hdecode heffect hsafe.enough hheight hfirst.leads)

/-- A walk that is about to go the path goes all of it before it does anything else. -/
theorem exists_walk (h : Falls body offset height stop last) {walk : Walk body.code.size}
    (hinvariant : Invariant body walk) {rest : List Arrival}
    (hagenda : walk.agenda.toList = ⟨offset, height⟩ :: rest)
    (hfresh : ∀ position, offset ≤ position → walk.heightAt? position = none) :
    ∃ (walk' : Walk body.code.size) (rest' : List Arrival), Invariant body walk' ∧
      walk'.agenda.toList = ⟨stop, last⟩ :: rest' ∧
      (∀ position, stop ≤ position → walk'.heightAt? position = none) ∧
      body.resume walk = body.resume walk' := by
  induction h generalizing walk rest with
  | refl => exact ⟨walk, rest, hinvariant, hagenda, hfresh, rfl⟩
  | @step offset height height' next stop last i e hdecode heffect hsafe hheight hfirst hlt _ ih =>
      obtain ⟨others, exits, hexecute, hadvanced⟩ :=
        exists_visit hagenda (hfresh offset (Nat.le_refl _)) hdecode heffect hsafe
      obtain ⟨hnext, hchange⟩ :=
        hfirst.next_eq (Code.wellFormed_of_decodeAt hdecode) heffect hexecute
      obtain rfl := Int.ofNat_inj.mp (hchange.trans hheight.symm)
      have hagenda' : (walk.visit others ⟨offset, height⟩ i exits).agenda.toList =
          ⟨next, exits.height⟩ ::
            (others.append (exits.deferred.map fun target => ⟨target, exits.height⟩)).toList := by
        simp only [Walk.visit, hnext, Option.toList_some, List.map_cons, List.map_nil,
          Agenda.toList_prepend, List.singleton_append]
      have hfresh' : ∀ position, next ≤ position →
          (walk.visit others ⟨offset, height⟩ i exits).heightAt? position = none := by
        intro position hposition
        rw [Walk.heightAt?_visit (Code.lt_size_of_decodeAt hdecode), if_neg (by simp only; omega)]
        exact hfresh position (by omega)
      rw [Body.resume_of_advanced hadvanced]
      exact ih (hinvariant.step hadvanced) hagenda' hfresh'

end Falls

end EofStack.Stack
