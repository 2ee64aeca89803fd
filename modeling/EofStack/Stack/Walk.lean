import EofStack.Stack.Agenda
import EofStack.Stack.Rule

/-!
# The walk through a function

The walk visits every instruction that control can reach and records the height of the stack it
is first reached with.  Whoever arrives there later has to bring the same height, so the height
at an instruction does not depend on the way to it.

Execution goes on at once where control falls through or jumps without condition.  The targets
of branches and jump tables are put off until nothing else is left, the oldest first.

## Strategy

`Body.step` deals with one arrival.  A step either uses up an arrival at an offset that has a
height already, or records a height where there was none.  The second can happen only as often
as the code has bytes, so `Body.walk` ends.
-/

namespace EofStack.Stack

/-- Control reaches an offset with a certain height of the stack. -/
structure Arrival where
  offset : Nat
  height : Nat
deriving DecidableEq, Repr

/-- An instruction that has been visited, and the height of the stack before it. -/
structure Visit where
  instruction : Instruction
  height : Nat
deriving DecidableEq, Repr

/-- The state of a walk through code of the given size. -/
structure Walk (size : Nat) where
  /-- The height that each offset was first reached with. -/
  record : Vector (Option Nat) size
  /-- The arrivals to be dealt with. -/
  agenda : Agenda Arrival
  /-- The greatest height so far. -/
  peak : Nat
  /-- The visits so far, in order. -/
  visits : Array Visit

/-- What a walk comes to: the visits, and the greatest height or the violation that ended it. -/
structure Outcome where
  visits : Array Visit
  result : Except Violation Nat

/-- How a step ends. -/
inductive Progress (size : Nat)
  /-- Nothing was left to do, or a rule is violated. -/
  | ended (outcome : Outcome)
  | advanced (walk : Walk size)

namespace Walk

variable {size : Nat}

/-- The walk that is about to enter the code with `height` items on the stack. -/
def start (size height : Nat) : Walk size where
  record := Vector.replicate size none
  agenda := { front := [⟨0, height⟩] }
  peak := height
  visits := #[]

/-- The height that an offset was first reached with. -/
def heightAt? (walk : Walk size) (offset : Nat) : Option Nat :=
  walk.record[offset]?.join

/-- How many offsets have not been reached. -/
def unreached (walk : Walk size) : Nat :=
  walk.record.countP Option.isNone

/-- Visits the instruction that an arrival leads to: records the height, and lists the arrivals
that follow. -/
def visit (walk : Walk size) (rest : Agenda Arrival) (arrival : Arrival) (i : Instruction)
    (exits : Exits) : Walk size where
  record := walk.record.setIfInBounds arrival.offset (some arrival.height)
  agenda :=
    (rest.append (exits.deferred.map fun offset => ⟨offset, exits.height⟩)).prepend
      (exits.next.toList.map fun offset => ⟨offset, exits.height⟩)
  peak := max walk.peak exits.height
  visits := walk.visits.push ⟨i, arrival.height⟩

end Walk

namespace Body

/-- Deals with the next arrival. -/
def step (body : Body) (walk : Walk body.code.size) : Progress body.code.size :=
  match walk.agenda.pop? with
  | none => .ended ⟨walk.visits, .ok walk.peak⟩
  | some (arrival, rest) =>
    match walk.heightAt? arrival.offset with
    | some height =>
      if height = arrival.height then .advanced { walk with agenda := rest }
      else
        .ended ⟨walk.visits, .error (.heightMismatch arrival.offset height arrival.height)⟩
    | none =>
      match body.inspect arrival.offset with
      | .error violation => .ended ⟨walk.visits, .error violation⟩
      | .ok (i, e) =>
        match body.execute i e arrival.height with
        | .error violation => .ended ⟨walk.visits.push ⟨i, arrival.height⟩, .error violation⟩
        | .ok exits => .advanced (walk.visit rest arrival i exits)

end Body

/-! ## Every walk ends -/

theorem Walk.unreached_visit {size : Nat} {walk : Walk size} {rest : Agenda Arrival}
    {arrival : Arrival} {i : Instruction} {exits : Exits} (hsize : arrival.offset < size)
    (hnone : walk.heightAt? arrival.offset = none) :
    (walk.visit rest arrival i exits).unreached < walk.unreached := by
  have hget : walk.record[arrival.offset] = none := by
    simpa [Walk.heightAt?, hsize] using hnone
  have hpos : 0 < walk.record.countP Option.isNone :=
    Vector.countP_pos_iff.2 ⟨_, Vector.getElem_mem hsize, by simp [hget]⟩
  have hset : walk.record.setIfInBounds arrival.offset (some arrival.height)
      = walk.record.set arrival.offset (some arrival.height) hsize := by
    apply Vector.toArray_inj.1
    simp [Array.setIfInBounds, hsize]
  simp only [Walk.unreached, Walk.visit, hset, Vector.countP_set, hget, Option.isNone_none,
    Option.isNone_some, if_true, Bool.false_eq_true, if_false]
  omega

namespace Body

/-- A step reaches a new offset, or shortens the agenda and reaches none. -/
theorem lt_of_step {body : Body} {walk walk' : Walk body.code.size}
    (h : body.step walk = .advanced walk') :
    walk'.unreached < walk.unreached ∨
      walk'.unreached = walk.unreached
        ∧ walk'.agenda.toList.length < walk.agenda.toList.length := by
  unfold step at h
  split at h
  · cases h
  · next arrival rest hpop =>
    split at h
    · split at h
      · cases h
        right
        exact ⟨rfl, by simp [Agenda.toList_of_pop? hpop]⟩
      · cases h
    · next hnone =>
      split at h
      · cases h
      · next hinspect =>
        split at h
        · cases h
        · cases h
          left
          exact Walk.unreached_visit (Code.lt_size_of_decodeAt (decodeAt_of_inspect hinspect)) hnone

/-- Goes on with a walk until nothing is left or a rule is violated. -/
def resume (body : Body) (walk : Walk body.code.size) : Outcome :=
  match _h : body.step walk with
  | .ended outcome => outcome
  | .advanced walk' => body.resume walk'
termination_by (walk.unreached, walk.agenda.toList.length)
decreasing_by
  rcases lt_of_step _h with hlt | ⟨heq, hlt⟩
  · exact Prod.Lex.left _ _ hlt
  · rw [heq]
    exact Prod.Lex.right _ hlt

/-- The walk through the whole function, from its first instruction with its inputs on the
stack. -/
def walk (body : Body) : Outcome :=
  body.resume (Walk.start body.code.size body.type.inputs.toNat)

end Body

end EofStack.Stack
