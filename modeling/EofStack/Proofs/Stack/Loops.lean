import EofStack.Proofs.Stack.Step
import EofStack.Stack.Validator

/-!
# The walk as two loops

`Body.walk` takes one arrival after the other from its agenda, whether control has gone on to it at
once or it was put off.  Here the same walk is written as two loops, of which only the outer one
has an agenda.  The inner loop (`Body.follow`) goes on from an arrival as long as control leads on
at once; the outer loop (`Body.drain`) takes the oldest arrival that was put off and follows it.
Both stop when they have gone through as many rounds as they are allowed.

Since nothing ends the loops but the end of the walk, an answer of the loops is the answer of the
walk (`Body.resume_of_drain`).  The outer loop also lists the arrivals that it has taken off the
agenda.
-/

namespace EofStack.Stack

/-- How an arrival has been dealt with. -/
inductive Dealt (size : Nat)
  /-- A rule is violated. -/
  | ended (outcome : Outcome)
  /-- Control has been here before, or goes nowhere at once. -/
  | rested (walk : Walk size)
  /-- Control goes on to the next arrival at once. -/
  | ledOn (walk : Walk size) (next : Arrival)

/-- Visits the instruction that an arrival leads to, which is not on the agenda: records the height,
and puts off what is to be put off. -/
def Walk.settle {size : Nat} (walk : Walk size) (arrival : Arrival) (i : Instruction)
    (exits : Exits) : Walk size :=
  walk.visit walk.agenda arrival i { exits with next := none }

namespace Body

/-! ## Two loops -/

/-- Deals with an arrival that is not on the agenda. -/
def deal (body : Body) (walk : Walk body.code.size) (arrival : Arrival) : Dealt body.code.size :=
  match walk.heightAt? arrival.offset with
  | some height =>
    if height = arrival.height then .rested walk
    else .ended ⟨walk.visits, .error (.heightMismatch arrival.offset height arrival.height)⟩
  | none =>
    match body.inspect arrival.offset with
    | .error violation => .ended ⟨walk.visits, .error violation⟩
    | .ok (i, e) =>
      match body.execute i e arrival.height with
      | .error violation => .ended ⟨walk.visits.push ⟨i, arrival.height⟩, .error violation⟩
      | .ok exits =>
        match exits.next with
        | none => .rested (walk.settle arrival i exits)
        | some offset => .ledOn (walk.settle arrival i exits) ⟨offset, exits.height⟩

/-- The inner loop: goes on from an arrival while control leads on at once, for at most `rounds`
arrivals. -/
def follow (body : Body) : Nat → Walk body.code.size → Arrival → Option (Progress body.code.size)
  | 0, _, _ => none
  | rounds + 1, walk, arrival =>
    match body.deal walk arrival with
    | .ended outcome => some (.ended outcome)
    | .rested walk' => some (.advanced walk')
    | .ledOn walk' next => body.follow rounds walk' next

/-- The outer loop: takes at most `entries` arrivals off the agenda and follows each of them.  The
arrivals that have been taken are listed in order, behind the ones in `taken`. -/
def drain (body : Body) (rounds : Nat) :
    Nat → List Arrival → Walk body.code.size → Option (List Arrival × Outcome)
  | 0, _, _ => none
  | entries + 1, taken, walk =>
    match walk.agenda.pop? with
    | none => some (taken, ⟨walk.visits, .ok walk.peak⟩)
    | some (arrival, rest) =>
      match body.follow rounds { walk with agenda := rest } arrival with
      | none => none
      | some (.ended outcome) => some (taken ++ [arrival], outcome)
      | some (.advanced walk') => body.drain rounds entries (taken ++ [arrival]) walk'

/-! ## The loops are the walk -/

variable {body : Body} {walk : Walk body.code.size}

/-- What the walk comes to after some progress. -/
def conclude (body : Body) : Progress body.code.size → Outcome
  | .ended outcome => outcome
  | .advanced walk => body.resume walk

theorem resume_eq_conclude (body : Body) (walk : Walk body.code.size) :
    body.resume walk = body.conclude (body.step walk) := by
  cases hstep : body.step walk with
  | ended outcome => exact resume_of_ended hstep
  | advanced walk' => exact resume_of_advanced hstep

/-- A step takes the arrival at the front of the agenda, and puts the one that control goes on to
in its place. -/
theorem step_prepend (body : Body) (walk : Walk body.code.size) (arrival : Arrival) :
    body.step { walk with agenda := .prepend [arrival] walk.agenda } =
      match body.deal walk arrival with
      | .ended outcome => .ended outcome
      | .rested walk' => .advanced walk'
      | .ledOn walk' next => .advanced { walk' with agenda := .prepend [next] walk'.agenda } := by
  have hpop : (Agenda.prepend [arrival] walk.agenda).pop? = some (arrival, walk.agenda) := rfl
  have hheight : ({ walk with agenda := .prepend [arrival] walk.agenda } :
      Walk body.code.size).heightAt? arrival.offset = walk.heightAt? arrival.offset := rfl
  simp only [step, deal, hpop, hheight]
  cases walk.heightAt? arrival.offset with
  | some height => by_cases heq : height = arrival.height <;> simp only [heq, if_true, if_false]
  | none =>
      cases body.inspect arrival.offset with
      | error violation => rfl
      | ok found =>
          obtain ⟨i, e⟩ := found
          cases hexecute : body.execute i e arrival.height with
          | error violation => simp only [hexecute]
          | ok exits =>
              obtain ⟨height, next, deferred⟩ := exits
              cases next <;> simp only [hexecute] <;> rfl

/-- The walk goes on from where the inner loop ends. -/
theorem resume_of_follow {rounds : Nat} {arrival : Arrival} {progress : Progress body.code.size}
    (h : body.follow rounds walk arrival = some progress) :
    body.resume { walk with agenda := .prepend [arrival] walk.agenda } =
      body.conclude progress := by
  induction rounds generalizing walk arrival with
  | zero => cases h
  | succ rounds ih =>
      rw [resume_eq_conclude, step_prepend]
      rw [follow] at h
      cases hdeal : body.deal walk arrival with
      | ended outcome | rested walk' =>
          rw [hdeal] at h
          cases h
          rfl
      | ledOn walk' next =>
          rw [hdeal] at h
          exact ih h

/-- An arrival that is popped may as well be put back in front. -/
theorem resume_of_pop? {arrival : Arrival} {rest : Agenda Arrival}
    (h : walk.agenda.pop? = some (arrival, rest)) :
    body.resume walk = body.resume { walk with agenda := .prepend [arrival] rest } := by
  have hpop : (Agenda.prepend [arrival] rest).pop? = some (arrival, rest) := rfl
  rw [resume_eq_conclude, resume_eq_conclude]
  simp only [step, h, hpop]
  rfl

/-- What the loops answer is what the walk comes to. -/
theorem resume_of_drain {rounds entries : Nat} {taken all : List Arrival} {outcome : Outcome}
    (h : body.drain rounds entries taken walk = some (all, outcome)) :
    body.resume walk = outcome := by
  induction entries generalizing walk taken with
  | zero => cases h
  | succ entries ih =>
      rw [drain] at h
      cases hpop : walk.agenda.pop? with
      | none =>
          rw [hpop] at h
          cases h
          exact resume_of_ended (by simp only [step, hpop])
      | some next =>
          obtain ⟨arrival, rest⟩ := next
          rw [resume_of_pop? hpop]
          simp only [hpop] at h
          cases hfollow : body.follow rounds { walk with agenda := rest } arrival with
          | none => rw [hfollow] at h; cases h
          | some progress =>
              have hresume := resume_of_follow hfollow
              rw [hfollow] at h
              cases progress with
              | ended outcome' =>
                  cases h
                  exact hresume
              | advanced walk' => exact hresume.trans (ih h)

end Body

end EofStack.Stack
