import EofStack.Stack.Validator

/-!
# Verifying a container

A container in the EVM object format holds the code of its functions and a table of their types.
It is accepted if there is a type for each function, the first function takes and leaves nothing,
every function is valid, and every declared height is the one that validation computes.

Functions are validated independently of each other, so they can be dealt with in any order;
of several that fail, the one with the lowest id is reported.

A function whose code violates a rule is also logged, when it is met.  So it can be told from the
log, but not from the verdict, which functions have been dealt with, and in which order.
-/

namespace EofStack

/-- Why a container is refused. -/
inductive ContainerError
  | empty
  | sectionCount (sections types : Nat)
  | entryType (found : FunctionType)
  | function (id : Nat) (violation : Stack.Violation)
  | declaredHeight (id : Nat) (declared : UInt16) (computed : Nat)
deriving DecidableEq, Repr

namespace ContainerError

/-- The text of an error. -/
def message : ContainerError → String
  | empty => "container has no code sections"
  | sectionCount sections types =>
    "container has " ++ toString sections ++ " code sections but " ++ toString types ++ " types"
  | entryType found => "entry function must have type 0:0, found " ++ found.text
  | function id violation => "function " ++ toString id ++ ": " ++ violation.message
  | declaredHeight id declared computed =>
    "function " ++ toString id ++ " declares max stack height " ++ toString declared.toNat
      ++ ", computed " ++ toString computed

end ContainerError

/-- A function that was rejected, as it is logged. -/
structure Warning where
  id : Nat
  violation : Stack.Violation
deriving DecidableEq, Repr

/-- The text of a warning. -/
def Warning.message (warning : Warning) : String :=
  "function rejected func_id=" ++ toString warning.id ++ " source=" ++ warning.violation.message

/-- What is logged when a result is obtained.  Of all errors only violations are logged. -/
def Warning.ofResult? {α : Type} : Except ContainerError α → Option Warning
  | .error (.function id violation) => some ⟨id, violation⟩
  | _ => none

/-- The greatest heights of the stack in the functions of an accepted container, by id. -/
structure Report where
  heights : List Nat
deriving DecidableEq, Repr

/-- What containers are verified against. -/
structure Verifier extends Stack.Validator

namespace Verifier

/-- Validates one function and compares the height with the declared one, if there is one. -/
def verifyFunction (verifier : Verifier) (id : Nat) (code : Code) : Except ContainerError Nat :=
  match verifier.validate id code with
  | .error violation => .error (.function id violation)
  | .ok computed =>
    match verifier.types[id]?.bind FunctionType.declaredHeight with
    | some declared =>
      if declared.toNat = computed then .ok computed
      else .error (.declaredHeight id declared computed)
    | none => .ok computed

/-- Checks the number of functions, and the type of the first. -/
def checkLayout (verifier : Verifier) (sections : List Code) : Except ContainerError Unit :=
  if sections.length = 0 then .error .empty
  else if sections.length ≠ verifier.types.size then
    .error (.sectionCount sections.length verifier.types.size)
  else
    let entry := verifier.types[0]?.getD .entry
    if entry.inputs = 0 ∧ entry.outputs = 0 then .ok () else .error (.entryType entry)

/-- What verifying one function comes to. -/
abbrev Result := Except ContainerError Nat

/-- The heights, or the first error. -/
def heightsOf (results : List Result) : Except ContainerError (List Nat) :=
  results.mapM id

/-- What verifying a container comes to, and what is logged meanwhile. -/
structure Outcome where
  verdict : Except ContainerError Report
  warnings : List Warning

/-- The results by id decide, and each is logged when it is obtained. -/
def Outcome.ofResults (results obtained : List Result) : Outcome where
  verdict := (heightsOf results).map Report.mk
  warnings := obtained.filterMap Warning.ofResult?

/-! ## One function after the other -/

/-- The results of the functions from `id` on, up to the first that fails. -/
def resultsFrom (verifier : Verifier) (id : Nat) : List Code → List Result
  | [] => []
  | code :: rest =>
    match verifier.verifyFunction id code with
    | .error e => [.error e]
    | .ok height => .ok height :: verifier.resultsFrom (id + 1) rest

/-- Verifies the functions in the order of their ids and stops at the first that fails. -/
def verifyInTurn (verifier : Verifier) (sections : List Code) : Outcome :=
  match verifier.checkLayout sections with
  | .error e => ⟨.error e, []⟩
  | .ok () =>
    let results := verifier.resultsFrom 0 sections
    .ofResults results results

/-- The verdict of verifying the functions in the order of their ids. -/
def verify (verifier : Verifier) (sections : List Code) : Except ContainerError Report :=
  (verifier.verifyInTurn sections).verdict

/-! ## All functions at a time -/

/-- An order in which so many functions can be completed: all of them, and each once. -/
structure Schedule (size : Nat) where
  order : List (Fin size)
  nodup : order.Nodup
  complete : ∀ id, id ∈ order

/-- The functions are completed in the order of their ids. -/
def Schedule.inOrder (size : Nat) : Schedule size where
  order := List.finRange size
  nodup := List.nodup_finRange size
  complete := List.mem_finRange

/-- A place for the result of each function, by id. -/
abbrev Slots (size : Nat) := Vector (Option Result) size

/-- A function that has been completed, and its result. -/
abbrev Completion (size : Nat) := Fin size × Result

variable {size : Nat}

namespace Slots

/-- What stands in the place of a function. -/
def result? (slots : Slots size) (id : Fin size) : Option Result :=
  slots[id]

/-- Puts the result of a function in its place. -/
def store (slots : Slots size) (completion : Completion size) : Slots size :=
  slots.set completion.1 (some completion.2)

theorem result?_store (slots : Slots size) (completion : Completion size) (id : Fin size) :
    (slots.store completion).result? id =
      if completion.1 = id then some completion.2 else slots.result? id := by
  simp only [result?, store, Fin.getElem_fin, Vector.getElem_set, Fin.ext_iff]

/-- The places after the functions have been completed. -/
def ofCompletions (completed : List (Completion size)) : Slots size :=
  completed.foldl store (Vector.replicate size none)

/-- No place is emptied again. -/
theorem isSome_store {slots : Slots size} {id : Fin size} (h : (slots.result? id).isSome)
    (completion : Completion size) : ((slots.store completion).result? id).isSome := by
  rw [result?_store]
  split
  · rfl
  · exact h

/-- The place of a function that has been completed is filled. -/
theorem isSome_foldl {id : Fin size} (completed : List (Completion size)) {slots : Slots size}
    (h : (slots.result? id).isSome ∨ id ∈ completed.map Prod.fst) :
    ((completed.foldl store slots).result? id).isSome := by
  induction completed generalizing slots with
  | nil => exact h.resolve_right List.not_mem_nil
  | cons completion completed ih =>
      apply ih
      rw [List.map_cons, List.mem_cons] at h
      obtain h | rfl | h := h
      · exact Or.inl (isSome_store h completion)
      · rw [result?_store, if_pos rfl]
        exact Or.inl rfl
      · exact Or.inr h

end Slots

/-- The results by id, once all functions have been completed. -/
def collect (completed : List (Completion size)) (h : ∀ id, id ∈ completed.map Prod.fst) :
    List Result :=
  (List.finRange size).map fun id =>
    ((Slots.ofCompletions completed).result? id).get
      (Slots.isSome_foldl completed (Or.inr (h id)))

/-- The functions as they are completed. -/
def completions (verifier : Verifier) (sections : List Code) (schedule : Schedule sections.length) :
    List (Completion sections.length) :=
  schedule.order.map fun id => (id, verifier.verifyFunction id (sections.get id))

theorem mem_fst_completions (verifier : Verifier) (sections : List Code)
    (schedule : Schedule sections.length) (id : Fin sections.length) :
    id ∈ (verifier.completions sections schedule).map Prod.fst := by
  simpa [completions] using schedule.complete id

/-- Verifies all functions, whichever fail, and then collects the heights by id. -/
def verifyCompleting (verifier : Verifier) (sections : List Code)
    (schedule : Schedule sections.length) : Outcome :=
  match verifier.checkLayout sections with
  | .error e => ⟨.error e, []⟩
  | .ok () =>
    let completed := verifier.completions sections schedule
    .ofResults (collect completed (verifier.mem_fst_completions sections schedule))
      (completed.map Prod.snd)

/-- The verdict of verifying all functions before the results are looked at. -/
def verifyParallel (verifier : Verifier) (sections : List Code) : Except ContainerError Report :=
  (verifier.verifyCompleting sections (.inOrder sections.length)).verdict

end Verifier

end EofStack
