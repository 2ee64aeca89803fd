import EofStack.Stack.Walk

/-!
# Validating a function

A function is valid if the walk through its code finds no violation and the stack never gets
higher than the limit.  The answer is the greatest height, which is at least the number of
inputs.
-/

namespace EofStack.Stack

/-- What functions are validated against. -/
structure Validator where
  types : TypeTable
  /-- The greatest height that the stack may have. -/
  limit : Nat := 1024

namespace Validator

/-- Refuses a height above the limit. -/
def checkPeak (validator : Validator) (peak : Nat) : Except Violation Nat :=
  if validator.limit < peak then .error (.tooDeep peak validator.limit) else .ok peak

/-- Validates the code of a function, and tells which instructions were visited. -/
def trace (validator : Validator) (function : Nat) (code : Code) : Outcome :=
  match validator.types[function]? with
  | none => ⟨#[], .error (.unknownFunction function validator.types.size)⟩
  | some type =>
    let outcome := Body.walk ⟨validator.types, type, code⟩
    ⟨outcome.visits, outcome.result.bind validator.checkPeak⟩

/-- The greatest height of the stack in the code of a function, or the violation that was found
first. -/
def validate (validator : Validator) (function : Nat) (code : Code) : Except Violation Nat :=
  (validator.trace function code).result

end Validator

end EofStack.Stack
