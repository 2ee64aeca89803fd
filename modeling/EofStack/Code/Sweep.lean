import EofStack.Code.Decode

/-!
# The linear sweep

A sweep reads code from end to end, each instruction starting where the one before it ended.  It
fails at the first offset where there is none.
-/

namespace EofStack.Code

/-- Continues a sweep at `offset`; `swept` holds the instructions before it. -/
def sweepFrom (code : Code) (offset : Nat) (swept : Array Instruction) :
    Except DecodeError (Array Instruction) :=
  if offset < code.size then
    match _h : code.decodeAt offset with
    | .ok i => code.sweepFrom i.next (swept.push i)
    | .error e => .error e
  else .ok swept
termination_by code.size - offset
decreasing_by
  have := offset_of_decodeAt _h
  have := i.offset_lt_next
  omega

/-- All instructions of the code, in order. -/
def sweep (code : Code) : Except DecodeError (List Instruction) :=
  (code.sweepFrom 0 #[]).map Array.toList

end EofStack.Code
