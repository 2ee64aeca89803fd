/-!
# Function types

The type of a function says how many items it takes from the stack and how many it leaves
there.  It may also declare how high the stack gets inside.
-/

namespace EofStack

/-- The declared type of a function. -/
structure FunctionType where
  inputs : UInt8
  outputs : UInt8
  /-- The declared maximal height of the stack, if the type declares one. -/
  declaredHeight : Option UInt16 := none
deriving DecidableEq, Repr

/-- The types of a container's functions, in the order of their ids. -/
abbrev TypeTable := Array FunctionType

namespace FunctionType

/-- The type that the first function of a container has to have. -/
def entry : FunctionType := ⟨0, 0, none⟩

/-- The type as `inputs:outputs` or `inputs:outputs:height`. -/
def text (type : FunctionType) : String :=
  toString type.inputs.toNat ++ ":" ++ toString type.outputs.toNat
    ++ match type.declaredHeight with
      | some height => ":" ++ toString height.toNat
      | none => ""

end FunctionType

end EofStack
