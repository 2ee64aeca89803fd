import Mathlib.Algebra.Group.Int.Defs
import Mathlib.Algebra.Group.Nat.Defs

/-!
# Arithmetic in words

Sizes, offsets and heights are numbers here, and displacements are integers.  A machine computes
them in words of 64 bits, some of which have a sign.  What it computes is right as long as every
result fits into a word and nothing greater is subtracted from anything less.

The functions of this file are `none` where that fails.  So an algorithm that is written with them
and ends in `some` can be trusted to words, and comes to the same as with numbers.
-/

namespace EofStack.Word

/-! ## Words without a sign -/

/-- The number, if it is a word. -/
def unsigned? (n : Nat) : Option Nat :=
  if n < 2 ^ 64 then some n else none

/-- The sum of two words. -/
def add? (m n : Nat) : Option Nat :=
  unsigned? (m + n)

/-- The difference of two words, if the second is not the greater one. -/
def sub? (m n : Nat) : Option Nat :=
  if n ≤ m then some (m - n) else none

theorem unsigned?_eq {n : Nat} (h : n < 2 ^ 64) : unsigned? n = some n :=
  if_pos h

theorem add?_eq {m n : Nat} (h : m + n < 2 ^ 64) : add? m n = some (m + n) :=
  unsigned?_eq h

theorem sub?_eq {m n : Nat} (h : n ≤ m) : sub? m n = some (m - n) :=
  if_pos h

/-! ## Words with a sign -/

/-- The integer, if it is a word with a sign. -/
def signed? (n : Int) : Option Int :=
  if -2 ^ 63 ≤ n ∧ n < 2 ^ 63 then some n else none

/-- A word without a sign and one with a sign, added up to one without. -/
def addSigned? (m : Nat) (n : Int) : Option Nat :=
  if 0 ≤ m + n then unsigned? (m + n).toNat else none

theorem signed?_eq {n : Int} (h : -2 ^ 63 ≤ n ∧ n < 2 ^ 63) : signed? n = some n :=
  if_pos h

theorem addSigned?_eq {m : Nat} {n : Int} (h : 0 ≤ m + n ∧ m + n < 2 ^ 64) :
    addSigned? m n = some (m + n).toNat := by
  rw [addSigned?, if_pos h.1, unsigned?_eq (by omega)]

end EofStack.Word
