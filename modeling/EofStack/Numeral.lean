/-!
# Decimal numerals

A numeral is an optional sign and at least one ASCII digit.  Leading zeros are allowed, blanks
and digits of other scripts are not.  Each reader has a range, and a numeral whose value lies
outside it is refused.
-/

namespace EofStack.Numeral

/-- The value of a non-empty run of ASCII digits. -/
def digits? (text : List Char) : Option Nat :=
  if text ≠ [] ∧ text.all Char.isDigit then some (Nat.ofDigitChars 10 text 0) else none

/-- A numeral without minus sign, of value at most `max`. -/
def natural? (max : Nat) (text : List Char) : Option Nat :=
  let digits := match text with
    | '+' :: rest => rest
    | _ => text
  (digits? digits).filter (· ≤ max)

/-- A numeral with either sign or none, of value between `min` and `max`. -/
def integer? (min max : Int) (text : List Char) : Option Int :=
  let value : Option Int := match text with
    | '+' :: rest => (digits? rest).map fun n => (n : Int)
    | '-' :: rest => (digits? rest).map fun n => -(n : Int)
    | _ => (digits? text).map fun n => (n : Int)
  value.filter fun n => min ≤ n && n ≤ max

/-- The decimal text of a number reads back as that number. -/
theorem digits?_toDigits (n : Nat) : digits? (Nat.toDigits 10 n) = some n := by
  have hall : (Nat.toDigits 10 n).all Char.isDigit = true :=
    List.all_eq_true.2 fun c hc => Nat.isDigit_of_mem_toDigits (by decide) (by decide) hc
  rw [digits?, if_pos ⟨Nat.toDigits_ne_nil, hall⟩, Nat.ofDigitChars_ten_toDigits]

end EofStack.Numeral
