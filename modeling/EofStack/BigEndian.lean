/-!
# Big-endian numbers

Immediates hold numbers with the most significant byte first.  `encode width n` writes the
lowest `width` bytes of `n`, and `value` reads a number of any width, so that
`value (encode width n) = n` as long as `n` fits (`value_encode`).

A displacement is a signed 16-bit word in two's complement.
-/

namespace EofStack.BigEndian

/-- How many numbers `width` bytes can hold. -/
def capacity : Nat → Nat
  | 0 => 1
  | width + 1 => 256 * capacity width

/-- The lowest `width` bytes of `n`, most significant first. -/
def encode : Nat → Nat → List UInt8
  | 0, _ => []
  | width + 1, n => UInt8.ofNat (n / capacity width) :: encode width n

/-- The number that bytes denote, most significant first. -/
def value (bytes : List UInt8) : Nat :=
  bytes.foldl (fun n byte => 256 * n + byte.toNat) 0

theorem capacity_pos (width : Nat) : 0 < capacity width := by
  induction width with
  | zero => decide
  | succ width ih =>
    rw [capacity]
    omega

@[simp] theorem length_encode (width n : Nat) : (encode width n).length = width := by
  induction width with
  | zero => rfl
  | succ width ih => simp [encode, ih]

@[simp] theorem value_nil : value [] = 0 := rfl

private theorem foldl_eq (bytes : List UInt8) (n : Nat) :
    bytes.foldl (fun n byte => 256 * n + byte.toNat) n =
      capacity bytes.length * n + value bytes := by
  induction bytes generalizing n with
  | nil => simp [value, capacity]
  | cons byte bytes ih =>
    simp only [List.foldl_cons, List.length_cons, value, ih (256 * n + byte.toNat),
      ih (256 * 0 + byte.toNat), capacity]
    rw [Nat.mul_add, Nat.mul_comm 256 (capacity _), Nat.mul_zero, Nat.zero_add, Nat.mul_assoc,
      Nat.add_assoc]

theorem value_cons (byte : UInt8) (bytes : List UInt8) :
    value (byte :: bytes) = capacity bytes.length * byte.toNat + value bytes := by
  rw [value, List.foldl_cons, foldl_eq]
  simp

theorem value_encode_mod (width n : Nat) : value (encode width n) = n % capacity width := by
  induction width with
  | zero => simp [encode, capacity, Nat.mod_one]
  | succ width ih =>
    have byte : (UInt8.ofNat (n / capacity width)).toNat = n / capacity width % 256 := by simp
    rw [encode, value_cons, ih, length_encode, byte, capacity, Nat.mul_comm 256, Nat.mod_mul,
      Nat.add_comm]

/-- A number that fits its width reads back. -/
theorem value_encode {width n : Nat} (h : n < capacity width) : value (encode width n) = n := by
  rw [value_encode_mod, Nat.mod_eq_of_lt h]

/-! ## Signed words -/

/-- The two bytes of a signed word. -/
def encodeSigned (n : Int) : List UInt8 :=
  encode 2 (n % 65536).toNat

/-- The signed word that two bytes hold. -/
def signedValue (high low : UInt8) : Int :=
  Int.bmod (value [high, low]) 65536

/-- The signed words that bytes hold, two bytes each. -/
def signedValues : List UInt8 → List Int
  | high :: low :: rest => signedValue high low :: signedValues rest
  | _ => []

end EofStack.BigEndian
