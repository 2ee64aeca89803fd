import EofStack.Hex
import EofStack.Numeral
import EofStack.Proofs.BigEndian
import EofStack.Proofs.Numeral

/-!
# Reading printed numbers

A number that is printed reads back as itself: decimal numerals of either sign within the range
of the reader, and bytes as hexadecimal digits, whose value is the number the bytes denote.
-/

namespace EofStack

/-! ## Decimal numerals -/

namespace Numeral

/-- A printed number begins with a digit, not with a sign. -/
theorem exists_toDigits_eq (n : Nat) :
    ∃ c rest, Nat.toDigits 10 n = c :: rest ∧ c.isDigit = true := by
  cases hdigits : Nat.toDigits 10 n with
  | nil => exact absurd hdigits Nat.toDigits_ne_nil
  | cons c rest =>
      exact ⟨c, rest, rfl, Nat.isDigit_of_mem_toDigits (by decide) (by decide)
        (hdigits ▸ List.mem_cons_self)⟩

theorem natural?_toDigits {max n : Nat} (h : n ≤ max) :
    natural? max (Nat.toDigits 10 n) = some n := by
  have hread := digits?_toDigits n
  obtain ⟨c, rest, hdigits, hc⟩ := exists_toDigits_eq n
  rw [hdigits] at hread ⊢
  have hsign : c ≠ '+' := by rintro rfl; cases hc
  simp [natural?, hsign, hread, h]

/-- The characters of a printed integer. -/
def ofInt (n : Int) : List Char :=
  if 0 ≤ n then Nat.toDigits 10 n.toNat else '-' :: Nat.toDigits 10 (-n).toNat

theorem toList_toString (n : Int) : (toString n).toList = ofInt n := by
  rw [Int.toString_eq_repr, Int.repr_eq_if, ofInt]
  split
  · rw [Nat.toList_repr]
  · rw [String.toList_append, Nat.toList_repr]
    rfl

theorem integer?_ofInt {least greatest n : Int} (hleast : least ≤ n) (hgreatest : n ≤ greatest) :
    integer? least greatest (ofInt n) = some n := by
  unfold ofInt
  split
  · next hpos =>
    have hread := digits?_toDigits n.toNat
    obtain ⟨c, rest, hdigits, hc⟩ := exists_toDigits_eq n.toNat
    rw [hdigits] at hread ⊢
    have hplus : c ≠ '+' := by rintro rfl; cases hc
    have hminus : c ≠ '-' := by rintro rfl; cases hc
    simp [integer?, hplus, hminus, hread, hleast, hgreatest, Int.max_eq_left hpos]
  · next hneg =>
    have hmax : max (-n) 0 = -n := Int.max_eq_left (by omega)
    simp [integer?, digits?_toDigits, hmax, hleast, hgreatest]

/-- A printed integer begins with a digit or with a minus sign. -/
theorem head?_ofInt (n : Int) : ∃ c, (ofInt n).head? = some c ∧ (c.isDigit = true ∨ c = '-') := by
  unfold ofInt
  split
  · obtain ⟨c, rest, hdigits, hc⟩ := exists_toDigits_eq n.toNat
    exact ⟨c, by rw [hdigits, List.head?_cons], Or.inl hc⟩
  · exact ⟨'-', rfl, Or.inr rfl⟩

/-- A printed integer has no other characters than digits and a minus sign. -/
theorem isDigit_of_mem_ofInt {n : Int} {c : Char} (h : c ∈ ofInt n) :
    c.isDigit = true ∨ c = '-' := by
  unfold ofInt at h
  split at h
  · exact Or.inl (Nat.isDigit_of_mem_toDigits (by decide) (by decide) h)
  · rcases List.mem_cons.mp h with rfl | hdigit
    · exact Or.inr rfl
    · exact Or.inl (Nat.isDigit_of_mem_toDigits (by decide) (by decide) hdigit)

end Numeral

/-! ## Hexadecimal digits -/

namespace Hex

theorem digit?_digitChar : ∀ n < 16, digit? (Nat.digitChar n) = some n := by
  decide

theorem isAlphanum_digitChar : ∀ n < 16, (Nat.digitChar n).isAlphanum = true := by
  decide

private theorem mapM_digitsOfByte (byte : UInt8) :
    (digitsOfByte byte).mapM digit? = some [byte.toNat / 16, byte.toNat % 16] := by
  have hbyte := byte.toNat_lt
  have hhigh := digit?_digitChar (byte.toNat / 16) (by omega)
  have hlow := digit?_digitChar (byte.toNat % 16) (by omega)
  simp [digitsOfByte, hhigh, hlow]

private theorem mapM_digitsOfBytes (bytes : List UInt8) :
    (digitsOfBytes bytes).mapM digit? =
      some (bytes.flatMap fun byte => [byte.toNat / 16, byte.toNat % 16]) := by
  induction bytes with
  | nil => rfl
  | cons byte bytes ih =>
      rw [digitsOfBytes] at ih ⊢
      simp [mapM_digitsOfByte, ih]

/-- The digits of bytes denote the number that the bytes denote. -/
theorem number?_digitsOfBytes {bytes : List UInt8} (h : bytes ≠ []) :
    number? (digitsOfBytes bytes) = some (BigEndian.value bytes) := by
  have hne : digitsOfBytes bytes ≠ [] := by
    cases bytes with
    | nil => exact absurd rfl h
    | cons => simp [digitsOfBytes, digitsOfByte]
  have hstep : ∀ (n : Nat) (byte : UInt8),
      16 * (16 * n + byte.toNat / 16) + byte.toNat % 16 = 256 * n + byte.toNat := by
    omega
  rw [number?, if_neg hne, mapM_digitsOfBytes, Option.map_some, List.foldl_flatMap]
  simp only [List.foldl_cons, List.foldl_nil, hstep]
  rfl

theorem isAlphanum_of_mem_digitsOfBytes {bytes : List UInt8} {c : Char}
    (h : c ∈ digitsOfBytes bytes) : c.isAlphanum = true := by
  obtain ⟨byte, -, hc⟩ := List.mem_flatMap.mp h
  have hbyte := byte.toNat_lt
  simp only [digitsOfByte, List.mem_cons, List.not_mem_nil, or_false] at hc
  rcases hc with rfl | rfl <;> exact isAlphanum_digitChar _ (by omega)

end Hex

/-! ## Any base -/

/-- A printed number is a numeral of that number. -/
theorem isNumeral_toDigits {base : Nat} (hbase : 1 < base) (hle : base ≤ 16) (n : Nat) :
    IsNumeral base (Nat.toDigits base n) n := by
  have hdigit : ∀ {d}, d < base → IsDigit base (Nat.digitChar d) d :=
    fun hd => ⟨Hex.digit?_digitChar _ (Nat.lt_of_lt_of_le hd hle), hd⟩
  induction n using Nat.strong_induction_on with
  | h n ih =>
      rw [Nat.toDigits_eq_if hbase]
      split
      · next hlt => exact .singleton (hdigit hlt)
      · next hge =>
        have hrest := ih (n / base) (Nat.div_lt_self (by omega) hbase)
        have hlast := hrest.concat (hdigit (Nat.mod_lt n (by omega)))
        rwa [Nat.div_add_mod] at hlast

end EofStack
