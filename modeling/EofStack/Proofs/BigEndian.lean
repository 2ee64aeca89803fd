import EofStack.BigEndian

/-!
# Writing what was read

Bytes are the only encoding of the number that they denote in their width (`encode_value`), so
reading an immediate and writing it again loses nothing, leading zeros included.  The same holds
of signed words, and every word lies in the range that a displacement may have.

Zeros in front do not change the number, so the encoding in a width can also be had by dropping
them and putting back as many as there is room for (`fit?_eq`).
-/

namespace EofStack.BigEndian

/-! ## Unsigned numbers -/

theorem value_lt (bytes : List UInt8) : value bytes < capacity bytes.length := by
  induction bytes with
  | nil => decide
  | cons byte bytes ih =>
      have hbyte := byte.toNat_lt
      rw [value_cons, List.length_cons, capacity]
      calc capacity bytes.length * byte.toNat + value bytes
          < capacity bytes.length * byte.toNat + capacity bytes.length := by omega
        _ = capacity bytes.length * (byte.toNat + 1) := by rw [Nat.mul_succ]
        _ ≤ capacity bytes.length * 256 := Nat.mul_le_mul_left _ hbyte
        _ = 256 * capacity bytes.length := Nat.mul_comm _ _

/-- Only the lowest bytes of a number are written. -/
theorem encode_mul_add (width k n : Nat) :
    encode width (capacity width * k + n) = encode width n := by
  induction width generalizing k with
  | zero => rfl
  | succ width ih =>
      -- what is above the highest byte that is written is a multiple of 256 for that byte
      have hsplit : capacity (width + 1) * k + n = capacity width * (256 * k) + n := by
        rw [capacity, Nat.mul_comm 256, Nat.mul_assoc]
      have hhigh : UInt8.ofNat (256 * k + n / capacity width) =
          UInt8.ofNat (n / capacity width) := by
        rw [← UInt8.toNat_inj]
        simp
      rw [encode, hsplit, ih, Nat.mul_add_div (capacity_pos width), hhigh, encode]

/-- Bytes encode the number that they denote. -/
theorem encode_value (bytes : List UInt8) : encode bytes.length (value bytes) = bytes := by
  induction bytes with
  | nil => rfl
  | cons byte bytes ih =>
      have hhigh : (capacity bytes.length * byte.toNat + value bytes) / capacity bytes.length =
          byte.toNat := by
        rw [Nat.mul_add_div (capacity_pos _), Nat.div_eq_of_lt (value_lt bytes), Nat.add_zero]
      rw [List.length_cons, encode, value_cons, encode_mul_add, ih, hhigh, UInt8.ofNat_toNat]

/-! ## Fitting into a width -/

/-- More bytes hold more numbers. -/
theorem capacity_le {width width' : Nat} (h : width ≤ width') :
    capacity width ≤ capacity width' := by
  induction h with
  | refl => exact Nat.le_refl _
  | @step width' _ ih =>
      calc capacity width
          ≤ capacity width' := ih
        _ ≤ 256 * capacity width' := Nat.le_mul_of_pos_left _ (by decide)

/-- Zeros in front do not count. -/
theorem value_zero_cons (bytes : List UInt8) : value (0 :: bytes) = value bytes := by
  rw [value_cons, UInt8.toNat_zero, Nat.mul_zero, Nat.zero_add]

theorem value_replicate_append (count : Nat) (bytes : List UInt8) :
    value (List.replicate count 0 ++ bytes) = value bytes := by
  induction count with
  | zero => rfl
  | succ count ih => rw [List.replicate_succ, List.cons_append, value_zero_cons, ih]

/-- The bytes from the first that is not zero on. -/
def significant (bytes : List UInt8) : List UInt8 :=
  bytes.dropWhile (· = 0)

theorem value_significant (bytes : List UInt8) : value (significant bytes) = value bytes := by
  induction bytes with
  | nil => rfl
  | cons byte bytes ih =>
      unfold significant at ih ⊢
      by_cases hzero : byte = 0
      · rw [List.dropWhile_cons_of_pos (by simpa using hzero), ih, hzero, value_zero_cons]
      · rw [List.dropWhile_cons_of_neg (by simpa using hzero)]

/-- Without zeros in front there are as few bytes as the number allows. -/
theorem length_significant_le_iff {width : Nat} {bytes : List UInt8} :
    (significant bytes).length ≤ width ↔ value bytes < capacity width := by
  rw [← value_significant]
  constructor
  · intro hlength
    calc value (significant bytes)
        < capacity (significant bytes).length := value_lt _
      _ ≤ capacity width := capacity_le hlength
  · intro hvalue
    cases hbytes : significant bytes with
    | nil => exact Nat.zero_le width
    | cons first rest =>
        have hfirst : 0 < first.toNat := by
          apply Nat.pos_of_ne_zero
          intro hzero
          have hhead := List.head?_dropWhile_not (· = (0 : UInt8)) bytes
          rw [show bytes.dropWhile (· = 0) = first :: rest from hbytes] at hhead
          exact absurd (UInt8.toNat_inj.mp hzero) (by simpa using hhead)
        rw [hbytes] at hvalue
        apply Nat.le_of_not_lt
        intro hlong
        have hle : capacity width ≤ value (first :: rest) :=
          calc capacity width
              ≤ capacity rest.length := capacity_le (Nat.le_of_lt_succ hlong)
            _ ≤ capacity rest.length * first.toNat := Nat.le_mul_of_pos_right _ hfirst
            _ ≤ capacity rest.length * first.toNat + value rest := Nat.le_add_right _ _
            _ = value (first :: rest) := (value_cons first rest).symm
        exact absurd hvalue (Nat.not_lt.mpr hle)

/-- The bytes in a given width, if there is room for them: zeros in front are dropped, and put back
up to the width. -/
def fit? (width : Nat) (bytes : List UInt8) : Option (List UInt8) :=
  if (significant bytes).length ≤ width then
    some (List.replicate (width - (significant bytes).length) 0 ++ significant bytes)
  else none

/-- Bytes that are fitted into a width encode the number that they denote. -/
theorem fit?_eq (width : Nat) (bytes : List UInt8) :
    fit? width bytes =
      if value bytes < capacity width then some (encode width (value bytes)) else none := by
  unfold fit?
  simp only [length_significant_le_iff]
  split
  · next hfits =>
    have hlength := length_significant_le_iff.mpr hfits
    have hencode := encode_value
      (List.replicate (width - (significant bytes).length) 0 ++ significant bytes)
    rw [List.length_append, List.length_replicate, Nat.sub_add_cancel hlength,
      value_replicate_append, value_significant] at hencode
    rw [hencode]
  · rfl

/-! ## Signed words -/

theorem encodeSigned_signedValue (high low : UInt8) :
    encodeSigned (signedValue high low) = [high, low] := by
  have hlt : value [high, low] < 65536 := value_lt [high, low]
  have hmod : (signedValue high low % 65536).toNat = value [high, low] := by
    have hemod := @Int.bmod_emod (value [high, low]) 65536
    unfold signedValue
    omega
  rw [encodeSigned, hmod]
  exact encode_value [high, low]

theorem signedValue_bounds (high low : UInt8) :
    -32768 ≤ signedValue high low ∧ signedValue high low ≤ 32767 := by
  have hlower := @Int.le_bmod (value [high, low]) 65536 (by decide)
  have hupper := @Int.bmod_lt (value [high, low]) 65536 (by decide)
  unfold signedValue
  omega

@[simp] theorem length_encodeSigned (n : Int) : (encodeSigned n).length = 2 :=
  length_encode 2 _

/-- A word in the range of displacements reads back. -/
theorem signedValues_encodeSigned_append {n : Int} (hleast : -32768 ≤ n) (hgreatest : n ≤ 32767)
    (bytes : List UInt8) :
    signedValues (encodeSigned n ++ bytes) = n :: signedValues bytes := by
  obtain ⟨high, low, hbytes⟩ : ∃ high low, encodeSigned n = [high, low] := ⟨_, _, rfl⟩
  have hvalue : value [high, low] = (n % 65536).toNat := by
    rw [← hbytes, encodeSigned, value_encode]
    have : capacity 2 = 65536 := rfl
    omega
  have hword : signedValue high low = n := by
    have hemod := @Int.bmod_emod (value [high, low]) 65536
    have hbounds := signedValue_bounds high low
    unfold signedValue at hbounds ⊢
    omega
  rw [hbytes, List.cons_append, List.singleton_append, signedValues, hword]

theorem signedValues_flatMap {words : List Int} (h : ∀ n ∈ words, -32768 ≤ n ∧ n ≤ 32767) :
    signedValues (words.flatMap encodeSigned) = words := by
  induction words with
  | nil => rfl
  | cons n words ih =>
      obtain ⟨hn, hwords⟩ := List.forall_mem_cons.mp h
      rw [List.flatMap_cons, signedValues_encodeSigned_append hn.1 hn.2, ih hwords]

theorem length_signedValues (bytes : List UInt8) :
    (signedValues bytes).length = bytes.length / 2 := by
  induction bytes using signedValues.induct with
  | case1 high low rest ih =>
      simp only [signedValues, List.length_cons, ih]
      omega
  | case2 bytes h =>
      match bytes with
      | [] => rfl
      | [_] => simp [signedValues]
      | high :: low :: rest => exact absurd rfl (h high low rest)

theorem bounds_of_mem_signedValues {bytes : List UInt8} {n : Int} (h : n ∈ signedValues bytes) :
    -32768 ≤ n ∧ n ≤ 32767 := by
  induction bytes using signedValues.induct with
  | case1 high low rest ih =>
      rcases List.mem_cons.mp h with heq | hrest
      · rw [heq]
        exact signedValue_bounds high low
      · exact ih hrest
  | case2 bytes hshort => simp [signedValues] at h

/-- Pairs of bytes encode the words that they hold. -/
theorem flatMap_encodeSigned {bytes : List UInt8} (h : bytes.length % 2 = 0) :
    (signedValues bytes).flatMap encodeSigned = bytes := by
  induction bytes using signedValues.induct with
  | case1 high low rest ih =>
      have hrest : rest.length % 2 = 0 := by
        simp only [List.length_cons] at h
        omega
      rw [signedValues, List.flatMap_cons, encodeSigned_signedValue, ih hrest]
      rfl
  | case2 bytes hshort =>
      match bytes with
      | [] => rfl
      | [_] => simp at h
      | high :: low :: rest => exact absurd rfl (hshort high low rest)

end EofStack.BigEndian
