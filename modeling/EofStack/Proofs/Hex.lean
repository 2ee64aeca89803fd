import EofStack.Proofs.BigEndian
import EofStack.Proofs.Readers

/-!
# Digits two at a time

A dump is read byte by byte, with two digits to a byte, and so may be the digits of a number: if
there is an odd number of them, behind a zero.  The bytes that are read then have the value of all
digits together, and reading fails exactly if some character is no digit (`packed_cases`).

Digits are ASCII.  It therefore makes no difference that the digits of a dump are looked for among
the bytes of the text and those of a number among its characters (`mapM_utf8EncodeChar`).
-/

namespace EofStack.Hex

/-! ## Digits among bytes -/

theorem toNat_le_of_digit? {c : Char} {d : Nat} (h : digit? c = some d) : c.toNat ≤ 127 := by
  have hle : c ≤ '9' ∨ c ≤ 'f' ∨ c ≤ 'F' := by
    unfold digit? at h
    split at h
    · next hc => exact Or.inl hc.2
    split at h
    · next hc => exact Or.inr (Or.inl hc.2)
    split at h
    · next hc => exact Or.inr (Or.inr hc.2)
    · cases h
  have hmax : ∀ {last : Char}, c ≤ last → c.toNat ≤ last.toNat := fun hlast => hlast
  rcases hle with hle | hle | hle
  · exact (hmax hle).trans (by decide)
  · exact (hmax hle).trans (by decide)
  · exact (hmax hle).trans (by decide)

theorem lt_of_digit? {c : Char} {d : Nat} (h : digit? c = some d) : d < 16 := by
  rcases digit?_cases h with ⟨-, hlt⟩ | ⟨-, hlt⟩
  · exact hlt.trans (by decide)
  · exact hlt

theorem isAlphanum_of_digit? {c : Char} {d : Nat} (h : digit? c = some d) :
    c.isAlphanum = true := by
  have hdigits : ∀ n < 128, (digit? (Char.ofNat n)).isSome = true →
      (Char.ofNat n).isAlphanum = true := by
    decide +kernel
  have hc := hdigits c.toNat (Nat.lt_succ_of_le (toNat_le_of_digit? h))
  rw [Char.ofNat_toNat] at hc
  exact hc (by rw [h, Option.isSome_some])

/-- The value of the digit that a byte is. -/
def digitOfByte? (byte : UInt8) : Option Nat :=
  digit? (Char.ofNat byte.toNat)

theorem digitAt_eq (position : Nat) (byte : UInt8) :
    digitAt position byte =
      (digitOfByte? byte).elim (.error (.invalidDigit byte position)) .ok := by
  unfold digitAt digitOfByte?
  cases digit? (Char.ofNat byte.toNat) <;> rfl

theorem digitOfByte?_ofNat {c : Char} (h : c.toNat ≤ 127) :
    digitOfByte? (UInt8.ofNat c.toNat) = digit? c := by
  rw [digitOfByte?, UInt8.toNat_ofNat', Nat.mod_eq_of_lt (by omega), Char.ofNat_toNat]

theorem digitOfByte?_eq_none {byte : UInt8} (h : 128 ≤ byte.toNat) : digitOfByte? byte = none := by
  have hnone : ∀ n < 256, 128 ≤ n → digit? (Char.ofNat n) = none := by decide +kernel
  exact hnone byte.toNat byte.toNat_lt h

/-- A character outside of ASCII begins with a byte outside of ASCII. -/
theorem exists_utf8EncodeChar_eq {c : Char} (h : 127 < c.toNat) :
    ∃ first rest, String.utf8EncodeChar c = first :: rest ∧ 128 ≤ first.toNat := by
  have hlong : ¬ c.val.toNat ≤ 0x7f := Nat.not_le.mpr h
  unfold String.utf8EncodeChar
  simp only [if_neg hlong]
  -- characters of two, three and four bytes
  split
  · refine ⟨_, _, rfl, ?_⟩
    rw [UInt8.toNat_ofNat']
    omega
  split
  · refine ⟨_, _, rfl, ?_⟩
    rw [UInt8.toNat_ofNat']
    omega
  · refine ⟨_, _, rfl, ?_⟩
    rw [UInt8.toNat_ofNat']
    omega

/-- The digits of a text are the digits among its bytes. -/
theorem mapM_utf8EncodeChar (text : List Char) :
    (text.flatMap String.utf8EncodeChar).mapM digitOfByte? = text.mapM digit? := by
  induction text with
  | nil => rfl
  | cons c text ih =>
      rw [List.flatMap_cons, List.mapM_append, ih, List.mapM_cons]
      by_cases hascii : c.toNat ≤ 127
      · have hbyte : String.utf8EncodeChar c = [UInt8.ofNat c.toNat] := by
          simp [String.utf8EncodeChar, hascii]
        rw [hbyte, List.mapM_cons, List.mapM_nil, digitOfByte?_ofNat hascii]
        cases digit? c <;> rfl
      · obtain ⟨first, rest, hbytes, hfirst⟩ := exists_utf8EncodeChar_eq (Nat.lt_of_not_le hascii)
        have hnone : digit? c = none := by
          rw [Option.eq_none_iff_forall_ne_some]
          intro d hd
          exact hascii (toNat_le_of_digit? hd)
        rw [hbytes, List.mapM_cons, digitOfByte?_eq_none hfirst, hnone]
        rfl

/-- A byte counts as much as its two digits. -/
theorem foldl_pair {high low : Nat} (hhigh : high < 16) (hlow : low < 16) (n : Nat) :
    256 * n + (UInt8.ofNat (16 * high + low)).toNat = 16 * (16 * n + high) + low := by
  rw [UInt8.toNat_ofNat']
  omega

/-- Two digits a byte, all digits are read, or there is a byte that is none. -/
theorem bytesFrom_cases (position : Nat) {text : List UInt8} (heven : text.length % 2 = 0) :
    (∃ digits bytes, text.mapM digitOfByte? = some digits ∧ bytesFrom position text = .ok bytes ∧
      ∀ n, bytes.foldl (fun n byte => 256 * n + byte.toNat) n =
        digits.foldl (fun n d => 16 * n + d) n) ∨
    (text.mapM digitOfByte? = none ∧ ∃ e, bytesFrom position text = .error e) := by
  induction position, text using bytesFrom.induct with
  | case1 position high low rest ih =>
      have heven' : rest.length % 2 = 0 := by
        simp only [List.length_cons] at heven
        omega
      simp only [bytesFrom, digitAt_eq, List.mapM_cons]
      cases hhigh : digitOfByte? high with
      | none => exact Or.inr ⟨rfl, _, rfl⟩
      | some h =>
      cases hlow : digitOfByte? low with
      | none => exact Or.inr ⟨rfl, _, rfl⟩
      | some l =>
      rcases ih heven' with ⟨digits, bytes, hdigits, hbytes, hvalue⟩ | ⟨hnone, e, herror⟩
      · refine Or.inl ⟨h :: l :: digits, UInt8.ofNat (16 * h + l) :: bytes, ?_, ?_, fun n => ?_⟩
        · rw [hdigits]
          rfl
        · rw [hbytes]
          rfl
        · rw [List.foldl_cons, hvalue, foldl_pair (lt_of_digit? hhigh) (lt_of_digit? hlow),
            List.foldl_cons, List.foldl_cons]
      · refine Or.inr ⟨?_, e, ?_⟩
        · rw [hnone]
          rfl
        · rw [herror]
          rfl
  | case2 text position hshort =>
      match text with
      | [] => exact Or.inl ⟨[], [], rfl, rfl, fun n => rfl⟩
      | [_] => simp at heven
      | high :: low :: rest => exact absurd rfl (hshort high low rest)

/-- The text with a zero in front if its length is odd. -/
def evened (text : List UInt8) : List UInt8 :=
  if text.length % 2 = 1 then UInt8.ofNat '0'.toNat :: text else text

theorem length_evened (text : List UInt8) : (evened text).length % 2 = 0 := by
  unfold evened
  split
  · rw [List.length_cons]
    omega
  · omega

/-- A zero in front is one more digit, and of no value. -/
theorem mapM_evened (text : List UInt8) :
    ∃ zeros : List Nat,
      (evened text).mapM digitOfByte? = (text.mapM digitOfByte?).map (zeros ++ ·) ∧
        zeros.foldl (fun n d => 16 * n + d) 0 = 0 := by
  unfold evened
  split
  · refine ⟨[0], ?_, rfl⟩
    rw [List.mapM_cons, digitOfByte?_ofNat (by decide)]
    cases text.mapM digitOfByte? <;> rfl
  · exact ⟨[], by simp, rfl⟩

/-- The bytes that a run of digits denotes, two digits to a byte. -/
def packed (digits : List Char) : Except DumpError (List UInt8) :=
  bytes (evened (digits.flatMap String.utf8EncodeChar))

/-- A run of digits is read as bytes of the same value, and any other text is refused. -/
theorem packed_cases {text : List Char} (hne : text ≠ []) :
    (∃ n bytes, IsNumeral 16 text n ∧ packed text = .ok bytes ∧ BigEndian.value bytes = n) ∨
    ((∀ n, ¬ IsNumeral 16 text n) ∧ ∃ e, packed text = .error e) := by
  have heven := length_evened (text.flatMap String.utf8EncodeChar)
  have hpacked : packed text = bytesFrom 0 (evened (text.flatMap String.utf8EncodeChar)) := by
    rw [packed, bytes, if_neg (by omega)]
  obtain ⟨zeros, hzeros, hzero⟩ := mapM_evened (text.flatMap String.utf8EncodeChar)
  rw [mapM_utf8EncodeChar] at hzeros
  have hnumber : number? text = (text.mapM digit?).map fun digits =>
      digits.foldl (fun n d => 16 * n + d) 0 := if_neg hne
  rw [hpacked]
  rcases bytesFrom_cases 0 heven with ⟨digits, bytes, hdigits, hbytes, hvalue⟩ | ⟨hnone, e, herror⟩
  · rw [hzeros] at hdigits
    obtain ⟨digits', hdigits', rfl⟩ := Option.map_eq_some_iff.mp hdigits
    refine Or.inl ⟨BigEndian.value bytes, bytes, number?_eq_some_iff.mp ?_, hbytes, rfl⟩
    rw [hnumber, hdigits', Option.map_some, Option.some.injEq, BigEndian.value, hvalue,
      List.foldl_append, hzero]
  · rw [hzeros, Option.map_eq_none_iff] at hnone
    refine Or.inr ⟨number?_eq_none_iff.mp ?_, e, herror⟩
    rw [hnumber, hnone, Option.map_none]

end EofStack.Hex
