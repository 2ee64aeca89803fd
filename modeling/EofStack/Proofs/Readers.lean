import EofStack.Proofs.Numeral

/-!
# What the readers of numbers accept

Each reader of a numeral accepts just the texts of its grammar whose value lies in its range, and
returns that value.  For the operand of a push the refusals are described as well (`NoValue`): a
text marked as hexadecimal is refused for the digits behind the mark, any other text for not being
a decimal numeral of at most 128 bits, and a number for not fitting.
-/

namespace EofStack

/-! ## Grammars -/

/-- A decimal numeral with a plus sign or without sign, and its value. -/
inductive IsUnsigned : List Char → Nat → Prop
  | bare {text : List Char} {n : Nat} (h : IsNumeral 10 text n) : IsUnsigned text n
  | plus {text : List Char} {n : Nat} (h : IsNumeral 10 text n) : IsUnsigned ('+' :: text) n

/-- A decimal numeral with either sign or without sign, and its value. -/
inductive IsSigned : List Char → Int → Prop
  | unsigned {text : List Char} {n : Nat} (h : IsUnsigned text n) : IsSigned text n
  | minus {text : List Char} {n : Nat} (h : IsNumeral 10 text n) : IsSigned ('-' :: text) (-n)

theorem IsUnsigned.denotes {text : List Char} {n : Nat} (h : IsUnsigned text n) :
    Denotes text n := by
  cases h with
  | bare h => exact .natural h
  | plus h => exact .plus h

theorem IsSigned.denotes {text : List Char} {d : Int} (h : IsSigned text d) : Denotes text d := by
  cases h with
  | unsigned h => exact h.denotes
  | minus h => exact .minus h

/-! ## Runs of digits -/

theorem Numeral.digits?_eq_some_iff {text : List Char} {n : Nat} :
    digits? text = some n ↔ IsNumeral 10 text n := by
  constructor
  · exact isNumeral_of_digits?
  · intro h
    have hall : text.all Char.isDigit = true := by
      apply List.all_eq_true.mpr
      intro c hc
      obtain ⟨d, hd, hlt⟩ := h.exists_isDigit hc
      exact (Hex.digit?_cases hd).elim And.left fun hle => by omega
    have hread : digits? text = some (Nat.ofDigitChars 10 text 0) := if_pos ⟨h.ne_nil, hall⟩
    rw [hread, (isNumeral_of_digits? hread).unique h]

theorem Hex.number?_eq_some_iff {text : List Char} {n : Nat} :
    number? text = some n ↔ IsNumeral 16 text n := by
  constructor
  · exact isNumeral_of_number?
  · intro h
    obtain ⟨digits, hdigits, hvalue⟩ := h.digits
    have hread : text.mapM digit? = some digits := mapM_of_forall₂ (hdigits.imp fun _ _ => And.left)
    rw [number?, if_neg h.ne_nil, hread, Option.map_some, hvalue, ofDigits_reverse]

theorem Hex.number?_eq_none_iff {text : List Char} :
    number? text = none ↔ ∀ n, ¬ IsNumeral 16 text n := by
  rw [Option.eq_none_iff_forall_ne_some]
  exact forall_congr' fun n => not_congr number?_eq_some_iff

/-! ## Numerals -/

namespace Numeral

theorem natural?_eq_some_iff {max n : Nat} {text : List Char} :
    natural? max text = some n ↔ IsUnsigned text n ∧ n ≤ max := by
  unfold natural?
  rw [Option.filter_eq_some_iff, decide_eq_true_iff]
  apply and_congr_left'
  split
  · rw [digits?_eq_some_iff]
    refine ⟨.plus, fun h => ?_⟩
    cases h with
    | bare h => exact absurd h not_isNumeral_plus
    | plus h => exact h
  · next hsign =>
    rw [digits?_eq_some_iff]
    refine ⟨.bare, fun h => ?_⟩
    cases h with
    | bare h => exact h
    | plus h => exact absurd rfl (hsign _)

theorem natural?_eq_none_iff {max : Nat} {text : List Char} :
    natural? max text = none ↔ ∀ n, IsUnsigned text n → max < n := by
  rw [Option.eq_none_iff_forall_ne_some]
  refine forall_congr' fun n => ?_
  rw [ne_eq, natural?_eq_some_iff, not_and, not_le]

theorem integer?_eq_some_iff {least greatest d : Int} {text : List Char} :
    integer? least greatest text = some d ↔
      IsSigned text d ∧ least ≤ d ∧ d ≤ greatest := by
  unfold integer?
  rw [Option.filter_eq_some_iff, Bool.and_eq_true, decide_eq_true_iff, decide_eq_true_iff]
  apply and_congr_left'
  have hrun : ∀ {run : List Char} {f : Int → Int},
      (digits? run >>= fun n => pure (n : Int)).map f = some d ↔
        ∃ n : Nat, IsNumeral 10 run n ∧ f n = d := by
    intro run f
    simp only [← digits?_eq_some_iff]
    cases digits? run <;> simp
  split
  · rw [hrun]
    constructor
    · rintro ⟨n, hn, rfl⟩
      exact .unsigned (.plus hn)
    · intro h
      cases h with
      | unsigned h =>
          cases h with
          | bare hn => exact absurd hn not_isNumeral_plus
          | plus hn => exact ⟨_, hn, rfl⟩
  · rw [hrun]
    constructor
    · rintro ⟨n, hn, rfl⟩
      exact .minus hn
    · intro h
      cases h with
      | unsigned h =>
          cases h with
          | bare hn => exact absurd hn not_isNumeral_minus
      | minus hn => exact ⟨_, hn, rfl⟩
  · next hplus hminus =>
    rw [hrun]
    constructor
    · rintro ⟨n, hn, rfl⟩
      exact .unsigned (.bare hn)
    · intro h
      cases h with
      | unsigned h =>
          cases h with
          | bare hn => exact ⟨_, hn, rfl⟩
          | plus => exact absurd rfl (hplus _)
      | minus => exact absurd rfl (hminus _)

theorem integer?_eq_none_iff {least greatest : Int} {text : List Char} :
    integer? least greatest text = none ↔
      ∀ d, IsSigned text d → ¬ (least ≤ d ∧ d ≤ greatest) := by
  rw [Option.eq_none_iff_forall_ne_some]
  refine forall_congr' fun d => ?_
  rw [ne_eq, integer?_eq_some_iff, not_and]

end Numeral

/-! ## Operands of a push -/

theorem BigEndian.capacity_eq_pow (width : Nat) : capacity width = 256 ^ width := by
  induction width with
  | zero => rfl
  | succ width ih => rw [capacity, ih, Nat.pow_succ, Nat.mul_comm]

namespace Assembly

variable {text : List Char} {reason : Reason} {width n : Nat}

/-- The text is marked as hexadecimal, and the digits stand behind the mark. -/
inductive IsMarked (digits : List Char) : List Char → Prop
  | lower : IsMarked digits ('0' :: 'x' :: digits)
  | upper : IsMarked digits ('0' :: 'X' :: digits)

/-- The number that the operand of a push may be: in hexadecimal of any size, in decimal of at most
128 bits. -/
inductive IsPushNumber (text : List Char) (n : Nat) : Prop
  | hex {digits : List Char} (hmark : IsMarked digits text) (h : IsNumeral 16 digits n)
  | decimal (h : IsUnsigned text n) (hbits : n < 2 ^ 128)

/-- Why the operand of a push is no number. -/
inductive NoNumber (text : List Char) : Reason → Prop
  | noHexNumber {digits : List Char} (hmark : IsMarked digits text)
      (hnone : ∀ n, ¬ IsNumeral 16 digits n) : NoNumber text .noHexNumber
  | noDecimalNumber (hmark : ∀ digits, ¬ IsMarked digits text)
      (hnone : ∀ n, IsUnsigned text n → 2 ^ 128 ≤ n) : NoNumber text .noDecimalNumber

/-- Why the operand of a push is no number that fits in `width` bytes. -/
inductive NoValue (width : Nat) (text : List Char) : Reason → Prop
  | noNumber {reason : Reason} (h : NoNumber text reason) : NoValue width text reason
  | tooWide {n : Nat} (h : IsPushNumber text n) (hwide : 256 ^ width ≤ n) :
      NoValue width text .tooWide

theorem IsMarked.unique {digits digits' : List Char} (h : IsMarked digits text)
    (h' : IsMarked digits' text) : digits = digits' := by
  cases h <;> cases h' <;> rfl

theorem IsMarked.not_isUnsigned {digits : List Char} (h : IsMarked digits text) :
    ¬ IsUnsigned text n := by
  intro hn
  cases h with
  | lower =>
      cases hn with
      | bare hn => exact not_isNumeral_hex (Or.inl rfl) hn
  | upper =>
      cases hn with
      | bare hn => exact not_isNumeral_hex (Or.inr rfl) hn

theorem IsPushNumber.denotes (h : IsPushNumber text n) : Denotes text n := by
  cases h with
  | hex hmark h =>
      cases hmark with
      | lower => exact .hex (Or.inl rfl) h
      | upper => exact .hex (Or.inr rfl) h
  | decimal h => exact h.denotes

theorem pushNumber_of_isMarked {digits : List Char} (h : IsMarked digits text) :
    pushNumber text = (Hex.number? digits).elim (.error .noHexNumber) .ok := by
  cases h <;> cases hread : Hex.number? digits <;> simp [pushNumber, hread]

theorem pushNumber_of_forall_not_isMarked (h : ∀ digits, ¬ IsMarked digits text) :
    pushNumber text =
      (Numeral.natural? (2 ^ 128 - 1) text).elim (.error .noDecimalNumber) .ok := by
  unfold pushNumber
  split
  · exact absurd .lower (h _)
  · exact absurd .upper (h _)
  · have hmax : 0xffffffffffffffffffffffffffffffff = 2 ^ 128 - 1 := by decide
    rw [hmax]
    cases Numeral.natural? (2 ^ 128 - 1) text <;> rfl

theorem isPushNumber_iff_of_isMarked {digits : List Char} (h : IsMarked digits text) :
    IsPushNumber text n ↔ IsNumeral 16 digits n := by
  refine ⟨fun hn => ?_, .hex h⟩
  cases hn with
  | hex hmark hn => rwa [h.unique hmark]
  | decimal hn _ => exact absurd hn h.not_isUnsigned

theorem isPushNumber_iff_of_forall_not_isMarked (h : ∀ digits, ¬ IsMarked digits text) :
    IsPushNumber text n ↔ IsUnsigned text n ∧ n < 2 ^ 128 := by
  refine ⟨fun hn => ?_, fun hn => .decimal hn.1 hn.2⟩
  cases hn with
  | hex hmark _ => exact absurd hmark (h _)
  | decimal hn hbits => exact ⟨hn, hbits⟩

/-- A push reads just the numbers there are. -/
theorem pushNumber_eq_ok_iff : pushNumber text = .ok n ↔ IsPushNumber text n := by
  by_cases hmark : ∃ digits, IsMarked digits text
  · obtain ⟨digits, hmark⟩ := hmark
    rw [isPushNumber_iff_of_isMarked hmark, ← Hex.number?_eq_some_iff,
      pushNumber_of_isMarked hmark]
    cases Hex.number? digits <;> simp
  · have hmark := not_exists.mp hmark
    rw [isPushNumber_iff_of_forall_not_isMarked hmark, Nat.lt_iff_le_pred (Nat.two_pow_pos 128),
      ← Numeral.natural?_eq_some_iff, pushNumber_of_forall_not_isMarked hmark]
    cases Numeral.natural? (2 ^ 128 - 1) text <;> simp

theorem pushNumber_eq_error_iff : pushNumber text = .error reason ↔ NoNumber text reason := by
  by_cases hmark : ∃ digits, IsMarked digits text
  · obtain ⟨digits, hmark⟩ := hmark
    have hnone : NoNumber text reason ↔
        Hex.number? digits = none ∧ Reason.noHexNumber = reason := by
      rw [Hex.number?_eq_none_iff]
      constructor
      · intro h
        cases h with
        | noHexNumber hmark' hnone => exact ⟨hmark.unique hmark' ▸ hnone, rfl⟩
        | noDecimalNumber hmark' _ => exact absurd hmark (hmark' _)
      · rintro ⟨hnone, rfl⟩
        exact .noHexNumber hmark hnone
    rw [hnone, pushNumber_of_isMarked hmark]
    cases Hex.number? digits <;> simp
  · have hmark := not_exists.mp hmark
    have hnone : NoNumber text reason ↔
        Numeral.natural? (2 ^ 128 - 1) text = none ∧ Reason.noDecimalNumber = reason := by
      rw [Numeral.natural?_eq_none_iff]
      constructor
      · intro h
        cases h with
        | noHexNumber hmark' _ => exact absurd hmark' (hmark _)
        | noDecimalNumber _ hnone =>
            exact ⟨fun n hn => Nat.sub_one_lt_of_le (Nat.two_pow_pos 128) (hnone n hn), rfl⟩
      · rintro ⟨hnone, rfl⟩
        exact .noDecimalNumber hmark fun n hn => Nat.le_of_pred_lt (hnone n hn)
    rw [hnone, pushNumber_of_forall_not_isMarked hmark]
    cases Numeral.natural? (2 ^ 128 - 1) text <;> simp

theorem pushValue_eq_ok_iff :
    pushValue width text = .ok n ↔ IsPushNumber text n ∧ n < 256 ^ width := by
  rw [← pushNumber_eq_ok_iff, ← BigEndian.capacity_eq_pow]
  unfold pushValue
  cases pushNumber text with
  | error reason => simp
  | ok value =>
      dsimp only
      split
      · next hfits =>
        constructor
        · intro h
          cases h
          exact ⟨rfl, hfits⟩
        · rintro ⟨h, -⟩
          exact h
      · next hwide =>
        refine iff_of_false nofun ?_
        rintro ⟨⟨⟩, hfits⟩
        exact hwide hfits

theorem pushValue_eq_error_iff :
    pushValue width text = .error reason ↔ NoValue width text reason := by
  have hvalue : NoValue width text reason ↔ pushNumber text = .error reason ∨
      ∃ n, pushNumber text = .ok n ∧ 256 ^ width ≤ n ∧ Reason.tooWide = reason := by
    simp only [pushNumber_eq_error_iff, pushNumber_eq_ok_iff]
    constructor
    · intro h
      cases h with
      | noNumber h => exact Or.inl h
      | tooWide h hwide => exact Or.inr ⟨_, h, hwide, rfl⟩
    · rintro (h | ⟨n, h, hwide, rfl⟩)
      · exact .noNumber h
      · exact .tooWide h hwide
  rw [hvalue, ← BigEndian.capacity_eq_pow]
  unfold pushValue
  cases pushNumber text with
  | error reason => simp
  | ok value =>
      by_cases hfits : value < BigEndian.capacity width
      · simp [hfits]
      · simp [hfits, not_lt.mp hfits]

end Assembly

end EofStack
