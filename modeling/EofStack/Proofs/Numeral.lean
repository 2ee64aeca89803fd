import EofStack.Assembly.Operand
import EofStack.Proofs.Collect
import Mathlib.Data.Nat.Digits.Defs

/-!
# The numbers that texts denote

`Denotes` says which number a text stands for, whatever range a reader asks for: a decimal
numeral with a sign or without one, or a hexadecimal numeral behind its mark.  No text denotes two
numbers (`Denotes.unique`).
-/

namespace EofStack

/-- The character is a digit of the base, with this value. -/
def IsDigit (base : Nat) (c : Char) (d : Nat) : Prop :=
  Hex.digit? c = some d ∧ d < base

/-- The text is a non-empty run of digits of the base, and the number is their value. -/
structure IsNumeral (base : Nat) (text : List Char) (n : Nat) : Prop where
  ne_nil : text ≠ []
  digits : ∃ digits, List.Forall₂ (IsDigit base) text digits ∧ n = Nat.ofDigits base digits.reverse

/-- The text stands for the number. -/
inductive Denotes : List Char → Int → Prop
  | natural {text : List Char} {n : Nat} (h : IsNumeral 10 text n) : Denotes text n
  | plus {text : List Char} {n : Nat} (h : IsNumeral 10 text n) : Denotes ('+' :: text) n
  | minus {text : List Char} {n : Nat} (h : IsNumeral 10 text n) : Denotes ('-' :: text) (-n)
  | hex {text : List Char} {n : Nat} {mark : Char} (hmark : mark = 'x' ∨ mark = 'X')
      (h : IsNumeral 16 text n) : Denotes ('0' :: mark :: text) n

/-! ## One number for each text -/

namespace IsNumeral

variable {base m n : Nat} {text : List Char}

theorem unique (hm : IsNumeral base text m) (hn : IsNumeral base text n) : m = n := by
  obtain ⟨digits, hdigits, rfl⟩ := hm.digits
  obtain ⟨digits', hdigits', rfl⟩ := hn.digits
  have hdigit : Relator.RightUnique (IsDigit base) :=
    fun _ _ _ hd hd' => Option.some.inj (hd.1.symm.trans hd'.1)
  rw [List.right_unique_forall₂' hdigit hdigits hdigits']

theorem exists_isDigit (h : IsNumeral base text n) {c : Char} (hc : c ∈ text) :
    ∃ d, IsDigit base c d := by
  obtain ⟨digits, hdigits, -⟩ := h.digits
  obtain ⟨k, hk⟩ := List.getElem?_of_mem hc
  obtain ⟨d, -, hd⟩ := exists_getElem?_eq hdigits hk
  exact ⟨d, hd⟩

theorem not_mem (h : IsNumeral base text n) {c : Char} (hdigit : Hex.digit? c = none) :
    c ∉ text := by
  intro hc
  obtain ⟨d, hd, -⟩ := h.exists_isDigit hc
  rw [hdigit] at hd
  cases hd

theorem singleton {c : Char} {d : Nat} (h : IsDigit base c d) : IsNumeral base [c] d :=
  ⟨List.cons_ne_nil c [], [d], .cons h .nil, by simp⟩

/-- One more digit behind a numeral. -/
theorem concat (h : IsNumeral base text n) {c : Char} {d : Nat} (hdigit : IsDigit base c d) :
    IsNumeral base (text ++ [c]) (base * n + d) := by
  obtain ⟨digits, hdigits, rfl⟩ := h.digits
  refine ⟨List.concat_ne_nil c text, digits ++ [d], List.rel_append hdigits (.cons hdigit .nil), ?_⟩
  rw [List.reverse_append, List.reverse_singleton, List.singleton_append, Nat.ofDigits_cons,
    Nat.add_comm]

end IsNumeral

/-- Signs and the marks of hexadecimal numerals are no digits. -/
private theorem not_isNumeral {base n : Nat} {text : List Char} {c : Char} (hc : c ∈ text)
    (hdigit : Hex.digit? c = none) : ¬ IsNumeral base text n :=
  fun h => h.not_mem hdigit hc

theorem not_isNumeral_plus {base n : Nat} {text : List Char} :
    ¬ IsNumeral base ('+' :: text) n :=
  not_isNumeral List.mem_cons_self rfl

theorem not_isNumeral_minus {base n : Nat} {text : List Char} :
    ¬ IsNumeral base ('-' :: text) n :=
  not_isNumeral List.mem_cons_self rfl

theorem not_isNumeral_hex {base n : Nat} {text : List Char} {mark : Char}
    (hmark : mark = 'x' ∨ mark = 'X') : ¬ IsNumeral base ('0' :: mark :: text) n := by
  refine not_isNumeral (List.mem_cons_of_mem _ List.mem_cons_self) ?_
  rcases hmark with rfl | rfl <;> rfl

/-- No text denotes two numbers. -/
theorem Denotes.unique {text : List Char} {m n : Int} (hm : Denotes text m) (hn : Denotes text n) :
    m = n := by
  cases hm with
  | natural h =>
      cases hn with
      | natural h' => rw [h.unique h']
      | plus => exact absurd h not_isNumeral_plus
      | minus => exact absurd h not_isNumeral_minus
      | hex hmark => exact absurd h (not_isNumeral_hex hmark)
  | plus h =>
      cases hn with
      | natural h' => exact absurd h' not_isNumeral_plus
      | plus h' => rw [h.unique h']
  | minus h =>
      cases hn with
      | natural h' => exact absurd h' not_isNumeral_minus
      | minus h' => rw [h.unique h']
  | hex hmark h =>
      cases hn with
      | natural h' => exact absurd h' (not_isNumeral_hex hmark)
      | hex _ h' => rw [h.unique h']

/-! ## Runs of digits -/

/-- The value of digits, computed from the left. -/
theorem ofDigits_reverse (base : Nat) (digits : List Nat) :
    Nat.ofDigits base digits.reverse = digits.foldl (fun n d => base * n + d) 0 := by
  rw [Nat.ofDigits_eq_foldr, List.foldr_reverse]
  congr 1
  funext n d
  exact Nat.add_comm d (base * n)

namespace Hex

/-- The digits below ten are the decimal ones. -/
theorem digit?_cases {c : Char} {d : Nat} (h : digit? c = some d) :
    (c.isDigit = true ∧ d < 10) ∨ (10 ≤ d ∧ d < 16) := by
  have h9 : '9'.toNat = '0'.toNat + 9 := rfl
  have hf : 'f'.toNat = 'a'.toNat + 5 := rfl
  have hF : 'F'.toNat = 'A'.toNat + 5 := rfl
  unfold digit? at h
  split at h
  · next hc =>
    cases h
    have hle : c.toNat ≤ '9'.toNat := hc.2
    exact Or.inl ⟨Char.isDigit_iff_toNat.mpr hc, by omega⟩
  split at h
  · next hc =>
    cases h
    have hle : c.toNat ≤ 'f'.toNat := hc.2
    exact Or.inr (by omega)
  split at h
  · next hc =>
    cases h
    have hle : c.toNat ≤ 'F'.toNat := hc.2
    exact Or.inr (by omega)
  · cases h

theorem isNumeral_of_number? {text : List Char} {n : Nat} (h : number? text = some n) :
    IsNumeral 16 text n := by
  unfold number? at h
  split at h
  · cases h
  next hne =>
  obtain ⟨digits, hdigits, rfl⟩ := Option.map_eq_some_iff.mp h
  refine ⟨hne, digits, ?_, (ofDigits_reverse 16 digits).symm⟩
  refine (mapM_eq_some hdigits).imp fun c d hd => ⟨hd, ?_⟩
  rcases digit?_cases hd with ⟨-, hlt⟩ | ⟨-, hlt⟩
  · exact Nat.lt_trans hlt (by decide)
  · exact hlt

end Hex

namespace Numeral

theorem isDigit_ten {c : Char} (h : c.isDigit = true) :
    IsDigit 10 c (c.toNat - '0'.toNat) := by
  obtain ⟨hleast, hgreatest⟩ := Char.isDigit_iff_toNat.mp h
  refine ⟨if_pos ⟨hleast, hgreatest⟩, ?_⟩
  have : '9'.toNat = '0'.toNat + 9 := rfl
  omega

theorem isNumeral_of_digits? {text : List Char} {n : Nat} (h : digits? text = some n) :
    IsNumeral 10 text n := by
  unfold digits? at h
  split at h
  · next htext =>
    cases h
    refine ⟨htext.1, text.map fun c => c.toNat - '0'.toNat, ?_, ?_⟩
    · rw [List.forall₂_map_right_iff, List.forall₂_same]
      exact fun c hc => isDigit_ten (List.all_eq_true.mp htext.2 c hc)
    · rw [ofDigits_reverse, List.foldl_map]
      rfl
  · cases h

end Numeral

end EofStack
