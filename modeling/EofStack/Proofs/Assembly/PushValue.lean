import EofStack.Proofs.Assembly.Encoding
import EofStack.Proofs.Assembly.Source
import EofStack.Proofs.Digits
import EofStack.Proofs.Hex

/-!
# The values of pushes

A push is given one number, in hexadecimal behind its mark or in decimal, and carries it in as many
bytes as its name says.  `value_of_pushBytes` describes this for every text and every width: the
bytes there are if the text is a number that fits, and the reason why there are none.

The number never has to be computed for that.  Its bytes can be read off its digits in no
particular width, two digits a byte, and fitted into the width then (`pushBytes_eq`).

How a number is spelled does not matter, as long as it can be spelled at all: in decimal only
numbers of at most 128 bits can (`assemble_spellings`).
-/

namespace EofStack.Assembly

variable {width n : Nat} {text : List Char} {reason : Reason}

/-! ## The immediate of a push -/

/-- The immediate of a push of the given width, as it is written for the operand
(`encodeOperand_of_isPush`). -/
def pushBytes (width : Nat) (text : List Char) : Except Reason (List UInt8) :=
  (pushValue width text).map (BigEndian.encode width)

theorem encodeOperand_of_isPush {placed : Placed} (hpush : placed.opcode.isPush = true)
    (labels : Labels) (operand : String) :
    placed.encodeOperand labels operand =
      (pushBytes placed.opcode.immediateSize operand.toList).mapError
        (.invalidImmediate operand placed.line) := by
  obtain ⟨hflow, -⟩ : placed.opcode.flow = .straight ∧ 0 < placed.opcode.immediateSize := by
    simpa [Opcode.isPush] using hpush
  simp only [Placed.encodeOperand, hflow, pushBytes]
  cases pushValue placed.opcode.immediateSize operand.toList <;> rfl

/-- A push is encoded as its opcode and its immediate. -/
theorem encode_of_isPush {placed : Placed} (hpush : placed.opcode.isPush = true)
    {operand : String} (hoperands : placed.operands = [operand]) (labels : Labels) :
    placed.encode labels =
      match pushBytes placed.opcode.immediateSize operand.toList with
      | .ok immediate => .ok (placed.opcode.byte :: immediate)
      | .error reason => .error (.invalidImmediate operand placed.line reason) := by
  have htable : placed.opcode.flow ≠ .table := by
    intro hflow
    simp [Opcode.isPush, hflow] at hpush
  rw [Placed.encode_of_operand htable hoperands, encodeOperand_of_isPush hpush]
  cases pushBytes placed.opcode.immediateSize operand.toList <;> rfl

theorem pushBytes_eq_ok_iff {bytes : List UInt8} :
    pushBytes width text = .ok bytes ↔
      ∃ n, IsPushNumber text n ∧ n < 256 ^ width ∧ BigEndian.encode width n = bytes := by
  rw [pushBytes, map_eq_ok_iff]
  simp only [pushValue_eq_ok_iff, and_assoc]

theorem pushBytes_eq_error_iff :
    pushBytes width text = .error reason ↔ NoValue width text reason := by
  rw [pushBytes, map_eq_error_iff, pushValue_eq_error_iff]

theorem IsPushNumber.pushBytes_eq (h : IsPushNumber text n) (hfits : n < 256 ^ width) :
    pushBytes width text = .ok (BigEndian.encode width n) :=
  pushBytes_eq_ok_iff.mpr ⟨n, h, hfits, rfl⟩

/-- The code of a layout with one instruction is that of the instruction. -/
theorem Layout.encode_of_singleton {layout : Layout} {placed : Placed}
    (h : layout.placed = #[placed]) : layout.encode = placed.encode layout.labels := by
  rw [Layout.encode, h, mapM_cons_except]
  cases placed.encode layout.labels with
  | error fault => rfl
  | ok bytes =>
      show Except.ok [bytes].flatten = _
      rw [List.flatten_singleton]

/-! ## Byte by byte -/

/-- The bytes of the number that an operand denotes, in no particular width. -/
def numberBytes (text : List Char) : Except Reason (List UInt8) :=
  match text with
  | '0' :: 'x' :: digits | '0' :: 'X' :: digits =>
    if digits = [] then .error .noHexNumber
    else (Hex.packed digits).mapError fun _ => .noHexNumber
  | _ =>
    match Numeral.natural? (2 ^ 128 - 1) text with
    | some n => .ok (BigEndian.encode 16 n)
    | none => .error .noDecimalNumber

theorem numberBytes_of_isMarked {digits : List Char} (h : IsMarked digits text) :
    numberBytes text =
      if digits = [] then .error .noHexNumber
      else (Hex.packed digits).mapError fun _ => .noHexNumber := by
  cases h <;> rfl

theorem numberBytes_of_forall_not_isMarked (h : ∀ digits, ¬ IsMarked digits text) :
    numberBytes text =
      match Numeral.natural? (2 ^ 128 - 1) text with
      | some n => .ok (BigEndian.encode 16 n)
      | none => .error .noDecimalNumber := by
  unfold numberBytes
  split
  · exact absurd .lower (h _)
  · exact absurd .upper (h _)
  · rfl

/-- The bytes have the number as their value, and there are none exactly if there is no number. -/
theorem numberBytes_cases (text : List Char) :
    (∃ n bytes, pushNumber text = .ok n ∧ numberBytes text = .ok bytes ∧
      BigEndian.value bytes = n) ∨
    ∃ reason, pushNumber text = .error reason ∧ numberBytes text = .error reason := by
  by_cases hmark : ∃ digits, IsMarked digits text
  · obtain ⟨digits, hmark⟩ := hmark
    rw [numberBytes_of_isMarked hmark, pushNumber_of_isMarked hmark]
    by_cases hnil : digits = []
    · subst hnil
      exact Or.inr ⟨.noHexNumber, rfl, rfl⟩
    · rw [if_neg hnil]
      rcases Hex.packed_cases hnil with ⟨n, bytes, hn, hbytes, hvalue⟩ | ⟨hnone, e, herror⟩
      · rw [Hex.number?_eq_some_iff.mpr hn, hbytes]
        exact Or.inl ⟨n, bytes, rfl, rfl, hvalue⟩
      · rw [Hex.number?_eq_none_iff.mpr hnone, herror]
        exact Or.inr ⟨.noHexNumber, rfl, rfl⟩
  · have hmark := not_exists.mp hmark
    rw [numberBytes_of_forall_not_isMarked hmark, pushNumber_of_forall_not_isMarked hmark]
    cases hread : Numeral.natural? (2 ^ 128 - 1) text with
    | none => exact Or.inr ⟨.noDecimalNumber, rfl, rfl⟩
    | some n =>
        obtain ⟨-, hle⟩ := Numeral.natural?_eq_some_iff.mp hread
        have hfits : n < BigEndian.capacity 16 :=
          calc n
              < 2 ^ 128 := Nat.lt_of_le_pred (Nat.two_pow_pos 128) hle
            _ = BigEndian.capacity 16 := by decide
        exact Or.inl ⟨n, _, rfl, rfl, BigEndian.value_encode hfits⟩

/-- The immediate of a push is what its number takes up in bytes, fitted into the width. -/
theorem pushBytes_eq (width : Nat) (text : List Char) :
    pushBytes width text = (do
      let bytes ← numberBytes text
      (BigEndian.fit? width bytes).elim (.error .tooWide) .ok) := by
  rcases numberBytes_cases text with ⟨n, bytes, hnumber, hbytes, rfl⟩ | ⟨reason, hnumber, hbytes⟩
  · simp only [pushBytes, pushValue, hnumber, hbytes, BigEndian.fit?_eq]
    show Except.map _ _ = Option.elim _ _ _
    split <;> rfl
  · simp only [pushBytes, pushValue, hnumber, hbytes]
    rfl

/-! ## Every outcome -/

/-- **A push carries the number that it is given, or there is none that it could carry.**  The
immediate can also be read off the digits byte by byte. -/
theorem value_of_pushBytes (width : Nat) (text : List Char) :
    (∀ n, IsPushNumber text n ∧ n < 256 ^ width ↔
      ∃ bytes, pushBytes width text = .ok bytes ∧ bytes.length = width ∧
        BigEndian.value bytes = n) ∧
    (pushBytes width text = .error .tooWide ↔ ∃ n, IsPushNumber text n ∧ 256 ^ width ≤ n) ∧
    (pushBytes width text = .error .noHexNumber ↔
      (∃ digits, IsMarked digits text) ∧ ∀ n, ¬ IsPushNumber text n) ∧
    (pushBytes width text = .error .noDecimalNumber ↔
      (¬ ∃ digits, IsMarked digits text) ∧ ∀ n, ¬ IsPushNumber text n) ∧
    pushBytes width text = (do
      let bytes ← numberBytes text
      (BigEndian.fit? width bytes).elim (.error .tooWide) .ok) := by
  refine ⟨fun n => ⟨?fits, ?value⟩, ⟨?wide, ?tooWide⟩, ⟨?noHex, ?marked⟩, ⟨?noDecimal, ?unmarked⟩,
    pushBytes_eq width text⟩
  case fits =>
    rintro ⟨h, hfits⟩
    refine ⟨_, h.pushBytes_eq hfits, BigEndian.length_encode width n, BigEndian.value_encode ?_⟩
    rwa [BigEndian.capacity_eq_pow]
  case value =>
    rintro ⟨bytes, hbytes, -, rfl⟩
    obtain ⟨n, hn, hfits, rfl⟩ := pushBytes_eq_ok_iff.mp hbytes
    rw [BigEndian.value_encode (by rwa [BigEndian.capacity_eq_pow])]
    exact ⟨hn, hfits⟩
  case wide =>
    intro herror
    cases pushBytes_eq_error_iff.mp herror with
    | noNumber h => cases h
    | tooWide h hwide => exact ⟨_, h, hwide⟩
  case tooWide =>
    rintro ⟨n, hn, hwide⟩
    exact pushBytes_eq_error_iff.mpr (.tooWide hn hwide)
  case noHex =>
    intro herror
    cases pushBytes_eq_error_iff.mp herror with
    | noNumber h =>
        cases h with
        | noHexNumber hmark hnone =>
            exact ⟨⟨_, hmark⟩, fun n hn => hnone n ((isPushNumber_iff_of_isMarked hmark).mp hn)⟩
  case marked =>
    rintro ⟨⟨digits, hmark⟩, hnone⟩
    refine pushBytes_eq_error_iff.mpr (.noNumber (.noHexNumber hmark fun n hn => ?_))
    exact hnone n (.hex hmark hn)
  case noDecimal =>
    intro herror
    cases pushBytes_eq_error_iff.mp herror with
    | noNumber h =>
        cases h with
        | noDecimalNumber hmark hnone =>
            refine ⟨not_exists.mpr hmark, fun n hn => ?_⟩
            obtain ⟨hunsigned, hbits⟩ := (isPushNumber_iff_of_forall_not_isMarked hmark).mp hn
            exact absurd (hnone n hunsigned) (Nat.not_le.mpr hbits)
  case unmarked =>
    rintro ⟨hmark, hnone⟩
    refine pushBytes_eq_error_iff.mpr (.noNumber (.noDecimalNumber (not_exists.mp hmark) ?_))
    intro n hn
    apply Nat.le_of_not_lt
    intro hbits
    exact hnone n (.decimal hn hbits)

/-! ## Spellings -/

/-- A source of one line, which pushes the operand. -/
def pushLine (width : Nat) (operand : List Char) : String :=
  "push" ++ toString width ++ " " ++ String.ofList operand

/-- The opcode of the pushes of a width. -/
def pushOpcode (width : Nat) : Opcode :=
  .push (UInt8.ofNat (0x5f + width)) ("push" ++ toString width) width

theorem pushOpcode_mem_table {width : Nat} (hpos : 1 ≤ width) (hmax : width ≤ 32) :
    pushOpcode width ∈ Opcode.table := by
  have htable : ∀ width ≤ 32, 1 ≤ width → pushOpcode width ∈ Opcode.table := by decide +kernel
  exact htable width hmax hpos

/-- The line is read as a push with one operand. -/
theorem parse_pushLine {operand : List Char} (hopcode : pushOpcode width ∈ Opcode.table)
    (hword : IsWord operand) :
    parse (pushLine width operand) =
      [⟨1, none, some ⟨(pushOpcode width).mnemonic, [String.ofList operand]⟩⟩] := by
  have hname := Opcode.isName_mnemonic hopcode
  have hmnemonic : IsWord (pushOpcode width).mnemonic.toList :=
    ⟨hname.1, fun c hc => Or.inl (hname.2 c hc).1⟩
  have hoperands : ∀ other ∈ [operand], IsWord other := List.forall_mem_singleton.mpr hword
  have htext : (pushLine width operand).toList =
      joined (pushOpcode width).mnemonic.toList [operand] := by
    simp [pushLine, pushOpcode, Opcode.push, joined]
  have hline : '\n' ∉ joined (pushOpcode width).mnemonic.toList [operand] :=
    not_mem_joined hmnemonic hoperands (by decide)
  have hne : joined (pushOpcode width).mnemonic.toList [operand] ≠ [] :=
    List.append_ne_nil_of_left_ne_nil hmnemonic.ne_nil _
  rw [parse, htext, Text.lines, Text.pieces_of_not_mem hne hline, List.map_singleton,
    Text.withoutLineEnd_of_not_mem hline, List.mapIdx_singleton,
    ofChars_joined hmnemonic hoperands, String.ofList_toList, List.map_singleton]

/-- A push is assembled alone as its opcode and its immediate. -/
theorem assemble_pushLine {operand : List Char} (hpos : 1 ≤ width) (hmax : width ≤ 32)
    (hword : IsWord operand) :
    assemble (pushLine width operand) =
      match pushBytes width operand with
      | .ok immediate => .ok (UInt8.ofNat (0x5f + width) :: immediate).toArray
      | .error reason => .error (.invalidImmediate (String.ofList operand) 1 reason) := by
  have hopcode := pushOpcode_mem_table hpos hmax
  let placed : Placed := ⟨pushOpcode width, [String.ofList operand], 0, 1⟩
  have hpush : placed.opcode.isPush = true := by
    simp [placed, pushOpcode, Opcode.push, Opcode.isPush, Nat.lt_of_succ_le hpos]
  have hcheck : checkOperands (pushOpcode width) [String.ofList operand] 1 = .ok () := by
    refine checkOperands_eq_ok_iff.mpr (Or.inr (Or.inr ⟨Nat.lt_of_succ_le hpos, ?_, _, rfl⟩))
    simp [pushOpcode, Opcode.push]
  have hlayout : Layout.ofLines (parse (pushLine width operand)) =
      .ok { placed := #[placed], size := placed.next } := by
    rw [parse_pushLine hopcode hword, Layout.ofLines, List.foldlM_cons]
    simp only [Layout.add, Layout.place, Opcode.ofMnemonic?_mnemonic hopcode, hcheck]
    rfl
  rw [assemble, assembleLines, hlayout]
  dsimp only
  rw [Layout.encode_of_singleton rfl, encode_of_isPush hpush rfl, String.toList_ofList]
  have hwidth : placed.opcode.immediateSize = width := rfl
  rw [hwidth]
  cases pushBytes width operand <;> rfl

/-! ### Numerals -/

theorem isWord_of_isNumeral {base : Nat} (h : IsNumeral base text n) : IsWord text where
  ne_nil := h.ne_nil
  plain c hc := by
    obtain ⟨d, hd, -⟩ := h.exists_isDigit hc
    exact Or.inl (Hex.isAlphanum_of_digit? hd)

/-- A decimal numeral of more than 128 bits is refused, whether it fits or not. -/
theorem pushBytes_of_long (h : IsNumeral 10 text n) (hlong : 2 ^ 128 ≤ n) :
    pushBytes width text = .error .noDecimalNumber := by
  refine pushBytes_eq_error_iff.mpr (.noNumber (.noDecimalNumber ?_ fun m hm => ?_))
  · intro digits hmark
    exact hmark.not_isUnsigned (.bare h)
  · have heq : (m : Int) = n := hm.denotes.unique (.natural h)
    rwa [Int.ofNat_inj.mp heq]

/-- **Spellings of a number are interchangeable**, in hexadecimal and in decimal, as far as the
number has a decimal spelling at all: above 128 bits it is refused in decimal. -/
theorem assemble_spellings {width n : Nat} (hpos : 1 ≤ width) (hmax : width ≤ 32)
    (hfits : n < 256 ^ width) :
    ∃ immediate : List UInt8, immediate.length = width ∧ BigEndian.value immediate = n ∧
      (∀ hex, IsNumeral 16 hex n →
        assemble (pushLine width ('0' :: 'x' :: hex)) =
          .ok (UInt8.ofNat (0x5f + width) :: immediate).toArray) ∧
      (∀ decimal, IsNumeral 10 decimal n →
        assemble (pushLine width decimal) =
          if n < 2 ^ 128 then .ok (UInt8.ofNat (0x5f + width) :: immediate).toArray
          else .error (.invalidImmediate (String.ofList decimal) 1 .noDecimalNumber)) ∧
      IsNumeral 16 (Nat.toDigits 16 n) n ∧ IsNumeral 10 (Nat.toDigits 10 n) n := by
  refine ⟨BigEndian.encode width n, BigEndian.length_encode width n, BigEndian.value_encode ?_,
    fun hex hhex => ?_, fun decimal hdecimal => ?_, isNumeral_toDigits (by decide) (by decide) n,
    isNumeral_toDigits (by decide) (by decide) n⟩
  · rwa [BigEndian.capacity_eq_pow]
  · have hdigits := isWord_of_isNumeral hhex
    have hword : IsWord ('0' :: 'x' :: hex) :=
      ⟨List.cons_ne_nil _ _, List.forall_mem_cons.mpr
        ⟨Or.inl rfl, List.forall_mem_cons.mpr ⟨Or.inl rfl, hdigits.plain⟩⟩⟩
    rw [assemble_pushLine hpos hmax hword, IsPushNumber.pushBytes_eq (.hex .lower hhex) hfits]
  · rw [assemble_pushLine hpos hmax (isWord_of_isNumeral hdecimal)]
    by_cases hbits : n < 2 ^ 128
    · rw [IsPushNumber.pushBytes_eq (.decimal (.bare hdecimal) hbits) hfits, if_pos hbits]
    · rw [pushBytes_of_long hdecimal (Nat.le_of_not_lt hbits), if_neg hbits]

/-- The greatest number with a decimal spelling, and the same in hexadecimal with zeros in front and
digits of both cases. -/
theorem assemble_spellings_bothCases :
    1 ≤ 17 ∧ 17 ≤ 32 ∧ 2 ^ 128 - 1 < 256 ^ 17 ∧
      ∃ code : Code,
        assemble "push17 0x000FfffFFFFffffFFFFffffFFFFffffFFFF" = .ok code ∧
        assemble "push17 340282366920938463463374607431768211455" = .ok code := by
  obtain ⟨immediate, -, -, hhex, hdecimal, -⟩ := assemble_spellings
    (by decide : 1 ≤ 17) (by decide) (by decide : 2 ^ 128 - 1 < 256 ^ 17)
  have hspelling : IsNumeral 16 "000FfffFFFFffffFFFFffffFFFFffffFFFF".toList (2 ^ 128 - 1) :=
    Hex.number?_eq_some_iff.mp (by decide +kernel)
  have hspelling' : IsNumeral 10 "340282366920938463463374607431768211455".toList (2 ^ 128 - 1) :=
    Numeral.digits?_eq_some_iff.mp (by decide +kernel)
  have hline : "push17 0x000FfffFFFFffffFFFFffffFFFFffffFFFF" =
      pushLine 17 ('0' :: 'x' :: "000FfffFFFFffffFFFFffffFFFFffffFFFF".toList) := by
    decide +kernel
  have hline' : "push17 340282366920938463463374607431768211455" =
      pushLine 17 "340282366920938463463374607431768211455".toList := by
    decide +kernel
  refine ⟨by decide, by decide, by decide, (UInt8.ofNat (0x5f + 17) :: immediate).toArray, ?_, ?_⟩
  · rw [hline]
    exact hhex _ hspelling
  · rw [hline', hdecimal _ hspelling', if_pos (by decide)]

/-- The greatest number that can be pushed at all has no decimal spelling that is accepted. -/
theorem assemble_greatestDecimal :
    2 ^ 256 - 1 < 256 ^ 32 ∧
      assemble (pushLine 32 (Nat.toDigits 10 (2 ^ 256 - 1))) =
        .error (.invalidImmediate (toString (2 ^ 256 - 1)) 1 .noDecimalNumber) ∧
      assemble (pushLine 32 ('0' :: 'x' :: Nat.toDigits 16 (2 ^ 256 - 1))) =
        .ok (0x7f :: List.replicate 32 0xff).toArray :=
  ⟨by decide, by decide +kernel, by decide +kernel⟩

end EofStack.Assembly
