import EofStack.Numeral
import EofStack.Opcode.Byte
import EofStack.Opcode.Table
import Mathlib.Data.List.Chain

/-!
# What holds of every opcode

The facts about the opcode table that the walk and the assembler rely on.  Each
is a finite check of the table; nothing after this file enumerates it again.

* An opcode never takes more items than it requires (`required_add_change_nonneg`), so heights
  stay natural numbers.
* The flow of an opcode fixes the size of its immediate, pushes excepted
  (`immediateSize_of_flow`).
* Bytes and names identify opcodes (`ofByte?_byte`, `ofMnemonic?_mnemonic`).  Bytes ascend
  strictly along the table; names are merely distinct.
* The name of a push says how many bytes it carries (`immediateSize_of_push`).
* A byte that has a constant of its own belongs to the opcode that the constant is called after
  (`ofByte?_constant`).
* A name is a non-empty run of lower case letters and digits, so it has no character that means
  anything to the reader of a source.
-/

namespace EofStack.Opcode

variable {opcode : Opcode}

/-! ## Stack effect and immediate -/

private theorem table_effects :
    ∀ opcode ∈ table, 0 ≤ (opcode.required : Int) + opcode.change := by
  decide +kernel

/-- No opcode takes more items than it requires. -/
theorem required_add_change_nonneg (h : opcode ∈ table) :
    0 ≤ (opcode.required : Int) + opcode.change :=
  table_effects opcode h

private theorem table_bounds :
    ∀ opcode ∈ table, opcode.required ≤ 17 ∧ -6 ≤ opcode.change ∧ opcode.change ≤ 1 ∧
      opcode.immediateSize ≤ 32 := by
  decide +kernel

/-- An opcode requires few items, changes the height by a few, and has a short immediate. -/
theorem bounds (h : opcode ∈ table) : opcode.required ≤ 17 ∧ -6 ≤ opcode.change ∧
    opcode.change ≤ 1 ∧ opcode.immediateSize ≤ 32 :=
  table_bounds opcode h

private theorem table_calls :
    ∀ opcode ∈ table, opcode.flow = .call → opcode.required = 0 ∧ opcode.change = 0 := by
  decide +kernel

/-- Whatever a call does to the stack is done by its callee. -/
theorem effect_of_call (h : opcode ∈ table) (hflow : opcode.flow = .call) :
    opcode.required = 0 ∧ opcode.change = 0 :=
  table_calls opcode h hflow

/-- The size of the immediate that comes with a flow.  Only for opcodes that fall through does
it vary. -/
def immediateSizeOf : Flow → Option Nat
  | .jump | .branch | .call => some 2
  | .table => some 1
  | .ret | .halt => some 0
  | .straight => none

private theorem table_sizes :
    ∀ opcode ∈ table, ∀ size ∈ immediateSizeOf opcode.flow, opcode.immediateSize = size := by
  decide +kernel

/-- The flow of an opcode fixes the size of its immediate. -/
theorem immediateSize_of_flow (h : opcode ∈ table) {size : Nat}
    (hflow : immediateSizeOf opcode.flow = some size) : opcode.immediateSize = size :=
  table_sizes opcode h size hflow

/-- An opcode without immediate is neither a jump nor a call. -/
theorem flow_of_immediateSize_eq_zero (h : opcode ∈ table) (hsize : opcode.immediateSize = 0) :
    opcode.isJump = false ∧ opcode.flow ≠ .call := by
  have hzero : ∀ size, immediateSizeOf opcode.flow = some size → size = 0 :=
    fun _ hflow => hsize ▸ (immediateSize_of_flow h hflow).symm
  cases hflow : opcode.flow with
  | jump | branch | call => exact absurd (hzero 2 (by rw [hflow]; rfl)) (by decide)
  | table => exact absurd (hzero 1 (by rw [hflow]; rfl)) (by decide)
  | straight | ret | halt => simp [isJump, hflow]

/-! ## Bytes -/

private theorem table_ascending : (table.map fun opcode => opcode.byte.toNat).Pairwise (· < ·) :=
  List.isChain_iff_pairwise.mp (by decide +kernel)

/-- A search by a key that no two items share finds the item. -/
private theorem find?_key {α κ : Type} [DecidableEq κ] (key : α → κ) {items : List α} {item : α}
    (hkeys : items.Pairwise fun a b => key a ≠ key b) (h : item ∈ items) :
    items.find? (fun other => key other = key item) = some item := by
  induction items with
  | nil => cases h
  | cons head tail ih =>
      rw [List.pairwise_cons] at hkeys
      rcases List.mem_cons.mp h with rfl | htail
      · simp
      · rw [List.find?_cons_of_neg (by simpa using hkeys.1 item htail)]
        exact ih hkeys.2 htail

/-- The byte of an opcode identifies it. -/
theorem ofByte?_byte (h : opcode ∈ table) : ofByte? opcode.byte = some opcode := by
  refine find?_key Opcode.byte ?_ h
  refine (List.pairwise_map.mp table_ascending).imp fun {a b} hlt heq => ?_
  rw [heq] at hlt
  exact Nat.lt_irrefl _ hlt

/-! ## Names -/

private theorem table_mnemonics : (table.map Opcode.mnemonic).Nodup := by
  decide +kernel

/-- Whether a text is a name: lower case letters and digits, and at least one of them. -/
def isName (text : List Char) : Bool :=
  !text.isEmpty && text.all fun c => c.isAlphanum && c.toLower = c

-- one Boolean for the whole table: the kernel has to evaluate this
private theorem table_names : (table.all fun opcode => isName opcode.mnemonic.toList) = true := by
  decide +kernel

theorem isName_mnemonic (h : opcode ∈ table) : opcode.mnemonic.toList ≠ [] ∧
    ∀ c ∈ opcode.mnemonic.toList, c.isAlphanum = true ∧ c.toLower = c := by
  have hname := List.all_eq_true.mp table_names opcode h
  simpa [isName] using hname

/-- The name of an opcode identifies it. -/
theorem ofName?_mnemonic (h : opcode ∈ table) : ofName? opcode.mnemonic = some opcode :=
  find?_key Opcode.mnemonic (List.pairwise_map.mp table_mnemonics) h

theorem ofMnemonic?_mnemonic (h : opcode ∈ table) :
    ofMnemonic? opcode.mnemonic = some opcode := by
  have hlower : opcode.mnemonic.toList.map Char.toLower = opcode.mnemonic.toList := by
    rw [List.map_congr_left fun c hc => ((isName_mnemonic h).2 c hc).2, List.map_id']
  rw [ofMnemonic?, hlower, String.ofList_toList, ofName?_mnemonic h]

/-- The opcode goes by the mnemonic, in any mixture of cases. -/
structure IsNamed (opcode : Opcode) (mnemonic : String) : Prop where
  mem_table : opcode ∈ table
  mnemonic_eq : opcode.mnemonic = String.ofList (mnemonic.toList.map Char.toLower)

theorem ofMnemonic?_eq_some_iff {mnemonic : String} :
    ofMnemonic? mnemonic = some opcode ↔ opcode.IsNamed mnemonic := by
  constructor
  · intro h
    exact ⟨mem_table_of_ofName? h, mnemonic_of_ofName? h⟩
  · intro h
    rw [ofMnemonic?, ← h.mnemonic_eq, ofName?_mnemonic h.mem_table]

private theorem table_pushes :
    ∀ opcode ∈ table, opcode.mnemonic.toList.take 4 = "push".toList →
      opcode.flow = .straight ∧
        Numeral.digits? (opcode.mnemonic.toList.drop 4) = some opcode.immediateSize := by
  decide +kernel

/-- The name of a push ends in the size of its immediate. -/
theorem immediateSize_of_push (h : opcode ∈ table) {width : Nat}
    (hname : opcode.mnemonic = "push" ++ toString width) :
    opcode.flow = .straight ∧ opcode.immediateSize = width := by
  have hchars : opcode.mnemonic.toList = "push".toList ++ Nat.toDigits 10 width := by
    rw [hname, String.toList_append, Nat.toString_eq_repr, Nat.toList_repr]
  have hlength : "push".toList.length = 4 := rfl
  obtain ⟨hflow, hsize⟩ := table_pushes opcode h (by rw [hchars, List.take_left' hlength])
  rw [hchars, List.drop_left' hlength, Numeral.digits?_toDigits] at hsize
  exact ⟨hflow, (Option.some.inj hsize).symm⟩

/-! ## Constants -/

/-- The bytes that have a constant, with the mnemonics that the constants are called after. -/
def constants : List (UInt8 × String) := [
  (Byte.stop, "stop"), (Byte.add, "add"), (Byte.isZero, "iszero"),
  (Byte.callDataLoad, "calldataload"), (Byte.pop, "pop"), (Byte.mstore, "mstore"),
  (Byte.jumpDest, "jumpdest"), (Byte.rjump, "rjump"), (Byte.rjumpi, "rjumpi"),
  (Byte.rjumpv, "rjumpv"), (Byte.push0, "push0"), (Byte.push1, "push1"), (Byte.push2, "push2"),
  (Byte.push32, "push32"), (Byte.dup1, "dup1"), (Byte.swap1, "swap1"), (Byte.callf, "callf"),
  (Byte.retf, "retf"), (Byte.ret, "return"), (Byte.revert, "revert"), (Byte.invalid, "invalid")]

private theorem constants_listed : ∀ constant ∈ constants,
    ∃ opcode ∈ table, opcode.byte = constant.1 ∧ opcode.mnemonic = constant.2 := by
  decide +kernel

/-- A constant is the byte of the opcode that it is called after. -/
theorem ofByte?_constant {byte : UInt8} {mnemonic : String} (h : (byte, mnemonic) ∈ constants) :
    ∃ opcode, ofByte? byte = some opcode ∧ ofMnemonic? mnemonic = some opcode := by
  obtain ⟨opcode, hmem, rfl, rfl⟩ := constants_listed _ h
  exact ⟨opcode, ofByte?_byte hmem, ofMnemonic?_mnemonic hmem⟩

end EofStack.Opcode
