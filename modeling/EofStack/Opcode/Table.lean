import EofStack.Opcode.Basic

/-!
# The opcode table

All opcodes that code in the EVM object format may contain, in ascending order of their bytes.
Bytes and names are unique, so that either identifies an opcode.  Names are looked up without
regard to the case of their ASCII letters; other letters are left as they are and match nothing.
-/

namespace EofStack.Opcode

/-- Stop and arithmetic. -/
def arithmetic : List Opcode := [
  halting 0x00 "stop" 0 0,
  plain 0x01 "add" 2 (-1),
  plain 0x02 "mul" 2 (-1),
  plain 0x03 "sub" 2 (-1),
  plain 0x04 "div" 2 (-1),
  plain 0x05 "sdiv" 2 (-1),
  plain 0x06 "mod" 2 (-1),
  plain 0x07 "smod" 2 (-1),
  plain 0x08 "addmod" 3 (-2),
  plain 0x09 "mulmod" 3 (-2),
  plain 0x0a "exp" 2 (-1),
  plain 0x0b "signextend" 2 (-1)]

/-- Comparison, bitwise logic and hashing. -/
def logic : List Opcode := [
  plain 0x10 "lt" 2 (-1),
  plain 0x11 "gt" 2 (-1),
  plain 0x12 "slt" 2 (-1),
  plain 0x13 "sgt" 2 (-1),
  plain 0x14 "eq" 2 (-1),
  plain 0x15 "iszero" 1 0,
  plain 0x16 "and" 2 (-1),
  plain 0x17 "or" 2 (-1),
  plain 0x18 "xor" 2 (-1),
  plain 0x19 "not" 1 0,
  plain 0x1a "byte" 2 (-1),
  plain 0x1b "shl" 2 (-1),
  plain 0x1c "shr" 2 (-1),
  plain 0x1d "sar" 2 (-1),
  plain 0x20 "keccak256" 2 (-1)]

/-- What the program can ask about its call. -/
def environment : List Opcode := [
  plain 0x30 "address" 0 1,
  plain 0x31 "balance" 1 0,
  plain 0x32 "origin" 0 1,
  plain 0x33 "caller" 0 1,
  plain 0x34 "callvalue" 0 1,
  plain 0x35 "calldataload" 1 0,
  plain 0x36 "calldatasize" 0 1,
  plain 0x37 "calldatacopy" 3 (-3),
  plain 0x38 "codesize" 0 1,
  plain 0x39 "codecopy" 3 (-3),
  plain 0x3a "gasprice" 0 1,
  plain 0x3b "extcodesize" 1 0,
  plain 0x3c "extcodecopy" 4 (-4),
  plain 0x3d "returndatasize" 0 1,
  plain 0x3e "returndatacopy" 3 (-3),
  plain 0x3f "extcodehash" 1 0]

/-- What the program can ask about the block. -/
def block : List Opcode := [
  plain 0x40 "blockhash" 1 0,
  plain 0x41 "coinbase" 0 1,
  plain 0x42 "timestamp" 0 1,
  plain 0x43 "number" 0 1,
  plain 0x44 "prevrandao" 0 1,
  plain 0x45 "gaslimit" 0 1,
  plain 0x46 "chainid" 0 1,
  plain 0x47 "selfbalance" 0 1,
  plain 0x48 "basefee" 0 1]

/-- Stack, memory and storage.  Dynamic jumps are not among them. -/
def storage : List Opcode := [
  plain 0x50 "pop" 1 (-1),
  plain 0x51 "mload" 1 0,
  plain 0x52 "mstore" 2 (-2),
  plain 0x53 "mstore8" 2 (-2),
  plain 0x54 "sload" 1 0,
  plain 0x55 "sstore" 2 (-2),
  plain 0x59 "msize" 0 1,
  plain 0x5a "gas" 0 1,
  plain 0x5b "jumpdest" 0 0]

/-- Relative jumps. -/
def jumps : List Opcode := [
  ⟨0x5c, "rjump", 0, 0, 2, .jump⟩,
  ⟨0x5d, "rjumpi", 1, -1, 2, .branch⟩,
  ⟨0x5e, "rjumpv", 1, -1, 1, .table⟩]

/-- Values for the stack; all but `push0` carry them as immediate. -/
def pushes : List Opcode := [
  plain 0x5f "push0" 0 1,
  push 0x60 "push1" 1,
  push 0x61 "push2" 2,
  push 0x62 "push3" 3,
  push 0x63 "push4" 4,
  push 0x64 "push5" 5,
  push 0x65 "push6" 6,
  push 0x66 "push7" 7,
  push 0x67 "push8" 8,
  push 0x68 "push9" 9,
  push 0x69 "push10" 10,
  push 0x6a "push11" 11,
  push 0x6b "push12" 12,
  push 0x6c "push13" 13,
  push 0x6d "push14" 14,
  push 0x6e "push15" 15,
  push 0x6f "push16" 16,
  push 0x70 "push17" 17,
  push 0x71 "push18" 18,
  push 0x72 "push19" 19,
  push 0x73 "push20" 20,
  push 0x74 "push21" 21,
  push 0x75 "push22" 22,
  push 0x76 "push23" 23,
  push 0x77 "push24" 24,
  push 0x78 "push25" 25,
  push 0x79 "push26" 26,
  push 0x7a "push27" 27,
  push 0x7b "push28" 28,
  push 0x7c "push29" 29,
  push 0x7d "push30" 30,
  push 0x7e "push31" 31,
  push 0x7f "push32" 32]

/-- Copies of an item further down. -/
def duplications : List Opcode := [
  plain 0x80 "dup1" 1 1,
  plain 0x81 "dup2" 2 1,
  plain 0x82 "dup3" 3 1,
  plain 0x83 "dup4" 4 1,
  plain 0x84 "dup5" 5 1,
  plain 0x85 "dup6" 6 1,
  plain 0x86 "dup7" 7 1,
  plain 0x87 "dup8" 8 1,
  plain 0x88 "dup9" 9 1,
  plain 0x89 "dup10" 10 1,
  plain 0x8a "dup11" 11 1,
  plain 0x8b "dup12" 12 1,
  plain 0x8c "dup13" 13 1,
  plain 0x8d "dup14" 14 1,
  plain 0x8e "dup15" 15 1,
  plain 0x8f "dup16" 16 1]

/-- Exchanges of the top item with one further down. -/
def exchanges : List Opcode := [
  plain 0x90 "swap1" 2 0,
  plain 0x91 "swap2" 3 0,
  plain 0x92 "swap3" 4 0,
  plain 0x93 "swap4" 5 0,
  plain 0x94 "swap5" 6 0,
  plain 0x95 "swap6" 7 0,
  plain 0x96 "swap7" 8 0,
  plain 0x97 "swap8" 9 0,
  plain 0x98 "swap9" 10 0,
  plain 0x99 "swap10" 11 0,
  plain 0x9a "swap11" 12 0,
  plain 0x9b "swap12" 13 0,
  plain 0x9c "swap13" 14 0,
  plain 0x9d "swap14" 15 0,
  plain 0x9e "swap15" 16 0,
  plain 0x9f "swap16" 17 0]

/-- Log records with zero to four topics. -/
def logs : List Opcode := [
  plain 0xa0 "log0" 2 (-2),
  plain 0xa1 "log1" 3 (-3),
  plain 0xa2 "log2" 4 (-4),
  plain 0xa3 "log3" 5 (-5),
  plain 0xa4 "log4" 6 (-6)]

/-- Calls between the functions of a container, and their return. -/
def functions : List Opcode := [
  ⟨0xb0, "callf", 0, 0, 2, .call⟩,
  ⟨0xb1, "retf", 0, 0, 0, .ret⟩]

/-- Contract creation, message calls and the ends of a program. -/
def system : List Opcode := [
  plain 0xf0 "create" 3 (-2),
  plain 0xf1 "call" 7 (-6),
  plain 0xf2 "callcode" 7 (-6),
  halting 0xf3 "return" 2 (-2),
  plain 0xf4 "delegatecall" 6 (-5),
  plain 0xf5 "create2" 4 (-3),
  plain 0xfa "staticcall" 6 (-5),
  halting 0xfd "revert" 2 (-2),
  halting 0xfe "invalid" 0 0,
  halting 0xff "selfdestruct" 1 (-1)]

/-- All opcodes, in ascending order of their bytes. -/
def table : List Opcode :=
  arithmetic ++ logic ++ environment ++ block ++ storage ++ jumps
    ++ pushes ++ duplications ++ exchanges ++ logs ++ functions ++ system

/-- The opcode with the given byte, if code may contain it. -/
def ofByte? (byte : UInt8) : Option Opcode :=
  table.find? fun opcode => opcode.byte = byte

/-- The opcode with the given name in lower case. -/
def ofName? (name : String) : Option Opcode :=
  table.find? fun opcode => opcode.mnemonic = name

/-- The opcode with the given name, in any mixture of cases. -/
def ofMnemonic? (mnemonic : String) : Option Opcode :=
  ofName? (String.ofList (mnemonic.toList.map Char.toLower))

theorem mem_table_of_ofByte? {byte : UInt8} {opcode : Opcode} (h : ofByte? byte = some opcode) :
    opcode ∈ table :=
  List.mem_of_find?_eq_some h

theorem byte_of_ofByte? {byte : UInt8} {opcode : Opcode} (h : ofByte? byte = some opcode) :
    opcode.byte = byte := by
  simpa using List.find?_some h

theorem mem_table_of_ofName? {name : String} {opcode : Opcode} (h : ofName? name = some opcode) :
    opcode ∈ table :=
  List.mem_of_find?_eq_some h

theorem mnemonic_of_ofName? {name : String} {opcode : Opcode} (h : ofName? name = some opcode) :
    opcode.mnemonic = name := by
  simpa using List.find?_some h

end EofStack.Opcode
