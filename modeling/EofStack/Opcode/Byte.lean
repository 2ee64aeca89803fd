/-!
# Constants for bytes

The bytes of some opcodes under the mnemonics of these, for code that is written out.  The rules do
not refer to them: what an opcode does is said by the table.
-/

namespace EofStack.Opcode.Byte

def stop : UInt8 := 0x00
def add : UInt8 := 0x01
def isZero : UInt8 := 0x15
def callDataLoad : UInt8 := 0x35
def pop : UInt8 := 0x50
def mstore : UInt8 := 0x52
def jumpDest : UInt8 := 0x5b
def rjump : UInt8 := 0x5c
def rjumpi : UInt8 := 0x5d
def rjumpv : UInt8 := 0x5e
def push0 : UInt8 := 0x5f
def push1 : UInt8 := 0x60
def push2 : UInt8 := 0x61
def push32 : UInt8 := 0x7f
def dup1 : UInt8 := 0x80
def swap1 : UInt8 := 0x90
def callf : UInt8 := 0xb0
def retf : UInt8 := 0xb1
def ret : UInt8 := 0xf3
def revert : UInt8 := 0xfd
def invalid : UInt8 := 0xfe

end EofStack.Opcode.Byte
