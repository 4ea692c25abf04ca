import SplAssembler.Text

/-!
# The machine's instruction bytes

Every primitive instruction is one byte, which is also the code of the
character that a listing shows for it. A byte is reserved when the machine
reads it as an instruction. The byte at which the machine halts is not.
-/

set_option autoImplicit false

namespace SplAssembler

inductive Opcode where
  | shl
  | shr
  | dup
  | xchg
  | sleep
  | add
  | sub
  | xor
  | or
  | and
  | delay
  | jmp
  | loop
  | read
  | write
  | eread
  | ewrite
  deriving DecidableEq, Repr

namespace Opcode

def all : List Opcode :=
  [shl, shr, dup, xchg, sleep, add, sub, xor, or, and, delay, jmp, loop, read, write, eread, ewrite]

theorem mem_all (op : Opcode) : op ∈ all := by cases op <;> decide

def code : Opcode → UInt8
  | shl => 0x3C
  | shr => 0x3E
  | dup => 0x32
  | xchg => 0x78
  | sleep => 0x7A
  | add => 0x2B
  | sub => 0x2D
  | xor => 0x5E
  | or => 0x7C
  | and => 0x26
  | delay => 0x2C
  | jmp => 0x3D
  | loop => 0x40
  | read => 0x72
  | write => 0x77
  | eread => 0x3F
  | ewrite => 0x21

def token (op : Opcode) : Char := Char.ofNat op.code.toNat

def name : Opcode → Text
  | shl => "SHL".toList
  | shr => "SHR".toList
  | dup => "DUP".toList
  | xchg => "XCHG".toList
  | sleep => "SLEEP".toList
  | add => "ADD".toList
  | sub => "SUB".toList
  | xor => "XOR".toList
  | or => "OR".toList
  | and => "AND".toList
  | delay => "DELAY".toList
  | jmp => "JMP".toList
  | loop => "LOOP".toList
  | read => "READ".toList
  | write => "WRITE".toList
  | eread => "EREAD".toList
  | ewrite => "EWRITE".toList

/-- Whether the source may write an operand after the instruction. It is then
pushed before the instruction runs. -/
def takesOperand : Opcode → Bool
  | shl | shr | dup | xchg | sleep => false
  | _ => true

def ofName? (word : Text) : Option Opcode :=
  all.find? (·.name == word.upper)

theorem ofName?_name (op : Opcode) : ofName? op.name = some op := by cases op <;> decide

def ofByte? (byte : UInt8) : Option Opcode :=
  all.find? (·.code == byte)

theorem ofByte?_code (op : Opcode) : ofByte? op.code = some op := by cases op <;> decide

end Opcode

def isReserved (byte : UInt8) : Bool := Opcode.all.any (·.code == byte)

theorem isReserved_code (op : Opcode) : isReserved op.code = true := by cases op <;> decide

theorem isReserved_iff (byte : UInt8) : isReserved byte = true ↔ ∃ op : Opcode, op.code = byte := by
  simp [isReserved, Opcode.mem_all]

def reservedBytes : List UInt8 := ((List.range 256).map UInt8.ofNat).filter isReserved

def stopByte : UInt8 := 0xFF

theorem isReserved_stopByte : isReserved stopByte = false := by decide

def defaultOrigin : Nat := 16

def programSize : Nat := 256

def byte? (value : Nat) : Option UInt8 :=
  if value < 256 then some (UInt8.ofNat value) else none

theorem byte?_toNat (byte : UInt8) : byte? byte.toNat = some byte := by
  simp [byte?, byte.toNat_lt]

end SplAssembler
