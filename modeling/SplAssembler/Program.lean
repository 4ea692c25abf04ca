import SplAssembler.SymbolTable

/-!
# Programs and their bytes

A slot is the content of one program byte as the source wrote it: a numeral, a
symbol with the value that it had where it was used, or a label by its key,
which is looked up once the program is complete. Code lines keep the bytes
together with the blank lines, comments and labels around them. Only byte lines
occupy memory. A program is the origin in effect at the end of a source text,
the code lines and the symbol table.

Slots get their bytes from the complete symbol table. The first line whose
value is not a byte is at fault. The bytes are written as pairs of hexadecimal
digits or as an array of decimal numerals.
-/

set_option autoImplicit false

namespace SplAssembler

inductive Slot where
  | number (text : Text)
  | symbol (name value : Text)
  | label (key : Text)
  | op (opcode : Opcode)
  | stop
  | pad
  deriving DecidableEq, Repr

def Slot.text : Slot → Text
  | .number text => text
  | .symbol name value => value ++ " /* ".toList ++ name ++ " */".toList
  | .label key => key
  | .op opcode => ['\'', opcode.token, '\'']
  | .stop => "0xff".toList
  | .pad => "0 /* pad */".toList

inductive CodeLine where
  | blank
  | comment (text : Text)
  | label (text : Text)
  | byte (slot : Slot) (comment : Option Text)
  deriving DecidableEq, Repr

namespace CodeLine

def isByte : CodeLine → Bool
  | byte .. => true
  | _ => false

def isFiller : CodeLine → Bool
  | blank => true
  | comment _ => true
  | _ => false

def text : CodeLine → Text
  | blank => []
  | comment text => "// ".toList ++ text
  | label text => "// ".toList ++ text
  | byte slot none => slot.text ++ [',']
  | byte slot (some note) => slot.text ++ ",       // ".toList ++ note

end CodeLine

def byteCount (code : List CodeLine) : Nat := code.countP CodeLine.isByte

theorem byteCount_append (code rest : List CodeLine) :
    byteCount (code ++ rest) = byteCount code+byteCount rest :=
  List.countP_append

/-- Adds a byte line in front of the last byte line, which moves to the end.
Blank lines and comments stay where they are. With a label after it the last
byte line is out of reach, and the new line is added at the end. -/
def insertBeforeLast (line : CodeLine) (code : List CodeLine) : List CodeLine :=
  match code.reverse.dropWhile CodeLine.isFiller with
  | .byte slot comment :: before =>
      before.reverse ++ line :: (code.reverse.takeWhile CodeLine.isFiller).reverse ++
        [.byte slot comment]
  | _ => code ++ [line]

theorem insertBeforeLast_eq (line : CodeLine) (slot : Slot) (comment : Option Text)
    (before fillers : List CodeLine) (h : ∀ l ∈ fillers, l.isFiller = true) :
    insertBeforeLast line (before ++ .byte slot comment :: fillers) =
      before ++ line :: fillers ++ [.byte slot comment] := by
  have hf : ∀ l ∈ fillers.reverse, l.isFiller = true := by simpa using h
  have hd : (before ++ .byte slot comment :: fillers).reverse =
      fillers.reverse ++ .byte slot comment :: before.reverse := by simp
  rw [insertBeforeLast, hd, List.dropWhile_append_of_pos hf, List.takeWhile_append_of_pos hf]
  simp [CodeLine.isFiller]

structure Program where
  origin : Nat
  code : List CodeLine
  defines : List Define
  deriving DecidableEq, Repr

namespace Program

def size (p : Program) : Nat := byteCount p.code

def codeText (p : Program) : List Text := p.code.map CodeLine.text

end Program

def Slot.value? (dict : Dictionary) : Slot → Option Nat
  | .number text => numeral? text
  | .symbol _ value => dict.resolve value
  | .label key => dict.lookup key
  | .op opcode => some opcode.code.toNat
  | .stop => some stopByte.toNat
  | .pad => some 0

def CodeLine.encode (dict : Dictionary) : CodeLine → Except Fault (Option UInt8)
  | .byte slot note =>
      match (slot.value? dict).bind byte? with
      | some b => .ok (some b)
      | none => .error (.invalidEncoding (CodeLine.byte slot note).text)
  | _ => .ok none

def encodeCode (dict : Dictionary) : List CodeLine → Except Fault (List UInt8)
  | [] => .ok []
  | line::rest => do
      let byte ← line.encode dict
      let bytes ← encodeCode dict rest
      return byte.toList ++ bytes

def hexByte (byte : UInt8) : Text :=
  [Nat.digitChar (byte.toNat/16), Nat.digitChar (byte.toNat%16)]

def hexText (bytes : List UInt8) : Text := [' '].intercalate (bytes.map hexByte)

def arrayText (bytes : List UInt8) : Text :=
  '[' :: [','].intercalate (bytes.map fun byte => Text.decimal byte.toNat) ++ [']']

def Program.bytes (p : Program) : Except Fault (List UInt8) :=
  encodeCode (.ofDefines p.defines) p.code

end SplAssembler
