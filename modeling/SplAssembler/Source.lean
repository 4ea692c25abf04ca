import SplAssembler.Machine

/-!
# Source lines and statements

A comment starts at the first `;` or `//` of a line and runs to its end. The
line, the body before the comment and the comment are kept without white
space at their ends; an empty comment is no comment.

The body of a source line is a list of words. A first word that starts with a
colon names a label, and the words after it are of no account. Any other first
word is a mnemonic in any mixture of cases, followed by its arguments, which
are kept as they are written. A blank body holds no statement.

Faults are the causes for which a source line, a program or a listing is
refused. A line fault adds the number of the source line, counted from one.
-/

set_option autoImplicit false

namespace SplAssembler

inductive Fault where
  | unknownCommand (command : Text)
  | argumentCount (command : Text)
  | tooManyArguments (command : Text)
  | redefinedConstant (name : Text)
  | redefinedLabel (label : Text)
  | labelOpcode (label : Text) (address : Nat)
  | invalidValue (value : Text)
  | reservedValue (value : Text)
  | invalidEncoding (line : Text)
  deriving DecidableEq, Repr

def Fault.message : Fault → Text
  | .unknownCommand command => "Unknown command: ".toList ++ command
  | .argumentCount command => "Invalid number of arguments to ".toList ++ command
  | .tooManyArguments command => "Too many arguments to ".toList ++ command
  | .redefinedConstant name => "Constant ".toList ++ name ++ " already defined".toList
  | .redefinedLabel label => "Label ".toList ++ label ++ " already defined".toList
  | .labelOpcode label address =>
      "Label value ".toList ++ Text.decimal address ++ " translates to an opcode: ".toList ++ label
  | .invalidValue value => "Invalid int value: ".toList ++ value
  | .reservedValue value => "PUSH reserved value: ".toList ++ value
  | .invalidEncoding line => "Invalid C-SPL input: ".toList ++ line

structure LineFault where
  line : Nat
  fault : Fault
  deriving DecidableEq, Repr

def LineFault.message (f : LineFault) : Text :=
  "Line ".toList ++ Text.decimal f.line ++ ": ".toList ++ f.fault.message

structure SourceLine where
  raw : Text
  body : Text
  comment : Option Text
  deriving DecidableEq, Repr

namespace SourceLine

def cut : Text → Text × Option Text
  | [] => ([], none)
  | ';' :: rest => ([], some rest)
  | '/' :: '/' :: rest => ([], some rest)
  | c::rest => Prod.map (c :: ·) id (cut rest)

def split (raw : Text) : SourceLine where
  raw := raw.trim
  body := Text.trim (cut raw.trim).1
  comment := ((cut raw.trim).2.map Text.trim).filter (! ·.isEmpty)

end SourceLine

inductive Mnemonic where
  | origin
  | const
  | push
  | stop
  | call (exchange : Bool)
  | primitive (op : Opcode)
  deriving DecidableEq, Repr

namespace Mnemonic

def name : Mnemonic → Text
  | origin => ".ORIGIN".toList
  | const => "CONST".toList
  | push => "PUSH".toList
  | stop => "STOP".toList
  | call false => "CALL1".toList
  | call true => "CALLX".toList
  | primitive op => op.name

def all : List Mnemonic :=
  [origin, const, push, stop, call false, call true] ++ Opcode.all.map primitive

theorem mem_all (m : Mnemonic) : m ∈ all := by
  cases m with
  | call exchange => cases exchange <;> simp [all]
  | primitive op => simp [all, Opcode.mem_all]
  | _ => simp [all]

def ofWord? (word : Text) : Option Mnemonic :=
  all.find? (·.name == word.upper)

theorem ofWord?_name (m : Mnemonic) : ofWord? m.name = some m := by
  cases m with
  | call exchange => cases exchange <;> decide
  | primitive op => cases op <;> decide
  | _ => decide

def argumentFault : Mnemonic → Fault
  | stop => .tooManyArguments stop.name
  | primitive op => .tooManyArguments op.name
  | m => .argumentCount m.name

end Mnemonic

inductive Statement where
  | label (name : Text)
  | origin (value : Text)
  | const (name value : Text)
  | push (operand : Text)
  | stop
  | call (exchange : Bool) (target : Text) (padding : Option Text)
  | primitive (op : Opcode) (operand : Option Text)
  deriving DecidableEq, Repr

namespace Statement

def ofArguments : Mnemonic → List Text → Except Fault Statement
  | .origin, [value] => .ok (.origin value)
  | .const, [name, value] => .ok (.const name value)
  | .push, [operand] => .ok (.push operand)
  | .stop, [] => .ok .stop
  | .call exchange, [target] => .ok (.call exchange target none)
  | .call exchange, [target, padding] => .ok (.call exchange target (some padding))
  | .primitive op, [] => .ok (.primitive op none)
  | .primitive op, [operand] =>
      if op.takesOperand then .ok (.primitive op (some operand))
      else .error (Mnemonic.primitive op).argumentFault
  | m, _ => .error m.argumentFault

def ofWords : List Text → Except Fault (Option Statement)
  | [] => .ok none
  | (':' :: name) :: _ =>
      if name.isEmpty then .error (.unknownCommand [':']) else .ok (some (.label name))
  | word::arguments =>
      match Mnemonic.ofWord? word with
      | none => .error (.unknownCommand (Text.upper word))
      | some m => (ofArguments m arguments).map some

def parse (body : Text) : Except Fault (Option Statement) := ofWords body.words

end Statement

end SplAssembler
