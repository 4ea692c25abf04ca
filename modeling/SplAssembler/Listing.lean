import SplAssembler.Program

/-!
# Listings and output formats

A listing is C source: the defines, an empty line, and the program array. The
bytes below the origin are written as one row of zeros in front of the code
lines. Comments and labels stand at the margin, all other lines are indented,
and blank lines at the start are left out. The listing and the defines of a
program can always be written; the two formats made of bytes fail when the
program has none.

Code lines and whole listings are read back into bytes. Comments are cut out,
elements are divided at commas outside quotes, and each element is a name of
the listing's own defines or a literal. A line that holds anything else is at
fault as a whole.
-/

set_option autoImplicit false

namespace SplAssembler

def CodeLine.listed : CodeLine → Text
  | .comment text => (CodeLine.comment text).text
  | .label text => (CodeLine.label text).text
  | line => ' ' :: ' ' :: line.text

def originRow (origin : Nat) : Text :=
  ' ' :: ' ' :: [' '].intercalate (List.replicate origin ['0', ','])

namespace Program

def header (p : Program) : Text := Text.joinLines (p.defines.map Define.text)

def rows (p : Program) : List Text :=
  (if p.origin = 0 then [] else [originRow p.origin]) ++
    (p.code.dropWhile (· == .blank)).map CodeLine.listed

def listing (p : Program) : Text :=
  p.header ++ "\n\nuint8_t program[".toList ++ Text.decimal programSize ++ "] = \x7b\n".toList ++
    Text.joinLines p.rows ++ "\n\x7d;\n".toList

end Program

inductive Format where
  | bytes
  | c
  | defines
  | hex
  deriving DecidableEq, Repr

namespace Format

def all : List Format := [bytes, c, defines, hex]

def name : Format → Text
  | bytes => "bytes".toList
  | c => "c".toList
  | defines => "defines".toList
  | hex => "hex".toList

def standard : Format := c

def ofName? (name : Text) : Option Format := all.find? (·.name == name)

theorem ofName?_name (f : Format) : ofName? f.name = some f := by cases f <;> decide

def unknownMessage (name : Text) : Text := "invalid variant: ".toList ++ name

def render (f : Format) (p : Program) : Except Fault Text :=
  match f with
  | bytes => p.bytes.map arrayText
  | c => .ok p.listing
  | defines => .ok p.header
  | hex => p.bytes.map hexText

end Format

namespace Listing

/-- Cuts out comments; the flag says that a block comment is open. -/
def stripFrom : Bool → Text → Text
  | _, [] => []
  | true, '*' :: '/' :: rest => stripFrom false rest
  | true, _ :: rest => stripFrom true rest
  | false, '/' :: '*' :: rest => stripFrom true rest
  | false, '/' :: '/' :: _ => []
  | false, c :: rest => c :: stripFrom false rest

def stripComments (line : Text) : Text := stripFrom false line

inductive Quoting where
  | outside
  | inside
  /-- Inside, right after a backslash. -/
  | escaped
  deriving DecidableEq, Repr

def Quoting.after : Quoting → Char → Quoting
  | .outside, c => if c = '\'' then .inside else .outside
  | .inside, c => if c = '\\' then .escaped else if c = '\'' then .outside else .inside
  | .escaped, _ => .inside

def pieces : Quoting → Text → List Text
  | _, [] => [[]]
  | q, c::rest =>
      if q = .outside ∧ c = ',' then [] :: pieces .outside rest
      else (pieces (q.after c) rest).modifyHead (c :: ·)

def elements (text : Text) : List Text :=
  ((pieces .outside text).map Text.trim).filter (! ·.isEmpty)

theorem elements_ne_nil (text e : Text) (h : e ∈ elements text) : e ≠ [] := by
  intro he
  simp [elements, he] at h

def dropComma (text : Text) : Text :=
  if text.getLast? = some ',' then text.dropLast else text

def opensArray (line : Text) : Bool := line.trimEnd.getLast? == some '\x7b'

def closesArray (line : Text) : Bool := line.trim == "\x7d;".toList

def arrayLines (text : Text) : List Text :=
  ((text.lines.dropWhile (! opensArray ·)).drop 1).takeWhile (! closesArray ·)

end Listing

namespace Dictionary

def decodeElement (dict : Dictionary) (line element : Text) : Except Fault UInt8 :=
  match (dict.resolve element).bind byte? with
  | some byte => .ok byte
  | none => .error (.invalidEncoding line)

def decodeLine (dict : Dictionary) (line : Text) : Except Fault (Option UInt8) :=
  let element := (Listing.dropComma (Listing.stripComments line).trimEnd).trim
  if element.isEmpty then .ok none else (dict.decodeElement line element).map some

def decodeArray (dict : Dictionary) : List Text → Except Fault (List UInt8)
  | [] => .ok []
  | line::rest => do
      let first ← (Listing.elements (Listing.stripComments line)).mapM (dict.decodeElement line)
      let bytes ← dict.decodeArray rest
      return first ++ bytes

end Dictionary

def decodeListing (text : Text) : Except Fault (List UInt8) :=
  (Dictionary.ofHeader text).decodeArray (Listing.arrayLines text)

end SplAssembler
