/-!
# Texts and literals

A text is a list of characters. Words are the maximal runs without white
space. Two divisions into lines are in use: source texts are cut at every line
feed, so a final line feed leaves one more empty line; displayed texts follow
the reading in which a line feed ends a line and a carriage return right
before it belongs to the end.

A numeral is a run of decimal digits, or of hexadecimal or binary digits after
`0x` or `0b`, whose positional value fits in 32 bits. After one of these marks
nothing else is tried. A literal is a numeral or a quoted character: one
character between apostrophes, or any character after a backslash.
-/

set_option autoImplicit false

namespace SplAssembler

abbrev Text := List Char

/-- The characters with the Unicode property `White_Space`. -/
def isSpace (c : Char) : Bool :=
  let n := c.toNat
  (0x09 ≤ n && n ≤ 0x0D) || n == 0x20 || n == 0x85 || n == 0xA0 || n == 0x1680 ||
    (0x2000 ≤ n && n ≤ 0x200A) || n == 0x2028 || n == 0x2029 || n == 0x202F ||
    n == 0x205F || n == 0x3000

theorem isSpace_of_isWhitespace (c : Char) (h : c.isWhitespace = true) : isSpace c = true := by
  simp only [Char.isWhitespace, Bool.or_eq_true, decide_eq_true_eq] at h
  rcases h with ((rfl | rfl) | rfl) | rfl <;> rfl

namespace Text

def trimStart (t : Text) : Text := t.dropWhile isSpace

def trimEnd (t : Text) : Text := (t.reverse.dropWhile isSpace).reverse

def trim (t : Text) : Text := trimEnd (trimStart t)

/-- Only the letters `a` to `z` change. -/
def upper (t : Text) : Text := t.map Char.toUpper

def words (t : Text) : List Text := (t.splitOnP isSpace).filter (! ·.isEmpty)

theorem words_append_space (s t : Text) (c : Char) (h : isSpace c = true) :
    words (s ++ c::t) = words s ++ words t := by
  simp [words, List.splitOnP_append_cons s t h]

def sourceLines (t : Text) : List Text := t.splitOn '\n'

def dropReturn (line : Text) : Text :=
  if line.getLast? = some '\r' then line.dropLast else line

/-- The lines of a displayed text. A line without a line feed at its end is
kept as it stands, and only if it is not empty. -/
def lines (t : Text) : List Text :=
  let pieces := t.splitOn '\n'
  let last := pieces.getLastD []
  pieces.dropLast.map dropReturn ++ (if last.isEmpty then [] else [last])

def joinLines (ls : List Text) : Text := ['\n'].intercalate ls

def decimal (n : Nat) : Text := Nat.toDigits 10 n

end Text

def digitValue? (c : Char) : Option Nat :=
  if '0' ≤ c ∧ c ≤ '9' then some (c.toNat-48)
  else if 'a' ≤ c ∧ c ≤ 'f' then some (c.toNat-87)
  else if 'A' ≤ c ∧ c ≤ 'F' then some (c.toNat-55)
  else none

def digit? (radix : Nat) (c : Char) : Option Nat :=
  (digitValue? c).filter (· < radix)

def positional (radix : Nat) (ds : List Nat) : Nat :=
  ds.foldl (fun n d => n*radix+d) 0

theorem positional_append_one (radix d : Nat) (ds : List Nat) :
    positional radix (ds++[d]) = positional radix ds*radix+d := by
  simp [positional]

def numeralBound : Nat := 4294967296

def digits? (radix : Nat) (t : Text) : Option Nat :=
  if t.isEmpty then none
  else ((t.mapM (digit? radix)).map (positional radix)).filter (· < numeralBound)

def numeral? : Text → Option Nat
  | '0' :: 'x' :: t => digits? 16 t
  | '0' :: 'X' :: t => digits? 16 t
  | '0' :: 'b' :: t => digits? 2 t
  | '0' :: 'B' :: t => digits? 2 t
  | t => digits? 10 t

def quoted? : Text → Option Nat
  | '\'' :: '\\' :: rest =>
      match rest with
      | c::close => if close = ['\''] then some c.toNat else none
      | [] => none
  | '\'' :: c :: close => if close = ['\''] then some c.toNat else none
  | _ => none

def literal? (t : Text) : Option Nat := (numeral? t).or (quoted? t)

end SplAssembler
