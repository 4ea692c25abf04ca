import SplAssembler.Source

/-!
# The symbol table and its dictionary

Constants, labels and the origin share one table, in the order in which names
were first bound. Values are kept as written and are not evaluated. Labels are
told from constants by a prefix of their key. Setting the origin again replaces
its value where it stands; no other name is ever bound twice.

A dictionary gives names their values when bytes are computed. It holds the
defines whose values are literals; a define that names another symbol has no
entry. Of several defines with one name the last counts.
-/

set_option autoImplicit false

namespace SplAssembler

structure Define where
  name : Text
  value : Text
  deriving DecidableEq, Repr

def Define.text (d : Define) : Text :=
  "#define ".toList ++ d.name ++ ' ' :: d.value

def originSymbol : Text := "SPELL_ORIGIN".toList

def labelPrefix : Text := "LABEL_".toList

def labelKey (label : Text) : Text := labelPrefix ++ label

theorem labelKey_injective (a b : Text) (h : labelKey a = labelKey b) : a = b :=
  List.append_cancel_left h

abbrev SymbolTable := List Define

namespace SymbolTable

def get? (table : SymbolTable) (name : Text) : Option Text :=
  (table.find? (·.name == name)).map Define.value

def put (name value : Text) : SymbolTable → SymbolTable
  | [] => [⟨name, value⟩]
  | d::ds => if d.name = name then ⟨name, value⟩::ds else d::put name value ds

theorem get?_put (table : SymbolTable) (name value other : Text) :
    (put name value table).get? other = if other = name then some value else table.get? other := by
  induction table with
  | nil => by_cases h : other = name <;> simp [put, get?, h, Ne.symm]
  | cons d ds ih =>
    simp only [get?] at ih ⊢
    by_cases hd : d.name = name
    · by_cases h : other = name <;> simp [put, hd, h, Ne.symm]
    · by_cases ho : d.name = other
      · simp [put, ho, show other ≠ name from ho ▸ hd]
      · simp [put, hd, ho, ih]

/-- A change of the table. What was done before a fault stays done. -/
abbrev Edit := EStateM Fault SymbolTable

def defineConst (name value : Text) : Edit Unit := do
  if ((← get).get? name).isSome then throw (.redefinedConstant name)
  modify (put name value)

def defineLabel (label : Text) (address : Nat) : Edit Unit := do
  let key := labelKey label
  if ((← get).get? key).isSome then throw (.redefinedLabel label)
  modify (put key (Text.decimal address))

def setOrigin (table : SymbolTable) (origin : Nat) : SymbolTable :=
  table.put originSymbol (Text.decimal origin)

end SymbolTable

/-- Reads a line that holds `#define`, a name and a value; further words are of no account. -/
def Define.ofLine? (line : Text) : Option Define :=
  match line.words with
  | mark :: name :: value :: _ =>
      if mark = "#define".toList then some ⟨name, value⟩ else none
  | _ => none

structure Dictionary where
  /-- The last define comes first. -/
  entries : List (Text × Nat)
  deriving DecidableEq, Repr

namespace Dictionary

def ofDefines (defines : List Define) : Dictionary where
  entries := (defines.filterMap fun d => (literal? d.value).map (d.name, ·)).reverse

def ofHeader (text : Text) : Dictionary := ofDefines (text.lines.filterMap Define.ofLine?)

def lookup (dict : Dictionary) (name : Text) : Option Nat := dict.entries.lookup name

def resolve (dict : Dictionary) (text : Text) : Option Nat :=
  (dict.lookup text).or (literal? text)

theorem resolve_of_lookup (dict : Dictionary) (text : Text) (n : Nat)
    (h : dict.lookup text = some n) : dict.resolve text = some n := by
  rw [resolve, h, Option.some_or]

end Dictionary

end SplAssembler
