import SplAssembler.Proofs.Symbols

/-!
# The layout of a program

The first of two passes over the statements of a source text. The size of a
statement does not depend on the values of its operands. Sizes and origins
give each label its address, so one walk collects the complete table of names
before any byte is known. The assembler advances its origin, its offset and
its table in step with this walk.
-/

set_option autoImplicit false

namespace SplAssembler

def padCount : Option Text → Nat
  | none => 0
  | some text => (numeral? text).getD 0

def Statement.size : Statement → Nat
  | .push _ => 1
  | .stop => 1
  | .primitive _ none => 1
  | .primitive _ (some _) => 2
  | .call false _ pads => 3+padCount pads
  | .call true _ pads => 4+padCount pads
  | _ => 0

structure Layout where
  origin : Nat
  size : Nat
  names : Text → Option Text

namespace Layout

def start : Layout where
  origin := defaultOrigin
  size := 0
  names := fun _ => none

def address (l : Layout) : Nat := l.origin+l.size

def bind (l : Layout) (name value : Text) : Layout :=
  { l with names := fun other => if other = name then some value else l.names other }

def next (l : Layout) : Statement → Layout
  | .label name => l.bind (labelKey name) (Text.decimal l.address)
  | .origin value =>
      match numeral? value with
      | some n => { l.bind originSymbol (Text.decimal n) with origin := n }
      | none => l
  | .const name value => l.bind name value
  | st => { l with size := l.size+st.size }

def walk : Layout → List Statement → Layout
  | l, [] => l
  | l, st::rest => walk (l.next st) rest

theorem walk_append (l : Layout) (program rest : List Statement) :
    l.walk (program ++ rest) = (l.walk program).walk rest := by
  induction program generalizing l with
  | nil => rfl
  | cons st program ih => exact ih _

end Layout

namespace Assembler

structure At (s : Assembler) (l : Layout) : Prop where
  origin : s.origin = l.origin
  offset : s.offset = l.size
  names : ∀ name, s.symbols.get? name = l.names name

theorem initial_at : initial.At .start := ⟨rfl, rfl, fun _ => rfl⟩

section Places
variable {s : Assembler} {l : Layout}

theorem at_address (h : s.At l) : s.offset+s.origin = l.address := by
  rw [h.origin, h.offset, Layout.address]
  omega

theorem at_bind (h : s.At l) (name value : Text) :
    { s with symbols := s.symbols.put name value }.At (l.bind name value) where
  origin := h.origin
  offset := h.offset
  names := by
    intro other
    change (s.symbols.put name value).get? other = _
    rw [SymbolTable.get?_put, h.names]
    rfl

theorem at_advance (h : s.At l) (k : Nat) (code : List CodeLine) :
    { s with offset := s.offset+k, code := code }.At { l with size := l.size+k } where
  origin := h.origin
  offset := by
    change s.offset+k = l.size+k
    rw [h.offset]
  names := h.names

end Places

theorem padCount_of_padding {pads : Option Text} {n : Nat} (h : padding pads = .ok n) :
    padCount pads = n := by
  cases pads with
  | none =>
    cases h
    rfl
  | some text =>
    rw [padding] at h
    cases hn : numeral? text with
    | none =>
      rw [hn] at h
      cases h
    | some m =>
      rw [hn] at h
      cases h
      simp [padCount, hn]

theorem executes_at {s t : Assembler} {l : Layout} {line : SourceLine} {st : Statement}
    (h : Executes s line st t) (hs : s.At l) : t.At (l.next st) := by
  cases h with
  | label name hr hn =>
    have hb := at_bind hs (labelKey name) (Text.decimal (s.offset+s.origin))
    rw [at_address hs] at hb ⊢
    exact ⟨hb.origin, hb.offset, hb.names⟩
  | origin value n hv hn =>
    have hb := at_bind hs originSymbol (Text.decimal n)
    rw [Layout.next, hv]
    exact ⟨rfl, hb.offset, hb.names⟩
  | const name value hn => exact at_bind hs name value
  | push operand slot hi => exact at_advance hs 1 _
  | stop => exact at_advance hs 1 _
  | call exchange target pads n back goal hn hback hgoal =>
    have hp := padCount_of_padding hn
    cases exchange with
    | false =>
      have hk : s.offset+1+1+1+n = s.offset+(3+padCount pads) := by omega
      have ha := at_advance hs (3+padCount pads) (s.called false back goal n line.comment).code
      rw [← hk] at ha
      exact ha
    | true =>
      have hk : s.offset+1+1+1+1+n = s.offset+(4+padCount pads) := by omega
      have ha := at_advance hs (4+padCount pads) (s.called true back goal n line.comment).code
      rw [← hk] at ha
      exact ha
  | bare op => exact at_advance hs 1 _
  | operand op operand slot hi => exact at_advance hs 2 _

theorem steps_at {s t : Assembler} {l : Layout} {raw : Text} (h : Steps s (.split raw) t)
    (hs : s.At l) : t.At ((statement? raw).elim l l.next) := by
  cases h with
  | blank hp hc =>
    rw [statement?_of_parse hp]
    exact ⟨hs.origin, hs.offset, hs.names⟩
  | comment text hp hc =>
    rw [statement?_of_parse hp]
    exact ⟨hs.origin, hs.offset, hs.names⟩
  | statement st _ hp he =>
    rw [statement?_of_parse hp]
    exact executes_at he hs

theorem at_countLine {s : Assembler} {l : Layout} (h : s.At l) : s.countLine.At l :=
  ⟨h.origin, h.offset, h.names⟩

theorem walk_statements (l : Layout) (raw : Text) (rest : List Text) :
    l.walk (statements (raw::rest)) =
      ((statement? raw).elim l l.next).walk (statements rest) := by
  rw [statements_cons]
  cases statement? raw <;> rfl

theorem runs_at {s t : Assembler} {l : Layout} {raws : List Text} (h : Runs s raws t)
    (hs : s.At l) : t.At (l.walk (statements raws)) := by
  induction h generalizing l with
  | nil s => exact hs
  | @cons s t u raw rest hstep _ ih =>
    rw [walk_statements]
    exact ih (steps_at hstep (at_countLine hs))

end Assembler
end SplAssembler
