import SplAssembler.Proofs.Emission
import SplAssembler.Proofs.Literal
import SplAssembler.Proofs.Source
import SplAssembler.Proofs.Symbols

/-!
# Plain sources

A listing shows names and values as the source wrote them, so it can be read
back only if these are fit to stand in one. A source is plain when its
constants are named by identifiers, its label names are made of letters, digits
and underscores, and the value of each constant is a numeral, an identifier or
a quoted character. Nothing is asked of comments. The module shows that the
symbol table and the code of a plain source are plain.
-/

set_option autoImplicit false

namespace SplAssembler

def isIdentifier : Text → Bool
  | [] => false
  | c::rest => isNameStart c && rest.all isWordChar

def isCharacter : Text → Bool
  | '\'' :: '\\' :: rest =>
      match rest with
      | _::close => close == ['\'']
      | [] => false
  | '\'' :: c :: close => c != '\'' && close == ['\'']
  | _ => false

def isPlainValue (value : Text) : Bool :=
  (numeral? value).isSome || isIdentifier value || isCharacter value

def isPlainOperand : Text → Bool
  | '@' :: name => name.all isWordChar
  | _ => true

def Statement.isPlain : Statement → Bool
  | .label name => name.all isWordChar
  | .const name value => isIdentifier name && isPlainValue value
  | st => st.operands.all isPlainOperand

theorem wordChars_of_identifier {t : Text} (h : isIdentifier t = true) :
    ∀ c ∈ t, isWordChar c = true := by
  cases t with
  | nil => simp [isIdentifier] at h
  | cons c rest =>
    simp only [isIdentifier, Bool.and_eq_true, List.all_eq_true] at h
    intro d hd
    rcases List.mem_cons.mp hd with rfl | hd
    · exact (isWordChar_iff_start d).mpr (Or.inl h.1)
    · exact h.2 d hd

theorem identifier_ne_nil {t : Text} (h : isIdentifier t = true) : t ≠ [] := by
  rintro rfl
  simp [isIdentifier] at h

theorem identifier_head {c : Char} {t : Text} (h : isIdentifier (c::t) = true) :
    57 < c.toNat := by
  simp only [isIdentifier, Bool.and_eq_true] at h
  have hs := (isNameStart_iff c).mp h.1
  omega

theorem labelKey_identifier {name : Text} (h : name.all isWordChar = true) :
    isIdentifier (labelKey name) = true := by
  have hp : "ABEL_".toList.all isWordChar = true := by decide
  change (true && (("ABEL_".toList ++ name).all isWordChar)) = true
  rw [Bool.true_and, List.all_append, hp, h]
  rfl

theorem originSymbol_identifier : isIdentifier originSymbol = true := by decide

/-- An identifier is no literal. -/
theorem literal?_identifier {t : Text} (h : isIdentifier t = true) : literal? t = none := by
  obtain ⟨c, rest, rfl⟩ := List.exists_cons_of_ne_nil (identifier_ne_nil h)
  exact literal?_of_head (identifier_head h) rest

/-- A value as a listing can hold it. Addresses of any size are among these. -/
def Text.Fit (value : Text) : Prop :=
  value ≠ [] ∧ value.Solid ∧ ((∀ c ∈ value, isWordChar c = true) ∨ isCharacter value = true)

theorem fit_of_wordChars {value : Text} (hn : value ≠ []) (h : ∀ c ∈ value, isWordChar c = true) :
    value.Fit :=
  ⟨hn, solid_of_wordChars h, Or.inl h⟩

theorem fit_decimal (n : Nat) : (Text.decimal n).Fit :=
  fit_of_wordChars Nat.toDigits_ne_nil (decimal_wordChars n)

theorem fit_of_plainValue {value : Text} (h : isPlainValue value = true) (hn : value ≠ [])
    (hs : value.Solid) : value.Fit := by
  simp only [isPlainValue, Bool.or_eq_true] at h
  rcases h with (h | h) | h
  · obtain ⟨n, hv⟩ := Option.isSome_iff_exists.mp h
    exact fit_of_wordChars hn (numeral?_some hv).1
  · exact fit_of_wordChars hn (wordChars_of_identifier h)
  · exact ⟨hn, hs, Or.inr h⟩

def Define.Plain (d : Define) : Prop := isIdentifier d.name = true ∧ d.value.Fit

theorem Define.Plain.sound {d : Define} (h : d.Plain) : d.Sound := by
  obtain ⟨hn, hv, hs, -⟩ := h
  exact ⟨⟨identifier_ne_nil hn, solid_of_wordChars (wordChars_of_identifier hn)⟩, hv, hs⟩

def Slot.Plain : Slot → Prop
  | .number text => ∃ n, numeral? text = some n
  | .symbol name value => isIdentifier name = true ∧ value.Fit
  | .label key => isIdentifier key = true
  | _ => True

def CodeLine.Plain : CodeLine → Prop
  | .blank => True
  | .comment text => text.Tidy
  | .label text => text.Tidy
  | .byte slot note => slot.Plain ∧ ∀ text, note = some text → text.Tidy

structure Program.Plain (p : Program) : Prop where
  distinct : SymbolTable.Distinct p.defines
  defines : ∀ d ∈ p.defines, d.Plain
  code : ∀ l ∈ p.code, l.Plain

namespace Assembler

theorem binding_plain {s : Assembler} {st : Statement} {name value : Text}
    (hp : st.isPlain = true) (ha : ∀ a ∈ st.arguments, a ≠ [] ∧ a.Solid)
    (hb : s.binding? st = some (name, value)) : Define.Plain ⟨name, value⟩ := by
  cases st with
  | label label =>
    cases hb
    exact ⟨labelKey_identifier hp, fit_decimal _⟩
  | origin text =>
    obtain ⟨n, -, he⟩ := Option.map_eq_some_iff.mp hb
    cases he
    exact ⟨originSymbol_identifier, fit_decimal n⟩
  | const constant text =>
    cases hb
    obtain ⟨hn, hv⟩ := (Bool.and_eq_true _ _).mp hp
    obtain ⟨h0, hs⟩ := ha value (by simp [Statement.arguments])
    exact ⟨hn, fit_of_plainValue hv h0 hs⟩
  | _ => cases hb

theorem operands_plain {st : Statement} (hp : st.isPlain = true) :
    ∀ token ∈ st.operands, isPlainOperand token = true := by
  cases st with
  | label name => simp [Statement.operands]
  | const name value => simp [Statement.operands]
  | _ => exact List.all_eq_true.mp hp

theorem emits_plain {s : Assembler} {st : Statement} {slot : Slot}
    (hs : ∀ d ∈ s.symbols, d.Plain) (hp : st.isPlain = true) (h : Emits s st slot) :
    slot.Plain := by
  cases h with
  | op opcode => trivial
  | stop => trivial
  | pad => trivial
  | address n hn hr => exact ⟨n, numeral?_decimal_of_byte hn⟩
  | operand token slot hm ho =>
    have ht := operands_plain hp token hm
    cases ho with
    | label name => exact labelKey_identifier ht
    | symbol _ value _ hg => exact hs _ (SymbolTable.mem_of_get? hg)
    | number _ n _ _ hn _ _ => exact ⟨n, hn⟩

theorem steps_plain {s t : Assembler} {raw : Text} (hr : '\n' ∉ raw)
    (hp : ∀ st, statement? raw = some st → st.isPlain = true) (h : Steps s (.split raw) t)
    (hs : s.finish.Plain) : t.finish.Plain := by
  have hc : ∀ text, (SourceLine.split raw).comment = some text → text.Tidy :=
    fun text ht => SourceLine.split_comment_tidy hr ht
  constructor
  · exact steps_distinct h hs.distinct
  · cases h with
    | blank => exact hs.defines
    | comment => exact hs.defines
    | statement st _ hb he =>
      apply executes_defines he hs.defines
      intro name value hbind
      exact binding_plain (hp st (statement?_of_parse hb)) (Statement.parse_arguments hb) hbind
  · apply steps_lines h hs.code trivial hc (SourceLine.split_raw_tidy hr)
    intro st slot note hb hslot hnote
    constructor
    · exact emits_plain hs.defines (hp st (statement?_of_parse hb)) hslot
    · intro text ht
      rcases hnote with h | h
      · rw [h] at ht
        cases ht
      · exact hc text (h ▸ ht)

end Assembler

/-- The program of a plain source is plain. -/
theorem assemble_plain {source : Text} {p : Program} (h : assemble source = .ok p)
    (hp : ∀ st ∈ statements source.sourceLines, st.isPlain = true) : p.Plain := by
  obtain ⟨s, hr, rfl⟩ := (assemble_ok_iff source p).mp h
  have keep : ∀ raw ∈ source.sourceLines, ∀ u v : Assembler, u.finish.Plain →
      Assembler.Steps u (.split raw) v → v.finish.Plain := by
    intro raw hm u v hu hs
    apply Assembler.steps_plain (Text.mem_sourceLines hm) _ hs hu
    intro st hst
    exact hp st (List.mem_filterMap.mpr ⟨raw, hm, hst⟩)
  have initial : Assembler.initial.finish.Plain :=
    ⟨List.nodup_nil, fun _ hd => (List.not_mem_nil hd).elim, fun _ hl => (List.not_mem_nil hl).elim⟩
  exact Assembler.runs_invariant (P := fun u => u.finish.Plain) (fun _ hu => hu) keep hr initial

end SplAssembler
