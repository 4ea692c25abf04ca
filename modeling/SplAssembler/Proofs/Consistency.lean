import SplAssembler.Proofs.Reach
import SplAssembler.Proofs.Reserved
import SplAssembler.Proofs.Session
import SplAssembler.Proofs.Source

/-!
# Consistent states

The fields of an assembler depend on each other: the offset counts the bytes of
the code, the origin is that of the last directive and stands in the table, and
the code and the table hold nothing that was not checked when it came in. Each
accepted line keeps these conditions and a refused line changes none of the
fields, so they hold throughout every session.
-/

set_option autoImplicit false

namespace SplAssembler

def Statement.origin? : Statement → Option Nat
  | .origin value => numeral? value
  | _ => none

def origins (program : List Statement) : List Nat := program.filterMap Statement.origin?

theorem origins_append (program rest : List Statement) :
    origins (program ++ rest) = origins program ++ origins rest :=
  List.filterMap_append

theorem origins_singleton (st : Statement) : origins [st] = st.origin?.toList := by
  rw [origins, List.filterMap_cons]
  cases st.origin? <;> rfl

def Slot.Sound : Slot → Prop
  | .number text => ∃ n, numeral? text = some n ∧ n < 256 ∧ isReserved (UInt8.ofNat n) = false
  | .label key => labelPrefix <+: key
  | _ => True

namespace Assembler

structure Consistent (s : Assembler) (program : List Statement) : Prop where
  offset : s.offset = byteCount s.code
  origin : s.origin = (origins program).getLast?.getD defaultOrigin
  bounded : s.origin < programSize
  exported : origins program ≠ [] → s.symbols.get? originSymbol = some (Text.decimal s.origin)
  slots : ∀ slot ∈ slots s.code, slot.Sound
  defines : ∀ d ∈ s.symbols, d.Sound
  distinct : s.symbols.Distinct

theorem initial_consistent : initial.Consistent [] where
  offset := rfl
  origin := rfl
  bounded := by decide
  exported := fun h => absurd rfl h
  slots := fun _ h => (List.not_mem_nil h).elim
  defines := fun _ h => (List.not_mem_nil h).elim
  distinct := List.nodup_nil

theorem emits_sound {s : Assembler} {st : Statement} {slot : Slot} (h : Emits s st slot) :
    slot.Sound := by
  cases h with
  | op opcode => trivial
  | stop => trivial
  | pad => trivial
  | address n hn hr => exact ⟨n, numeral?_decimal_of_byte hn, hn, hr⟩
  | operand token _ _ ho =>
    cases ho with
    | label name => exact List.prefix_append labelPrefix name
    | symbol _ value hat hg => trivial
    | number _ n hat hg hn hl hr => exact ⟨n, hn, hl, hr⟩

theorem binding_sound {s : Assembler} {st : Statement} {name value : Text}
    (ha : ∀ a ∈ st.arguments, a ≠ [] ∧ a.Solid) (hb : s.binding? st = some (name, value)) :
    Define.Sound ⟨name, value⟩ := by
  cases st with
  | label label =>
    cases hb
    obtain ⟨-, hl⟩ := ha label (by simp [Statement.arguments])
    exact ⟨⟨List.cons_ne_nil _ _, labelKey_solid hl⟩, Nat.toDigits_ne_nil, decimal_solid _⟩
  | origin text =>
    obtain ⟨n, -, he⟩ := Option.map_eq_some_iff.mp hb
    cases he
    have ho : originSymbol ≠ [] ∧ originSymbol.Solid := by decide
    exact ⟨ho, Nat.toDigits_ne_nil, decimal_solid n⟩
  | const constant text =>
    cases hb
    exact ⟨ha name (by simp [Statement.arguments]), ha value (by simp [Statement.arguments])⟩
  | _ => cases hb

section Origin
variable {s t : Assembler} {line : SourceLine} {st : Statement}

theorem executes_origin (h : Executes s line st t) : t.origin = st.origin?.getD s.origin := by
  cases h with
  | origin value n hv hn => rw [Statement.origin?, hv, Option.getD_some]
  | call exchange target pads n back goal hn hb hg => cases exchange <;> rfl
  | _ => rfl

theorem executes_bounded (h : Executes s line st t) (hs : s.origin < programSize) :
    t.origin < programSize := by
  cases h with
  | origin value n hv hn => exact hn
  | call exchange target pads n back goal hn hb hg => cases exchange <;> exact hs
  | _ => exact hs

/-- A directive binds the name of the origin, and no other statement changes its value. -/
theorem executes_originSymbol {value : Text} (h : Executes s line st t)
    (hs : st.origin? = none → s.symbols.get? originSymbol = some value) :
    t.symbols.get? originSymbol = some (st.origin?.elim value Text.decimal) := by
  have hput : ∀ name text, s.symbols.get? name = none → st.origin? = none →
      (s.symbols.put name text).get? originSymbol = some value := by
    intro name text hn ho
    have hne : originSymbol ≠ name := by
      rintro rfl
      rw [hs ho] at hn
      cases hn
    rw [SymbolTable.get?_put, if_neg hne, hs ho]
  cases h with
  | label name hr hn => exact hput _ _ hn rfl
  | origin text n hv hn =>
    change (s.symbols.put _ _).get? _ = _
    rw [SymbolTable.get?_put, if_pos rfl, Statement.origin?, hv, Option.elim_some]
  | const name text hn => exact hput _ _ hn rfl
  | call exchange target pads n back goal hn hb hg => cases exchange <;> exact hs rfl
  | _ => exact hs rfl

end Origin

theorem consistent_numbered (s : Assembler) (n : Nat) (program : List Statement) :
    (s.numbered n).Consistent program ↔ s.Consistent program := by
  constructor
  · intro h
    exact ⟨h.offset, h.origin, h.bounded, h.exported, h.slots, h.defines, h.distinct⟩
  · intro h
    exact ⟨h.offset, h.origin, h.bounded, h.exported, h.slots, h.defines, h.distinct⟩

theorem consistent_mark {s : Assembler} {program : List Statement} {line : CodeLine}
    (h : s.Consistent program) (hl : line.isFiller = true) : (s.mark line).Consistent program := by
  have hn : SplAssembler.slots [line] = [] := slots_fillers (by simpa using hl)
  have hc : SplAssembler.slots (s.code ++ [line]) = SplAssembler.slots s.code := by
    rw [slots_append, hn, List.append_nil]
  constructor
  · change s.offset = byteCount (s.code ++ [line])
    rw [byteCount_eq_length, hc, ← byteCount_eq_length, h.offset]
  · exact h.origin
  · exact h.bounded
  · exact h.exported
  · change ∀ slot ∈ SplAssembler.slots (s.code ++ [line]), slot.Sound
    rw [hc]
    exact h.slots
  · exact h.defines
  · exact h.distinct

theorem consistent_execute {s t : Assembler} {line : SourceLine} {st : Statement}
    {program : List Statement} (hs : s.Consistent program)
    (hp : Statement.parse line.body = .ok (some st)) (he : Executes s line st t) :
    t.Consistent (program ++ [st]) := by
  have h : Steps s line t := .statement st t hp he
  constructor
  · exact steps_offset h hs.offset
  · rw [executes_origin he, origins_append, origins_singleton, hs.origin]
    cases st.origin? with
    | none => simp
    | some n => simp
  · exact executes_bounded he hs.bounded
  · intro hn
    have hprev : st.origin? = none →
        s.symbols.get? originSymbol = some (Text.decimal s.origin) := by
      intro hnone
      rw [origins_append, origins_singleton, hnone] at hn
      exact hs.exported (by simpa using hn)
    rw [executes_originSymbol he hprev, executes_origin he]
    cases st.origin? <;> rfl
  · exact steps_slots h hs.slots fun _ _ => emits_sound
  · apply executes_defines he hs.defines
    intro name value hb
    exact binding_sound (Statement.parse_arguments hp) hb
  · exact steps_distinct h hs.distinct

theorem steps_consistent {s t : Assembler} {raw : Text} {program : List Statement}
    (h : Steps s (.split raw) t) (hs : s.Consistent program) :
    t.Consistent (program ++ (statement? raw).toList) := by
  cases h with
  | blank hp _ =>
    rw [statement?_of_parse hp, Option.toList_none, List.append_nil]
    exact consistent_mark hs rfl
  | comment text hp _ =>
    rw [statement?_of_parse hp, Option.toList_none, List.append_nil]
    exact consistent_mark hs rfl
  | statement st _ hp he =>
    rw [statement?_of_parse hp]
    exact consistent_execute hs hp he

theorem runs_consistent {s t : Assembler} {raws : List Text} {program : List Statement}
    (h : Runs s raws t) (hs : s.Consistent program) :
    t.Consistent (program ++ statements raws) := by
  induction h generalizing program with
  | nil s => simpa [statements] using hs
  | @cons s t u raw rest hstep _ ih =>
    rw [statements_cons, ← List.append_assoc]
    have hc : s.countLine.Consistent program := (consistent_numbered s _ program).mpr hs
    exact ih (steps_consistent hstep hc)

/-- In every session the state is consistent with the statements of the accepted
lines, and its offset is the size of the program that it would finish with. -/
theorem session_consistent (raws : List Text) :
    (initial.session raws).1.Consistent (statements (initial.accepted raws)) ∧
      (initial.session raws).1.finish.size = (initial.session raws).1.offset := by
  obtain ⟨m, hm⟩ := session_runs initial raws
  have h := (consistent_numbered _ m _).mp (runs_consistent hm initial_consistent)
  exact ⟨h, h.offset.symm⟩

end Assembler
end SplAssembler
