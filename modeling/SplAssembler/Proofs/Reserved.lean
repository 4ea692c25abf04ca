import Mathlib.Control.Monad.Basic
import SplAssembler.Proofs.Emission
import SplAssembler.Proofs.Literal
import SplAssembler.Proofs.Slots
import SplAssembler.Proofs.Symbols

/-!
# Reserved bytes

A reserved byte should be an instruction. Numerals, return addresses and the
addresses of labels are checked when they are assembled, and no byte that comes
from one of them is reserved. Two ways around the check remain: the value of a
symbol is put in its place unchecked, and a constant may carry the key of a
label. The main statement says that there is no third way.
-/

set_option autoImplicit false

namespace SplAssembler

def Slot.Checked : Slot → Prop
  | .number text => ∃ n, numeral? text = some n ∧ isReserved (UInt8.ofNat n) = false
  | .label key => ∃ name, key = labelKey name
  | _ => True

namespace Assembler

theorem emits_checked {s : Assembler} {st : Statement} {slot : Slot} (h : Emits s st slot) :
    slot.Checked := by
  cases h with
  | op opcode => trivial
  | stop => trivial
  | pad => trivial
  | address n hn hr => exact ⟨n, numeral?_decimal_of_byte hn, hr⟩
  | operand token _ _ ho =>
    cases ho with
    | label name => exact ⟨name, rfl⟩
    | symbol _ value hat hg => trivial
    | number _ n hat hg hn hl hr => exact ⟨n, hn, hr⟩

theorem runs_checked {t : Assembler} {raws : List Text} (h : Runs .initial raws t) :
    ∀ slot ∈ slots t.code, slot.Checked := by
  apply runs_invariant (P := fun u => ∀ slot ∈ slots u.code, slot.Checked) _ _ h
  · intro slot hs
    cases hs
  · intro u hu
    exact hu
  · intro raw _ u v hu hstep
    exact steps_slots hstep hu (fun _ _ => emits_checked)

end Assembler

/-- Slots whose byte reads as an instruction although none is written there: the
value of a symbol, or a constant that has the key of a label. -/
inductive Unchecked (program : List Statement) (dict : Dictionary) : Slot → Prop
  | symbol (name value : Text) (byte : UInt8) : dict.resolve value = some byte.toNat →
      isReserved byte = true → Unchecked program dict (.symbol name value)
  | constant (label value : Text) (byte : UInt8) : .const (labelKey label) value ∈ program →
      literal? value = some byte.toNat → isReserved byte = true →
      Unchecked program dict (.label (labelKey label))

theorem labelKey_ne_originSymbol (label : Text) : labelKey label ≠ originSymbol := by
  intro h
  have hc := congrArg (·.head?) h
  change some 'L' = some 'S' at hc
  cases hc

theorem toNat_injective {m : Option Nat} {b c : UInt8} (hb : m = some b.toNat)
    (hc : m = some c.toNat) : b = c := by
  rw [hb] at hc
  exact UInt8.toNat_inj.mp (Option.some.inj hc)

section Bytes
variable {t : Assembler} {raws : List Text} {b : UInt8}

/-- The address of a label is not reserved, so a reserved byte under its key is a constant. -/
theorem const_of_reserved (h : Assembler.Runs .initial raws t) {name value : Text}
    (hm : ⟨labelKey name, value⟩ ∈ t.symbols) (hl : literal? value = some b.toNat)
    (hr : isReserved b = true) : .const (labelKey name) value ∈ statements raws := by
  have hb := Assembler.runs_bound h _ hm
  generalize hd : (⟨labelKey name, value⟩ : Define) = d at hb
  cases hb with
  | constant _ _ hc =>
    cases hd
    exact hc
  | label other address ha =>
    have hva : value = Text.decimal address := congrArg Define.value hd
    rw [hva, literal?_decimal] at hl
    split at hl
    · rw [Option.some.inj hl, UInt8.ofNat_toNat, hr] at ha
      cases ha
    · cases hl
  | origin address =>
    have hn : labelKey name = originSymbol := congrArg Define.name hd
    exact absurd hn (labelKey_ne_originSymbol name)

theorem label_reserved (h : Assembler.Runs .initial raws t) (name : Text)
    (hv : (Dictionary.ofDefines t.symbols).lookup (labelKey name) = some b.toNat) :
    isReserved b = true ↔
      Unchecked (statements raws) (.ofDefines t.symbols) (.label (labelKey name)) := by
  rw [Dictionary.lookup_ofDefines _ (Assembler.runs_distinct h)] at hv
  obtain ⟨value, hg, hl⟩ := Option.bind_eq_some_iff.mp hv
  constructor
  · intro hr
    exact .constant name value b (const_of_reserved h (SymbolTable.mem_of_get? hg) hl hr) hl hr
  · intro hu
    generalize hk : Slot.label (labelKey name) = slot at hu
    cases hu with
    | symbol => cases hk
    | constant label other r hm hlit hr =>
      -- a constant keeps its value, so the one in the source is the one in the table
      have hc := Assembler.get?_of_const h hm (labelKey_ne_originSymbol label)
      rw [← Slot.label.inj hk, hg] at hc
      cases hc
      rw [toNat_injective hl hlit]
      exact hr

theorem slot_reserved (h : Assembler.Runs .initial raws t) {slot : Slot} (hs : slot ∈ slots t.code)
    (hb : slot.byte? (.ofDefines t.symbols) = some b) :
    isReserved b = true ↔
      (∃ op, slot = .op op) ∨ Unchecked (statements raws) (.ofDefines t.symbols) slot := by
  obtain ⟨n, hv, hn⟩ := Option.bind_eq_some_iff.mp hb
  have hbn := toNat_of_byte? hn
  subst hbn
  have plain : isReserved b = false → (∀ op, slot ≠ .op op) →
      ¬Unchecked (statements raws) (.ofDefines t.symbols) slot →
      (isReserved b = true ↔
        (∃ op, slot = .op op) ∨ Unchecked (statements raws) (.ofDefines t.symbols) slot) := by
    intro hr ho hu
    simp [hr, ho, hu]
  have hc := Assembler.runs_checked h slot hs
  cases slot with
  | number text =>
    obtain ⟨m, hm, hr⟩ := hc
    have hmb : some m = some b.toNat := hm.symm.trans hv
    rw [Option.some.inj hmb, UInt8.ofNat_toNat] at hr
    exact plain hr (by simp) (fun hu => by cases hu)
  | symbol name value =>
    constructor
    · intro hr
      exact Or.inr (.symbol name value b hv hr)
    · rintro (⟨op, ho⟩ | hu)
      · cases ho
      · cases hu with
        | symbol _ _ r hrv hr =>
          rw [toNat_injective hv hrv]
          exact hr
  | label key =>
    obtain ⟨name, rfl⟩ := hc
    rw [label_reserved h name hv]
    simp
  | op opcode =>
    have hbc : opcode.code = b := UInt8.toNat_inj.mp (Option.some.inj hv)
    rw [← hbc]
    simp [isReserved_code]
  | stop =>
    have hbs : stopByte = b := UInt8.toNat_inj.mp (Option.some.inj hv)
    exact plain (hbs ▸ isReserved_stopByte) (by simp) (fun hu => by cases hu)
  | pad =>
    have hbz : (0 : UInt8) = b := UInt8.toNat_inj.mp (Option.some.inj hv)
    exact plain (hbz ▸ by decide) (by simp) (fun hu => by cases hu)

end Bytes

section Positions
variable {p : Program} {bytes : List UInt8}

theorem bytes_of_slots (h : p.bytes = .ok bytes) :
    (slots p.code).map (Slot.byte? (.ofDefines p.defines)) = bytes.map some := by
  have hs := encodeCode_slots (.ofDefines p.defines) p.code
  change p.bytes.toOption = _ at hs
  rw [h] at hs
  exact map_of_mapM hs.symm

theorem length_of_bytes (h : p.bytes = .ok bytes) : bytes.length = (slots p.code).length := by
  have hl := congrArg List.length (bytes_of_slots h)
  simpa using hl.symm

theorem slot_of_byte (h : p.bytes = .ok bytes) {i : Nat} {slot : Slot} {b : UInt8}
    (hs : (slots p.code)[i]? = some slot) (hb : bytes[i]? = some b) :
    slot.byte? (.ofDefines p.defines) = some b := by
  have hi := congrArg (·[i]?) (bytes_of_slots h)
  simpa [List.getElem?_map, hs, hb] using hi

theorem byte_of_slot (h : p.bytes = .ok bytes) {slot : Slot} (hs : slot ∈ slots p.code) :
    ∃ (i : Nat) (b : UInt8), (slots p.code)[i]? = some slot ∧ bytes[i]? = some b := by
  obtain ⟨i, hi⟩ := List.getElem?_of_mem hs
  have hl := (List.getElem?_eq_some_iff.mp hi).1
  rw [← length_of_bytes h] at hl
  exact ⟨i, _, hi, List.getElem?_eq_getElem hl⟩

end Positions

/-- Every byte of a program belongs to a slot, and a reserved byte is an
instruction or comes from an unchecked slot. Hence all reserved bytes are
instructions exactly when no slot of the program is unchecked. -/
theorem reserved_iff_op_or_unchecked (source : Text) (p : Program) (bytes : List UInt8)
    (h : assemble source = .ok p) (hb : p.bytes = .ok bytes) :
    bytes.length = (slots p.code).length ∧
    (∀ (i : Nat) (slot : Slot) (b : UInt8),
      (slots p.code)[i]? = some slot → bytes[i]? = some b →
        (isReserved b = true ↔ (∃ op, slot = .op op) ∨
          Unchecked (statements source.sourceLines) (.ofDefines p.defines) slot)) ∧
    ((∀ (i : Nat) (slot : Slot) (b : UInt8),
      (slots p.code)[i]? = some slot → bytes[i]? = some b →
        (isReserved b = true ↔ ∃ op, slot = .op op)) ↔
      ∀ slot ∈ slots p.code,
        ¬Unchecked (statements source.sourceLines) (.ofDefines p.defines) slot) := by
  have exact_at : ∀ (i : Nat) (slot : Slot) (b : UInt8),
      (slots p.code)[i]? = some slot → bytes[i]? = some b →
        (isReserved b = true ↔ (∃ op, slot = .op op) ∨
          Unchecked (statements source.sourceLines) (.ofDefines p.defines) slot) := by
    obtain ⟨t, hr, rfl⟩ := (assemble_ok_iff source p).mp h
    intro i slot b hs hi
    exact slot_reserved hr (List.mem_of_getElem? hs) (slot_of_byte hb hs hi)
  refine ⟨length_of_bytes hb, exact_at, ?_, ?_⟩
  · intro all slot hs hu
    obtain ⟨i, b, hi, hbi⟩ := byte_of_slot hb hs
    have hr := (exact_at i slot b hi hbi).mpr (Or.inr hu)
    obtain ⟨op, rfl⟩ := (all i slot b hi hbi).mp hr
    cases hu
  · intro checked i slot b hs hi
    have hu := checked slot (List.mem_of_getElem? hs)
    rw [exact_at i slot b hs hi]
    simp [hu]

/-- Both ways around the check, and the address of a label that passes it. -/
theorem reserved_iff_op_or_unchecked_twice :
    ∃ source p, assemble source = .ok p ∧ p.bytes = .ok [64, 61, 61, 17] ∧
      Unchecked (statements source.sourceLines) (.ofDefines p.defines)
        (.symbol "AT".toList "64".toList) ∧
      Unchecked (statements source.sourceLines) (.ofDefines p.defines)
        (.label "LABEL_X".toList) := by
  let source : Text := "CONST AT 64\nCONST LABEL_X 61\nPUSH AT\n:Y\nJMP @X\nPUSH @Y".toList
  let p : Program := {
    origin := defaultOrigin
    code := [.byte (.symbol "AT".toList "64".toList) none, .label ":Y".toList,
      .byte (.label "LABEL_X".toList) none, .byte (.op .jmp) none,
      .byte (.label "LABEL_Y".toList) none]
    defines := [⟨"AT".toList, "64".toList⟩, ⟨"LABEL_X".toList, "61".toList⟩,
      ⟨"LABEL_Y".toList, "17".toList⟩] }
  have h : assemble source = .ok p := by decide +kernel
  have hb : p.bytes = .ok [64, 61, 61, 17] := by decide +kernel
  obtain ⟨-, hx, -⟩ := reserved_iff_op_or_unchecked source p _ h hb
  refine ⟨source, p, h, hb, ?_, ?_⟩
  · have hr := (hx 0 (.symbol "AT".toList "64".toList) 64 rfl rfl).mp (by decide)
    simpa using hr
  · have hr := (hx 1 (.label "LABEL_X".toList) 61 rfl rfl).mp (by decide)
    simpa using hr

/-- A constant takes the place of its name although it reads as an instruction. -/
theorem reserved_not_only_op :
    ¬∀ source p bytes, assemble source = .ok p → p.bytes = .ok bytes →
      ∀ (i : Nat) (slot : Slot) (b : UInt8),
        (slots p.code)[i]? = some slot → bytes[i]? = some b →
          (isReserved b = true ↔ ∃ op, slot = .op op) := by
  intro all
  let source : Text := "CONST AT 64\nPUSH AT".toList
  let p : Program := ⟨defaultOrigin, [.byte (.symbol "AT".toList "64".toList) none],
    [⟨"AT".toList, "64".toList⟩]⟩
  have h : assemble source = .ok p := by decide +kernel
  have hb : p.bytes = .ok [64] := by decide +kernel
  obtain ⟨op, ho⟩ := (all source p [64] h hb 0 _ 64 rfl rfl).mp (by decide)
  cases ho

end SplAssembler
