import SplAssembler.Proofs.Run
import SplAssembler.Proofs.Slots

/-!
# What statements emit

An operand becomes a label reference, a symbol with its value or a numeral of
one byte; a return address becomes a decimal numeral. All other slots that a
statement emits are fixed. A property that these slots and the markers have
holds of every code line of a run.
-/

set_option autoImplicit false

namespace SplAssembler

theorem byte?_some {n : Nat} {byte : UInt8} (h : byte? n = some byte) :
    n < 256 ∧ UInt8.ofNat n = byte := by
  rw [byte?] at h
  split at h
  · exact ⟨‹_›, Option.some.inj h⟩
  · cases h

theorem toNat_of_byte? {n : Nat} {b : UInt8} (h : byte? n = some b) : n = b.toNat := by
  obtain ⟨hn, rfl⟩ := byte?_some h
  simp [Nat.mod_eq_of_lt hn]

def Statement.operands : Statement → List Text
  | .push operand => [operand]
  | .call _ target _ => [target]
  | .primitive _ (some operand) => [operand]
  | _ => []

namespace Assembler

inductive Operand (s : Assembler) : Text → Slot → Prop
  | label (name : Text) : Operand s ('@' :: name) (.label (labelKey name))
  | symbol (token value : Text) : (∀ name, token ≠ '@' :: name) →
      s.symbols.get? token = some value → Operand s token (.symbol token value)
  | number (token : Text) (n : Nat) : (∀ name, token ≠ '@' :: name) →
      s.symbols.get? token = none → numeral? token = some n → n < 256 →
      isReserved (UInt8.ofNat n) = false → Operand s token (.number token)

theorem immediate_operand {s : Assembler} {token : Text} {slot : Slot}
    (h : s.immediate token = .ok slot) : Operand s token slot := by
  unfold immediate at h
  split at h
  · cases h
    exact .label _
  · rename_i hat
    cases hg : s.symbols.get? token with
    | some value =>
      rw [hg] at h
      cases h
      exact .symbol token value hat hg
    | none =>
      rw [hg] at h
      cases hb : (numeral? token).bind byte? with
      | none => simp [hb] at h
      | some byte =>
        obtain ⟨n, hn, hb'⟩ := Option.bind_eq_some_iff.mp hb
        obtain ⟨hl, rfl⟩ := byte?_some hb'
        cases hr : isReserved (UInt8.ofNat n) with
        | true => simp [hb, hr] at h
        | false =>
          have hs : slot = .number token := by simpa [hb, hr] using h.symm
          rw [hs]
          exact .number token n hat hg hn hl hr

theorem address_number {n : Nat} {slot : Slot} (h : address n = .ok slot) :
    slot = .number (Text.decimal n) ∧ n < 256 ∧ isReserved (UInt8.ofNat n) = false := by
  unfold address at h
  split at h
  · cases h
  · rename_i byte hb
    obtain ⟨hl, rfl⟩ := byte?_some hb
    cases hr : isReserved (UInt8.ofNat n) with
    | true => simp [hr] at h
    | false =>
      rw [if_neg (by simp [hr])] at h
      cases h
      exact ⟨rfl, hl, rfl⟩

inductive Emits (s : Assembler) (st : Statement) : Slot → Prop
  | op (opcode : Opcode) : Emits s st (.op opcode)
  | stop : Emits s st .stop
  | pad : Emits s st .pad
  | address (n : Nat) : n < 256 → isReserved (UInt8.ofNat n) = false →
      Emits s st (.number (Text.decimal n))
  | operand (token : Text) (slot : Slot) : token ∈ st.operands → Operand s token slot →
      Emits s st slot

section Lines
variable {P : CodeLine → Prop} {s : Assembler}

theorem lines_concat {code : List CodeLine} {line : CodeLine} (hs : ∀ l ∈ code, P l)
    (hl : P line) : ∀ l ∈ code ++ [line], P l := by
  intro l hm
  rcases List.mem_append.mp hm with h | h
  · exact hs l h
  · rw [List.mem_singleton.mp h]
    exact hl

theorem emit_lines {slot : Slot} {comment : Option Text} (hs : ∀ l ∈ s.code, P l)
    (hb : P (.byte slot comment)) : ∀ l ∈ (s.emit slot comment).code, P l :=
  lines_concat hs hb

theorem mem_insertBeforeLast {line l : CodeLine} {code : List CodeLine}
    (h : l ∈ insertBeforeLast line code) : l = line ∨ l ∈ code := by
  rw [insertBeforeLast] at h
  split at h
  · rename_i slot comment before hd
    have hm : ∀ m ∈ CodeLine.byte slot comment :: before, m ∈ code := by
      intro m hm
      rw [← hd] at hm
      exact List.mem_reverse.mp ((List.dropWhile_suffix _).subset hm)
    have ht : ∀ m ∈ code.reverse.takeWhile CodeLine.isFiller, m ∈ code := by
      intro m hm
      exact List.mem_reverse.mp ((List.takeWhile_prefix _).subset hm)
    simp only [List.mem_append, List.mem_reverse, List.mem_cons, List.not_mem_nil, or_false] at h
    rcases h with (h | h | h) | h
    · exact Or.inr (hm l (by simp [h]))
    · exact Or.inl h
    · exact Or.inr (ht l h)
    · exact Or.inr (hm l (by simp [h]))
  · rcases List.mem_append.mp h with h | h
    · exact Or.inr h
    · exact Or.inl (List.mem_singleton.mp h)

theorem emitBeforeLast_lines {slot : Slot} (hs : ∀ l ∈ s.code, P l)
    (hb : P (.byte slot none)) : ∀ l ∈ (s.emitBeforeLast slot).code, P l := by
  intro l hl
  rcases mem_insertBeforeLast hl with rfl | h
  · exact hb
  · exact hs l h

theorem emitPads_lines {n : Nat} (hs : ∀ l ∈ s.code, P l) (hb : P (.byte .pad none)) :
    ∀ l ∈ (s.emitPads n).code, P l := by
  intro l hl
  rcases List.mem_append.mp hl with h | h
  · exact hs l h
  · rw [List.eq_of_mem_replicate h]
    exact hb

theorem executes_lines {line : SourceLine} {st : Statement} {t : Assembler}
    (h : Executes s line st t) (hs : ∀ l ∈ s.code, P l) (hl : P (.label line.raw))
    (hb : ∀ slot comment, Emits s st slot → (comment = none ∨ comment = line.comment) →
      P (.byte slot comment)) : ∀ l ∈ t.code, P l := by
  cases h with
  | label name hr hn => exact lines_concat hs hl
  | origin value n hv hn => exact hs
  | const name value hn => exact hs
  | push operand slot hi =>
    exact emit_lines hs (hb _ _ (.operand operand slot (by simp [Statement.operands])
      (immediate_operand hi)) (Or.inr rfl))
  | stop => exact emit_lines hs (hb _ _ .stop (Or.inr rfl))
  | call exchange target pads n back goal hn hback hgoal =>
    obtain ⟨rfl, hlt, hr⟩ := address_number hback
    have hg : Emits s (.call exchange target pads) goal :=
      .operand target goal (by simp [Statement.operands]) (immediate_operand hgoal)
    have he : ∀ l ∈ (if exchange then s.emit (.op .xchg) none else s).code, P l := by
      cases exchange with
      | false => exact hs
      | true => exact emit_lines hs (hb _ _ (.op _) (Or.inl rfl))
    have ha := emitBeforeLast_lines he (hb _ _ (.address _ hlt hr) (Or.inl rfl))
    have hj := emit_lines (emit_lines ha (hb _ _ hg (Or.inl rfl))) (hb _ _ (.op .jmp) (Or.inr rfl))
    exact emitPads_lines hj (hb _ _ .pad (Or.inl rfl))
  | bare op => exact emit_lines hs (hb _ _ (.op op) (Or.inr rfl))
  | operand op operand slot hi =>
    have ho : Emits s (.primitive op (some operand)) slot :=
      .operand operand slot (by simp [Statement.operands]) (immediate_operand hi)
    exact emit_lines (emit_lines hs (hb _ _ ho (Or.inl rfl))) (hb _ _ (.op op) (Or.inr rfl))

theorem steps_lines {line : SourceLine} {t : Assembler} (h : Steps s line t)
    (hs : ∀ l ∈ s.code, P l) (blank : P .blank)
    (comment : ∀ text, line.comment = some text → P (.comment text)) (label : P (.label line.raw))
    (byte : ∀ st slot note, Statement.parse line.body = .ok (some st) → Emits s st slot →
      (note = none ∨ note = line.comment) → P (.byte slot note)) : ∀ l ∈ t.code, P l := by
  cases h with
  | blank hp hc => exact lines_concat hs blank
  | comment text hp hc => exact lines_concat hs (comment text hc)
  | statement st _ hp he =>
    exact executes_lines he hs label (fun slot note hslot hnote => byte st slot note hp hslot hnote)

end Lines

/-- A property of every slot that a statement can emit holds of the slots of a run. -/
theorem steps_slots {P : Slot → Prop} {s t : Assembler} {line : SourceLine} (h : Steps s line t)
    (hs : ∀ slot ∈ slots s.code, P slot) (emits : ∀ st slot, Emits s st slot → P slot) :
    ∀ slot ∈ slots t.code, P slot := by
  have hl : ∀ l ∈ t.code, ∀ slot, l.slot? = some slot → P slot := by
    apply steps_lines h (fun l hl slot hslot => hs slot (List.mem_filterMap.mpr ⟨l, hl, hslot⟩))
    · intro slot hslot
      cases hslot
    · intro text _ slot hslot
      cases hslot
    · intro slot hslot
      cases hslot
    · intro st emitted note _ he _ slot hslot
      cases hslot
      exact emits st emitted he
  intro slot hs
  obtain ⟨l, hm, hslot⟩ := List.mem_filterMap.mp hs
  exact hl l hm slot hslot

end Assembler
end SplAssembler
