import SplAssembler.Proofs.Emission
import SplAssembler.Proofs.Slots

/-!
# How far back statements reach

A statement adds its lines at the end of the code. Only a call without an
exchange does more: the first of its lines, the return address, goes in front
of the last byte. This module says once what each statement adds. What stands
before a label, or before anything that is not a filler, is then out of the
reach of every later line, and the bytes of the code are counted by the offset.
-/

set_option autoImplicit false

namespace SplAssembler

theorem exists_last_solid (code : List CodeLine) :
    (∀ l ∈ code, l.isFiller = true) ∨ ∃ before line fillers,
      code = before ++ line :: fillers ∧ line.isFiller = false ∧
        ∀ l ∈ fillers, l.isFiller = true := by
  induction code with
  | nil => exact Or.inl (by simp)
  | cons first rest ih =>
    rcases ih with hf | ⟨before, line, fillers, rfl, hl, hf⟩
    · cases h : first.isFiller with
      | true => exact Or.inl (by simpa [h] using hf)
      | false => exact Or.inr ⟨[], first, rest, rfl, h, hf⟩
    · exact Or.inr ⟨first::before, line, fillers, rfl, hl, hf⟩

/-- Either there is no byte in reach, or the last byte trails behind the new line. -/
theorem insertBeforeLast_cases (line : CodeLine) (code : List CodeLine) :
    insertBeforeLast line code = code ++ [line] ∨ ∃ before slot note fillers,
      code = before ++ .byte slot note :: fillers ∧ (∀ l ∈ fillers, l.isFiller = true) ∧
        insertBeforeLast line code = before ++ line :: fillers ++ [.byte slot note] := by
  rcases exists_last_solid code with hf | ⟨before, last, fillers, rfl, hl, hf⟩
  · exact Or.inl (insertBeforeLast_fillers line (Or.inl rfl) hf)
  · cases last with
    | byte slot note =>
      exact Or.inr ⟨before, slot, note, fillers, rfl, hf, insertBeforeLast_eq line _ _ _ _ hf⟩
    | label text =>
      have hs : Sealed (before ++ [.label text]) := Or.inr ⟨before, text, rfl⟩
      have hi := insertBeforeLast_fillers line hs hf
      exact Or.inl (by simpa using hi)
    | _ => cases hl

theorem insertBeforeLast_perm (line : CodeLine) (code : List CodeLine) :
    (insertBeforeLast line code).Perm (code ++ [line]) := by
  rcases insertBeforeLast_cases line code with he | ⟨before, slot, note, fillers, rfl, -, he⟩
  · rw [he]
  · rw [he, List.append_assoc, List.append_assoc]
    apply List.Perm.append_left
    -- the line and the last byte change places around the fillers
    let last := CodeLine.byte slot note
    have hl : (line :: (fillers ++ [last])).Perm (fillers ++ [last] ++ [line]) :=
      (List.perm_append_singleton line (fillers ++ [last])).symm
    have hr : (fillers ++ [last] ++ [line]).Perm (last :: fillers ++ [line]) :=
      (List.perm_append_singleton last fillers).append_right [line]
    exact hl.trans hr

/-- Nothing gets in among the first lines any more: a label closes them, or
something other than a filler stands after them. -/
def Shielded (code rest : List CodeLine) : Prop :=
  Sealed code ∨ ∃ l ∈ rest, l.isFiller = false

theorem insertBeforeLast_shielded (line : CodeLine) {code rest : List CodeLine}
    (h : Shielded code rest) :
    insertBeforeLast line (code ++ rest) = code ++ insertBeforeLast line rest := by
  rcases exists_last_solid rest with hf | ⟨before, last, fillers, rfl, hl, hf⟩
  · rcases h with hs | ⟨l, hl, hn⟩
    · rw [insertBeforeLast_fillers line hs hf]
      exact congrArg (code ++ ·) (insertBeforeLast_fillers line (Or.inl rfl) hf).symm
    · rw [hf l hl] at hn
      cases hn
  · cases last with
    | byte slot note =>
      rw [← List.append_assoc, insertBeforeLast_eq _ _ _ _ _ hf, insertBeforeLast_eq _ _ _ _ _ hf]
      simp
    | label text =>
      have hs : ∀ lines, Sealed (lines ++ [.label text]) := fun lines => Or.inr ⟨lines, text, rfl⟩
      have hc := insertBeforeLast_fillers line (hs (code ++ before)) hf
      have hr := insertBeforeLast_fillers line (hs before) hf
      simp only [List.append_assoc, List.singleton_append] at hc hr ⊢
      rw [hc, hr]
    | _ => cases hl

namespace Statement

def isDirective : Statement → Bool
  | .origin _ => true
  | .const _ _ => true
  | _ => false

/-- Adds lines to the code. They go to its end, except for the first line of a
call without an exchange, which goes in front of the last byte. -/
def join : Statement → List CodeLine → List CodeLine → List CodeLine
  | .call false _ _, code, back::tail => insertBeforeLast back code ++ tail
  | _, code, added => code ++ added

theorem join_perm (st : Statement) (code added : List CodeLine) :
    (st.join code added).Perm (code ++ added) := by
  unfold join
  split
  · rename_i back tail
    have hp := (insertBeforeLast_perm back code).append_right tail
    simpa using hp
  · exact List.Perm.refl _

theorem join_shielded (st : Statement) {code rest : List CodeLine} (added : List CodeLine)
    (h : Shielded code rest) : st.join (code ++ rest) added = code ++ st.join rest added := by
  unfold join
  split
  · rw [insertBeforeLast_shielded _ h, List.append_assoc]
  · exact List.append_assoc _ _ _

theorem byteCount_join (st : Statement) (code added : List CodeLine) :
    byteCount (st.join code added) = byteCount code+byteCount added := by
  rw [byteCount, (st.join_perm code added).countP_eq, List.countP_append]
  rfl

end Statement

def callTail (goal : Slot) (n : Nat) (comment : Option Text) : List CodeLine :=
  .byte goal none :: .byte (.op .jmp) comment :: List.replicate n (.byte .pad none)

theorem slots_callTail (goal : Slot) (n : Nat) (comment : Option Text) :
    slots (callTail goal n comment) = goal :: .op .jmp :: List.replicate n .pad := by
  have hp : slots (List.replicate n (.byte .pad none)) = List.replicate n .pad := by
    rw [slots, List.filterMap_replicate]
    rfl
  rw [callTail, slots_cons_byte, slots_cons_byte, hp]

theorem byteCount_eq_length (code : List CodeLine) : byteCount code = (slots code).length := by
  rw [slots, List.length_filterMap_eq_countP, byteCount]
  congr 1
  funext line
  cases line <;> rfl

namespace Assembler

def returnAddress (s : Assembler) (exchange : Bool) (n : Nat) : Nat :=
  s.offset+exchange.toNat+3+s.origin+n

inductive Adds (s : Assembler) (line : SourceLine) : Statement → List CodeLine → Prop
  | label (name : Text) : Adds s line (.label name) [.label line.raw]
  | directive (st : Statement) : st.isDirective = true → Adds s line st []
  | push (operand : Text) (slot : Slot) : s.immediate operand = .ok slot →
      Adds s line (.push operand) [.byte slot line.comment]
  | stop : Adds s line .stop [.byte .stop line.comment]
  | call (target : Text) (pads : Option Text) (n : Nat) (goal : Slot) :
      padding pads = .ok n → s.immediate target = .ok goal →
      Adds s line (.call false target pads)
        (.byte (.number (Text.decimal (s.returnAddress false n))) none ::
          callTail goal n line.comment)
  | exchange (target : Text) (pads : Option Text) (n : Nat) (goal : Slot) :
      padding pads = .ok n → s.immediate target = .ok goal →
      Adds s line (.call true target pads)
        (.byte (.number (Text.decimal (s.returnAddress true n))) none ::
          .byte (.op .xchg) none :: callTail goal n line.comment)
  | bare (op : Opcode) : Adds s line (.primitive op none) [.byte (.op op) line.comment]
  | operand (op : Opcode) (operand : Text) (slot : Slot) : s.immediate operand = .ok slot →
      Adds s line (.primitive op (some operand)) [.byte slot none, .byte (.op op) line.comment]

theorem executes_code {s t : Assembler} {line : SourceLine} {st : Statement}
    (h : Executes s line st t) :
    ∃ added, Adds s line st added ∧ t.code = st.join s.code added ∧
      t.offset = s.offset+byteCount added := by
  cases h with
  | label name hr hn => exact ⟨_, .label name, rfl, rfl⟩
  | origin value n hv hn => exact ⟨[], .directive _ rfl, by simp [Statement.join], rfl⟩
  | const name value hn => exact ⟨[], .directive _ rfl, by simp [Statement.join], rfl⟩
  | push operand slot hi => exact ⟨_, .push operand slot hi, rfl, rfl⟩
  | stop => exact ⟨_, .stop, rfl, rfl⟩
  | call exchange target pads n back goal hn hb hg =>
    obtain ⟨rfl, -, -⟩ := address_number hb
    cases exchange with
    | false =>
      refine ⟨_, .call target pads n goal hn hg, ?_, ?_⟩
      · simp [called, emitBeforeLast, emit, emitPads, Statement.join, callTail, returnAddress]
      · simp [byteCount_eq_length, slots_cons_byte, slots_callTail, called, emitBeforeLast, emit,
          emitPads]
        omega
    | true =>
      have he := insertBeforeLast_eq (.byte (.number (Text.decimal (s.returnAddress true n))) none)
        (.op .xchg) none s.code [] (by simp)
      refine ⟨_, .exchange target pads n goal hn hg, ?_, ?_⟩
      · simp only [called, emitBeforeLast, emit, emitPads, Statement.join, callTail, if_true]
        rw [returnAddress] at he ⊢
        rw [he]
        simp
      · simp [byteCount_eq_length, slots_cons_byte, slots_callTail, called, emitBeforeLast, emit,
          emitPads]
        omega
  | bare op => exact ⟨_, .bare op, rfl, rfl⟩
  | operand op operand slot hi =>
    exact ⟨_, .operand op operand slot hi, by simp [Statement.join, emit], rfl⟩

def Keeps (s : Assembler) (code : List CodeLine) : Prop :=
  ∃ rest, s.code = code ++ rest ∧ Shielded code rest

theorem keeps_mark {s : Assembler} {code : List CodeLine} (h : s.Keeps code) (line : CodeLine) :
    (s.mark line).Keeps code := by
  obtain ⟨rest, hc, hs⟩ := h
  refine ⟨rest ++ [line], ?_, hs.imp_right ?_⟩
  · change s.code ++ [line] = _
    rw [hc, List.append_assoc]
  · rintro ⟨l, hl, hn⟩
    exact ⟨l, by simp [hl], hn⟩

theorem steps_keeps {s t : Assembler} {line : SourceLine} {code : List CodeLine}
    (h : Steps s line t) (hs : s.Keeps code) : t.Keeps code := by
  cases h with
  | blank => exact keeps_mark hs _
  | comment => exact keeps_mark hs _
  | statement st _ _ he =>
    obtain ⟨rest, hc, hr⟩ := hs
    obtain ⟨added, -, ht, -⟩ := executes_code he
    refine ⟨st.join rest added, ?_, hr.imp_right ?_⟩
    · rw [ht, hc, st.join_shielded added hr]
    · rintro ⟨l, hl, hn⟩
      exact ⟨l, (st.join_perm rest added).mem_iff.mpr (by simp [hl]), hn⟩

theorem runs_keeps {s t : Assembler} {raws : List Text} {code : List CodeLine}
    (h : Runs s raws t) (hs : s.Keeps code) : t.Keeps code :=
  runs_invariant (P := fun u => u.Keeps code) (fun _ hu => hu)
    (fun _ _ _ _ hu hstep => steps_keeps hstep hu) h hs

theorem steps_offset {s t : Assembler} {line : SourceLine} (h : Steps s line t)
    (hs : s.offset = byteCount s.code) : t.offset = byteCount t.code := by
  cases h with
  | blank => exact hs.trans (byteCount_append s.code [.blank]).symm
  | comment text => exact hs.trans (byteCount_append s.code [.comment text]).symm
  | statement st _ _ he =>
    obtain ⟨added, -, ht, ho⟩ := executes_code he
    rw [ho, ht, st.byteCount_join, hs]

end Assembler
end SplAssembler
