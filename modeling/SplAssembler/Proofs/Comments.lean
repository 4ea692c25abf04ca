import SplAssembler.Proofs.Reach
import SplAssembler.Proofs.Session
import SplAssembler.Proofs.Source

/-!
# Comments and blank lines

Blank lines and comments enter the code, and a call looks back through the code
for the last byte. Still none of them has a part in the program. The core of a
state is what is left when fillers, comments, the texts of label lines and the
count of lines are taken away. Each statement acts on the core by itself, so two
runs that execute the same statements have the same core and the same faults.
-/

set_option autoImplicit false

namespace SplAssembler

def CodeLine.bare : CodeLine → CodeLine
  | .byte slot _ => .byte slot none
  | .label _ => .label []
  | line => line

def bareCode (code : List CodeLine) : List CodeLine :=
  (code.filter (! ·.isFiller)).map CodeLine.bare

theorem bareCode_append (code rest : List CodeLine) :
    bareCode (code ++ rest) = bareCode code ++ bareCode rest := by
  simp [bareCode]

theorem bareCode_fillers {code : List CodeLine} (h : ∀ l ∈ code, l.isFiller = true) :
    bareCode code = [] := by
  simpa [bareCode] using h

theorem bareCode_cons_byte (slot : Slot) (note : Option Text) (rest : List CodeLine) :
    bareCode (.byte slot note :: rest) = .byte slot none :: bareCode rest := rfl

theorem slots_bareCode (code : List CodeLine) : slots (bareCode code) = slots code := by
  induction code with
  | nil => rfl
  | cons line rest ih =>
    have hc : bareCode (line::rest) = bareCode [line] ++ bareCode rest :=
      bareCode_append [line] rest
    have hs : slots (line::rest) = slots [line] ++ slots rest := slots_append [line] rest
    rw [hc, slots_append, ih, hs]
    cases line <;> rfl

/-- The last byte is found through the fillers as it is found without them. -/
theorem bareCode_insertBeforeLast (slot : Slot) (note : Option Text) (code : List CodeLine) :
    bareCode (insertBeforeLast (.byte slot note) code) =
      insertBeforeLast (.byte slot none) (bareCode code) := by
  rcases exists_last_solid code with hf | ⟨before, last, fillers, rfl, hl, hf⟩
  · have hi : insertBeforeLast (.byte slot note) code = code ++ [.byte slot note] :=
      insertBeforeLast_fillers _ (Or.inl rfl) hf
    rw [hi, bareCode_append, bareCode_fillers hf]
    rfl
  · cases last with
    | byte other text =>
      have hc : bareCode (before ++ .byte other text :: fillers) =
          bareCode before ++ [.byte other none] := by
        rw [bareCode_append, bareCode_cons_byte, bareCode_fillers hf]
      rw [insertBeforeLast_eq _ _ _ _ _ hf, hc, insertBeforeLast_eq _ _ _ _ [] (by simp),
        bareCode_append, bareCode_append, bareCode_cons_byte, bareCode_fillers hf]
      rfl
    | label text =>
      have hc : bareCode (before ++ [.label text] ++ fillers) = bareCode before ++ [.label []] := by
        rw [bareCode_append, bareCode_append, bareCode_fillers hf, List.append_nil]
        rfl
      have hs : ∀ lines text, Sealed (lines ++ [.label text]) :=
        fun lines text => Or.inr ⟨lines, text, rfl⟩
      have hb : insertBeforeLast (.byte slot none) (bareCode before ++ [.label []]) =
          bareCode before ++ [.label []] ++ [.byte slot none] := by
        have hn : ∀ l ∈ ([] : List CodeLine), l.isFiller = true := by simp
        simpa using insertBeforeLast_fillers (.byte slot none) (hs (bareCode before) []) hn
      rw [List.append_cons, hc, hb, insertBeforeLast_fillers _ (hs before text) hf,
        ← List.append_assoc, bareCode_append, hc]
      rfl
    | _ => cases hl

namespace Assembler

/-- The state without what only a reader takes notice of. -/
def core (s : Assembler) : Assembler := { s with lineNo := 0, code := bareCode s.code }

def coreOf : EStateM.Result Fault Assembler Unit → EStateM.Result Fault Assembler Unit
  | .ok u t => .ok u t.core
  | .error fault t => .error fault t.core

def bareLine : SourceLine := ⟨[], [], none⟩

theorem coreOf_ok {t c : Assembler} (h : t.core = c) : coreOf (.ok () t) = .ok () c :=
  congrArg (EStateM.Result.ok ()) h

section Actions
variable {s : Assembler}

theorem core_ofExcept {α : Type} (x : Except Fault α) {f g : α → Action Unit}
    (h : ∀ a, coreOf (f a s) = g a s.core) :
    coreOf ((MonadExcept.ofExcept x >>= f) s) = (MonadExcept.ofExcept x >>= g) s.core := by
  cases x with
  | ok a => exact h a
  | error fault => rfl

theorem core_unless (c : Bool) (fault : Fault) {f g : Action Unit}
    (h : coreOf (f s) = g s.core) :
    coreOf ((do
      if c then throw fault
      f : Action Unit) s) = (do
      if c then throw fault
      g : Action Unit) s.core := by
  cases c with
  | false => exact h
  | true => rfl

theorem core_modify {action other : Action Unit} {f g : Assembler → Assembler}
    (h : coreOf (action s) = other s.core) (hf : ∀ t, (f t).core = g t.core) :
    coreOf ((do
      action
      modify f : Action Unit) s) = (do
      other
      modify g : Action Unit) s.core := by
  change coreOf (EStateM.bind action _ s) = EStateM.bind other _ s.core
  rw [EStateM.bind, EStateM.bind, ← h]
  cases action s with
  | ok u t => exact coreOf_ok (hf t)
  | error fault t => rfl

theorem core_onSymbols (edit : SymbolTable.Edit Unit) :
    coreOf (onSymbols edit s) = onSymbols edit s.core := by
  have hc : s.core.symbols = s.symbols := rfl
  rw [onSymbols, onSymbols, hc]
  cases edit s.symbols <;> rfl

theorem core_emit (s : Assembler) (slot : Slot) (comment : Option Text) :
    (s.emit slot comment).core = s.core.emit slot none := by
  simp only [core, emit, bareCode_append]
  rfl

theorem core_emitBeforeLast (s : Assembler) (slot : Slot) :
    (s.emitBeforeLast slot).core = s.core.emitBeforeLast slot := by
  simp only [core, emitBeforeLast, bareCode_insertBeforeLast]

theorem core_emitPads (s : Assembler) (n : Nat) : (s.emitPads n).core = s.core.emitPads n := by
  have hp : bareCode (List.replicate n (.byte .pad none)) = List.replicate n (.byte .pad none) := by
    induction n with
    | zero => rfl
    | succ n ih => rw [List.replicate_succ, bareCode_cons_byte, ih]
  simp only [core, emitPads, bareCode_append, hp]

theorem core_mark_label (s : Assembler) (text : Text) :
    (s.mark (.label text)).core = s.core.mark (.label []) := by
  simp only [core, mark, bareCode_append]
  rfl

theorem core_mark_filler (s : Assembler) {line : CodeLine} (h : line.isFiller = true) :
    (s.mark line).core = s.core := by
  have hb : bareCode [line] = [] := bareCode_fillers (by simpa using h)
  simp only [core, mark, bareCode_append, hb, List.append_nil]

theorem core_called (s : Assembler) (exchange : Bool) (back goal : Slot) (n : Nat)
    (comment : Option Text) :
    (s.called exchange back goal n comment).core = s.core.called exchange back goal n none := by
  cases exchange <;> simp [called, core_emit, core_emitBeforeLast, core_emitPads]

/-- A statement acts on the core of a state as it acts on the state, whatever its line says
beside it. -/
theorem core_execute (s : Assembler) (line : SourceLine) (st : Statement) :
    coreOf (execute line st s) = execute bareLine st s.core := by
  cases st with
  | label name =>
    apply core_unless (isReserved (UInt8.ofNat (s.offset+s.origin)))
    apply core_modify (core_onSymbols _)
    intro t
    exact core_mark_label t line.raw
  | origin value =>
    rw [execute, setOrigin, execute, setOrigin]
    cases (numeral? value).filter (· < programSize) <;> rfl
  | const name value => exact core_onSymbols _
  | push operand =>
    apply core_ofExcept (s.immediate operand)
    intro slot
    exact coreOf_ok (core_emit s slot line.comment)
  | stop => exact coreOf_ok (core_emit s .stop line.comment)
  | call exchange target pads =>
    apply core_ofExcept (padding pads)
    intro n
    apply core_ofExcept (address (s.offset+exchange.toNat+3+s.origin+n))
    intro back
    apply core_ofExcept (s.immediate target)
    intro goal
    have hc := coreOf_ok (core_called s exchange back goal n line.comment)
    cases exchange <;> exact hc
  | primitive op operand =>
    cases operand with
    | none => exact coreOf_ok (core_emit s (.op op) line.comment)
    | some operand =>
      apply core_ofExcept (s.immediate operand)
      intro slot
      have hc : ((s.emit slot none).emit (.op op) line.comment).core =
          (s.core.emit slot none).emit (.op op) none := by rw [core_emit, core_emit]
      exact coreOf_ok hc

end Actions

def perform (body : Text) : Action Unit := do
  match ← MonadExcept.ofExcept (Statement.parse body) with
  | some st => execute bareLine st
  | none => pure ()

theorem core_step (s : Assembler) (line : SourceLine) :
    coreOf (step line s) = perform line.body s.core := by
  apply core_ofExcept (Statement.parse line.body)
  intro parsed
  cases parsed with
  | some st => exact core_execute s line st
  | none =>
    cases line.comment with
    | some text => exact coreOf_ok (core_mark_filler s rfl)
    | none => exact coreOf_ok (core_mark_filler s rfl)

section Lines
variable {s c : Assembler} {raw : Text}

theorem line_of_perform (h : perform (SourceLine.split raw).body s.core = .ok () c) :
    ∃ t, line raw s = .ok () t ∧ t.core = c ∧ t.lineNo = s.lineNo+1 := by
  have hs := (core_step s.countLine (SourceLine.split raw)).trans h
  cases hstep : step (SourceLine.split raw) s.countLine with
  | error fault t =>
    rw [hstep] at hs
    cases hs
  | ok u t =>
    rw [hstep] at hs
    have hl : line raw s = .ok () t := by rw [line, hstep]
    refine ⟨t, hl, ?_, steps_lineNo ((line_ok_iff s t raw).mp hl)⟩
    cases hs
    rfl

theorem line_of_perform_error {fault : Fault}
    (h : perform (SourceLine.split raw).body s.core = .error fault c) :
    ∃ t, line raw s = .error ⟨s.lineNo+1, fault⟩ t := by
  have hs := (core_step s.countLine (SourceLine.split raw)).trans h
  cases hstep : step (SourceLine.split raw) s.countLine with
  | ok u t =>
    rw [hstep] at hs
    cases hs
  | error cause t =>
    rw [hstep] at hs
    cases hs
    exact ⟨t, by rw [line, hstep]⟩

end Lines
end Assembler

def bodies (raws : List Text) : List Text :=
  (raws.map fun raw => (SourceLine.split raw).body).filter (! ·.isEmpty)

theorem bodies_cons_blank {raw : Text} (rest : List Text) (h : (SourceLine.split raw).body = []) :
    bodies (raw::rest) = bodies rest := by
  simp [bodies, h]

theorem bodies_cons {raw : Text} (rest : List Text) (h : (SourceLine.split raw).body ≠ []) :
    bodies (raw::rest) = (SourceLine.split raw).body :: bodies rest := by
  simp [bodies, h]

namespace Assembler

/-- Runs over source lines and over their bodies, from states with one core. -/
theorem lines_bodies (raws : List Text) (s u : Assembler) (h : s.core = u.core) :
    (∃ t v, lines raws s = .ok () t ∧ lines (bodies raws) u = .ok () v ∧ t.core = v.core) ∨
    ∃ before raw after cause t v, raws = before ++ raw::after ∧
      bodies raws = bodies before ++ (SourceLine.split raw).body :: bodies after ∧
      lines raws s = .error ⟨s.lineNo+before.length+1, cause⟩ t ∧
      lines (bodies raws) u = .error ⟨u.lineNo+(bodies before).length+1, cause⟩ v := by
  induction raws generalizing s u with
  | nil => exact Or.inl ⟨s, u, rfl, rfl, h⟩
  | cons raw rest ih =>
    have shift : ∀ (a b : Assembler) (m : Nat), b.lineNo = a.lineNo+1 →
        b.lineNo+m+1 = a.lineNo+(m+1)+1 := by
      intro a b m hn
      omega
    by_cases hb : (SourceLine.split raw).body = []
    · -- the line is a filler, and the other run goes without it
      have hp : perform (SourceLine.split raw).body s.core = .ok () s.core := by
        rw [hb]
        rfl
      obtain ⟨t, hl, hc, hn⟩ := line_of_perform hp
      rw [bodies_cons_blank rest hb]
      rcases ih t u (hc.trans h) with ⟨t', v, ht, hv, hcore⟩ |
        ⟨before, first, after, cause, t', v, he, hbodies, ht, hv⟩
      · exact Or.inl ⟨t', v, (run_bind hl _).trans ht, hv, hcore⟩
      · rw [shift s t before.length hn] at ht
        refine Or.inr ⟨raw::before, first, after, cause, t', v, by rw [he]; rfl, ?_,
          (run_bind hl _).trans ht, ?_⟩
        · rw [bodies_cons_blank before hb, hbodies]
        · rw [bodies_cons_blank before hb, hv]
    · have hsame : (SourceLine.split (SourceLine.split raw).body).body =
          (SourceLine.split raw).body := by rw [SourceLine.split_body]
      rw [bodies_cons rest hb]
      cases hp : perform (SourceLine.split raw).body s.core with
      | ok _ c =>
        obtain ⟨t, hl, hc, hn⟩ := line_of_perform hp
        rw [← hsame, h] at hp
        obtain ⟨v, hl', hc', hn'⟩ := line_of_perform hp
        rcases ih t v (hc.trans hc'.symm) with ⟨t', v', ht, hv, hcore⟩ |
          ⟨before, first, after, cause, t', v', he, hbodies, ht, hv⟩
        · exact Or.inl ⟨t', v', (run_bind hl _).trans ht, (run_bind hl' _).trans hv, hcore⟩
        · rw [shift s t before.length hn] at ht
          rw [shift u v (bodies before).length hn'] at hv
          refine Or.inr ⟨raw::before, first, after, cause, t', v', by rw [he]; rfl, ?_,
            (run_bind hl _).trans ht, ?_⟩
          · rw [bodies_cons before hb, hbodies]
            rfl
          · rw [bodies_cons before hb]
            exact (run_bind hl' _).trans hv
      | error fault c =>
        obtain ⟨t, hl⟩ := line_of_perform_error hp
        rw [← hsame, h] at hp
        obtain ⟨v, hl'⟩ := line_of_perform_error hp
        exact Or.inr ⟨[], raw, rest, fault, t, v, rfl, rfl, run_bind_error hl _,
          run_bind_error hl' _⟩

/-- What the core of a state still tells. -/
theorem core_fields {t v : Assembler} (h : t.core = v.core) :
    t.origin = v.origin ∧ t.symbols = v.symbols ∧ slots t.code = slots v.code := by
  have ho : t.core.origin = v.core.origin := by rw [h]
  have hs : t.core.symbols = v.core.symbols := by rw [h]
  have hc : slots t.core.code = slots v.core.code := by rw [h]
  change slots (bareCode t.code) = slots (bareCode v.code) at hc
  rw [slots_bareCode, slots_bareCode] at hc
  exact ⟨ho, hs, hc⟩

/-- Source lines and their bodies alone, with the blank ones left out, have the
same outcome. Both are accepted, and then the two programs have the same
origin, the same defines, the same slots and the same bytes if they have bytes;
or both fail at the same line and for the same cause. -/
theorem comments_have_no_effect (raws : List Text) :
    (∃ t v, lines raws initial = .ok () t ∧ lines (bodies raws) initial = .ok () v ∧
      t.finish.origin = v.finish.origin ∧ t.finish.defines = v.finish.defines ∧
      slots t.finish.code = slots v.finish.code ∧
      t.finish.bytes.toOption = v.finish.bytes.toOption) ∨
    ∃ before raw after cause t v, raws = before ++ raw::after ∧
      bodies raws = bodies before ++ (SourceLine.split raw).body :: bodies after ∧
      lines raws initial = .error ⟨before.length+1, cause⟩ t ∧
      lines (bodies raws) initial = .error ⟨(bodies before).length+1, cause⟩ v := by
  have number : ∀ k, initial.lineNo+k+1 = k+1 := by
    intro k
    rw [show initial.lineNo = 0 from rfl, Nat.zero_add]
  rcases lines_bodies raws initial initial rfl with ⟨t, v, ht, hv, hc⟩ |
    ⟨before, raw, after, cause, t, v, he, hb, ht, hv⟩
  · obtain ⟨horigin, hsymbols, hslots⟩ := core_fields hc
    have hbytes : t.finish.bytes.toOption = v.finish.bytes.toOption := by
      change (encodeCode (.ofDefines t.symbols) t.code).toOption =
        (encodeCode (.ofDefines v.symbols) v.code).toOption
      rw [encodeCode_slots, encodeCode_slots, hsymbols, hslots]
    exact Or.inl ⟨t, v, ht, hv, horigin, hsymbols, hslots, hbytes⟩
  · rw [number] at ht hv
    exact Or.inr ⟨before, raw, after, cause, t, v, he, hb, ht, hv⟩

end Assembler
end SplAssembler
