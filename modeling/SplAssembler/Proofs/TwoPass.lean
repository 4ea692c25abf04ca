import SplAssembler.Proofs.Emission
import SplAssembler.Proofs.Layout
import SplAssembler.Proofs.Literal
import SplAssembler.Proofs.Slots

/-!
# Assembly in two passes

The second pass knows the complete layout and computes values where the
assembler keeps slots. It works on one segment at a time: a label closes the
segment, and a return address goes in front of the last value of the segment
that is open. The main statement says that the bytes of an assembled program
are those of the two passes, and that one side has none when the other has none.
-/

set_option autoImplicit false

namespace SplAssembler

/-- The values of the closed segments and of the open one. A value that is not
known has no number. -/
structure Draft where
  done : List (Option Nat)
  segment : List (Option Nat)

namespace Draft

def values (d : Draft) : List (Option Nat) := d.done ++ d.segment

def append (d : Draft) (vs : List (Option Nat)) : Draft :=
  { d with segment := d.segment ++ vs }

def insert (d : Draft) (v : Option Nat) : Draft :=
  { d with segment := beforeLast v d.segment }

theorem append_nil (d : Draft) : d.append [] = d := by
  simp [append]

theorem append_append (d : Draft) (vs ws : List (Option Nat)) :
    (d.append vs).append ws = d.append (vs ++ ws) := by
  simp [append]

theorem insert_append (d : Draft) (v w : Option Nat) :
    (d.append [v]).insert w = d.append [w, v] := by
  simp [append, insert, beforeLast_append]

end Draft

namespace Layout

def number? (l : Layout) (name : Text) : Option Nat := (l.names name).bind literal?

/-- The value of an operand: a label has its address in the complete layout. A
symbol has the value that was bound to it so far, which in turn may name a
number of the complete layout. -/
def operand? (final here : Layout) : Text → Option Nat
  | '@' :: label => final.number? (labelKey label)
  | token =>
    match here.names token with
    | some value => (final.number? value).or (literal? value)
    | none => numeral? token

def add (final here : Layout) (d : Draft) : Statement → Draft
  | .label _ => ⟨d.values, []⟩
  | .push operand => d.append [final.operand? here operand]
  | .stop => d.append [some 255]
  | .primitive op none => d.append [some op.code.toNat]
  | .primitive op (some operand) => d.append [final.operand? here operand, some op.code.toNat]
  | .call false target pads =>
      let back := (here.next (.call false target pads)).address
      ((d.insert (some back)).append
        [final.operand? here target, some Opcode.jmp.code.toNat]).append
          (List.replicate (padCount pads) (some 0))
  | .call true target pads =>
      let back := (here.next (.call true target pads)).address
      (d.append [some back, some Opcode.xchg.code.toNat,
        final.operand? here target, some Opcode.jmp.code.toNat]).append
          (List.replicate (padCount pads) (some 0))
  | _ => d

def draft (final : Layout) : Layout → Draft → List Statement → Draft
  | _, d, [] => d
  | here, d, st::rest => draft final (here.next st) (final.add here d st) rest

end Layout

/-- The bytes of a list of statements by a first pass over their sizes and a
second one over their values. -/
def twoPassBytes (program : List Statement) : Option (List UInt8) :=
  let final := Layout.start.walk program
  (final.draft .start ⟨[], []⟩ program).values.mapM (·.bind byte?)

def codeValues (dict : Dictionary) (code : List CodeLine) : List (Option Nat) :=
  (slots code).map (Slot.value? dict)

theorem codeValues_append (dict : Dictionary) (code rest : List CodeLine) :
    codeValues dict (code ++ rest) = codeValues dict code ++ codeValues dict rest := by
  rw [codeValues, slots_append, List.map_append]
  rfl

inductive Drafts (dict : Dictionary) : List CodeLine → Draft → Prop
  | intro (before segment : List CodeLine) : Sealed before → (∀ l ∈ segment, l.isLabel = false) →
      Drafts dict (before ++ segment) ⟨codeValues dict before, codeValues dict segment⟩

namespace Drafts
variable {dict : Dictionary} {code : List CodeLine} {d : Draft}

theorem nil : Drafts dict [] ⟨[], []⟩ := .intro [] [] (Or.inl rfl) (by simp)

theorem values (h : Drafts dict code d) : codeValues dict code = d.values := by
  obtain ⟨before, segment, hb, hs⟩ := h
  exact codeValues_append dict before segment

theorem append (h : Drafts dict code d) (rest : List CodeLine)
    (hr : ∀ l ∈ rest, l.isLabel = false) :
    Drafts dict (code ++ rest) (d.append (codeValues dict rest)) := by
  obtain ⟨before, segment, hb, hs⟩ := h
  have hn : ∀ l ∈ segment ++ rest, l.isLabel = false := by
    intro l hl
    rcases List.mem_append.mp hl with hl | hl
    · exact hs l hl
    · exact hr l hl
  have hd : Drafts dict _ _ := intro before (segment ++ rest) hb hn
  rw [codeValues_append, ← List.append_assoc] at hd
  exact hd

theorem byte (h : Drafts dict code d) (slot : Slot) (note : Option Text) :
    Drafts dict (code ++ [.byte slot note]) (d.append [slot.value? dict]) :=
  h.append [.byte slot note] (by simp [CodeLine.isLabel])

theorem insert (h : Drafts dict code d) (slot : Slot) :
    Drafts dict (insertBeforeLast (.byte slot none) code) (d.insert (slot.value? dict)) := by
  obtain ⟨before, segment, hb, hs⟩ := h
  obtain ⟨segment', he, hs', hv⟩ := insertBeforeLast_segment slot hb hs
  have hd : Drafts dict _ _ := intro before segment' hb hs'
  rw [codeValues, codeValues, hv, map_beforeLast, ← he] at hd
  exact hd

theorem label (h : Drafts dict code d) (text : Text) :
    Drafts dict (code ++ [.label text]) ⟨d.values, []⟩ := by
  have hl : codeValues dict [.label text] = [] := rfl
  have hd : Drafts dict _ _ := intro (code ++ [.label text]) [] (Or.inr ⟨code, text, rfl⟩) (by simp)
  rw [codeValues_append, h.values, hl, List.append_nil, List.append_nil] at hd
  exact hd

end Drafts

namespace Assembler

def Complete (dict : Dictionary) (final : Layout) : Prop :=
  ∀ name, dict.lookup name = final.number? name

section Pass
variable {dict : Dictionary} {final here : Layout} {s t : Assembler}

theorem operand_value {token : Text} {slot : Slot} (hd : Complete dict final) (hs : s.At here)
    (h : s.immediate token = .ok slot) : slot.value? dict = final.operand? here token := by
  cases immediate_operand h with
  | label name => exact hd (labelKey name)
  | symbol _ value hat hg =>
    rw [hs.names] at hg
    rw [Layout.operand?, hg]
    · exact congrArg (Option.or · (literal? value)) (hd value)
    · exact hat
  | number _ n hat hg hn hl hr =>
    rw [hs.names] at hg
    rw [Layout.operand?, hg]
    · rfl
    · exact hat

theorem address_value {n : Nat} {slot : Slot} (h : address n = .ok slot) :
    slot.value? dict = some n := by
  obtain ⟨rfl, hn, hr⟩ := address_number h
  exact numeral?_decimal_of_byte hn

theorem codeValues_pads (n : Nat) :
    codeValues dict (List.replicate n (.byte .pad none)) = List.replicate n (some 0) := by
  induction n with
  | zero => rfl
  | succ n ih =>
    rw [List.replicate_succ, List.replicate_succ, ← ih]
    rfl

theorem called_drafts {d : Draft} (hc : Drafts dict s.code d) (exchange : Bool) (back goal : Slot)
    (n : Nat) (note : Option Text) :
    Drafts dict (s.called exchange back goal n note).code
      ((((if exchange then d.append [some Opcode.xchg.code.toNat] else d).insert
        (back.value? dict)).append [goal.value? dict, some Opcode.jmp.code.toNat]).append
          (List.replicate n (some 0))) := by
  have he : Drafts dict (if exchange then s.emit (.op .xchg) none else s).code
      (if exchange then d.append [some Opcode.xchg.code.toNat] else d) := by
    cases exchange with
    | false => exact hc
    | true => exact hc.byte (.op .xchg) none
  have hj := ((he.insert back).byte goal none).byte (.op .jmp) note
  have hp := hj.append (List.replicate n (.byte .pad none)) (by simp [CodeLine.isLabel])
  rw [codeValues_pads, Draft.append_append _ [_] [_]] at hp
  exact hp

theorem executes_drafts {line : SourceLine} {st : Statement} {d : Draft}
    (hd : Complete dict final) (h : Executes s line st t) (hs : s.At here)
    (hc : Drafts dict s.code d) : Drafts dict t.code (final.add here d st) := by
  cases h with
  | label name hr hn => exact hc.label line.raw
  | origin value n hv hn => exact hc
  | const name value hn => exact hc
  | push operand slot hi =>
    rw [Layout.add, ← operand_value hd hs hi]
    exact hc.byte slot line.comment
  | stop => exact hc.byte .stop line.comment
  | call exchange target pads n back goal hn hback hgoal =>
    have hp := padCount_of_padding hn
    subst hp
    have ho := hs.origin
    have hz := hs.offset
    have hk := called_drafts hc exchange back goal (padCount pads) line.comment
    rw [address_value hback, operand_value hd hs hgoal] at hk
    cases exchange with
    | false =>
      have ha : s.offset+false.toNat+3+s.origin+padCount pads =
          (here.next (.call false target pads)).address := by
        simp only [Layout.next, Layout.address, Statement.size, Bool.toNat_false]
        omega
      rw [ha] at hk
      exact hk
    | true =>
      -- the exchange has been emitted, so the return address goes in front of it
      have ha : s.offset+true.toNat+3+s.origin+padCount pads =
          (here.next (.call true target pads)).address := by
        simp only [Layout.next, Layout.address, Statement.size, Bool.toNat_true]
        omega
      rw [ha, if_pos rfl, Draft.insert_append, Draft.append_append d [_, _] [_, _]] at hk
      exact hk
  | bare op => exact hc.byte (.op op) line.comment
  | operand op operand slot hi =>
    have hb := (hc.byte slot none).byte (.op op) line.comment
    rw [Layout.add, ← operand_value hd hs hi]
    rw [Draft.append_append] at hb
    exact hb

theorem steps_drafts {raw : Text} {d : Draft} (hd : Complete dict final)
    (h : Steps s (.split raw) t) (hs : s.At here) (hc : Drafts dict s.code d) :
    Drafts dict t.code ((statement? raw).elim d (final.add here d)) := by
  have hm : ∀ line : CodeLine, line.slot? = none → line.isLabel = false →
      Drafts dict (s.mark line).code d := by
    intro line hn hl
    have ha := hc.append [line] (by simpa using hl)
    have hv : codeValues dict [line] = [] := by simp [codeValues, slots, hn]
    rw [hv, Draft.append_nil] at ha
    exact ha
  cases h with
  | blank hp hn =>
    rw [statement?_of_parse hp]
    exact hm .blank rfl rfl
  | comment text hp hn =>
    rw [statement?_of_parse hp]
    exact hm (.comment text) rfl rfl
  | statement st _ hp he =>
    rw [statement?_of_parse hp]
    exact executes_drafts hd he hs hc

theorem draft_statements (d : Draft) (raw : Text) (rest : List Text) :
    final.draft here d (statements (raw::rest)) =
      final.draft ((statement? raw).elim here here.next)
        ((statement? raw).elim d (final.add here d)) (statements rest) := by
  rw [statements_cons]
  cases statement? raw <;> rfl

theorem runs_drafts {raws : List Text} {d : Draft} (hd : Complete dict final) (h : Runs s raws t)
    (hs : s.At here) (hc : Drafts dict s.code d) :
    Drafts dict t.code (final.draft here d (statements raws)) := by
  induction h generalizing here d with
  | nil s => exact hc
  | @cons s t u raw rest hstep _ ih =>
    rw [draft_statements]
    have ha := at_countLine hs
    exact ih (steps_at hstep ha) (steps_drafts hd hstep ha hc)

end Pass

theorem complete_of_runs {t : Assembler} {raws : List Text} (h : Runs .initial raws t) :
    Complete (.ofDefines t.symbols) (Layout.start.walk (statements raws)) := by
  intro name
  rw [Dictionary.lookup_ofDefines t.symbols (runs_distinct h), (runs_at h initial_at).names]
  rfl

end Assembler

/-- The bytes of an assembled program are those of the two passes over its
statements; where the passes cannot give every byte, the program has none. -/
theorem bytes_eq_twoPassBytes (source : Text) (p : Program) (h : assemble source = .ok p) :
    p.bytes.toOption = twoPassBytes (statements source.sourceLines) := by
  obtain ⟨t, hr, rfl⟩ := (assemble_ok_iff source p).mp h
  have hd := Assembler.complete_of_runs hr
  have hc := Assembler.runs_drafts hd hr Assembler.initial_at Drafts.nil
  change (encodeCode (.ofDefines t.symbols) t.code).toOption = _
  rw [encodeCode_slots, twoPassBytes, ← hc.values, codeValues, List.mapM_map]
  rfl

/-- Calls before and after labels, an alias of a constant that comes later, and
a second origin. -/
theorem bytes_eq_twoPassBytes_of_calls :
    ∃ source p, assemble source = .ok p ∧
      twoPassBytes (statements source.sourceLines) =
        some [21, 1, 29, 61, 0, 25, 120, 3, 61, 32, 21, 61] ∧
      p.bytes.toOption = some [21, 1, 29, 61, 0, 25, 120, 3, 61, 32, 21, 61] := by
  let source : Text := ("CONST B A\nPUSH 1 ; one\n\nCALL1 @F 1\n:G\nCALLX B\nCONST A 3\n" ++
    ".ORIGIN 20\n:F\nCALL1 LABEL_G").toList
  have hok : (assemble source).isOk = true := by decide +kernel
  have hb : twoPassBytes (statements source.sourceLines) =
      some [21, 1, 29, 61, 0, 25, 120, 3, 61, 32, 21, 61] := by decide +kernel
  cases h : assemble source with
  | ok p => exact ⟨source, p, h, hb, (bytes_eq_twoPassBytes source p h).trans hb⟩
  | error fault =>
    rw [h] at hok
    cases hok

end SplAssembler
