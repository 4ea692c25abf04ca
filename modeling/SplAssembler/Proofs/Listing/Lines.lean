import SplAssembler.Proofs.Listing.RoundTrip

/-!
# Code lines read back one by one

A byte is computed from the kind of its slot, while a reader of the code line
has only its text and tries names before literals. Names and values are shown
as the source wrote them, so two things can come between: a comment mark within
a name or a value, and a define whose name is spelt like a numeral or an opcode
of the program. The module shows that nothing else does. What source lines can
hold is followed along a run; the rest is about one line.
-/

set_option autoImplicit false

namespace SplAssembler

def Text.Written (t : Text) : Prop := t ≠ [] ∧ t.Solid ∧ ¬['/', '/'] <:+: t

def Slot.Written : Slot → Prop
  | .number text => ∃ n, n < 256 ∧ numeral? text = some n
  | .symbol _ value => value.Written
  | .label key => key.Written ∧ literal? key = none
  | _ => True

def CodeLine.Written : CodeLine → Prop
  | .byte slot _ => slot.Written
  | _ => True

structure Program.Written (p : Program) : Prop where
  values : ∀ d ∈ p.defines, d.value.Written
  code : ∀ l ∈ p.code, l.Written

/-- The value or the key opens no block comment, and a name beside a value
closes none. -/
def Slot.Readable : Slot → Prop
  | .symbol name value => ¬['/', '*'] <:+: value ∧ ¬['*', '/'] <:+: name
  | .label key => ¬['/', '*'] <:+: key
  | _ => True

def Slot.isNamed : Slot → Bool
  | .symbol _ _ => true
  | .label _ => true
  | _ => false

/-- The dictionary gives what is shown for a slot no value but the slot's own. -/
def Slot.Unshadowed (dict : Dictionary) (slot : Slot) : Prop :=
  ∀ n, dict.lookup (Listing.element slot) = some n → slot.value? dict = some n

theorem written_of_fit {value : Text} (h : value.Fit) : value.Written :=
  ⟨h.1, h.2.1, (Listing.fit_uncommented h).1⟩

theorem written_labelKey {name : Text} (hs : name.Solid) (hm : ¬['/', '/'] <:+: name) :
    (labelKey name).Written := by
  refine ⟨List.cons_ne_nil _ _, labelKey_solid hs, ?_⟩
  change ¬['/', '/'] <:+: 'L' :: 'A' :: 'B' :: 'E' :: 'L' :: '_' :: name
  simpa [List.infix_cons_iff] using hm

namespace Assembler

/-- The arguments of a source line stand before its comment. -/
theorem arguments_written {raw : Text} {st : Statement}
    (h : Statement.parse (SourceLine.split raw).body = .ok (some st)) :
    ∀ a ∈ st.arguments, a.Written := by
  intro a ha
  obtain ⟨hn, hs⟩ := Statement.parse_arguments h a ha
  have hm := SourceLine.unmarked_within (Statement.parse_within h a ha)
    (SourceLine.split_body_unmarked raw)
  exact ⟨hn, hs, hm.2⟩

theorem mem_arguments_of_operands {st : Statement} {token : Text} (h : token ∈ st.operands) :
    token ∈ st.arguments := by
  cases st with
  | push operand => exact h
  | call exchange target pads =>
    rw [List.mem_singleton.mp h]
    simp [Statement.arguments]
  | primitive op operand =>
    cases operand with
    | none => cases h
    | some text => exact h
  | _ => cases h

section Written
variable {s t : Assembler} {st : Statement} (ha : ∀ a ∈ st.arguments, a.Written)
include ha

theorem binding_written {name value : Text} (hb : s.binding? st = some (name, value)) :
    value.Written := by
  cases st with
  | label label =>
    cases hb
    exact written_of_fit (fit_decimal _)
  | origin text =>
    obtain ⟨n, -, he⟩ := Option.map_eq_some_iff.mp hb
    cases he
    exact written_of_fit (fit_decimal n)
  | const constant text =>
    cases hb
    exact ha value (by simp [Statement.arguments])
  | _ => cases hb

theorem emits_written {slot : Slot} (hs : ∀ d ∈ s.symbols, d.value.Written)
    (h : Emits s st slot) : slot.Written := by
  cases h with
  | op opcode => trivial
  | stop => trivial
  | pad => trivial
  | address n hn hr => exact ⟨n, hn, numeral?_decimal_of_byte hn⟩
  | operand token slot hm ho =>
    obtain ⟨-, hsolid, hmark⟩ := ha token (mem_arguments_of_operands hm)
    cases ho with
    | label name =>
      have hn : ¬['/', '/'] <:+: name := fun hi => hmark (List.infix_cons hi)
      exact ⟨written_labelKey (fun c hc => hsolid c (by simp [hc])) hn,
        literal?_of_head (by decide) _⟩
    | symbol _ value _ hg => exact hs _ (SymbolTable.mem_of_get? hg)
    | number _ n _ _ hn hl _ => exact ⟨n, hl, hn⟩

end Written

theorem steps_written {s t : Assembler} {raw : Text} (h : Steps s (.split raw) t)
    (hs : s.finish.Written) : t.finish.Written := by
  constructor
  · cases h with
    | blank => exact hs.values
    | comment => exact hs.values
    | statement st _ hb he =>
      apply executes_defines (P := fun d => d.value.Written) he hs.values
      intro name value hbind
      exact binding_written (arguments_written hb) hbind
  · apply steps_lines h hs.code trivial (fun _ _ => trivial) trivial
    intro st slot note hb hslot _
    exact emits_written (arguments_written hb) hs.values hslot

end Assembler

/-- Whatever names and values a source uses, they are words without a line comment. -/
theorem assemble_written {source : Text} {p : Program} (h : assemble source = .ok p) :
    p.Written := by
  obtain ⟨s, hr, rfl⟩ := (assemble_ok_iff source p).mp h
  have initial : Assembler.initial.finish.Written :=
    ⟨fun _ hd => (List.not_mem_nil hd).elim, fun _ hl => (List.not_mem_nil hl).elim⟩
  exact Assembler.runs_invariant (P := fun u => u.finish.Written) (fun _ hu => hu)
    (fun _ _ _ _ hu hs => Assembler.steps_written hs hu) hr initial

namespace Listing

/-- No mark opens a comment in what is shown for a readable slot. -/
theorem element_bare {slot : Slot} (h : slot.Written) (hr : slot.Readable) :
    (element slot).Written ∧ ¬['/', '*'] <:+: element slot := by
  have fixed : slot.Plain → (element slot).Written ∧ ¬['/', '*'] <:+: element slot := fun hp =>
    ⟨written_of_fit (fit_element hp), (fit_uncommented (fit_element hp)).2⟩
  cases slot with
  | number text =>
    obtain ⟨n, -, hn⟩ := h
    exact fixed ⟨n, hn⟩
  | symbol name value => exact ⟨h, hr.1⟩
  | label key => exact ⟨h.1, hr⟩
  | _ => exact fixed trivial

theorem remark_unclosed {slot : Slot} {name : Text} (hr : slot.Readable)
    (hn : remark slot = some name) : ¬['*', '/'] <:+: name := by
  cases slot with
  | symbol _ value =>
    rw [← Option.some.inj hn]
    exact hr.2
  | pad =>
    rw [← Option.some.inj hn]
    decide
  | _ => cases hn

theorem strip_readable {slot : Slot} (h : slot.Written) (hr : slot.Readable) (rest : Text) :
    ∃ gap, Text.Void gap ∧ stripFrom false (slot.text ++ ',' :: rest) =
      element slot ++ (gap ++ ',' :: stripFrom false rest) := by
  obtain ⟨⟨-, -, hl⟩, hb⟩ := element_bare h hr
  have comma := strip_cons ',' rest (by decide)
  rcases slot_text slot with he | ⟨name, hn, he⟩
  · refine ⟨[], by decide, ?_⟩
    rw [he, strip_uncommented ⟨hl, hb⟩ (',' :: rest) (fun _ => by simp), comma]
    rfl
  · have hs := strip_shown name (',' :: rest) (remark_unclosed hr hn)
    refine ⟨[' '], by decide, ?_⟩
    rw [comma] at hs
    rw [he, ← hs, List.append_assoc, List.append_assoc, List.append_assoc]
    exact strip_uncommented ⟨hl, hb⟩ _ (fun _ => by simp)

/-- The comma behind an element and the white space around it are taken away. -/
theorem trim_dropComma (e gap tail : Text) (he : e.Solid) (hg : gap.Void) (ht : tail.Void) :
    (dropComma (Text.trimEnd (e ++ (gap ++ ',' :: tail)))).trim = e := by
  have hj : e ++ (gap ++ ',' :: tail) = ((e ++ gap) ++ [',']) ++ tail := by simp
  rw [hj, Text.trimEnd_append_void _ tail ht,
    Text.trimEnd_append_solid _ [','] (by simp) (by decide), dropComma, if_pos (by simp),
    List.dropLast_concat]
  exact Text.trim_between [] e gap (by decide) (Text.trimmed_of_solid he) hg

end Listing

section Reading
variable {slot : Slot} (dict : Dictionary) (h : slot.Written)
include h

/-- The line of a readable slot is read as its element is, whatever its comment says. -/
theorem decodeLine_readable (hr : slot.Readable) (note : Option Text) :
    dict.decodeLine (CodeLine.byte slot note).text =
      (dict.decodeElement (CodeLine.byte slot note).text (Listing.element slot)).map some := by
  obtain ⟨gap, hg, hs⟩ := Listing.strip_readable h hr (Listing.noteText note)
  obtain ⟨⟨hn, hsolid, -⟩, -⟩ := Listing.element_bare h hr
  have he : (Listing.dropComma
      (Listing.stripComments (CodeLine.byte slot note).text).trimEnd).trim =
        Listing.element slot := by
    rw [Listing.stripComments, Listing.text_byte, hs]
    exact Listing.trim_dropComma _ gap _ hsolid hg (Listing.strip_note note)
  rw [Dictionary.decodeLine, he, if_neg (by simpa using hn)]

theorem decodeLine_eq_encode_iff (hr : slot.Readable) (note : Option Text) :
    dict.decodeLine (CodeLine.byte slot note).text = (CodeLine.byte slot note).encode dict ↔
      (dict.resolve (Listing.element slot)).bind byte? = (slot.value? dict).bind byte? := by
  rw [decodeLine_readable dict h hr note, Dictionary.decodeElement, CodeLine.encode]
  cases (dict.resolve (Listing.element slot)).bind byte? with
  | none => cases (slot.value? dict).bind byte? <;> simp [Except.map]
  | some a => cases (slot.value? dict).bind byte? <;> simp [Except.map]

/-- An element that no define names is read as the literal that it is. -/
theorem resolve_of_unknown (hl : dict.lookup (Listing.element slot) = none) :
    dict.resolve (Listing.element slot) = slot.value? dict := by
  rw [Dictionary.resolve, hl, Option.none_or]
  cases slot with
  | number text =>
    obtain ⟨n, -, hn⟩ := h
    change (numeral? text).or (quoted? text) = numeral? text
    rw [hn, Option.some_or]
  | symbol name value =>
    change _ = (dict.lookup value).or (literal? value)
    rw [show dict.lookup value = none from hl, Option.none_or]
    rfl
  | label key =>
    change literal? key = dict.lookup key
    rw [h.2]
    exact hl.symm
  | op opcode => exact Dictionary.literal?_token opcode
  | stop => exact (show literal? "0xff".toList = some stopByte.toNat by decide +kernel)
  | pad => exact (show literal? ['0'] = some 0 by decide +kernel)

omit h in
theorem unshadowed_of_named (hn : slot.isNamed = true) : slot.Unshadowed dict := by
  cases slot with
  | symbol name value => exact fun n hl => dict.resolve_of_lookup value n hl
  | label key => exact fun _ hl => hl
  | _ => cases hn

/-- A slot that is no name has a byte of its own. -/
theorem value?_of_not_named (hn : slot.isNamed = false) :
    ∃ n, n < 256 ∧ slot.value? dict = some n := by
  cases slot with
  | number text => exact h
  | op opcode => exact ⟨_, opcode.code.toNat_lt, rfl⟩
  | stop => exact ⟨_, stopByte.toNat_lt, rfl⟩
  | pad => exact ⟨0, by decide, rfl⟩
  | _ => cases hn

theorem resolve_element_iff :
    (dict.resolve (Listing.element slot)).bind byte? = (slot.value? dict).bind byte? ↔
      slot.Unshadowed dict := by
  cases hl : dict.lookup (Listing.element slot) with
  | none =>
    rw [resolve_of_unknown dict h hl]
    refine ⟨fun _ n hn => ?_, fun _ => rfl⟩
    rw [hl] at hn
    cases hn
  | some n =>
    rw [dict.resolve_of_lookup _ n hl]
    constructor
    · intro he
      cases hn : slot.isNamed with
      | true => exact unshadowed_of_named dict hn
      | false =>
        -- two values of the same byte are equal once one of them is a byte
        obtain ⟨m, hm, hv⟩ := value?_of_not_named dict h hn
        have hb : byte? n = some (UInt8.ofNat m) := by simpa [hv, byte?, hm] using he
        have hnm : n = m := by simpa [Nat.mod_eq_of_lt hm] using toNat_of_byte? hb
        intro k hk
        rw [hl, hnm] at hk
        rw [hv, hk]
    · intro hu
      rw [hu n hl]

end Reading

/-- The lines of a program are read back one by one. A line that holds no byte
gives none. The line of a readable slot gives the byte of the slot, or the
fault of a slot without one, exactly if no define comes between; it never does
for symbols and labels. -/
theorem lines_decode_as_encoded (source : Text) (p : Program) (h : assemble source = .ok p) :
    ∀ line ∈ p.code,
      match line with
      | .byte slot note => slot.Readable →
          ((Dictionary.ofDefines p.defines).decodeLine (CodeLine.byte slot note).text =
              (CodeLine.byte slot note).encode (.ofDefines p.defines) ↔
            slot.Unshadowed (.ofDefines p.defines)) ∧
          (slot.isNamed = true → slot.Unshadowed (.ofDefines p.defines))
      | other => (Dictionary.ofDefines p.defines).decodeLine other.text = .ok none := by
  intro line hm
  have hw := (assemble_written h).code line hm
  cases line with
  | blank => rfl
  | comment text => rfl
  | label text => rfl
  | byte slot note =>
    intro hr
    refine ⟨?_, unshadowed_of_named _⟩
    exact (decodeLine_eq_encode_iff _ hw hr note).trans (resolve_element_iff _ hw)

/-- The same operand before and after a constant takes its name. -/
theorem lines_decode_as_encoded_around_const :
    ∃ source p before after, assemble source = .ok p ∧
      p.code = [before, .label ":a/b".toList, after] ∧
      (Dictionary.ofDefines p.defines).decodeLine before.text ≠
        before.encode (.ofDefines p.defines) ∧
      (Dictionary.ofDefines p.defines).decodeLine after.text =
        after.encode (.ofDefines p.defines) ∧
      after.encode (.ofDefines p.defines) = .ok (some 7) := by
  let source : Text := "PUSH 5\nCONST 5 7\n:a/b\nPUSH 5 ; /* //".toList
  let number : Slot := .number "5".toList
  let constant : Slot := .symbol "5".toList "7".toList
  let note : Text := "/* //".toList
  let p : Program := {
    origin := defaultOrigin
    code := [.byte number none, .label ":a/b".toList, .byte constant (some note)]
    defines := [⟨"5".toList, "7".toList⟩, ⟨"LABEL_a/b".toList, "17".toList⟩] }
  have h : assemble source = .ok p := by decide +kernel
  have read := lines_decode_as_encoded source p h
  have first := (read (.byte number none) (by decide +kernel) trivial).1
  have last := read (.byte constant (some note)) (by decide +kernel)
    (show ¬_ <:+: _ ∧ ¬_ <:+: _ by decide +kernel)
  refine ⟨source, p, .byte number none, .byte constant (some note), h, rfl, ?_, ?_, ?_⟩
  · intro he
    have hv := first.mp he 7 (by decide +kernel)
    exact absurd hv (by decide +kernel)
  · exact last.1.mpr (last.2 rfl)
  · decide +kernel

def Misread (source : Text) : Prop :=
  ∃ p, assemble source = .ok p ∧ ∃ line ∈ p.code,
    (Dictionary.ofDefines p.defines).decodeLine line.text ≠ line.encode (.ofDefines p.defines)

/-- A constant that is spelt as a numeral, a value that opens a comment, a name
that closes one, and a label reference that opens one. -/
theorem lines_not_always_decode_as_encoded :
    Misread "PUSH 5\nCONST 5 7".toList ∧ Misread "CONST A /*x\nPUSH A".toList ∧
      Misread "CONST A*/B 5\nPUSH A*/B".toList ∧ Misread ":a\nPUSH @a/*b".toList := by
  let number : CodeLine := .byte (.number "5".toList) none
  let opening : CodeLine := .byte (.symbol "A".toList "/*x".toList) none
  let closing : CodeLine := .byte (.symbol "A*/B".toList "5".toList) none
  let reference : CodeLine := .byte (.label "LABEL_a/*b".toList) none
  refine ⟨?_, ?_, ?_, ?_⟩
  · exact ⟨⟨defaultOrigin, [number], [⟨"5".toList, "7".toList⟩]⟩, by decide +kernel,
      number, by decide, by decide +kernel⟩
  · exact ⟨⟨defaultOrigin, [opening], [⟨"A".toList, "/*x".toList⟩]⟩, by decide +kernel,
      opening, by decide, by decide +kernel⟩
  · exact ⟨⟨defaultOrigin, [closing], [⟨"A*/B".toList, "5".toList⟩]⟩, by decide +kernel,
      closing, by decide, by decide +kernel⟩
  · exact ⟨⟨defaultOrigin, [.label ":a".toList, reference],
      [⟨"LABEL_a".toList, Text.decimal defaultOrigin⟩]⟩, by decide +kernel, reference, by decide,
      by decide +kernel⟩

end SplAssembler
