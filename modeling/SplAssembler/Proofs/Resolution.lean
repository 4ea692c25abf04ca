import SplAssembler.Proofs.Consistency

/-!
# When a program has bytes

Numbers, instructions, pads and the stop byte always have a byte. A label has
one if a define binds its key to a literal of one byte. A symbol has the byte
of its value, which is the name of a define or, where no define gives that name
a literal, a literal itself; so one alias is followed, and no more. The first
line whose slot has no byte is the one that is reported.
-/

set_option autoImplicit false

namespace SplAssembler

def Text.IsByte (t : Text) : Prop := ∃ n, literal? t = some n ∧ n ≤ 255

def NamesLiteral (defines : List Define) (name : Text) : Prop :=
  ∃ d ∈ defines, d.name = name ∧ (literal? d.value).isSome = true

def NamesByte (defines : List Define) (name : Text) : Prop :=
  ∃ d ∈ defines, d.name = name ∧ d.value.IsByte

def Slot.Resolves (defines : List Define) : Slot → Prop
  | .symbol _ value =>
      NamesByte defines value ∨ ¬NamesLiteral defines value ∧ value.IsByte
  | .label key => NamesByte defines key
  | _ => True

theorem Text.isByte_iff (t : Text) : t.IsByte ↔ (literal? t).any (· ≤ 255) = true := by
  cases h : literal? t with
  | none => simp [IsByte, h]
  | some n => simp [IsByte, h]

instance (t : Text) : Decidable t.IsByte := decidable_of_iff _ t.isByte_iff.symm

instance (defines : List Define) (name : Text) : Decidable (NamesLiteral defines name) :=
  inferInstanceAs (Decidable (∃ d ∈ defines, d.name = name ∧ (literal? d.value).isSome = true))

instance (defines : List Define) (name : Text) : Decidable (NamesByte defines name) :=
  inferInstanceAs (Decidable (∃ d ∈ defines, d.name = name ∧ d.value.IsByte))

section Names
variable {table : SymbolTable} {name : Text}

theorem SymbolTable.get?_eq_some_iff (h : table.Distinct) (value : Text) :
    table.get? name = some value ↔ ⟨name, value⟩ ∈ table := by
  refine ⟨mem_of_get?, ?_⟩
  induction table with
  | nil => simp
  | cons d ds ih =>
    intro hm
    obtain ⟨hd, hds⟩ := List.nodup_cons.mp h
    rw [get?_cons]
    rcases List.mem_cons.mp hm with rfl | hm
    · rw [if_pos rfl]
    · have hne : d.name ≠ name := by
        rintro rfl
        exact hd (List.mem_map.mpr ⟨_, hm, rfl⟩)
      rw [if_neg hne]
      exact ih hds hm

theorem lookup_eq_some_iff (h : table.Distinct) (n : Nat) :
    (Dictionary.ofDefines table).lookup name = some n ↔
      ∃ d ∈ table, d.name = name ∧ literal? d.value = some n := by
  rw [Dictionary.lookup_ofDefines table h]
  constructor
  · intro hl
    obtain ⟨value, hg, hv⟩ := Option.bind_eq_some_iff.mp hl
    exact ⟨⟨name, value⟩, SymbolTable.mem_of_get? hg, rfl, hv⟩
  · rintro ⟨d, hd, rfl, hv⟩
    rw [(SymbolTable.get?_eq_some_iff h d.value).mpr hd, Option.bind_some, hv]

theorem byte?_isSome_iff (n : Nat) : (byte? n).isSome = true ↔ n ≤ 255 := by
  rw [byte?]
  split
  · simp
    omega
  · simp
    omega

theorem namesByte_iff (h : table.Distinct) :
    NamesByte table name ↔
      ∃ n, (Dictionary.ofDefines table).lookup name = some n ∧ n ≤ 255 := by
  constructor
  · rintro ⟨d, hd, hn, n, hl, hb⟩
    exact ⟨n, (lookup_eq_some_iff h n).mpr ⟨d, hd, hn, hl⟩, hb⟩
  · rintro ⟨n, hl, hb⟩
    obtain ⟨d, hd, hn, hv⟩ := (lookup_eq_some_iff h n).mp hl
    exact ⟨d, hd, hn, n, hv, hb⟩

theorem lookup_eq_none_iff (h : table.Distinct) :
    (Dictionary.ofDefines table).lookup name = none ↔ ¬NamesLiteral table name := by
  rw [NamesLiteral, Option.eq_none_iff_forall_ne_some, not_exists]
  constructor
  · rintro hl d ⟨hd, hn, hs⟩
    obtain ⟨n, hv⟩ := Option.isSome_iff_exists.mp hs
    exact hl n ((lookup_eq_some_iff h n).mpr ⟨d, hd, hn, hv⟩)
  · intro hl n hv
    obtain ⟨d, hd, hn, hv⟩ := (lookup_eq_some_iff h n).mp hv
    exact hl d ⟨hd, hn, by rw [hv]; rfl⟩

theorem byte?_isSome (dict : Dictionary) (slot : Slot) :
    (slot.byte? dict).isSome = true ↔ ∃ n, slot.value? dict = some n ∧ n ≤ 255 := by
  rw [Slot.byte?]
  cases slot.value? dict with
  | none => simp
  | some n => simp [byte?_isSome_iff]

/-- A slot that was checked when it came in has a byte exactly when its names lead to one. -/
theorem resolves_iff {slot : Slot} (h : table.Distinct) (hs : slot.Sound) :
    (slot.byte? (.ofDefines table)).isSome = true ↔ slot.Resolves table := by
  rw [byte?_isSome]
  cases slot with
  | number text =>
    obtain ⟨n, hn, hb, -⟩ := hs
    exact ⟨fun _ => trivial, fun _ => ⟨n, hn, by omega⟩⟩
  | symbol _ value =>
    change (∃ n, Dictionary.resolve _ value = some n ∧ n ≤ 255) ↔ _
    rw [Slot.Resolves, namesByte_iff h, ← lookup_eq_none_iff h, Dictionary.resolve]
    cases hl : (Dictionary.ofDefines table).lookup value with
    | none => simp [Text.IsByte]
    | some n => simp
  | label key => exact (namesByte_iff h).symm
  | op opcode =>
    have hb := opcode.code.toNat_lt
    exact ⟨fun _ => trivial, fun _ => ⟨_, rfl, by omega⟩⟩
  | stop => exact ⟨fun _ => trivial, fun _ => ⟨_, rfl, by decide⟩⟩
  | pad => exact ⟨fun _ => trivial, fun _ => ⟨_, rfl, by decide⟩⟩

end Names

section Code
variable {dict : Dictionary}

theorem encodeCode_ok {code : List CodeLine}
    (h : ∀ slot ∈ slots code, (slot.byte? dict).isSome = true) :
    ∃ bytes, encodeCode dict code = .ok bytes := by
  induction code with
  | nil => exact ⟨[], rfl⟩
  | cons line rest ih =>
    cases line with
    | byte slot note =>
      obtain ⟨b, hb⟩ := Option.isSome_iff_exists.mp (h slot List.mem_cons_self)
      obtain ⟨bytes, hr⟩ := ih fun s hs => h s (List.mem_cons_of_mem slot hs)
      refine ⟨b::bytes, ?_⟩
      rw [encodeCode_cons rest (encode_byte_ok note hb), hr]
      rfl
    | _ =>
      obtain ⟨bytes, hr⟩ := ih h
      refine ⟨bytes, ?_⟩
      rw [encodeCode_cons rest rfl, hr]
      rfl

/-- The first slot without a byte is reported with its line. -/
theorem encodeCode_error {before : List CodeLine} {slot : Slot} (note : Option Text)
    (after : List CodeLine) (h : ∀ earlier ∈ slots before, (earlier.byte? dict).isSome = true)
    (hs : slot.byte? dict = none) :
    encodeCode dict (before ++ .byte slot note :: after) =
      .error (.invalidEncoding (CodeLine.byte slot note).text) := by
  induction before with
  | nil =>
    rw [List.nil_append, encodeCode, encode_byte_error note hs]
    rfl
  | cons line rest ih =>
    cases line with
    | byte earlier remark =>
      obtain ⟨b, hb⟩ := Option.isSome_iff_exists.mp (h earlier List.mem_cons_self)
      rw [List.cons_append, encodeCode_cons _ (encode_byte_ok remark hb),
        ih fun s hs => h s (List.mem_cons_of_mem earlier hs)]
      rfl
    | _ =>
      rw [List.cons_append, encodeCode_cons _ rfl, ih h]
      rfl

theorem exists_first_slot (P : Slot → Prop) (code : List CodeLine) :
    (∀ slot ∈ slots code, P slot) ∨ ∃ before slot note after,
      code = before ++ .byte slot note :: after ∧ (∀ earlier ∈ slots before, P earlier) ∧
        ¬P slot := by
  induction code with
  | nil => exact Or.inl (by simp [slots])
  | cons line rest ih =>
    cases line with
    | byte slot note =>
      by_cases hp : P slot
      · rcases ih with ha | ⟨before, bad, remark, after, rfl, hb, hn⟩
        · refine Or.inl ?_
          rw [slots_cons_byte]
          simpa [hp] using ha
        · refine Or.inr ⟨.byte slot note :: before, bad, remark, after, rfl, ?_, hn⟩
          rw [slots_cons_byte]
          simpa [hp] using hb
      · exact Or.inr ⟨[], slot, note, rest, rfl, by simp [slots], hp⟩
    | _ =>
      rcases ih with ha | ⟨before, bad, remark, after, rfl, hb, hn⟩
      · exact Or.inl ha
      · exact Or.inr ⟨_::before, bad, remark, after, rfl, hb, hn⟩

end Code

/-- Only symbols and labels can be without a byte. -/
theorem named_of_not_resolves {defines : List Define} {slot : Slot}
    (h : ¬slot.Resolves defines) :
    (∃ name value, slot = .symbol name value) ∨ ∃ key, slot = .label key := by
  cases slot with
  | symbol name value => exact Or.inl ⟨name, value, rfl⟩
  | label key => exact Or.inr ⟨key, rfl⟩
  | _ => exact absurd trivial h

section Programs
variable {source : Text} {p : Program}

theorem assemble_resolves (h : assemble source = .ok p) {slot : Slot} (hs : slot ∈ slots p.code) :
    (slot.byte? (.ofDefines p.defines)).isSome = true ↔ slot.Resolves p.defines := by
  obtain ⟨s, hrun, rfl⟩ := (assemble_ok_iff source p).mp h
  have hc := Assembler.runs_consistent hrun Assembler.initial_consistent
  exact resolves_iff hc.distinct (hc.slots slot hs)

theorem bytes_of_resolves (h : assemble source = .ok p)
    (hr : ∀ slot ∈ slots p.code, slot.Resolves p.defines) : ∃ bytes, p.bytes = .ok bytes :=
  encodeCode_ok fun slot hs => (assemble_resolves h hs).mpr (hr slot hs)

theorem bytes_error_of_first (h : assemble source = .ok p) {before after : List CodeLine}
    {slot : Slot} {note : Option Text} (hc : p.code = before ++ .byte slot note :: after)
    (hb : ∀ earlier ∈ slots before, earlier.Resolves p.defines) (hn : ¬slot.Resolves p.defines) :
    p.bytes = .error (.invalidEncoding (CodeLine.byte slot note).text) := by
  have hslots : slots p.code = slots before ++ slot :: slots after := by
    rw [hc, slots_append, slots_cons_byte]
  rw [Program.bytes, hc]
  apply encodeCode_error note after
  · intro earlier he
    exact (assemble_resolves h (by simp [hslots, he])).mpr (hb earlier he)
  · have hnone := mt (assemble_resolves h (by simp [hslots])).mp hn
    simpa using hnone

end Programs

/-- A program has bytes if and only if the names in all of its slots lead to
bytes, and then it has as many bytes as its size says. Otherwise the fault shows
the first line in which they do not, which is that of a symbol or a label. -/
theorem bytes_iff_names_resolve (source : Text) (p : Program) (h : assemble source = .ok p) :
    ((∃ bytes, p.bytes = .ok bytes) ↔ ∀ slot ∈ slots p.code, slot.Resolves p.defines) ∧
    (∀ bytes, p.bytes = .ok bytes → bytes.length = p.size) ∧
    ∀ fault, p.bytes = .error fault ↔ ∃ before slot note after,
      p.code = before ++ .byte slot note :: after ∧
      (∀ earlier ∈ slots before, earlier.Resolves p.defines) ∧ ¬slot.Resolves p.defines ∧
      ((∃ name value, slot = .symbol name value) ∨ ∃ key, slot = .label key) ∧
      fault = .invalidEncoding (CodeLine.byte slot note).text := by
  -- either all slots resolve or there is a first that does not, and only one of the two outcomes
  -- goes with each
  have hsplit := exists_first_slot (Slot.Resolves p.defines) p.code
  refine ⟨⟨?_, bytes_of_resolves h⟩, ?_, fun fault => ⟨?_, ?_⟩⟩
  · rintro ⟨bytes, hb⟩
    rcases hsplit with hall | ⟨before, slot, note, after, hc, hr, hbad⟩
    · exact hall
    · rw [bytes_error_of_first h hc hr hbad] at hb
      cases hb
  · intro bytes hb
    rw [length_of_bytes hb, Program.size, byteCount_eq_length]
  · intro hf
    rcases hsplit with hall | ⟨before, slot, note, after, hc, hr, hbad⟩
    · obtain ⟨bytes, hb⟩ := bytes_of_resolves h hall
      rw [hb] at hf
      cases hf
    · rw [bytes_error_of_first h hc hr hbad] at hf
      exact ⟨before, slot, note, after, hc, hr, hbad, named_of_not_resolves hbad,
        (Except.error.inj hf).symm⟩
  · rintro ⟨before, slot, note, after, hc, hr, hbad, -, rfl⟩
    exact bytes_error_of_first h hc hr hbad

/-- An alias of a constant has a byte, and the reference to no label is reported
although an alias of an alias follows it. -/
theorem bytes_iff_names_resolve_behind_alias :
    ∃ source p, assemble source = .ok p ∧
      (Slot.symbol ['A'] ['B']).Resolves p.defines ∧ ¬(Slot.symbol ['C'] ['A']).Resolves p.defines ∧
      p.bytes = .error (.invalidEncoding "LABEL_X,       // x".toList) := by
  let source : Text := "CONST B 5\nCONST A B\nCONST C A\nPUSH A\nPUSH @X ; x\nPUSH C".toList
  let before : List CodeLine := [.byte (.symbol ['A'] ['B']) none]
  let after : List CodeLine := [.byte (.symbol ['C'] ['A']) none]
  let p : Program := ⟨defaultOrigin,
    before ++ .byte (.label "LABEL_X".toList) (some ['x']) :: after,
    [⟨['B'], ['5']⟩, ⟨['A'], ['B']⟩, ⟨['C'], ['A']⟩]⟩
  have hp : assemble source = .ok p := by decide +kernel
  have hb : NamesByte p.defines ['B'] := by decide
  have hx : ¬NamesByte p.defines "LABEL_X".toList := by decide
  have ha : ¬(NamesByte p.defines ['A'] ∨ ¬NamesLiteral p.defines ['A'] ∧ Text.IsByte ['A']) := by
    decide
  obtain ⟨-, -, fails⟩ := bytes_iff_names_resolve source p hp
  have hf : p.bytes = .error (.invalidEncoding "LABEL_X,       // x".toList) := by
    apply (fails _).mpr
    refine ⟨before, .label "LABEL_X".toList, some ['x'], after, rfl, ?_, hx, Or.inr ⟨_, rfl⟩, rfl⟩
    intro earlier he
    rw [List.mem_singleton.mp he]
    exact Or.inl hb
  exact ⟨source, p, hp, Or.inl hb, ha, hf⟩

end SplAssembler
