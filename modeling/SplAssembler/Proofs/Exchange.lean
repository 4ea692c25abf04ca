import Mathlib.Data.List.Nodup
import SplAssembler.Proofs.Names
import SplAssembler.Proofs.Resolution

/-!
# Exchanging a constant with its neighbour

A statement looks into the table under its operands and under the name that it
binds, and nowhere else. So a constant can change places with a line that has
nothing to do with its name. The defines then stand in another order, but every
name has the same value in both tables, and all that later lines do and all
bytes of the program depend on these values alone.
-/

set_option autoImplicit false

namespace SplAssembler

def Statement.Mentions (st : Statement) (name : Text) : Prop :=
  st.key? = some name ∨ name ∈ st.operands

instance (st : Statement) (name : Text) : Decidable (st.Mentions name) :=
  inferInstanceAs (Decidable (st.key? = some name ∨ name ∈ st.operands))

namespace SymbolTable

def Agrees (table other : SymbolTable) : Prop := ∀ name, other.get? name = table.get? name

def extend (table : SymbolTable) (binding : Option (Text × Text)) : SymbolTable :=
  binding.elim table fun b => table.put b.1 b.2

section Tables
variable {table other : SymbolTable} {name value : Text} {binding : Option (Text × Text)}

theorem get?_extend (table : SymbolTable) (binding : Option (Text × Text)) (name : Text) :
    (table.extend binding).get? name =
      if binding.map Prod.fst = some name then binding.map Prod.snd else table.get? name := by
  cases binding with
  | none => rfl
  | some b =>
    change (table.put b.1 b.2).get? name = _
    rw [get?_put]
    by_cases h : name = b.1
    · simp [h]
    · simp [h, Ne.symm h]

theorem extend_agrees (h : table.Agrees other) (binding : Option (Text × Text)) :
    (table.extend binding).Agrees (other.extend binding) := by
  intro name
  rw [get?_extend, get?_extend, h name]

/-- Bindings of different names have the same effect in both orders. -/
theorem extend_put_agrees (h : binding.map Prod.fst ≠ some name) :
    ((table.put name value).extend binding).Agrees ((table.extend binding).put name value) := by
  intro n
  rw [get?_put, get?_extend, get?_extend, get?_put]
  by_cases hn : n = name
  · rw [hn, if_pos rfl, if_neg h, if_pos rfl]
  · rw [if_neg hn, if_neg hn]

/-- Tables without repeated names that agree have the same defines. -/
theorem perm_of_agrees (ht : table.Distinct) (ho : other.Distinct) (h : table.Agrees other) :
    other.Perm table := by
  rw [List.perm_ext_iff_of_nodup (List.Nodup.of_map _ ho) (List.Nodup.of_map _ ht)]
  rintro ⟨name, value⟩
  rw [← get?_eq_some_iff ho, ← get?_eq_some_iff ht, h name]

end Tables
end SymbolTable

section Bytes
variable {dict other : Dictionary}

theorem byte?_congr (h : ∀ name, other.lookup name = dict.lookup name) (slot : Slot) :
    slot.byte? other = slot.byte? dict := by
  cases slot with
  | symbol name value => simp only [Slot.byte?, Slot.value?, Dictionary.resolve, h]
  | label key => simp only [Slot.byte?, Slot.value?, h]
  | _ => rfl

theorem encodeCode_congr (h : ∀ name, other.lookup name = dict.lookup name)
    (code : List CodeLine) : encodeCode other code = encodeCode dict code := by
  have encode : ∀ line : CodeLine, line.encode other = line.encode dict := by
    intro line
    cases line with
    | byte slot note =>
      have hb := byte?_congr h slot
      rw [Slot.byte?, Slot.byte?] at hb
      rw [CodeLine.encode, CodeLine.encode, hb]
    | _ => rfl
  induction code with
  | nil => rfl
  | cons line rest ih => rw [encodeCode, encodeCode, encode, ih]

end Bytes

namespace Assembler

def tabled (s : Assembler) (table : SymbolTable) : Assembler := { s with symbols := table }

/-- The states differ at most in their tables and in the count of lines. -/
structure Shares (s t : Assembler) : Prop where
  offset : t.offset = s.offset
  origin : t.origin = s.origin
  code : t.code = s.code

structure Alike (s t : Assembler) : Prop extends Shares s t where
  symbols : s.symbols.Agrees t.symbols

def bound? (s : Assembler) (raw : Text) : Option (Text × Text) :=
  (statement? raw).bind s.binding?

theorem key_of_binding {s : Assembler} {st : Statement} {name : Text}
    (h : (s.binding? st).map Prod.fst = some name) : st.key? = some name := by
  cases st with
  | origin value =>
    rw [binding?, Option.map_map] at h
    obtain ⟨n, -, hn⟩ := Option.map_eq_some_iff.mp h
    exact congrArg some hn
  | label label => exact h
  | const constant value => exact h
  | _ => cases h

section Steps
variable {s t u : Assembler} {raw : Text}

theorem shares_tabled (s : Assembler) (table : SymbolTable) (n : Nat) :
    Shares s ((s.tabled table).numbered n) := ⟨rfl, rfl, rfl⟩

theorem symbols_tabled (s : Assembler) (table : SymbolTable) (n : Nat) :
    ((s.tabled table).numbered n).symbols = table := rfl

theorem shares_eq (h : Shares s t) : t = (s.tabled t.symbols).numbered t.lineNo := by
  obtain ⟨lineNo, offset, origin, symbols, code⟩ := t
  obtain ⟨rfl, rfl, rfl⟩ := h
  rfl

theorem immediate_tabled {table : SymbolTable} {token : Text}
    (h : table.get? token = s.symbols.get? token) :
    (s.tabled table).immediate token = s.immediate token := by
  have ht : (s.tabled table).symbols.get? token = s.symbols.get? token := h
  unfold immediate
  split
  · rfl
  · rw [ht]

/-- A statement has the same effect with another table that has the values it looks for. -/
theorem executes_tabled {line : SourceLine} {st : Statement} {table : SymbolTable}
    (h : Executes s line st u)
    (hg : ∀ name, st.Mentions name → table.get? name = s.symbols.get? name) :
    Executes (s.tabled table) line st (u.tabled (table.extend (s.binding? st))) := by
  have operand : ∀ {token slot}, token ∈ st.operands → s.immediate token = .ok slot →
      (s.tabled table).immediate token = .ok slot := by
    intro token slot hm hi
    rw [immediate_tabled (hg token (Or.inr hm)), hi]
  cases h with
  | label name hr hn =>
    have hfree : table.get? (labelKey name) = none := (hg _ (Or.inl rfl)).trans hn
    exact Executes.label (s := s.tabled table) name hr hfree
  | origin value n hv hn =>
    have hb : s.binding? (.origin value) = some (originSymbol, Text.decimal n) := by
      rw [binding?, hv]
      rfl
    rw [hb]
    exact Executes.origin (s := s.tabled table) value n hv hn
  | const name value hn =>
    have hfree : table.get? name = none := (hg _ (Or.inl rfl)).trans hn
    exact Executes.const (s := s.tabled table) name value hfree
  | push token slot hi =>
    exact Executes.push (s := s.tabled table) token slot (operand List.mem_cons_self hi)
  | stop => exact Executes.stop (s := s.tabled table)
  | call exchange target pads n back goal hn hb hi =>
    have hc : Executes (s.tabled table) line _ _ :=
      .call exchange target pads n back goal hn hb (operand List.mem_cons_self hi)
    cases exchange <;> exact hc
  | bare op => exact Executes.bare (s := s.tabled table) op
  | operand op token slot hi =>
    exact Executes.operand (s := s.tabled table) op token slot (operand List.mem_cons_self hi)

theorem steps_symbols (h : Steps s (.split raw) u) :
    u.symbols = s.symbols.extend (s.bound? raw) := by
  cases h with
  | blank hp _ =>
    rw [bound?, statement?_of_parse hp]
    rfl
  | comment text hp _ =>
    rw [bound?, statement?_of_parse hp]
    rfl
  | statement st _ hp he =>
    rw [bound?, statement?_of_parse hp]
    exact executes_symbols he

/-- A line has the same effect on a state that shares all else and has the values it looks for. -/
theorem steps_shared (h : Steps s (.split raw) u) (hs : Shares s t)
    (hg : ∀ st name, statement? raw = some st → st.Mentions name →
      t.symbols.get? name = s.symbols.get? name) :
    ∃ v, Steps t (.split raw) v ∧ Shares u v ∧ v.symbols = t.symbols.extend (s.bound? raw) := by
  have tabled : Steps (s.tabled t.symbols) (.split raw)
      (u.tabled (t.symbols.extend (s.bound? raw))) := by
    cases h with
    | blank hp hc =>
      rw [bound?, statement?_of_parse hp]
      exact Steps.blank (s := s.tabled t.symbols) hp hc
    | comment text hp hc =>
      rw [bound?, statement?_of_parse hp]
      exact Steps.comment (s := s.tabled t.symbols) text hp hc
    | statement st _ hp he =>
      have hst := statement?_of_parse hp
      rw [bound?, hst]
      exact .statement st _ hp (executes_tabled he fun name => hg st name hst)
  have hv := steps_numbered t.lineNo tabled
  rw [← shares_eq hs] at hv
  exact ⟨_, hv, shares_tabled u _ _, symbols_tabled u _ _⟩

theorem steps_alike (h : Steps s.countLine (.split raw) u) (hs : Alike s t) :
    ∃ v, Steps t.countLine (.split raw) v ∧ Alike u v := by
  have hc : Shares s.countLine t.countLine := ⟨hs.offset, hs.origin, hs.code⟩
  obtain ⟨v, hv, hu, hsym⟩ := steps_shared h hc fun _ name _ _ => hs.symbols name
  refine ⟨v, hv, hu, ?_⟩
  rw [hsym, steps_symbols h]
  exact SymbolTable.extend_agrees hs.symbols _

theorem runs_alike {raws : List Text} (h : Runs s raws u) (hs : Alike s t) :
    ∃ v, Runs t raws v ∧ Alike u v := by
  induction h generalizing t with
  | nil s => exact ⟨t, .nil t, hs⟩
  | cons hstep _ ih =>
    obtain ⟨v, hv, ha⟩ := steps_alike hstep hs
    obtain ⟨w, hw, hu⟩ := ih ha
    exact ⟨w, .cons hv hw, hu⟩

end Steps

theorem steps_const_iff {s u : Assembler} {raw name value : Text}
    (h : statement? raw = some (.const name value)) :
    Steps s (.split raw) u ↔
      s.symbols.get? name = none ∧ u = s.tabled (s.symbols.put name value) := by
  have hp := parse_of_statement? h
  constructor
  · intro hs
    cases executes_of_steps hs hp with
    | const _ _ hn => exact ⟨hn, rfl⟩
  · rintro ⟨hn, rfl⟩
    exact .statement _ _ hp (.const name value hn)

end Assembler

def Unrelated (line other : Text) : Prop :=
  ∃ name value, statement? line = some (.const name value) ∧
    ∀ st, statement? other = some st → ¬st.Mentions name

namespace Assembler

section Neighbours
variable {s u v : Assembler} {line other : Text}

theorem bound_ne {name : Text} (s : Assembler)
    (hm : ∀ st, statement? other = some st → ¬st.Mentions name) :
    (s.bound? other).map Prod.fst ≠ some name := by
  intro hb
  rw [bound?] at hb
  cases hst : statement? other with
  | none =>
    rw [hst] at hb
    cases hb
  | some st =>
    rw [hst] at hb
    exact hm st hst (Or.inl (key_of_binding hb))

/-- What a line looks for is not changed by a constant that it does not mention. -/
theorem get?_put_unmentioned {name value n : Text} {st : Statement} (table : SymbolTable)
    (hm : ¬st.Mentions name) (hn : st.Mentions n) :
    (table.put name value).get? n = table.get? n := by
  have hne : n ≠ name := by
    rintro rfl
    exact hm hn
  rw [SymbolTable.get?_put, if_neg hne]

/-- A constant moves behind its neighbour. -/
theorem const_moves_back (h : Unrelated line other) (hl : Steps s.countLine (.split line) u)
    (ho : Steps u.countLine (.split other) v) :
    ∃ w x, Steps s.countLine (.split other) w ∧ Steps w.countLine (.split line) x ∧ Alike v x := by
  obtain ⟨name, value, hst, hm⟩ := h
  obtain ⟨hfree, rfl⟩ := (steps_const_iff hst).mp hl
  obtain ⟨w, hw, hs, hsym⟩ := steps_shared (t := s.countLine) ho ⟨rfl, rfl, rfl⟩
    fun st n ht hn => (get?_put_unmentioned _ (hm st ht) hn).symm
  have hwfree : w.symbols.get? name = none := by
    rw [hsym, SymbolTable.get?_extend, if_neg (bound_ne _ hm)]
    exact hfree
  refine ⟨w, _, hw, (steps_const_iff hst).mpr ⟨hwfree, rfl⟩, ⟨hs.offset, hs.origin, hs.code⟩, ?_⟩
  change v.symbols.Agrees (w.symbols.put name value)
  rw [steps_symbols ho, hsym]
  exact SymbolTable.extend_put_agrees (bound_ne _ hm)

/-- A constant moves in front of its neighbour. -/
theorem const_moves_front (h : Unrelated line other) (ho : Steps s.countLine (.split other) u)
    (hl : Steps u.countLine (.split line) v) :
    ∃ w x, Steps s.countLine (.split line) w ∧ Steps w.countLine (.split other) x ∧ Alike v x := by
  obtain ⟨name, value, hst, hm⟩ := h
  obtain ⟨hufree, rfl⟩ := (steps_const_iff hst).mp hl
  have hfree : s.symbols.get? name = none := by
    change u.symbols.get? name = none at hufree
    rw [steps_symbols ho, SymbolTable.get?_extend, if_neg (bound_ne _ hm)] at hufree
    exact hufree
  let w := s.countLine.tabled (s.symbols.put name value)
  obtain ⟨x, hx, hs, hsym⟩ := steps_shared (t := w.countLine) ho ⟨rfl, rfl, rfl⟩
    fun st n ht hn => get?_put_unmentioned _ (hm st ht) hn
  refine ⟨w, x, (steps_const_iff hst).mpr ⟨hfree, rfl⟩, hx, ⟨hs.offset, hs.origin, hs.code⟩, ?_⟩
  change (u.symbols.put name value).Agrees x.symbols
  rw [steps_symbols ho, hsym]
  intro n
  exact (SymbolTable.extend_put_agrees (bound_ne _ hm) n).symm

/-- Neighbours change places in a run if one is a constant that the other does not mention. -/
theorem runs_exchange {before after : List Text} {t : Assembler}
    (h : Unrelated line other ∨ Unrelated other line)
    (hr : Runs s (before ++ line::other::after) t) :
    ∃ x, Runs s (before ++ other::line::after) x ∧ Alike t x := by
  obtain ⟨a, b, ha, hb, hrest⟩ := runs_split hr
  cases hrest with
  | cons hc hafter =>
    obtain ⟨w, x, hw, hx, halike⟩ : ∃ w x, Steps a.countLine (.split other) w ∧
        Steps w.countLine (.split line) x ∧ Alike _ x :=
      h.elim (const_moves_back · hb hc) (const_moves_front · hb hc)
    obtain ⟨y, hy, ht⟩ := runs_alike hafter halike
    exact ⟨y, runs_append ha (.cons hw (.cons hx hy)), ht⟩

end Neighbours
end Assembler

structure Program.Reordered (p q : Program) : Prop where
  origin : q.origin = p.origin
  code : q.code = p.code
  defines : q.defines.Perm p.defines
  bytes : q.bytes = p.bytes

theorem finish_reordered {s t : Assembler} (h : s.Alike t) (hs : s.symbols.Distinct)
    (ht : t.symbols.Distinct) : s.finish.Reordered t.finish where
  origin := h.origin
  code := h.code
  defines := SymbolTable.perm_of_agrees hs ht h.symbols
  bytes := by
    change encodeCode (.ofDefines t.symbols) t.code = encodeCode (.ofDefines s.symbols) s.code
    rw [h.code]
    apply encodeCode_congr
    intro name
    rw [Dictionary.lookup_ofDefines _ ht, Dictionary.lookup_ofDefines _ hs, h.symbols name]

section Sources
variable {source other first second : Text} {before after : List Text}

theorem assemble_exchange {p : Program}
    (hs : source.sourceLines = before ++ first::second::after)
    (ho : other.sourceLines = before ++ second::first::after)
    (h : Unrelated first second ∨ Unrelated second first) (hp : assemble source = .ok p) :
    ∃ q, assemble other = .ok q ∧ p.Reordered q := by
  obtain ⟨s, hr, rfl⟩ := (assemble_ok_iff source p).mp hp
  have hd := Assembler.runs_distinct hr
  rw [hs] at hr
  obtain ⟨t, ht, halike⟩ := Assembler.runs_exchange h hr
  rw [← ho] at ht
  exact ⟨t.finish, (assemble_ok_iff other _).mpr ⟨t, ht, rfl⟩,
    finish_reordered halike hd (Assembler.runs_distinct ht)⟩

end Sources

/-- A constant and a line next to it that does not mention its name can be
exchanged in every source. Either both sources are accepted, and the programs
have the same origin, code and bytes or fault, and the same defines in some
order; or both are refused. -/
theorem const_commutes_with_unrelated_line (source : Text) (before after : List Text)
    (first second : Text) (hs : source.sourceLines = before ++ first::second::after)
    (h : Unrelated first second ∨ Unrelated second first) :
    let other := Text.joinLines (before ++ second::first::after)
    other.sourceLines = before ++ second::first::after ∧
    (∀ p, assemble source = .ok p → ∃ q, assemble other = .ok q ∧ q.origin = p.origin ∧
      q.code = p.code ∧ q.defines.Perm p.defines ∧ q.bytes = p.bytes) ∧
    ∀ fault, assemble source = .error fault → ∃ fault', assemble other = .error fault' := by
  intro other
  have ho : other.sourceLines = before ++ second::first::after := by
    apply Text.sourceLines_joinLines _ (by simp)
    intro line hl
    have hm : line ∈ source.sourceLines := by
      rw [hs]
      simp only [List.mem_append, List.mem_cons] at hl ⊢
      tauto
    exact Text.mem_sourceLines hm
  refine ⟨ho, ?_, ?_⟩
  · intro p hp
    obtain ⟨q, hq, hpq⟩ := assemble_exchange hs ho h hp
    exact ⟨q, hq, hpq.origin, hpq.code, hpq.defines, hpq.bytes⟩
  · intro fault hf
    cases hq : assemble other with
    | error fault' => exact ⟨fault', rfl⟩
    | ok q =>
      obtain ⟨p, hp, -⟩ := assemble_exchange ho hs h.symm hq
      rw [hf] at hp
      cases hp

/-- A constant changes places with the directive behind it, and with it their defines. -/
theorem const_commutes_with_origin :
    ∃ (source : Text) (before after : List Text) (p q : Program),
      source.sourceLines = before ++ "CONST A L".toList :: ".ORIGIN 8".toList :: after ∧
      Unrelated "CONST A L".toList ".ORIGIN 8".toList ∧ assemble source = .ok p ∧
      assemble (Text.joinLines (before ++ ".ORIGIN 8".toList :: "CONST A L".toList :: after)) =
        .ok q ∧ q.defines.Perm p.defines ∧ q.defines ≠ p.defines ∧ q.bytes = p.bytes ∧
      p.bytes = .ok [7, 9, 61] := by
  let source : Text := "CONST L 7\nCONST A L\n.ORIGIN 8\nPUSH A\n:L\nJMP @L".toList
  let before : List Text := ["CONST L 7".toList]
  let after : List Text := ["PUSH A".toList, ":L".toList, "JMP @L".toList]
  let code : List CodeLine := [.byte (.symbol ['A'] ['L']) none, .label ":L".toList,
    .byte (.label "LABEL_L".toList) none, .byte (.op .jmp) none]
  let p : Program := ⟨8, code, [⟨['L'], ['7']⟩, ⟨['A'], ['L']⟩, ⟨originSymbol, ['8']⟩,
    ⟨"LABEL_L".toList, ['9']⟩]⟩
  let r : Program := ⟨8, code, [⟨['L'], ['7']⟩, ⟨originSymbol, ['8']⟩, ⟨['A'], ['L']⟩,
    ⟨"LABEL_L".toList, ['9']⟩]⟩
  have hs : source.sourceLines =
      before ++ "CONST A L".toList :: ".ORIGIN 8".toList :: after := by decide +kernel
  have hc : statement? "CONST A L".toList = some (.const ['A'] ['L']) := by decide +kernel
  have ho : statement? ".ORIGIN 8".toList = some (.origin ['8']) := by decide +kernel
  have hu : Unrelated "CONST A L".toList ".ORIGIN 8".toList := by
    refine ⟨['A'], ['L'], hc, ?_⟩
    rw [ho]
    rintro st ⟨⟩
    decide
  have hp : assemble source = .ok p := by decide +kernel
  have hr : assemble (Text.joinLines
      (before ++ ".ORIGIN 8".toList :: "CONST A L".toList :: after)) = .ok r := by decide +kernel
  obtain ⟨-, accepted, -⟩ :=
    const_commutes_with_unrelated_line source before after _ _ hs (Or.inl hu)
  obtain ⟨q, hq, -, -, hperm, hbytes⟩ := accepted p hp
  have hne : q.defines ≠ p.defines := by
    rw [← Except.ok.inj (hr.symm.trans hq)]
    decide
  have hb : p.bytes = .ok [7, 9, 61] := by decide +kernel
  exact ⟨source, before, after, p, q, hs, hu, hp, hq, hperm, hne, hbytes, hb⟩

end SplAssembler
