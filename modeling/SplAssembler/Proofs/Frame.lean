import SplAssembler.Proofs.Reach
import SplAssembler.Proofs.Session

/-!
# What a line leaves in place

Code lines that are already there keep their places. One kind of statement
makes an exception: the return address of a call without an exchange takes the
place of the last byte, if nothing but blank lines and comments stands behind
it, and that byte moves on to the first place behind the old code. Everything
that is not a byte, and everything in front of a label, stays.
-/

set_option autoImplicit false

namespace SplAssembler

/-- The last line of the code that is no filler is a byte, and this is its place. -/
structure LastByte (code : List CodeLine) (i : Nat) (last : CodeLine) : Prop where
  here : code[i]? = some last
  byte : last.isByte = true
  fillers : ∀ j line, i < j → code[j]? = some line → line.isFiller = true

/-- One line has given its place to another and stands behind the old code. All
other lines of the old code have kept their places. -/
structure Displaced (code after : List CodeLine) (i : Nat) (old new : CodeLine) : Prop where
  new : after[i]? = some new
  old : after[code.length]? = some old
  others : ∀ j, j < code.length → j ≠ i → after[j]? = code[j]?

theorem lastByte_split {code : List CodeLine} {i : Nat} {last : CodeLine}
    (h : LastByte code i last) :
    ∃ before slot note fillers, code = before ++ .byte slot note :: fillers ∧
      before.length = i ∧ last = .byte slot note ∧ ∀ l ∈ fillers, l.isFiller = true := by
  obtain ⟨hi, hl⟩ := List.getElem?_eq_some_iff.mp h.here
  have hc : code = code.take i ++ last :: code.drop (i+1) := by
    rw [← hl, List.getElem_cons_drop, List.take_append_drop]
  have hb := h.byte
  cases last with
  | byte slot note =>
    refine ⟨code.take i, slot, note, code.drop (i+1), hc, ?_, rfl, ?_⟩
    · rw [List.length_take]
      omega
    · intro l hm
      obtain ⟨k, hk⟩ := List.getElem?_of_mem hm
      rw [List.getElem?_drop] at hk
      exact h.fillers (i+1+k) l (by omega) hk
  | _ => cases hb

theorem lastByte_append (before : List CodeLine) {last : CodeLine} {fillers : List CodeLine}
    (hb : last.isByte = true) (hf : ∀ l ∈ fillers, l.isFiller = true) :
    LastByte (before ++ last :: fillers) before.length last where
  here := by simp
  byte := hb
  fillers := by
    intro j line hj hl
    rw [List.getElem?_append_right (by omega)] at hl
    obtain ⟨k, hk⟩ : ∃ k, j-before.length = k+1 := ⟨j-before.length-1, by omega⟩
    rw [hk, List.getElem?_cons_succ] at hl
    exact hf line (List.mem_of_getElem? hl)

theorem insertBeforeLast_displaced (new : CodeLine) {code : List CodeLine} {i : Nat}
    {last : CodeLine} (h : LastByte code i last) :
    Displaced code (insertBeforeLast new code) i last new := by
  obtain ⟨before, slot, note, fillers, rfl, rfl, rfl, hf⟩ := lastByte_split h
  rw [insertBeforeLast_eq new slot note before fillers hf]
  constructor
  · simp
  · simp
  · intro j hj hne
    rw [List.getElem?_append_left (by simpa using hj)]
    by_cases hb : j < before.length
    · rw [List.getElem?_append_left hb, List.getElem?_append_left hb]
    · obtain ⟨k, hk⟩ : ∃ k, j-before.length = k+1 := ⟨j-before.length-1, by omega⟩
      rw [List.getElem?_append_right (by omega), List.getElem?_append_right (by omega), hk]
      rfl

theorem insertBeforeLast_appended (new : CodeLine) {code : List CodeLine}
    (h : ∀ i last, ¬LastByte code i last) : insertBeforeLast new code = code ++ [new] := by
  rcases insertBeforeLast_cases new code with he | ⟨before, slot, note, fillers, rfl, hf, -⟩
  · exact he
  · exact absurd (lastByte_append before rfl hf) (h _ _)

theorem displaced_append {code after : List CodeLine} {i : Nat} {old new : CodeLine}
    (h : Displaced code after i old new) (hi : i < code.length) (tail : List CodeLine) :
    Displaced code (after ++ tail) i old new := by
  have hl : code.length < after.length := (List.getElem?_eq_some_iff.mp h.old).1
  have hf : ∀ j, j ≤ code.length → (after ++ tail)[j]? = after[j]? := by
    intro j hj
    exact List.getElem?_append_left (by omega)
  constructor
  · rw [hf i (by omega)]
    exact h.new
  · rw [hf _ (Nat.le_refl _)]
    exact h.old
  · intro j hj hne
    rw [hf j (by omega)]
    exact h.others j hj hne

/-- No label stands behind the last byte. -/
theorem label_before_lastByte {code : List CodeLine} {i k : Nat} {last : CodeLine} {text : Text}
    (h : LastByte code i last) (hk : code[k]? = some (.label text)) : k < i := by
  rcases Nat.lt_trichotomy k i with hlt | rfl | hgt
  · exact hlt
  · have hs := Option.some.inj (h.here.symm.trans hk)
    have hb := h.byte
    rw [hs] at hb
    cases hb
  · cases h.fillers k _ hgt hk

theorem take_of_displaced {code after : List CodeLine} {i k : Nat} {old new : CodeLine}
    (h : Displaced code after i old new) (hk : k < i) (hi : i < code.length) :
    code.take (k+1) <+: after := by
  have he : code.take (k+1) = after.take (k+1) := by
    apply List.ext_getElem?
    intro j
    by_cases hj : j < k+1
    · rw [List.getElem?_take_of_lt hj, List.getElem?_take_of_lt hj]
      exact (h.others j (by omega) (by omega)).symm
    · rw [List.getElem?_take_eq_none (by omega), List.getElem?_take_eq_none (by omega)]
  rw [he]
  exact List.take_prefix (k+1) after

namespace Assembler

section Line
variable {s t : Assembler} {line : SourceLine}

theorem steps_call {target : Text} {pads : Option Text} (h : Steps s line t)
    (hp : Statement.parse line.body = .ok (some (.call false target pads))) :
    ∃ n tail, padding pads = .ok n ∧ t.code = insertBeforeLast
      (.byte (.number (Text.decimal (s.returnAddress false n))) none) s.code ++ tail := by
  obtain ⟨added, ha, ht, -⟩ := executes_code (executes_of_steps h hp)
  cases ha with
  | directive _ hd => cases hd
  | call _ _ n goal hn hg => exact ⟨n, _, hn, ht⟩

/-- Where a call finds a last byte, its return address displaces it. -/
theorem steps_displaced {target : Text} {pads : Option Text} {i : Nat} {last : CodeLine}
    (h : Steps s line t)
    (hp : Statement.parse line.body = .ok (some (.call false target pads)))
    (hl : LastByte s.code i last) :
    ∃ n, padding pads = .ok n ∧ Displaced s.code t.code i last
      (.byte (.number (Text.decimal (s.returnAddress false n))) none) := by
  obtain ⟨n, tail, hn, ht⟩ := steps_call h hp
  have hi := (List.getElem?_eq_some_iff.mp hl.here).1
  refine ⟨n, hn, ?_⟩
  rw [ht]
  exact displaced_append (insertBeforeLast_displaced _ hl) hi tail

/-- Every other line adds to the end of the code. -/
theorem steps_starts (h : Steps s line t)
    (hno : ∀ target pads i last, Statement.parse line.body = .ok (some (.call false target pads)) →
      ¬LastByte s.code i last) : s.code <+: t.code := by
  by_cases hc : ∃ target pads, Statement.parse line.body = .ok (some (.call false target pads))
  · obtain ⟨target, pads, hp⟩ := hc
    obtain ⟨n, tail, -, ht⟩ := steps_call h hp
    rw [ht, insertBeforeLast_appended _ (fun i last => hno target pads i last hp),
      List.append_assoc]
    exact List.prefix_append _ _
  · cases h with
    | blank => exact List.prefix_append _ _
    | comment => exact List.prefix_append _ _
    | statement st _ hp he =>
      obtain ⟨added, -, ht, -⟩ := executes_code he
      rw [ht, Statement.join]
      · exact List.prefix_append _ _
      · rintro target pads _ _ rfl
        exact absurd ⟨target, pads, hp⟩ hc

theorem steps_starts_or_displaced (h : Steps s line t) :
    s.code <+: t.code ∨ ∃ i last new, LastByte s.code i last ∧
      Displaced s.code t.code i last new := by
  by_cases hc : ∃ target pads i last,
      Statement.parse line.body = .ok (some (.call false target pads)) ∧ LastByte s.code i last
  · obtain ⟨target, pads, i, last, hp, hl⟩ := hc
    obtain ⟨n, -, hd⟩ := steps_displaced h hp hl
    exact Or.inr ⟨i, last, _, hl, hd⟩
  · apply Or.inl
    apply steps_starts h
    intro target pads i last hp hl
    exact hc ⟨target, pads, i, last, hp, hl⟩

/-- Blank lines, comments and labels keep their places. -/
theorem steps_marker (h : Steps s line t) {i : Nat} {marker : CodeLine}
    (hm : marker.isByte = false) (hi : s.code[i]? = some marker) :
    t.code[i]? = some marker := by
  have hlt := (List.getElem?_eq_some_iff.mp hi).1
  rcases steps_starts_or_displaced h with ⟨tail, ht⟩ | ⟨k, last, new, hl, hd⟩
  · rw [← ht, List.getElem?_append_left hlt, hi]
  · have hne : i ≠ k := by
      rintro rfl
      have he := Option.some.inj (hl.here.symm.trans hi)
      rw [← he, hl.byte] at hm
      cases hm
    rw [hd.others i hlt hne, hi]

theorem steps_label_front (h : Steps s line t) {i : Nat} {text : Text}
    (hi : s.code[i]? = some (.label text)) : s.code.take (i+1) <+: t.code := by
  rcases steps_starts_or_displaced h with hs | ⟨k, last, new, hl, hd⟩
  · exact (List.take_prefix (i+1) s.code).trans hs
  · have hk := (List.getElem?_eq_some_iff.mp hl.here).1
    exact take_of_displaced hd (label_before_lastByte hl hi) hk

end Line

/-- A line leaves every blank line, comment and label of the code in its place,
and all that stands in front of a label. A call without an exchange puts its
return address in the place of the last byte, if there is one in reach, which
reappears right behind the old code; no other place changes. In all other cases
the old code starts the new code. -/
theorem line_displaces_last_byte_only (s t : Assembler) (raw : Text) (h : line raw s = .ok () t) :
    (∀ (i : Nat) (marker : CodeLine), s.code[i]? = some marker → marker.isByte = false →
      t.code[i]? = some marker) ∧
    (∀ (i : Nat) (text : Text), s.code[i]? = some (.label text) → s.code.take (i+1) <+: t.code) ∧
    (∀ target pads i last, statement? raw = some (.call false target pads) →
      LastByte s.code i last → ∃ n, padding pads = .ok n ∧
        Displaced s.code t.code i last
          (.byte (.number (Text.decimal (s.returnAddress false n))) none)) ∧
    ((∀ target pads i last, statement? raw = some (.call false target pads) →
      ¬LastByte s.code i last) → s.code <+: t.code) := by
  have hstep := (line_ok_iff s t raw).mp h
  refine ⟨fun i marker hi hm => steps_marker hstep hm hi,
    fun i text hi => steps_label_front hstep hi, ?_, ?_⟩
  · intro target pads i last hst hl
    have hd := steps_displaced hstep (parse_of_statement? hst) hl
    exact hd
  · intro hno
    apply steps_starts hstep
    intro target pads i last hp
    exact hno target pads i last (statement?_of_parse hp)

/-- The byte before a comment and a blank line is displaced, with its own comment. -/
theorem line_displaces_last_byte_only_behind_comment :
    ∃ s t last, initial.session [":A".toList, "PUSH 5 ; x".toList, "; note".toList, []] =
        (s, [none, none, none, none]) ∧
      line "CALL1 @Sub 2 ; go".toList s = .ok () t ∧ last = .byte (.number ['5']) (some ['x']) ∧
      LastByte s.code 1 last ∧ Displaced s.code t.code 1 last (.byte (.number "22".toList) none) ∧
      s.code.take 1 <+: t.code ∧ t.code[2]? = some (.comment "note".toList) := by
  let last : CodeLine := .byte (.number ['5']) (some ['x'])
  let fillers : List CodeLine := [.comment "note".toList, .blank]
  let symbols : SymbolTable := [⟨"LABEL_A".toList, "16".toList⟩]
  let s : Assembler := ⟨4, 1, defaultOrigin, symbols, .label ":A".toList :: last :: fillers⟩
  let t : Assembler := ⟨5, 6, defaultOrigin, symbols,
    .label ":A".toList :: .byte (.number "22".toList) none :: fillers ++
      [last, .byte (.label "LABEL_Sub".toList) none, .byte (.op .jmp) (some "go".toList),
        .byte .pad none, .byte .pad none]⟩
  let raw : Text := "CALL1 @Sub 2 ; go".toList
  have hs : initial.session [":A".toList, "PUSH 5 ; x".toList, "; note".toList, []] =
      (s, [none, none, none, none]) := by decide +kernel
  have ht : line raw s = .ok () t := line_of_feed (by decide +kernel)
  have hst : statement? raw = some (.call false "@Sub".toList (some ['2'])) := by decide +kernel
  have hl : LastByte s.code 1 last := lastByte_append [.label ":A".toList] rfl (by decide)
  obtain ⟨markers, labels, displaced, -⟩ := line_displaces_last_byte_only s t raw ht
  obtain ⟨n, hn, hd⟩ := displaced _ _ 1 last hst hl
  have hn2 : n = 2 := by
    have hp : padding (some ['2']) = .ok 2 := rfl
    rw [hp] at hn
    exact (Except.ok.inj hn).symm
  have hr : Text.decimal (s.returnAddress false 2) = "22".toList := by decide +kernel
  rw [hn2, hr] at hd
  exact ⟨s, t, last, hs, ht, rfl, hl, hd, labels 0 _ rfl, markers 2 _ rfl rfl⟩

end Assembler
end SplAssembler
