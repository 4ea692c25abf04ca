import SplAssembler.Proofs.Listing.Scanner

/-!
# The shape of the lines of a listing

A listing is read by the shape of its lines: defines by their first word, the
array by the line that opens it and the line that closes it. The defines of a
plain program are read back, and no row of the program, whatever its comment
says, passes for a define or for the end of the array.
-/

set_option autoImplicit false

namespace SplAssembler
namespace Listing

theorem mem_zeros {n : Nat} {c : Char}
    (h : c ∈ [' '].intercalate (List.replicate n ['0', ','])) : c ∈ ['0', ',', ' '] := by
  induction n with
  | zero => simp at h
  | succ n ih =>
    cases n with
    | zero =>
      rw [List.replicate_one, List.intercalate_singleton] at h
      exact List.mem_append_left [' '] h
    | succ n =>
      rw [List.replicate_succ, List.replicate_succ, List.intercalate_cons_cons,
        ← List.replicate_succ, List.append_assoc] at h
      rcases List.mem_append.mp h with h | h
      · exact List.mem_append_left [' '] h
      rcases List.mem_append.mp h with h | h
      · exact List.mem_append_right ['0', ','] h
      · exact ih h

theorem mem_originRow {n : Nat} {c : Char} (h : c ∈ originRow n) : c ∈ ['0', ',', ' '] := by
  rcases List.mem_append.mp (show c ∈ [' ', ' '] ++ _ from h) with h | h
  · have hc : c = ' ' := by simpa using h
    rw [hc]
    decide
  · exact mem_zeros h

theorem ofLine?_text {d : Define} (h : d.Sound) : Define.ofLine? d.text = some d := by
  obtain ⟨⟨hn, hname⟩, hv, hvalue⟩ := h
  have hw : d.text.words = ["#define".toList, d.name, d.value] := by
    change Text.words ("#define".toList ++ ' ' :: (d.name ++ ' ' :: d.value)) = _
    rw [Text.words_solid_space _ _ _ (by decide) (by decide) rfl,
      Text.words_solid_space _ _ _ hn hname rfl, Text.words_solid _ hv hvalue]
  rw [Define.ofLine?, hw]
  rfl

/-- A row that is blank, or whose first character starts neither a define nor
the end of the array. -/
def Inert (row : Text) : Prop :=
  row.Void ∨ ∃ a c t, Text.Void a ∧ isSpace c = false ∧ c ≠ '#' ∧ c ≠ '\x7d' ∧ row = a ++ c::t

theorem inert_not_define {row : Text} (h : Inert row) : Define.ofLine? row = none := by
  rcases h with hv | ⟨a, c, t, ha, hc, hd, -, rfl⟩
  · rw [Define.ofLine?, Text.words_void row hv]
  · obtain ⟨w, ws, hw⟩ := Text.words_cons_solid c t hc
    rw [Define.ofLine?, Text.words_void_append a _ ha, hw]
    split
    · rename_i mark name value rest he
      have hm : mark ≠ "#define".toList := by
        rw [← (List.cons.inj he).1]
        intro h
        exact hd (List.cons.inj h).1
      rw [if_neg hm]
    · rfl

theorem inert_not_closing {row : Text} (h : Inert row) : closesArray row = false := by
  rcases h with hv | ⟨a, c, t, ha, hc, -, hd, rfl⟩
  · rw [closesArray, Text.trim_void row hv]
    rfl
  · obtain ⟨u, hu⟩ := Text.trim_cons_solid a t c ha hc
    rw [closesArray, hu]
    apply beq_eq_false_iff_ne.mpr
    intro h
    exact hd (List.cons.inj h).1

theorem fit_head {value : Text} (h : value.Fit) :
    ∃ c t, value = c::t ∧ isSpace c = false ∧ c ≠ '#' ∧ c ≠ '\x7d' := by
  obtain ⟨hn, hs, hw⟩ := h
  obtain ⟨c, t, rfl⟩ := List.exists_cons_of_ne_nil hn
  refine ⟨c, t, rfl, hs c (by simp), ?_⟩
  rcases hw with hw | hq
  · have hc := hw c (by simp)
    exact ⟨wordChar_ne hc (by decide), wordChar_ne hc (by decide)⟩
  · have hc : c = '\'' := by
      rcases isCharacter_cases hq with ⟨d, he⟩ | ⟨d, he, -, -⟩
      · exact (List.cons.inj he).1
      · exact (List.cons.inj he).1
    rw [hc]
    exact ⟨by decide, by decide⟩

theorem inert_listed {line : CodeLine} (h : line.Plain) : Inert line.listed := by
  cases line with
  | blank => exact Or.inl (show Text.Void [' ', ' '] by decide)
  | comment text => exact Or.inr ⟨[], '/', _, by decide, rfl, by decide, by decide, rfl⟩
  | label text => exact Or.inr ⟨[], '/', _, by decide, rfl, by decide, by decide, rfl⟩
  | byte slot note =>
    obtain ⟨c, t, he, hc, hd, hb⟩ := fit_head (fit_element h.1)
    have first : ∃ u, slot.text = c::u := by
      rcases slot_text slot with hs | ⟨name, -, hs⟩
      · exact ⟨t, by rw [hs, he]⟩
      · exact ⟨_, by rw [hs, he]; rfl⟩
    obtain ⟨u, hu⟩ := first
    exact Or.inr ⟨[' ', ' '], c, _, by decide, hc, hd, hb, by rw [listed_byte, hu]; rfl⟩

theorem inert_originRow (n : Nat) : Inert (originRow (n+1)) := by
  refine Or.inr ⟨[' ', ' '], '0', ?_, by decide, rfl, by decide, by decide, ?_⟩
  · exact (originRow (n+1)).drop 3
  · cases n <;> rfl

def Proper (line : Text) : Prop := '\n' ∉ line ∧ line.getLast? ≠ some '\r'

theorem tidy_of_solid {t : Text} (h : t.Solid) : t.Tidy :=
  ⟨fun hc => absurd (h _ hc) (by decide), fun c hc => h c (List.mem_of_getLast? hc)⟩

theorem no_feed_append {a b : Text} (ha : '\n' ∉ a) (hb : '\n' ∉ b) : '\n' ∉ a ++ b := by
  intro hc
  rcases List.mem_append.mp hc with h | h
  · exact ha h
  · exact hb h

theorem proper_append {a t : Text} (ha : Proper a) (ht : t.Tidy) : Proper (a ++ t) := by
  refine ⟨no_feed_append ha.1 ht.1, ?_⟩
  rw [List.getLast?_append]
  cases hl : t.getLast? with
  | none => exact ha.2
  | some c =>
    intro hc
    have hs := ht.2 c hl
    rw [Option.some.inj hc] at hs
    exact absurd hs (by decide)

/-- The end of a line decides how it ends, if it is not empty. -/
theorem proper_end {a b : Text} (ha : '\n' ∉ a) (hb : Proper b) (hn : b ≠ []) :
    Proper (a ++ b) := by
  refine ⟨no_feed_append ha hb.1, ?_⟩
  rw [List.getLast?_append]
  cases hl : b.getLast? with
  | none => exact absurd (List.getLast?_eq_none_iff.mp hl) hn
  | some c =>
    rw [Option.some_or, ← hl]
    exact hb.2

theorem proper_define {d : Define} (h : d.Sound) : Proper d.text := by
  obtain ⟨⟨-, hn⟩, -, hv⟩ := h
  have hname := (tidy_of_solid hn).1
  have hvalue : Proper ([' '] ++ d.value) := proper_append ⟨by decide, by decide⟩ (tidy_of_solid hv)
  exact proper_end (no_feed_append (by decide) hname) hvalue (List.cons_ne_nil _ _)

theorem proper_originRow (n : Nat) : Proper (originRow n) := by
  refine ⟨fun hc => absurd (mem_originRow hc) (by decide), ?_⟩
  intro hl
  exact absurd (mem_originRow (List.mem_of_getLast? hl)) (by decide)

theorem no_feed_slot {slot : Slot} (h : slot.Plain) : '\n' ∉ slot.text := by
  have he := (tidy_of_solid (fit_element h).2.1).1
  rcases slot_text slot with hs | ⟨name, hn, hs⟩
  · rw [hs]
    exact he
  · have hname : '\n' ∉ name := not_mem_of_wordChars (remark_wordChars h hn) (by decide)
    rw [hs]
    exact no_feed_append he (no_feed_append (by decide) (no_feed_append hname (by decide)))

theorem proper_listed {line : CodeLine} (h : line.Plain) : Proper line.listed := by
  cases line with
  | blank => exact ⟨by decide, by decide⟩
  | comment text => exact proper_append (a := "// ".toList) ⟨by decide, by decide⟩ h
  | label text => exact proper_append (a := "// ".toList) ⟨by decide, by decide⟩ h
  | byte slot note =>
    have comma : Proper (',' :: noteText note) := by
      cases note with
      | none => exact ⟨by decide, by decide⟩
      | some text =>
        exact proper_append (a := ",       // ".toList) ⟨by decide, by decide⟩ (h.2 text rfl)
    rw [listed_byte, ← List.append_assoc]
    exact proper_end (no_feed_append (by decide) (no_feed_slot h.1)) comma (List.cons_ne_nil _ _)

theorem fit_last {value : Text} {c : Char} (h : value.Fit) (hl : value.getLast? = some c) :
    c ≠ '\x7b' := by
  rcases h.2.2 with hw | hq
  · exact wordChar_ne (hw c (List.mem_of_getLast? hl)) (by decide)
  · have hc : c = '\'' := by
      rcases isCharacter_cases hq with ⟨d, rfl⟩ | ⟨d, rfl, -, -⟩
      · exact (Option.some.inj hl).symm
      · exact (Option.some.inj hl).symm
    rw [hc]
    decide

theorem define_not_opening {d : Define} (h : d.Plain) : opensArray d.text = false := by
  obtain ⟨-, hv⟩ := h
  have he : d.text = ("#define ".toList ++ d.name ++ [' ']) ++ d.value := by
    rw [List.append_assoc _ [' '] d.value]
    rfl
  have ht : d.text.trimEnd = d.text := by
    rw [he]
    exact Text.trimEnd_append_solid _ _ hv.1 hv.2.1
  rw [opensArray, ht, he, List.getLast?_append]
  cases hl : d.value.getLast? with
  | none => exact absurd (List.getLast?_eq_none_iff.mp hl) hv.1
  | some c => exact beq_eq_false_iff_ne.mpr (fun hc => fit_last hv hl (Option.some.inj hc))

end Listing
end SplAssembler
