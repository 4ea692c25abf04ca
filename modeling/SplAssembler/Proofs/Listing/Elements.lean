import SplAssembler.Proofs.Listing.Scanner

/-!
# Elements between commas

A row of elements is read back into the elements that it was written from. White
space may stand around each of them, and the comma behind the last may be
missing. A quoted character may itself be a comma, a space, an apostrophe or a
backslash: behind its closing apostrophe the reader is outside quotes again, so
each element is read as if it were the first.
-/

set_option autoImplicit false

namespace SplAssembler
namespace Listing

inductive IsElement : Text → Prop
  | bare {e : Text} (hn : e ≠ []) (hc : ∀ c ∈ e, c ≠ ',' ∧ c ≠ '\'') (ht : e.Trimmed) : IsElement e
  | quoted {c : Char} (hq : c ≠ '\'') (hb : c ≠ '\\') : IsElement ['\'', c, '\'']
  | escaped (c : Char) : IsElement ['\'', '\\', c, '\'']

/-- Elements in order, with white space around each and a comma behind it. Behind
the last the comma may be missing. -/
inductive Separated : List Text → Text → Prop
  | none {gap : Text} (hg : gap.Void) : Separated [] gap
  | last (lead e gap : Text) (hl : lead.Void) (hg : gap.Void) : Separated [e] (lead ++ (e ++ gap))
  | comma {es : List Text} {rest : Text} (lead e gap : Text) (hl : lead.Void) (hg : gap.Void)
      (hr : Separated es rest) : Separated (e::es) (lead ++ (e ++ (gap ++ ',' :: rest)))

theorem closed_of_isElement {e : Text} (h : IsElement e) : Closed e := by
  cases h with
  | bare _ hc _ => exact closed_of_unquoted hc
  | quoted hq hb => exact closed_quoted hq hb
  | escaped c => exact closed_escaped c

theorem trimmed_of_apostrophes (t : Text) : Text.Trimmed ('\'' :: (t ++ ['\''])) := by
  constructor
  · intro c hc
    rw [← Option.some.inj hc]
    decide
  · intro c hc
    rw [← List.cons_append, List.getLast?_concat] at hc
    rw [← Option.some.inj hc]
    decide

theorem trimmed_of_isElement {e : Text} (h : IsElement e) : e.Trimmed := by
  cases h with
  | bare _ _ ht => exact ht
  | quoted => exact trimmed_of_apostrophes [_]
  | escaped c => exact trimmed_of_apostrophes ['\\', c]

theorem isElement_ne_nil {e : Text} (h : IsElement e) : e ≠ [] := by
  cases h with
  | bare hn _ _ => exact hn
  | quoted => exact List.cons_ne_nil _ _
  | escaped => exact List.cons_ne_nil _ _

theorem elements_last (a e b : Text) (ha : a.Void) (hb : b.Void) (ht : e.Trimmed)
    (hn : e ≠ []) (hc : Closed e) : elements (a ++ (e ++ b)) = [e] := by
  rw [elements, pieces_closed (closed_between ha hc hb), List.map_singleton,
    Text.trim_between a e b ha ht hb, List.filter_cons_of_pos (by simpa using hn), List.filter_nil]

theorem elements_separated {es : List Text} {text : Text} (h : Separated es text)
    (he : ∀ e ∈ es, IsElement e) : elements text = es := by
  induction h with
  | none hg => exact elements_void hg
  | last lead e gap hl hg =>
    have h := he e (by simp)
    exact elements_last lead e gap hl hg (trimmed_of_isElement h) (isElement_ne_nil h)
      (closed_of_isElement h)
  | comma lead e gap hl hg _ ih =>
    have h := he e (by simp)
    -- what follows the comma is a row of its own
    rw [elements_comma lead e gap _ hl hg (trimmed_of_isElement h) (isElement_ne_nil h)
      (closed_of_isElement h), ih (fun d hd => he d (by simp [hd]))]

theorem trimmed_of_mem_elements {text e : Text} (h : e ∈ elements text) : e.Trimmed := by
  obtain ⟨piece, -, rfl⟩ := List.mem_map.mp (List.mem_filter.mp h).1
  exact Text.trimmed_trim piece

/-- Elements that were written with commas behind them are read back in order,
whatever white space stands around them. Of any text whatsoever no element is
empty or has white space at its ends. -/
theorem elements_undo_commas :
    (∀ (es : List Text) (text : Text), (∀ e ∈ es, IsElement e) → Separated es text →
      elements text = es) ∧
    ∀ text : Text, ∀ e ∈ elements text, e ≠ [] ∧ e.Trimmed := by
  constructor
  · intro es text he h
    exact elements_separated h he
  · intro text e he
    exact ⟨elements_ne_nil text e he, trimmed_of_mem_elements he⟩

/-- A comma and an apostrophe that are quoted, an element with a space in it and no
comma behind the last; and a text whose quote stays open. -/
theorem elements_undo_commas_of_marks :
    ∃ (es : List Text) (row loose e : Text), (∀ d ∈ es, IsElement d) ∧ Separated es row ∧
      es = ["','".toList, "'\\''".toList, "a b".toList] ∧
      row = "\t',','\\'' , a b".toList ∧ elements row = es ∧
      loose = ", ,' x , ".toList ∧ e ∈ elements loose ∧ e ≠ [] ∧ e.Trimmed := by
  let comma : Text := ['\'', ',', '\'']
  let apostrophe : Text := ['\'', '\\', '\'', '\'']
  let pair : Text := ['a', ' ', 'b']
  let loose : Text := ", ,' x , ".toList
  have he : ∀ d ∈ [comma, apostrophe, pair], IsElement d := by
    intro d hd
    simp only [List.mem_cons, List.not_mem_nil, or_false] at hd
    rcases hd with rfl | rfl | rfl
    · exact .quoted (by decide) (by decide)
    · exact .escaped '\''
    · exact .bare (by decide) (by simp [pair]) (by decide)
  have row := Separated.comma ['\t'] comma [] (by decide) (by decide)
    (.comma [] apostrophe [' '] (by decide) (by decide)
      (.last [' '] pair [] (by decide) (by decide)))
  have hl : "' x ,".toList ∈ elements loose := by decide +kernel
  obtain ⟨joined, every⟩ := elements_undo_commas
  exact ⟨_, _, loose, _, he, row, by decide +kernel, by decide +kernel, joined _ _ he row, rfl, hl,
    every loose _ hl⟩

end Listing
end SplAssembler
