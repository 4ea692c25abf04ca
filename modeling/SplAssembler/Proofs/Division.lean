import SplAssembler.Proofs.Source

/-!
# How a line is divided

A line without the white space at its ends is its body, a comment mark and a
comment, with white space around the mark, and nothing is lost between them.
The mark is the first in the line: a single slash in front of it belongs to the
body, and of three slashes the first two are the mark.
-/

set_option autoImplicit false

namespace SplAssembler

namespace Text

theorem void_takeWhile (t : Text) : Void (t.takeWhile isSpace) :=
  fun c hc => List.all_eq_true.mp List.all_takeWhile c hc

theorem trimStart_divides (t : Text) : ∃ a, Void a ∧ t = a ++ trimStart t :=
  ⟨t.takeWhile isSpace, void_takeWhile t, List.takeWhile_append_dropWhile.symm⟩

theorem trimEnd_divides (t : Text) : ∃ b, Void b ∧ t = trimEnd t ++ b := by
  obtain ⟨a, ha, hr⟩ := trimStart_divides t.reverse
  refine ⟨a.reverse, fun c hc => ha c (List.mem_reverse.mp hc), ?_⟩
  calc
    t = (a ++ trimStart t.reverse).reverse := by rw [← hr, List.reverse_reverse]
    _ = trimEnd t ++ a.reverse := List.reverse_append

/-- White space is taken away at the end only, where there is none at the start. -/
theorem trim_divides_end {t : Text} (h : ∀ c, t.head? = some c → isSpace c = false) :
    ∃ b, Void b ∧ t = trim t ++ b := by
  rw [trim, trimStart_of_head h]
  exact trimEnd_divides t

theorem trim_divides_start {t : Text} (h : ∀ c, t.getLast? = some c → isSpace c = false) :
    ∃ a, Void a ∧ t = a ++ trim t := by
  obtain ⟨a, ha, ht⟩ := trimStart_divides t
  have hlast : ∀ c, (trimStart t).getLast? = some c → isSpace c = false := by
    intro c hc
    apply h c
    rw [ht, List.getLast?_append, hc, Option.some_or]
  rw [trim, trimEnd_of_last hlast]
  exact ⟨a, ha, ht⟩

end Text

namespace SourceLine

def StartsComment (t : Text) : Prop := [';'] <+: t ∨ ['/', '/'] <+: t

theorem cut_whole {t : Text} (h : (cut t).2 = none) : (cut t).1 = t := by
  induction t using cut.induct with
  | case1 => rfl
  | case2 rest => cases h
  | case3 rest => cases h
  | case4 c rest hc hs ih =>
    rw [cut_cons hc hs] at h ⊢
    exact congrArg (List.cons c) (ih h)

/-- A text with a comment is cut at a mark, and no mark starts in front of it. -/
theorem cut_at_first {t rest : Text} (h : (cut t).2 = some rest) :
    ∃ mark, (mark = [';'] ∨ mark = ['/', '/']) ∧ t = (cut t).1 ++ (mark ++ rest) ∧
      ∀ k < (cut t).1.length, ¬StartsComment (t.drop k) := by
  induction t using cut.induct with
  | case1 => cases h
  | case2 r =>
    cases h
    exact ⟨[';'], Or.inl rfl, rfl, fun k hk => absurd hk (Nat.not_lt_zero k)⟩
  | case3 r =>
    cases h
    exact ⟨['/', '/'], Or.inr rfl, rfl, fun k hk => absurd hk (Nat.not_lt_zero k)⟩
  | case4 c r hc hs ih =>
    rw [cut_cons hc hs] at h ⊢
    obtain ⟨mark, hm, hr, hfirst⟩ := ih h
    refine ⟨mark, hm, congrArg (List.cons c) hr, ?_⟩
    intro k hk
    cases k with
    | zero =>
      -- a mark at this place would have been taken
      rintro (hp | hp)
      · exact hc (List.cons_prefix_cons.mp hp).1.symm
      · obtain ⟨rfl, more, hmore⟩ := List.cons_prefix_cons.mp hp
        exact hs more rfl hmore.symm
    | succ k => exact hfirst k (Nat.lt_of_succ_lt_succ hk)

section Parts
variable {front mark rest : Text}

/-- What stands in front of a mark starts as the line starts. -/
theorem front_divides (h : (front ++ (mark ++ rest)).Trimmed) :
    ∃ gap, gap.Void ∧ front = front.trim ++ gap := by
  apply Text.trim_divides_end
  intro c hc
  apply h.1 c
  rw [List.head?_append, hc, Option.some_or]

/-- What stands behind a mark ends as the line ends. -/
theorem rest_divides (h : (front ++ (mark ++ rest)).Trimmed) :
    ∃ gap, gap.Void ∧ rest = gap ++ rest.trim := by
  apply Text.trim_divides_start
  intro c hc
  apply h.2 c
  rw [List.getLast?_append, List.getLast?_append, hc, Option.some_or, Option.some_or]

end Parts

theorem comment_of_cut {raw rest : Text} (h : (cut raw.trim).2 = some rest) :
    (split raw).comment = if rest.trim = [] then none else some rest.trim := by
  rw [split, h, Option.map_some, Option.filter_some]
  by_cases hr : rest.trim = []
  · simp [hr]
  · simp [hr]

/-- A line is kept without the white space at its ends. Its body holds no comment
mark and has no white space at its ends. A line without a mark is all body; any
other is its body, the first mark in it and its comment, with nothing but white
space between these. A body by itself is divided into that body and no comment. -/
theorem split_divides_line (raw : Text) :
    (split raw).raw = raw.trim ∧
    Unmarked (split raw).body ∧ (split raw).body.Trimmed ∧
    (Unmarked raw.trim → (split raw).body = raw.trim ∧ (split raw).comment = none) ∧
    (¬Unmarked raw.trim → ∃ gap mark lead text : Text,
      raw.trim = (split raw).body ++ gap ++ mark ++ lead ++ text ∧
      gap.Void ∧ (mark = [';'] ∨ mark = ['/', '/']) ∧ lead.Void ∧
      (∀ k < ((split raw).body ++ gap).length, ¬StartsComment (raw.trim.drop k)) ∧
      (split raw).comment = if text = [] then none else some text) ∧
    split (split raw).body = ⟨(split raw).body, (split raw).body, none⟩ := by
  refine ⟨rfl, split_body_unmarked raw, Text.trimmed_trim _, ?_, ?_, split_body raw⟩
  · intro h
    have hc := cut_of_unmarked h
    constructor
    · change Text.trim (cut raw.trim).1 = raw.trim
      rw [hc]
      exact Text.trim_trim raw
    · change ((cut raw.trim).2.map Text.trim).filter (! ·.isEmpty) = none
      rw [hc]
      rfl
  · intro h
    cases hr : (cut raw.trim).2 with
    | none =>
      have hcut := cut_unmarked raw.trim
      rw [cut_whole hr] at hcut
      exact absurd hcut h
    | some rest =>
      -- the line has no white space at its ends, so what is trimmed off its two parts
      -- stands next to the mark
      obtain ⟨mark, hm, ht, hfirst⟩ := cut_at_first hr
      have htrim := Text.trimmed_trim raw
      rw [ht] at htrim
      obtain ⟨gap, hgap, hfront⟩ := front_divides htrim
      obtain ⟨lead, hlead, hrest⟩ := rest_divides htrim
      have hbody : (split raw).body ++ gap = (cut raw.trim).1 := hfront.symm
      refine ⟨gap, mark, lead, rest.trim, ?_, hgap, hm, hlead, ?_, comment_of_cut hr⟩
      · calc
          raw.trim = (cut raw.trim).1 ++ (mark ++ (lead ++ rest.trim)) := by rw [← hrest, ← ht]
          _ = (split raw).body ++ gap ++ mark ++ lead ++ rest.trim := by rw [hbody]; simp
      · rw [hbody]
        exact hfirst

/-- One slash makes no mark, also in front of the first mark, and the marks behind
that one belong to the comment. -/
theorem split_divides_line_at_first_mark :
    ∃ raw plain : Text, Unmarked plain.trim ∧ (split plain).body = "a / b".toList ∧
      (split plain).comment = none ∧
      ¬Unmarked raw.trim ∧ (split raw).body = "ADD 1 /".toList ∧
      (split raw).comment = some "/ // x".toList ∧
      ∃ gap mark lead text : Text, raw.trim = (split raw).body ++ gap ++ mark ++ lead ++ text ∧
        gap.Void ∧ (mark = [';'] ∨ mark = ['/', '/']) ∧ lead.Void ∧
        (∀ k < ((split raw).body ++ gap).length, ¬StartsComment (raw.trim.drop k)) ∧
        (split raw).comment = if text = [] then none else some text := by
  let raw : Text := "\tADD 1 /; / // x \r".toList
  let plain : Text := " a / b".toList
  have hp : Unmarked plain.trim := ⟨by decide, by decide⟩
  have hm : ¬Unmarked raw.trim := fun h => h.1 (by decide)
  obtain ⟨-, -, -, unmarked, -, -⟩ := split_divides_line plain
  obtain ⟨-, -, -, -, marked, -⟩ := split_divides_line raw
  obtain ⟨hbody, hnone⟩ := unmarked hp
  exact ⟨raw, plain, hp, hbody, hnone, hm, by decide, by decide, marked hm⟩

end SourceLine
end SplAssembler
