import SplAssembler.Proofs.Listing.Scanner

/-!
# What is left of a line without its comments

Comments are cut out in rounds. A round keeps the text in front of the first
mark. A line comment or a block comment that is never closed ends the rounds,
and behind a block comment that is closed the next round begins. Every text
comes to an end this way, with the text that the scan gives. What a round keeps
does not end in a slash, so it makes no mark together with what follows it,
wherever a comment was cut out between the two.
-/

set_option autoImplicit false

namespace SplAssembler
namespace Listing

def Clear (t : Text) : Prop := Uncommented t ∧ t.getLast? ≠ some '/'

instance (t : Text) : Decidable (Clear t) := inferInstanceAs (Decidable (_ ∧ _))

/-- What the rounds leave of a text. Each case is one round, told by the first mark
that opens a comment and the first one behind it that closes the comment. -/
inductive Cuts : Text → Text → Prop
  | whole {t : Text} (ht : Uncommented t) : Cuts t t
  | line {front : Text} (rest : Text) (hf : Clear front) :
      Cuts (front ++ '/' :: '/' :: rest) front
  | unclosed {front body : Text} (hf : Clear front) (hb : ¬['*', '/'] <:+: body) :
      Cuts (front ++ '/' :: '*' :: body) front
  | closed {front body rest out : Text} (hf : Clear front) (hb : ¬['*', '/'] <:+: body)
      (hr : Cuts rest out) :
      Cuts (front ++ '/' :: '*' :: (body ++ '*' :: '/' :: rest)) (front ++ out)

theorem passes_of_clear {t : Text} (h : Clear t) : Passes t :=
  fun rest => strip_uncommented h.1 rest (fun hs => absurd hs h.2)

theorem strip_whole {t : Text} (h : Uncommented t) : stripComments t = t := by
  have hs := strip_uncommented h [] (fun _ => by simp)
  rw [stripFrom, List.append_nil] at hs
  exact hs

theorem strip_line {front : Text} (h : Clear front) (rest : Text) :
    stripComments (front ++ '/' :: '/' :: rest) = front := by
  rw [stripComments, passes_of_clear h, stripFrom, List.append_nil]

theorem strip_unclosed {front body : Text} (h : Clear front) (hb : ¬['*', '/'] <:+: body) :
    stripComments (front ++ '/' :: '*' :: body) = front := by
  have hs : stripFrom true (body ++ []) = stripFrom true [] := strip_within hb (by simp)
  rw [List.append_nil] at hs
  rw [stripComments, passes_of_clear h, stripFrom, hs, stripFrom, List.append_nil]

/-- The asterisk of the closing mark does not close the comment together with
what stands in front of it. -/
theorem strip_block {front body : Text} (h : Clear front) (hb : ¬['*', '/'] <:+: body)
    (rest : Text) : stripComments (front ++ '/' :: '*' :: (body ++ '*' :: '/' :: rest)) =
      front ++ stripComments rest := by
  rw [stripComments, passes_of_clear h, stripFrom, strip_within hb (by simp), stripFrom,
    stripComments]

/-- The rounds leave what the scan leaves. -/
theorem strip_of_cuts {t out : Text} (h : Cuts t out) : stripComments t = out := by
  induction h with
  | whole ht => exact strip_whole ht
  | line rest hf => exact strip_line hf rest
  | unclosed hf hb => exact strip_unclosed hf hb
  | closed hf hb _ ih => rw [strip_block hf hb, ih]

/-- A mark of two characters is in a text joined from two only if it is in one of
them or they meet in it. -/
theorem no_mark_append {x m : Char} {a b : Text} (ha : ¬[x, m] <:+: a) (hb : ¬[x, m] <:+: b)
    (hj : a.getLast? = some x → b.head? ≠ some m) : ¬[x, m] <:+: a ++ b := by
  induction a with
  | nil => exact hb
  | cons c a ih =>
    rw [List.cons_append, List.infix_cons_iff]
    rintro (hp | hi)
    · exact no_mark_at ha hj hp
    · exact ih (fun h => ha (List.infix_cons h)) (fun h => hj (last_cons h)) hi

theorem uncommented_append {a b : Text} (ha : Uncommented a) (hb : Uncommented b)
    (hj : Apart a b) : Uncommented (a ++ b) :=
  ⟨no_mark_append ha.1 hb.1 (fun hs => (hj hs).1), no_mark_append ha.2 hb.2 (fun hs => (hj hs).2)⟩

/-- No round leaves a mark, and none makes one with what the rounds after it leave. -/
theorem uncommented_of_cuts {t out : Text} (h : Cuts t out) : Uncommented out := by
  induction h with
  | whole ht => exact ht
  | line _ hf => exact hf.1
  | unclosed hf _ => exact hf.1
  | closed hf _ _ ih => exact uncommented_append hf.1 ih (fun hs => absurd hs hf.2)

theorem no_mark_cons {mark t : Text} {c : Char} (hp : ¬mark <+: c::t) (hi : ¬mark <:+: t) :
    ¬mark <:+: c::t := by
  rw [List.infix_cons_iff]
  exact fun h => h.elim hp hi

theorem clear_cons {c : Char} {t : Text} (h : Clear t) (hl : ¬['/', '/'] <+: c::t)
    (hb : ¬['/', '*'] <+: c::t) (hs : t = [] → c ≠ '/') : Clear (c::t) := by
  refine ⟨⟨no_mark_cons hl h.1.1, no_mark_cons hb h.1.2⟩, ?_⟩
  cases t with
  | nil => simpa using hs rfl
  | cons d t => exact h.2

/-- A text holds no mark, or it has a first one. -/
theorem first_opening (t : Text) :
    Uncommented t ∨ ∃ front mark rest, (mark = '/' ∨ mark = '*') ∧ Clear front ∧
      t = front ++ '/' :: mark :: rest := by
  induction t with
  | nil => exact Or.inl (by decide)
  | cons c t ih =>
    by_cases hl : ['/', '/'] <+: c::t
    · obtain ⟨rest, hr⟩ := hl
      exact Or.inr ⟨[], '/', rest, Or.inl rfl, by decide, hr.symm⟩
    by_cases hb : ['/', '*'] <+: c::t
    · obtain ⟨rest, hr⟩ := hb
      exact Or.inr ⟨[], '*', rest, Or.inr rfl, by decide, hr.symm⟩
    rcases ih with h | ⟨front, mark, rest, hm, hf, rfl⟩
    · exact Or.inl ⟨no_mark_cons hl h.1, no_mark_cons hb h.2⟩
    · have starts : c::front <+: c :: (front ++ '/' :: mark :: rest) :=
        List.prefix_append (c::front) ('/' :: mark :: rest)
      refine Or.inr ⟨c::front, mark, rest, hm, ?_, rfl⟩
      apply clear_cons hf (fun hp => hl (hp.trans starts)) (fun hp => hb (hp.trans starts))
      -- a slash right in front of the mark would open a line comment one place before it
      rintro rfl rfl
      exact hl (List.prefix_append ['/', '/'] (mark :: rest))

theorem first_closing (t : Text) :
    ¬['*', '/'] <:+: t ∨ ∃ body rest, ¬['*', '/'] <:+: body ∧ t = body ++ '*' :: '/' :: rest := by
  induction t with
  | nil => exact Or.inl (by simp)
  | cons c t ih =>
    by_cases hc : ['*', '/'] <+: c::t
    · obtain ⟨rest, hr⟩ := hc
      exact Or.inr ⟨[], rest, by simp, hr.symm⟩
    rcases ih with h | ⟨body, rest, hb, rfl⟩
    · exact Or.inl (no_mark_cons hc h)
    · have starts : c::body <+: c :: (body ++ '*' :: '/' :: rest) :=
        List.prefix_append (c::body) ('*' :: '/' :: rest)
      exact Or.inr ⟨c::body, rest, no_mark_cons (fun hp => hc (hp.trans starts)) hb, rfl⟩

/-- The rounds come to an end: each leaves a shorter text to the next. -/
theorem cuts_total (t : Text) : ∃ out, Cuts t out := by
  -- only a block comment that is closed leads to another round, behind its two marks
  induction hn : t.length using Nat.strongRecOn generalizing t with
  | ind n ih =>
    rcases first_opening t with h | ⟨front, mark, rest, rfl | rfl, hf, rfl⟩
    · exact ⟨t, .whole h⟩
    · exact ⟨front, .line rest hf⟩
    · rcases first_closing rest with hb | ⟨body, rest, hb, rfl⟩
      · exact ⟨front, .unclosed hf hb⟩
      · have shorter : rest.length < n := by
          simp only [List.length_append, List.length_cons] at hn
          omega
        obtain ⟨out, hr⟩ := ih _ shorter rest rfl
        exact ⟨front ++ out, .closed hf hb hr⟩

theorem cuts_iff (t out : Text) : Cuts t out ↔ out = stripComments t := by
  constructor
  · exact fun h => (strip_of_cuts h).symm
  · rintro rfl
    obtain ⟨out, h⟩ := cuts_total t
    rw [strip_of_cuts h]
    exact h

/-- The rounds of a line come to an end, and what they leave is what the scan
gives. It holds no mark, so nothing is left to cut out, and only a line without
a mark stays as it is. A block comment behind a text that is clear goes with its
two marks; a line comment goes with all that follows it. -/
theorem comments_cut_out_completely (line : Text) :
    (∀ out, Cuts line out ↔ out = stripComments line) ∧
    Uncommented (stripComments line) ∧
    stripComments (stripComments line) = stripComments line ∧
    (Uncommented line ↔ stripComments line = line) ∧
    (∀ p q r : Text, Clear p → ¬['*', '/'] <:+: q →
      stripComments (p ++ ['/', '*'] ++ q ++ ['*', '/'] ++ r) = p ++ stripComments r) ∧
    ∀ p r : Text, Clear p → stripComments (p ++ ['/', '/'] ++ r) = p := by
  have left : Uncommented (stripComments line) :=
    uncommented_of_cuts ((cuts_iff line _).mpr rfl)
  refine ⟨cuts_iff line, left, strip_whole left, ⟨strip_whole, ?_⟩, ?_, ?_⟩
  · intro h
    rw [h] at left
    exact left
  · intro p q r hp hq
    simpa using strip_block hp hq r
  · intro p r hp
    simpa using strip_line hp r

/-- A comment that begins with a slash and ends in two asterisks, one right behind
it, and the mark of a line comment right behind another. -/
theorem comments_cut_out_completely_side_by_side :
    ∃ plain p q r s : Text, Uncommented plain ∧ Clear p ∧ ¬['*', '/'] <:+: q ∧
      stripComments plain = plain ∧
      stripComments (p ++ ['/', '*'] ++ q ++ ['*', '/'] ++ r) = p ++ stripComments r ∧
      p ++ stripComments r = "1 2 /, ".toList ∧
      Cuts (p ++ ['/', '*'] ++ q ++ ['*', '/'] ++ r) "1 2 /, ".toList ∧
      stripComments (p ++ ['/', '/'] ++ s) = p := by
  let plain : Text := "*/ '/' /".toList
  let p : Text := "1".toList
  let q : Text := "/ x *".toList
  let r : Text := "/**/ 2 /, /* a */// /* b".toList
  let s : Text := "*".toList
  have hp : Clear p := by decide +kernel
  have hq : ¬['*', '/'] <:+: q := by decide +kernel
  have hplain : Uncommented plain := by decide +kernel
  have hr : p ++ stripComments r = "1 2 /, ".toList := by decide +kernel
  obtain ⟨-, -, -, same, -, -⟩ := comments_cut_out_completely plain
  obtain ⟨rounds, -, -, -, block, line⟩ :=
    comments_cut_out_completely (p ++ ['/', '*'] ++ q ++ ['*', '/'] ++ r)
  have hb := block p q r hp hq
  refine ⟨plain, p, q, r, s, hplain, hp, hq, same.mp hplain, hb, hr, ?_, line p s hp⟩
  exact (rounds _).mpr (by rw [hb, hr])

end Listing
end SplAssembler
