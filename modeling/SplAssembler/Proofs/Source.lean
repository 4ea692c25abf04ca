import SplAssembler.Proofs.Text
import SplAssembler.Source

/-!
# What source lines hold

A statement is read from its mnemonic, in any case, and its arguments, or from a
label and whatever words follow it. The arguments are words of the body, so they
are neither empty nor divided by white space, and no comment starts in them, as
none starts in a body. The line itself and its comment are kept without white
space at the end and have no characters that the line does not have.
-/

set_option autoImplicit false

namespace SplAssembler

namespace Mnemonic

theorem name_upper (m : Mnemonic) : m.name.upper = m.name := by
  cases m with
  | call exchange => cases exchange <;> decide
  | primitive op => cases op <;> decide
  | _ => decide

theorem ofWord?_eq_some_iff (word : Text) (m : Mnemonic) :
    ofWord? word = some m ↔ word.upper = m.name := by
  constructor
  · intro h
    have hn := List.find?_some h
    exact (beq_iff_eq.mp hn).symm
  · intro h
    rw [← ofWord?_name m, ofWord?, ofWord?, h, m.name_upper]

/-- No mnemonic starts with a colon. -/
theorem upper_ne_colon (m : Mnemonic) (name : Text) : Text.upper (':' :: name) ≠ m.name := by
  intro h
  have hh := congrArg List.head? h
  cases m with
  | call exchange => cases exchange <;> cases hh
  | primitive op => cases op <;> cases hh
  | _ => cases hh

end Mnemonic

namespace Statement

def arguments : Statement → List Text
  | .label name => [name]
  | .origin value => [value]
  | .const name value => [name, value]
  | .push operand => [operand]
  | .stop => []
  | .call _ target padding => target :: padding.toList
  | .primitive _ operand => operand.toList

def mnemonic? : Statement → Option Mnemonic
  | .label _ => none
  | .origin _ => some .origin
  | .const _ _ => some .const
  | .push _ => some .push
  | .stop => some .stop
  | .call exchange _ _ => some (.call exchange)
  | .primitive op _ => some (.primitive op)

theorem ofArguments_fields {m : Mnemonic} {words : List Text} {st : Statement}
    (h : ofArguments m words = .ok st) : st.mnemonic? = some m ∧ st.arguments = words := by
  unfold ofArguments at h
  split at h
  case h_8 op operand =>
    split at h
    · cases h
      exact ⟨rfl, rfl⟩
    · cases h
  case h_9 => cases h
  all_goals
    cases h
    exact ⟨rfl, rfl⟩

/-- The words that a statement is read from: a label with any words behind it,
or a mnemonic with the arguments of the statement. -/
inductive Spelled : Statement → List Text → Prop
  | label (name : Text) (rest : List Text) : name ≠ [] →
      Spelled (.label name) ((':' :: name) :: rest)
  | command (st : Statement) (m : Mnemonic) (word : Text) : word.upper = m.name →
      ofArguments m st.arguments = .ok st → Spelled st (word :: st.arguments)

theorem ofWords_of_upper {word : Text} {m : Mnemonic} (arguments : List Text)
    (h : word.upper = m.name) :
    ofWords (word::arguments) = (ofArguments m arguments).map some := by
  have hw : ∀ name, word ≠ ':' :: name := by
    rintro name rfl
    exact m.upper_ne_colon name h
  rw [ofWords, (Mnemonic.ofWord?_eq_some_iff word m).mpr h]
  exact hw

theorem spelled_of_ofWords {words : List Text} {st : Statement}
    (h : ofWords words = .ok (some st)) : Spelled st words := by
  unfold ofWords at h
  split at h
  · cases h
  · rename_i name rest
    cases hn : name.isEmpty with
    | true => simp [hn] at h
    | false =>
      rw [if_neg (by simp [hn])] at h
      cases h
      exact .label name rest (by simpa using hn)
  · rename_i word arguments _
    cases hm : Mnemonic.ofWord? word with
    | none => simp [hm] at h
    | some m =>
      simp only [hm] at h
      cases ho : ofArguments m arguments with
      | error fault => simp [ho, Except.map] at h
      | ok st' =>
        have he : st' = st := by simpa [ho, Except.map] using h
        subst he
        have ha := (ofArguments_fields ho).2
        subst ha
        exact .command st' m word ((Mnemonic.ofWord?_eq_some_iff word m).mp hm) ho

theorem parse_iff_spelled (body : Text) (st : Statement) :
    parse body = .ok (some st) ↔ Spelled st body.words := by
  rw [parse]
  refine ⟨spelled_of_ofWords, ?_⟩
  generalize body.words = words
  intro h
  cases h with
  | label name rest hn => rw [ofWords, if_neg (by simpa using hn)]
  | command _ m word hw ho =>
    rw [ofWords_of_upper _ hw, ho]
    rfl

/-- An argument is a word of the body, or such a word without the colon before it. -/
theorem parse_words {body : Text} {st : Statement} (h : parse body = .ok (some st)) :
    ∀ a ∈ st.arguments, a ≠ [] ∧ ∃ w ∈ body.words, a <:+ w := by
  have hs := (parse_iff_spelled body st).mp h
  have hw : ∀ w ∈ body.words, w ≠ [] := fun w hw => (Text.mem_words hw).1
  generalize body.words = words at hs hw
  intro a ha
  cases hs with
  | label name rest hn =>
    rw [List.mem_singleton.mp ha]
    exact ⟨hn, ':' :: name, by simp, List.suffix_cons ':' name⟩
  | command _ m word hu ho => exact ⟨hw a (by simp [ha]), a, by simp [ha], List.suffix_rfl⟩

theorem parse_arguments {body : Text} {st : Statement} (h : parse body = .ok (some st)) :
    ∀ a ∈ st.arguments, a ≠ [] ∧ a.Solid := by
  intro a ha
  obtain ⟨hn, w, hw, hs⟩ := parse_words h a ha
  exact ⟨hn, fun c hc => (Text.mem_words hw).2 c (hs.subset hc)⟩

theorem parse_within {body : Text} {st : Statement} (h : parse body = .ok (some st)) :
    ∀ a ∈ st.arguments, a <:+: body := by
  intro a ha
  obtain ⟨-, w, hw, hs⟩ := parse_words h a ha
  exact hs.isInfix.trans (Text.infix_of_mem_words hw)

end Statement

def Text.Tidy (t : Text) : Prop := '\n' ∉ t ∧ ∀ c, t.getLast? = some c → isSpace c = false

theorem Text.tidy_trim {t : Text} (h : '\n' ∉ t) : t.trim.Tidy :=
  ⟨fun hc => h (Text.mem_of_mem_trim hc), fun _ hc => Text.last_of_trim hc⟩

namespace SourceLine

def Unmarked (t : Text) : Prop := ';' ∉ t ∧ ¬['/', '/'] <:+: t

theorem unmarked_within {s t : Text} (h : s <:+: t) (ht : Unmarked t) : Unmarked s :=
  ⟨fun hc => ht.1 (h.subset hc), fun hm => ht.2 (hm.trans h)⟩

theorem cut_cons {c : Char} {rest : Text} (hc : c = ';' → False)
    (hs : ∀ more, c = '/' → rest = '/' :: more → False) :
    cut (c::rest) = (c :: (cut rest).1, (cut rest).2) := by
  rw [cut]
  · rfl
  · exact hc
  · exact hs

theorem cut_starts (t : Text) : (cut t).1 <+: t := by
  induction t using cut.induct with
  | case1 => exact List.prefix_rfl
  | case2 rest => exact List.nil_prefix
  | case3 rest => exact List.nil_prefix
  | case4 c rest hc hs ih =>
    rw [cut_cons hc hs]
    exact List.cons_prefix_cons.mpr ⟨rfl, ih⟩

/-- The text before a comment holds no further mark. -/
theorem cut_unmarked (t : Text) : Unmarked (cut t).1 := by
  induction t using cut.induct with
  | case1 => exact ⟨by simp [cut], by simp [cut]⟩
  | case2 rest => exact ⟨by simp [cut], by simp [cut]⟩
  | case3 rest => exact ⟨by simp [cut], by simp [cut]⟩
  | case4 c rest hc hs ih =>
    rw [cut_cons hc hs]
    refine ⟨?_, ?_⟩
    · intro hm
      rcases List.mem_cons.mp hm with h | h
      · exact hc h.symm
      · exact ih.1 h
    · intro hm
      rcases List.infix_cons_iff.mp hm with h | h
      · -- two slashes at the start would have been found before
        obtain ⟨rfl, hp⟩ := List.cons_prefix_cons.mp h
        obtain ⟨more, hr⟩ := hp.trans (cut_starts rest)
        exact hs more rfl hr.symm
      · exact ih.2 h

theorem cut_of_unmarked {t : Text} (h : Unmarked t) : cut t = (t, none) := by
  induction t using cut.induct with
  | case1 => rfl
  | case2 rest => exact absurd List.mem_cons_self h.1
  | case3 rest => exact absurd (List.prefix_append ['/', '/'] rest).isInfix h.2
  | case4 c rest hc hs ih =>
    rw [cut_cons hc hs, ih (unmarked_within (List.suffix_cons c rest).isInfix h)]

theorem split_body_unmarked (raw : Text) : Unmarked (split raw).body :=
  unmarked_within (Text.trim_within _) (cut_unmarked _)

/-- A body is a line of its own, and all of it is body. -/
theorem split_body (raw : Text) :
    split (split raw).body = ⟨(split raw).body, (split raw).body, none⟩ := by
  have ht : Text.trim (split raw).body = (split raw).body := Text.trim_trim _
  rw [split, ht, cut_of_unmarked (split_body_unmarked raw)]
  simp [ht]

theorem mem_of_mem_cut {t rest : Text} {c : Char} (h : (cut t).2 = some rest) (hc : c ∈ rest) :
    c ∈ t := by
  induction t using cut.induct with
  | case1 => cases h
  | case2 r =>
    rw [cut] at h
    rw [← Option.some.inj h] at hc
    simp [hc]
  | case3 r =>
    rw [cut] at h
    rw [← Option.some.inj h] at hc
    simp [hc]
  | case4 a r ha hs ih =>
    rw [cut_cons ha hs] at h
    simp [ih h]

theorem split_raw_tidy {raw : Text} (h : '\n' ∉ raw) : (split raw).raw.Tidy :=
  Text.tidy_trim h

theorem split_comment_tidy {raw text : Text} (h : '\n' ∉ raw)
    (hc : (split raw).comment = some text) : text.Tidy := by
  obtain ⟨hm, -⟩ := Option.filter_eq_some_iff.mp hc
  obtain ⟨rest, hr, rfl⟩ := Option.map_eq_some_iff.mp hm
  exact Text.tidy_trim fun hn => h (Text.mem_of_mem_trim (mem_of_mem_cut hr hn))

end SourceLine
end SplAssembler
