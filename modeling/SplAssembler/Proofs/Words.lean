import Mathlib.Control.Monad.Basic
import SplAssembler.Proofs.Source

/-!
# Statements and their words

A statement keeps its arguments as they are written, and its mnemonic up to the
case of the letters. So the words of a body can be read off its statement, up to
the case of the first word, and no body with other words has the same statement.
Labels are the exception. The name is all that is kept of such a body, and any
words may follow it.
-/

set_option autoImplicit false

namespace SplAssembler

structure SameWords (ws vs : List Text) : Prop where
  length : ws.length = vs.length
  first : ws.head?.map Text.upper = vs.head?.map Text.upper
  rest : ws.tail = vs.tail

theorem sameWords_cons_iff (w v : Text) (ws vs : List Text) :
    SameWords (w::ws) (v::vs) ↔ w.upper = v.upper ∧ ws = vs := by
  constructor
  · intro h
    exact ⟨Option.some.inj h.first, h.rest⟩
  · rintro ⟨hw, rfl⟩
    exact ⟨rfl, congrArg some hw, rfl⟩

theorem sameWords_iff_rest {ws vs : List Text} (h : vs.head? = ws.head?) :
    SameWords ws vs ↔ vs.tail = ws.tail := by
  constructor
  · intro hs
    exact hs.rest.symm
  · intro ht
    have he : vs = ws := by
      cases ws <;> cases vs <;> simp_all
    rw [he]
    exact ⟨rfl, rfl, rfl⟩

namespace Statement

theorem spelled_label_iff (name : Text) (words : List Text) :
    Spelled (.label name) words ↔ name ≠ [] ∧ words.head? = some (':' :: name) := by
  constructor
  · intro h
    cases h with
    | label _ rest hn => exact ⟨hn, rfl⟩
    | command _ m word hw ho => cases (ofArguments_fields ho).1
  · rintro ⟨hn, hh⟩
    obtain ⟨rest, rfl⟩ := List.head?_eq_some_iff.mp hh
    exact .label name rest hn

/-- Other words with the same statement are the same words, unless the statement is a label. -/
theorem spelled_iff_sameWords {st : Statement} {words : List Text} (hl : ∀ name, st ≠ .label name)
    (h : Spelled st words) (other : List Text) : Spelled st other ↔ SameWords words other := by
  cases h with
  | label name rest hn => exact absurd rfl (hl name)
  | command _ m word hw ho =>
    constructor
    · intro hs
      cases hs with
      | label name rest hn => exact absurd rfl (hl name)
      | command _ m' word' hw' ho' =>
        have hm : some m = some m' :=
          (ofArguments_fields ho).1.symm.trans (ofArguments_fields ho').1
        rw [sameWords_cons_iff, hw, hw', Option.some.inj hm]
        exact ⟨rfl, rfl⟩
    · intro hs
      cases other with
      | nil => cases hs.length
      | cons word' rest =>
        obtain ⟨hu, rfl⟩ := (sameWords_cons_iff _ _ _ _).mp hs
        exact .command st m word' (hu.symm.trans hw) ho

/-- A body has the same statement as another if and only if it has the same
words, the first up to case; but for a label it is enough that the first words
are equal. Hence bodies with one statement have the same words exactly when the
statement is no label, or when the same words follow the name of the label. -/
theorem statement_gives_words_but_after_label (body other : Text) (st : Statement)
    (h : parse body = .ok (some st)) :
    ((∀ name, st ≠ .label name) →
      (parse other = .ok (some st) ↔ SameWords body.words other.words)) ∧
    (∀ name, st = .label name →
      (parse other = .ok (some st) ↔ other.words.head? = body.words.head?)) ∧
    (parse other = .ok (some st) → (SameWords body.words other.words ↔
      (∀ name, st ≠ .label name) ∨ other.words.tail = body.words.tail)) := by
  rw [parse_iff_spelled] at h
  rw [parse_iff_spelled]
  have command : (∀ name, st ≠ .label name) →
      (Spelled st other.words ↔ SameWords body.words other.words) :=
    fun hl => spelled_iff_sameWords hl h other.words
  have label : ∀ name, st = .label name →
      (Spelled st other.words ↔ other.words.head? = body.words.head?) := by
    rintro name rfl
    obtain ⟨hn, hh⟩ := (spelled_label_iff name body.words).mp h
    rw [spelled_label_iff, hh]
    exact and_iff_right hn
  refine ⟨command, label, ?_⟩
  intro ho
  by_cases hl : ∃ name, st = .label name
  · obtain ⟨name, hst⟩ := hl
    rw [sameWords_iff_rest ((label name hst).mp ho)]
    exact (or_iff_right fun hne => hne name hst).symm
  · have hne : ∀ name, st ≠ .label name := fun name he => hl ⟨name, he⟩
    exact iff_of_true ((command hne).mp ho) (Or.inl hne)

/-- Two ways to write a call have the same words, two ways to write a label have not. -/
theorem statement_gives_words_but_after_label_of_two :
    ∃ call, parse "callx @S 2".toList = .ok (some call) ∧
      parse " CallX\t@S  2".toList = .ok (some call) ∧
      SameWords (Text.words "callx @S 2".toList) (Text.words " CallX\t@S  2".toList) ∧
      parse ":a DUP".toList = .ok (some (.label ['a'])) ∧
      parse ":a".toList = .ok (some (.label ['a'])) ∧
      ¬SameWords (Text.words ":a DUP".toList) (Text.words ":a".toList) := by
  let call : Statement := .call true "@S".toList (some ['2'])
  have hc : parse "callx @S 2".toList = .ok (some call) := by decide +kernel
  have hd : parse " CallX\t@S  2".toList = .ok (some call) := by decide +kernel
  have hl : parse ":a DUP".toList = .ok (some (.label ['a'])) := by decide +kernel
  have hm : parse ":a".toList = .ok (some (.label ['a'])) := by decide +kernel
  obtain ⟨command, -, -⟩ := statement_gives_words_but_after_label _ " CallX\t@S  2".toList call hc
  obtain ⟨-, -, label⟩ := statement_gives_words_but_after_label _ ":a".toList _ hl
  refine ⟨call, hc, hd, (command (fun _ => nofun)).mp hd, hl, hm, ?_⟩
  rw [label hm]
  rintro (hne | ht)
  · exact hne _ rfl
  · exact absurd ht (by decide +kernel)

/-- The words after a label are lost: another body has the same statement without them. -/
theorem statement_loses_words_after_label :
    ¬∀ (body other : Text) (st : Statement), parse body = .ok (some st) →
      parse other = .ok (some st) → SameWords body.words other.words := by
  intro same
  have h := same ":a DUP".toList ":a".toList (.label ['a']) (by decide +kernel) (by decide +kernel)
  exact absurd h.length (by decide +kernel)

end Statement
end SplAssembler
