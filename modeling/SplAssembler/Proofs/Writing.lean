import Mathlib.Data.List.Basic
import SplAssembler.Proofs.Source

/-!
# How statements are written

A statement is written as its mnemonic and its arguments. The case of the
mnemonic is free, and so is the white space, as long as some stands between two
words. Reading undoes every such writing. A first word that is no mnemonic is
reported as it is, and a mnemonic with a number of arguments that it does not
take is reported by its name.
-/

set_option autoImplicit false

namespace SplAssembler

/-- The text holds the words, each behind some white space, and may end in white space. -/
inductive Text.Trails : List Text → Text → Prop
  | nil (gap : Text) : gap.Void → Trails [] gap
  | cons (gap word rest : Text) (words : List Text) : gap.Void → gap ≠ [] → Trails words rest →
      Trails (word::words) (gap ++ (word ++ rest))

namespace Text

theorem toUpper_of_space {c : Char} (h : isSpace c = true) : c.toUpper = c := by
  apply dif_neg
  rintro ⟨ha, hz⟩
  have hl : 97 ≤ c.toNat := UInt32.le_iff_toNat_le.mp ha
  have hu : c.toNat ≤ 122 := UInt32.le_iff_toNat_le.mp hz
  simp only [isSpace, Bool.or_eq_true, Bool.and_eq_true, decide_eq_true_eq, beq_iff_eq] at h
  omega

/-- A word ends where the next white space starts. -/
theorem words_before_trail {word tail : Text} {ws : List Text} (hn : word ≠ []) (hs : word.Solid)
    (h : Trails ws tail) : words (word ++ tail) = word :: words tail := by
  have ends : ∀ gap rest : Text, gap.Void → gap ≠ [] →
      words (word ++ (gap ++ rest)) = word :: words (gap ++ rest) := by
    intro gap rest hv hne
    obtain ⟨c, more, hg⟩ := List.exists_cons_of_ne_nil hne
    have hc : isSpace c = true := hv c (by simp [hg])
    rw [hg]
    rw [List.cons_append, words_solid_space word _ c hn hs hc, words_cons_space c _ hc]
  cases h with
  | nil _ hv =>
    by_cases ht : tail = []
    · rw [ht, List.append_nil, words_solid word hn hs]
      rfl
    · have hw := ends tail [] hv ht
      rwa [List.append_nil] at hw
  | cons gap next rest more hv hne _ => exact ends gap _ hv hne

theorem words_of_trails {ws : List Text} {tail : Text} (h : Trails ws tail)
    (hw : ∀ w ∈ ws, w ≠ [] ∧ w.Solid) : words tail = ws := by
  induction h with
  | nil gap hv => exact words_void gap hv
  | cons gap word rest more hv _ ht ih =>
    obtain ⟨hn, hs⟩ := hw word List.mem_cons_self
    rw [words_void_append gap _ hv, words_before_trail hn hs ht,
      ih fun w hm => hw w (List.mem_cons_of_mem word hm)]

end Text

namespace Mnemonic

def arities : Mnemonic → List Nat
  | origin => [1]
  | const => [2]
  | push => [1]
  | stop => [0]
  | call _ => [1, 2]
  | primitive op => if op.takesOperand then [0, 1] else [0]

theorem name_solid (m : Mnemonic) : m.name ≠ [] ∧ m.name.Solid := by
  cases m with
  | call exchange => cases exchange <;> decide
  | primitive op => cases op <;> decide
  | _ => decide

theorem solid_of_upper (m : Mnemonic) {word : Text} (h : word.upper = m.name) :
    word ≠ [] ∧ word.Solid := by
  obtain ⟨hn, hs⟩ := m.name_solid
  constructor
  · rintro rfl
    exact hn h.symm
  · intro c hc
    by_contra hspace
    have hsp : isSpace c = true := by simpa using hspace
    have hm : c ∈ m.name := by
      rw [← h, ← Text.toUpper_of_space hsp]
      exact List.mem_map_of_mem hc
    exact hspace (hs c hm)

end Mnemonic

namespace Statement

structure Writable (st : Statement) : Prop where
  words : ∀ a ∈ st.arguments, a ≠ [] ∧ a.Solid
  operand : ∀ op a, st = .primitive op (some a) → op.takesOperand = true

inductive Opens : Statement → Text → Prop
  | label (name : Text) : Opens (.label name) (':' :: name)
  | command (st : Statement) (m : Mnemonic) (word : Text) : st.mnemonic? = some m →
      word.upper = m.name → Opens st word

def further : Statement → List Text
  | .label _ => []
  | st => st.arguments

def Written (st : Statement) (body : Text) : Prop :=
  ∃ lead word tail, Text.Void lead ∧ Opens st word ∧ Text.Trails st.further tail ∧
    body = lead ++ (word ++ tail)

theorem ofArguments_writable {st : Statement} {m : Mnemonic} (h : st.Writable)
    (hm : st.mnemonic? = some m) : ofArguments m st.arguments = .ok st := by
  cases st with
  | label name => cases hm
  | call exchange target padding =>
    cases hm
    cases padding <;> rfl
  | primitive op operand =>
    cases hm
    cases operand with
    | none => rfl
    | some a => exact if_pos (h.operand op a rfl)
  | _ =>
    cases hm
    rfl

theorem spelled_of_opens {st : Statement} {word : Text} (h : st.Writable) (ho : Opens st word) :
    Spelled st (word :: st.further) := by
  cases ho with
  | label name => exact .label name [] (h.words name List.mem_cons_self).1
  | command _ m _ hm hw =>
    have hf : st.further = st.arguments := by
      cases st with
      | label name => cases hm
      | _ => rfl
    rw [hf]
    exact .command st m word hw (ofArguments_writable h hm)

theorem further_writable {st : Statement} (h : st.Writable) :
    ∀ a ∈ st.further, a ≠ [] ∧ a.Solid := by
  cases st with
  | label name => exact fun a ha => absurd ha List.not_mem_nil
  | _ => exact h.words

/-- No character of a mnemonic is white space, in whatever case it is written. -/
theorem opens_solid {st : Statement} {word : Text} (h : st.Writable) (ho : Opens st word) :
    word ≠ [] ∧ word.Solid := by
  cases ho with
  | label name =>
    refine ⟨List.cons_ne_nil ':' name, ?_⟩
    intro c hc
    rcases List.mem_cons.mp hc with rfl | hc
    · rfl
    · exact (h.words name List.mem_cons_self).2 c hc
  | command _ m _ _ hw => exact m.solid_of_upper hw

theorem parse_written {st : Statement} {body : Text} (h : st.Writable) (hb : st.Written body) :
    parse body = .ok (some st) := by
  obtain ⟨lead, word, tail, hl, ho, ht, rfl⟩ := hb
  obtain ⟨hn, hs⟩ := opens_solid h ho
  have hw : Text.words (lead ++ (word ++ tail)) = word :: st.further := by
    rw [Text.words_void_append lead _ hl, Text.words_before_trail hn hs ht,
      Text.words_of_trails ht (further_writable h)]
  rw [parse_iff_spelled, hw]
  exact spelled_of_opens h ho

section Faults
variable {body word : Text} {rest : List Text}

theorem parse_unknown (hb : body.words = word::rest) (hc : word.head? ≠ some ':')
    (hm : ∀ m : Mnemonic, word.upper ≠ m.name) :
    parse body = .error (.unknownCommand word.upper) := by
  have hw : ∀ name, word ≠ ':' :: name := by
    rintro name rfl
    exact hc rfl
  have hnone : Mnemonic.ofWord? word = none := by
    rw [Option.eq_none_iff_forall_ne_some]
    intro m h
    exact hm m ((Mnemonic.ofWord?_eq_some_iff word m).mp h)
  rw [parse, hb, ofWords, hnone]
  exact hw

theorem ofArguments_of_arity {m : Mnemonic} {args : List Text} (h : args.length ∈ m.arities) :
    ∃ st, ofArguments m args = .ok st := by
  cases m with
  | origin =>
    obtain ⟨a, rfl⟩ := List.length_eq_one_iff.mp (List.mem_singleton.mp h)
    exact ⟨_, rfl⟩
  | const =>
    obtain ⟨a, b, rfl⟩ := List.length_eq_two.mp (List.mem_singleton.mp h)
    exact ⟨_, rfl⟩
  | push =>
    obtain ⟨a, rfl⟩ := List.length_eq_one_iff.mp (List.mem_singleton.mp h)
    exact ⟨_, rfl⟩
  | stop =>
    rw [List.length_eq_zero_iff.mp (List.mem_singleton.mp h)]
    exact ⟨_, rfl⟩
  | call exchange =>
    rcases List.mem_pair.mp h with h | h
    · obtain ⟨a, rfl⟩ := List.length_eq_one_iff.mp h
      exact ⟨_, rfl⟩
    · obtain ⟨a, b, rfl⟩ := List.length_eq_two.mp h
      exact ⟨_, rfl⟩
  | primitive op =>
    rw [Mnemonic.arities] at h
    split at h
    · rename_i ho
      rcases List.mem_pair.mp h with h | h
      · rw [List.length_eq_zero_iff.mp h]
        exact ⟨_, rfl⟩
      · obtain ⟨a, rfl⟩ := List.length_eq_one_iff.mp h
        exact ⟨_, if_pos ho⟩
    · rw [List.length_eq_zero_iff.mp (List.mem_singleton.mp h)]
      exact ⟨_, rfl⟩

theorem ofArguments_fault {m : Mnemonic} {args : List Text} (h : args.length ∉ m.arities) :
    ofArguments m args = .error m.argumentFault := by
  unfold ofArguments
  split
  case h_7 op => cases ho : op.takesOperand <;> simp [Mnemonic.arities, ho] at h
  case h_8 op operand =>
    rw [if_neg]
    intro ho
    simp [Mnemonic.arities, ho] at h
  case h_9 => rfl
  all_goals simp [Mnemonic.arities] at h

theorem parse_ok_iff {m : Mnemonic} (hb : body.words = word::rest) (hw : word.upper = m.name) :
    (∃ st, parse body = .ok (some st)) ↔ rest.length ∈ m.arities := by
  rw [parse, hb, ofWords_of_upper rest hw]
  constructor
  · rintro ⟨st, h⟩
    by_contra ha
    rw [ofArguments_fault ha] at h
    cases h
  · intro ha
    obtain ⟨st, h⟩ := ofArguments_of_arity ha
    rw [h]
    exact ⟨st, rfl⟩

theorem parse_fault {m : Mnemonic} (hb : body.words = word::rest) (hw : word.upper = m.name)
    (ha : rest.length ∉ m.arities) : parse body = .error m.argumentFault := by
  rw [parse, hb, ofWords_of_upper rest hw, ofArguments_fault ha]
  rfl

end Faults

/-- Reading undoes writing, in any case and any layout. A body whose first word
is neither a label nor a mnemonic is refused with that word in upper case. A
mnemonic is accepted exactly with the numbers of arguments that it takes, and is
refused otherwise: directives, PUSH and calls for the number of their arguments,
STOP and the instructions for too many of them. -/
theorem parse_undoes_writing :
    (∀ (st : Statement) (body : Text), st.Writable → st.Written body →
      parse body = .ok (some st)) ∧
    (∀ (body word : Text) (rest : List Text), body.words = word::rest → word.head? ≠ some ':' →
      (∀ m : Mnemonic, word.upper ≠ m.name) → parse body = .error (.unknownCommand word.upper)) ∧
    ∀ (body word : Text) (rest : List Text) (m : Mnemonic), body.words = word::rest →
      word.upper = m.name →
      ((∃ st, parse body = .ok (some st)) ↔ rest.length ∈ m.arities) ∧
      (rest.length ∉ m.arities →
        (m ∈ [.origin, .const, .push, .call false, .call true] →
          parse body = .error (.argumentCount m.name)) ∧
        ((m = .stop ∨ ∃ op, m = .primitive op) →
          parse body = .error (.tooManyArguments m.name))) := by
  refine ⟨fun st body => parse_written, fun body word rest => parse_unknown, ?_⟩
  intro body word rest m hb hw
  refine ⟨parse_ok_iff hb hw, fun ha => ⟨?_, ?_⟩⟩
  · intro hm
    rw [parse_fault hb hw ha]
    simp only [List.mem_cons, List.not_mem_nil, or_false] at hm
    rcases hm with rfl | rfl | rfl | rfl | rfl <;> rfl
  · intro hm
    rw [parse_fault hb hw ha]
    rcases hm with rfl | ⟨op, rfl⟩ <;> rfl

/-- A call between wide spaces, a name that is no mnemonic, and two wrong numbers of arguments. -/
theorem parse_undoes_writing_of_call :
    ∃ (st : Statement) (body : Text), st.Writable ∧ st.Written body ∧
      body = "\u3000cAllX\t@S \n2\u2003".toList ∧ parse body = .ok (some st) ∧
      parse " nop 1".toList = .error (.unknownCommand "NOP".toList) ∧
      parse "CallX @S 1 2".toList = .error (.argumentCount "CALLX".toList) ∧
      parse "dup 1".toList = .error (.tooManyArguments "DUP".toList) := by
  let st : Statement := .call true "@S".toList (some ['2'])
  have hs : st.Writable := ⟨by decide, fun op a h => nomatch h⟩
  have tail : Text.Trails st.further "\t@S \n2\u2003".toList :=
    .cons ['\t'] "@S".toList _ _ (by decide) (by decide)
      (.cons [' ', '\n'] ['2'] _ _ (by decide) (by decide) (.nil ['\u2003'] (by decide)))
  have hb : st.Written "\u3000cAllX\t@S \n2\u2003".toList :=
    ⟨['\u3000'], "cAllX".toList, _, by decide, .command st (.call true) _ rfl (by decide), tail,
      rfl⟩
  have unknown : ∀ m ∈ Mnemonic.all, Text.upper "nop".toList ≠ m.name := by decide
  obtain ⟨written, other, command⟩ := parse_undoes_writing
  obtain ⟨-, calls⟩ := command "CallX @S 1 2".toList "CallX".toList ["@S".toList, ['1'], ['2']]
    (.call true) (by decide) (by decide)
  obtain ⟨-, instructions⟩ := command "dup 1".toList "dup".toList [['1']] (.primitive .dup)
    (by decide) (by decide)
  refine ⟨st, _, hs, hb, rfl, written st _ hs hb, ?_, ?_, ?_⟩
  · exact other " nop 1".toList "nop".toList [['1']] (by decide) (by decide)
      fun m => unknown m m.mem_all
  · exact (calls (by decide)).1 (by decide)
  · exact (instructions (by decide)).2 (Or.inr ⟨.dup, rfl⟩)

end Statement
end SplAssembler
