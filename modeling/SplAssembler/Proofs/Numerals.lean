import Mathlib.Data.List.Forall2
import Mathlib.Data.List.Induction
import Mathlib.Data.Nat.Digits.Defs
import SplAssembler.Proofs.Literal

/-!
# The grammar of literals

What texts are numerals and quoted characters is said here without the readers,
and the readers are shown to accept these texts and no others. The value of a
numeral is that of its digits at their places, whatever its length; only values
of 32 bits are read, and leading zeros do not count.
-/

set_option autoImplicit false

namespace SplAssembler

def IsDigit (radix : Nat) (c : Char) (d : Nat) : Prop :=
  d < radix ∧ (c = Nat.digitChar d ∨ c = (Nat.digitChar d).toUpper)

def Spells (radix : Nat) (t : Text) (n : Nat) : Prop :=
  t ≠ [] ∧ ∃ ds, List.Forall₂ (IsDigit radix) t ds ∧ Nat.ofDigits radix ds.reverse = n

inductive Numeral : Text → Nat → Prop
  | decimal (t : Text) (n : Nat) : Spells 10 t n → Numeral t n
  | hexadecimal (mark : Char) (t : Text) (n : Nat) : mark = 'x' ∨ mark = 'X' → Spells 16 t n →
      Numeral ('0' :: mark :: t) n
  | binary (mark : Char) (t : Text) (n : Nat) : mark = 'b' ∨ mark = 'B' → Spells 2 t n →
      Numeral ('0' :: mark :: t) n

inductive Quoted : Text → Nat → Prop
  | plain (c : Char) : c ≠ '\\' → Quoted ['\'', c, '\''] c.toNat
  | escaped (c : Char) : Quoted ['\'', '\\', c, '\''] c.toNat

theorem digitValue?_of_isDigit {c : Char} {d : Nat} (h : IsDigit 16 c d) :
    digitValue? c = some d := by
  have values : ∀ d < 16, digitValue? (Nat.digitChar d) = some d ∧
      digitValue? (Nat.digitChar d).toUpper = some d := by decide
  obtain ⟨hd, rfl | rfl⟩ := h
  · exact (values d hd).1
  · exact (values d hd).2

/-- Every character with a value is the digit of that value, in one case or the other. -/
theorem isDigit_of_digitValue? {c : Char} {d : Nat} (h : digitValue? c = some d) :
    IsDigit 16 c d := by
  have figures : ∀ d < 10, (Nat.digitChar d).toNat = d+48 := by decide
  have letters : ∀ d < 16, 10 ≤ d → (Nat.digitChar d).toNat = d+87 ∧
      (Nat.digitChar d).toUpper.toNat = d+55 := by decide
  simp only [digitValue?, Char.le_def, UInt32.le_iff_toNat_le, Char.toNat_val,
    Char.reduceToNat] at h
  split at h
  · have hd := Option.some.inj h
    refine ⟨by omega, Or.inl (Char.toNat_inj.mp ?_)⟩
    rw [figures d (by omega)]
    omega
  split at h
  · have hd := Option.some.inj h
    refine ⟨by omega, Or.inl (Char.toNat_inj.mp ?_)⟩
    rw [(letters d (by omega) (by omega)).1]
    omega
  split at h
  · have hd := Option.some.inj h
    refine ⟨by omega, Or.inr (Char.toNat_inj.mp ?_)⟩
    rw [(letters d (by omega) (by omega)).2]
    omega
  cases h

section Digits
variable {radix : Nat} {t : Text} {n : Nat}

theorem digit?_eq_some_iff (hr : radix ≤ 16) (c : Char) (d : Nat) :
    digit? radix c = some d ↔ IsDigit radix c d := by
  rw [digit?, Option.filter_eq_some_iff, decide_eq_true_eq]
  constructor
  · rintro ⟨hv, hd⟩
    exact ⟨hd, (isDigit_of_digitValue? hv).2⟩
  · rintro ⟨hd, hc⟩
    exact ⟨digitValue?_of_isDigit ⟨Nat.lt_of_lt_of_le hd hr, hc⟩, hd⟩

theorem mapM_digit?_iff (hr : radix ≤ 16) (t : Text) (ds : List Nat) :
    t.mapM (digit? radix) = some ds ↔ List.Forall₂ (IsDigit radix) t ds := by
  induction t generalizing ds with
  | nil => simp [eq_comm]
  | cons c t ih =>
    rw [List.forall₂_cons_left_iff, List.mapM_cons]
    constructor
    · intro h
      obtain ⟨d, hd, hrest⟩ := Option.bind_eq_some_iff.mp h
      obtain ⟨es, he, hs⟩ := Option.bind_eq_some_iff.mp hrest
      exact ⟨d, es, (digit?_eq_some_iff hr c d).mp hd, (ih es).mp he, (Option.some.inj hs).symm⟩
    · rintro ⟨d, es, hd, he, rfl⟩
      rw [(digit?_eq_some_iff hr c d).mpr hd, (ih es).mpr he]
      rfl

/-- Digits taken in from the left have the value of their places. -/
theorem positional_eq_ofDigits (radix : Nat) (ds : List Nat) :
    positional radix ds = Nat.ofDigits radix ds.reverse := by
  induction ds using List.reverseRecOn with
  | nil => rfl
  | append_singleton ds d ih =>
    rw [positional_append_one, ih, List.reverse_concat, Nat.ofDigits_cons]
    ring

theorem digits?_of_spells (hr : radix ≤ 16) (h : Spells radix t n) :
    digits? radix t = if n < numeralBound then some n else none := by
  obtain ⟨hn, ds, hd, rfl⟩ := h
  rw [digits?, if_neg (by simpa using hn), (mapM_digit?_iff hr t ds).mpr hd, Option.map_some,
    positional_eq_ofDigits, Option.filter_some]
  simp

theorem spells_of_digits? (hr : radix ≤ 16) (h : digits? radix t = some n) :
    Spells radix t n ∧ n < numeralBound := by
  have hn := (digits?_some h).1
  rw [digits?, if_neg (by simpa using hn)] at h
  obtain ⟨hm, hb⟩ := Option.filter_eq_some_iff.mp h
  obtain ⟨ds, hd, hp⟩ := Option.map_eq_some_iff.mp hm
  rw [positional_eq_ofDigits] at hp
  exact ⟨⟨hn, ds, (mapM_digit?_iff hr t ds).mp hd, hp⟩, by simpa using hb⟩

theorem spells_decimal (n : Nat) : Spells 10 (Text.decimal n) n := by
  obtain ⟨ds, hd, hp⟩ := decimal_mapM n
  rw [positional_eq_ofDigits] at hp
  exact ⟨Nat.toDigits_ne_nil, ds, (mapM_digit?_iff (by decide) _ ds).mp hd, hp⟩

/-- A zero in front has the highest place and adds nothing. -/
theorem spells_zeros (hr : 0 < radix) (h : Spells radix t n) (k : Nat) :
    Spells radix (List.replicate k '0' ++ t) n := by
  obtain ⟨hn, ds, hd, hv⟩ := h
  have hz : List.Forall₂ (IsDigit radix) (List.replicate k '0') (List.replicate k 0) := by
    induction k with
    | zero => exact .nil
    | succ k ih => exact .cons ⟨hr, Or.inl rfl⟩ ih
  refine ⟨by simp [hn], List.replicate k 0 ++ ds, List.rel_append hz hd, ?_⟩
  rw [List.reverse_append, List.reverse_replicate, Nat.ofDigits_append_replicate_zero, hv]

end Digits

theorem isDigit_of_spells {t : Text} {n : Nat} (h : Spells 10 t n) :
    ∀ c ∈ t, c.isDigit = true := by
  obtain ⟨-, ds, hs, -⟩ := h
  intro c hc
  obtain ⟨d, hd⟩ := mem_of_mapM ((mapM_digit?_iff (by decide) t ds).mpr hs) c hc
  have hr := isDigit_of_digit_ten hd
  simpa only [Char.isDigit, Bool.and_eq_true, decide_eq_true_eq, UInt32.le_iff_toNat_le,
    Char.toNat_val, ge_iff_le, Char.reduceToNat] using hr

/-- A numeral is read as its value, if that is not too large. -/
theorem numeral?_of_numeral {t : Text} {n : Nat} (h : Numeral t n) :
    numeral? t = if n < numeralBound then some n else none := by
  cases h with
  | decimal _ _ hs =>
    rw [numeral?_of_digits t (isDigit_of_spells hs)]
    exact digits?_of_spells (by decide) hs
  | hexadecimal mark t _ hm hs =>
    rcases hm with rfl | rfl
    · exact digits?_of_spells (by decide) hs
    · exact digits?_of_spells (by decide) hs
  | binary mark t _ hm hs =>
    rcases hm with rfl | rfl
    · exact digits?_of_spells (by decide) hs
    · exact digits?_of_spells (by decide) hs

theorem numeral_of_numeral? {t : Text} {n : Nat} (h : numeral? t = some n) :
    Numeral t n ∧ n < numeralBound := by
  have spelt : ∀ {radix : Nat} {digits : Text}, radix ≤ 16 → digits? radix digits = some n →
      (Spells radix digits n → Numeral t n) → Numeral t n ∧ n < numeralBound := by
    intro radix digits hr hd hn
    obtain ⟨hs, hb⟩ := spells_of_digits? hr hd
    exact ⟨hn hs, hb⟩
  unfold numeral? at h
  split at h
  · exact spelt (by decide) h (.hexadecimal 'x' _ n (Or.inl rfl))
  · exact spelt (by decide) h (.hexadecimal 'X' _ n (Or.inr rfl))
  · exact spelt (by decide) h (.binary 'b' _ n (Or.inl rfl))
  · exact spelt (by decide) h (.binary 'B' _ n (Or.inr rfl))
  · exact spelt (by decide) h (.decimal t n)

theorem numeral?_eq_some_iff (t : Text) (n : Nat) :
    numeral? t = some n ↔ Numeral t n ∧ n < numeralBound := by
  refine ⟨numeral_of_numeral?, ?_⟩
  rintro ⟨hn, hb⟩
  rw [numeral?_of_numeral hn, if_pos hb]

theorem quoted?_eq_some_iff (t : Text) (n : Nat) : quoted? t = some n ↔ Quoted t n := by
  constructor
  · intro h
    unfold quoted? at h
    split at h
    · rename_i rest
      cases rest with
      | nil => cases h
      | cons c close =>
        dsimp only at h
        split at h
        · rename_i hc
          rw [hc, ← Option.some.inj h]
          exact .escaped c
        · cases h
    · rename_i c close hne
      split at h
      · rename_i hc
        rw [hc, ← Option.some.inj h]
        exact .plain c hne
      · cases h
    · cases h
  · intro h
    cases h with
    | plain c hc =>
      rw [quoted?]
      · rfl
      · exact hc
    | escaped c => rfl

/-- No numeral starts with an apostrophe. -/
theorem numeral?_of_quoted {t : Text} {n : Nat} (h : Quoted t n) : numeral? t = none := by
  have hq : t.head? = some '\'' := by cases h <;> rfl
  cases hn : numeral? t with
  | none => rfl
  | some m =>
    obtain ⟨c, rest, rfl, hl, -⟩ := (numeral?_some hn).2
    cases hq
    exact absurd hl (by decide)

theorem literal?_eq_some_iff (t : Text) (n : Nat) :
    literal? t = some n ↔ numeral? t = some n ∨ Quoted t n := by
  rw [literal?, ← quoted?_eq_some_iff]
  cases hn : numeral? t with
  | none => simp
  | some m =>
    -- the second reader is not asked, but it would have refused the text as well
    have hq : quoted? t ≠ some n := by
      intro h
      rw [numeral?_of_quoted ((quoted?_eq_some_iff t n).mp h)] at hn
      cases hn
    simp [hq]

/-- A text is read as a numeral with a value exactly if it is one, decimal or
behind one of the marks for sixteen and two, and the value is below `2^32`; a
numeral of a larger value is not read. A literal is a numeral or a quoted
character. A number below the bound is read back from its decimal text, with any
zeros in front. -/
theorem literals_follow_grammar (t : Text) (v : Nat) :
    (numeral? t = some v ↔ Numeral t v ∧ v < 2^32) ∧
    (Numeral t v → 2^32 ≤ v → numeral? t = none) ∧
    (literal? t = some v ↔ numeral? t = some v ∨ Quoted t v) ∧
    ∀ n zeros, n < 2^32 → numeral? (List.replicate zeros '0' ++ Text.decimal n) = some n := by
  have hb : numeralBound = 2^32 := by decide
  rw [← hb]
  refine ⟨numeral?_eq_some_iff t v, ?_, literal?_eq_some_iff t v, ?_⟩
  · intro h hv
    rw [numeral?_of_numeral h, if_neg (Nat.not_lt.mpr hv)]
  · intro n zeros hn
    have hs := spells_zeros (by decide) (spells_decimal n) zeros
    exact (numeral?_eq_some_iff _ n).mpr ⟨.decimal _ n hs, hn⟩

/-- The largest value, in hexadecimal digits of both cases and with zeros in front,
and the next one, which is not read. -/
theorem literals_follow_grammar_at_bound :
    Numeral "0XffFFffFF".toList 4294967295 ∧ Numeral "4294967296".toList 4294967296 ∧
      numeral? "4294967296".toList = none ∧ numeral? "004294967295".toList = some 4294967295 ∧
      literal? "'\\''".toList = some 39 := by
  have hd : Text.decimal 4294967296 = "4294967296".toList := by decide
  have hz : List.replicate 2 '0' ++ Text.decimal 4294967295 = "004294967295".toList := by decide
  have hn : Numeral "4294967296".toList 4294967296 := by
    rw [← hd]
    exact .decimal _ _ (spells_decimal _)
  obtain ⟨marked, -, -, zeros⟩ := literals_follow_grammar "0XffFFffFF".toList 4294967295
  obtain ⟨-, large, -, -⟩ := literals_follow_grammar "4294967296".toList 4294967296
  obtain ⟨-, -, literal, -⟩ := literals_follow_grammar "'\\''".toList 39
  have hread := zeros 4294967295 2 (by decide)
  rw [hz] at hread
  exact ⟨(marked.mp (by decide)).1, hn, large hn (by decide), hread,
    literal.mpr (Or.inr (.escaped '\''))⟩

end SplAssembler
