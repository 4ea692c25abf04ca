import SplAssembler.Text
import SplAssembler.Proofs.Text

/-!
# Laws of literals

Decimal texts read back as the numbers they were written for. A numeral is made
of letters and digits and starts with a digit, so that no numeral is the name
of anything that starts with a letter.
-/

set_option autoImplicit false

namespace SplAssembler

def isWordChar (c : Char) : Bool := c.isAlphanum || c == '_'

def isNameStart (c : Char) : Bool := c.isAlpha || c == '_'

theorem isNameStart_iff (c : Char) : isNameStart c = true ↔
    (65 ≤ c.toNat ∧ c.toNat ≤ 90) ∨ c.toNat = 95 ∨ (97 ≤ c.toNat ∧ c.toNat ≤ 122) := by
  have hu : c = '_' ↔ c.toNat = 95 := by
    rw [← Char.toNat_inj]
    rfl
  have ha : isNameStart c =
      (decide (c.val ≥ 'A'.val ∧ c.val ≤ 'Z'.val) || (c.val ≥ 'a'.val && c.val ≤ 'z'.val) ||
        c == '_') := rfl
  simp only [ha, Bool.or_eq_true, Bool.and_eq_true, decide_eq_true_eq, beq_iff_eq, hu,
    UInt32.le_iff_toNat_le, Char.toNat_val, ge_iff_le, Char.reduceToNat]
  omega

theorem isWordChar_iff_start (c : Char) :
    isWordChar c = true ↔ isNameStart c = true ∨ c.isDigit = true := by
  rw [isWordChar, isNameStart, Char.isAlphanum]
  cases c.isAlpha <;> cases c.isDigit <;> simp

theorem isWordChar_iff (c : Char) : isWordChar c = true ↔
    (48 ≤ c.toNat ∧ c.toNat ≤ 57) ∨ (65 ≤ c.toNat ∧ c.toNat ≤ 90) ∨ c.toNat = 95 ∨
      (97 ≤ c.toNat ∧ c.toNat ≤ 122) := by
  rw [isWordChar_iff_start, isNameStart_iff]
  simp only [Char.isDigit, Bool.and_eq_true, decide_eq_true_eq, UInt32.le_iff_toNat_le,
    Char.toNat_val, ge_iff_le, Char.reduceToNat]
  omega

theorem isSpace_of_wordChar {c : Char} (h : isWordChar c = true) : isSpace c = false := by
  rw [isWordChar_iff] at h
  simp only [isSpace, Bool.or_eq_false_iff, Bool.and_eq_false_iff, decide_eq_false_iff_not,
    beq_eq_false_iff_ne]
  omega

theorem wordChar_ne {c d : Char} (hc : isWordChar c = true) (hd : isWordChar d = false) :
    c ≠ d := by
  intro h
  rw [h, hd] at hc
  cases hc

theorem not_mem_of_wordChars {t : Text} {d : Char} (h : ∀ c ∈ t, isWordChar c = true)
    (hd : isWordChar d = false) : d ∉ t := by
  intro hm
  exact wordChar_ne (h d hm) hd rfl

theorem solid_of_wordChars {t : Text} (h : ∀ c ∈ t, isWordChar c = true) : t.Solid :=
  fun c hc => isSpace_of_wordChar (h c hc)

theorem digit?_digitChar (d : Nat) (h : d < 10) : digit? 10 (Nat.digitChar d) = some d := by
  have hd : ∀ d < 10, digit? 10 (Nat.digitChar d) = some d := by decide
  exact hd d h

theorem decimal_mapM (n : Nat) :
    ∃ ds, (Text.decimal n).mapM (digit? 10) = some ds ∧ positional 10 ds = n := by
  induction n using Nat.strongRecOn with
  | _ n ih =>
    rw [Text.decimal, Nat.toDigits_eq_if (by decide)]
    by_cases hn : n < 10
    · rw [if_pos hn]
      exact ⟨[n], by simp [digit?_digitChar n hn], by simp [positional]⟩
    · rw [if_neg hn]
      obtain ⟨ds, hm, hp⟩ := ih (n/10) (by omega)
      rw [Text.decimal] at hm
      refine ⟨ds ++ [n%10], ?_, ?_⟩
      · simp [List.mapM_append, hm, digit?_digitChar (n%10) (by omega)]
      · rw [positional_append_one, hp]
        omega

theorem isDigit_of_mem_decimal {n : Nat} {c : Char} (h : c ∈ Text.decimal n) : c.isDigit = true :=
  Nat.isDigit_of_mem_toDigits (by decide) (by decide) h

theorem decimal_wordChars (n : Nat) : ∀ c ∈ Text.decimal n, isWordChar c = true :=
  fun c hc => (isWordChar_iff_start c).mpr (Or.inr (isDigit_of_mem_decimal hc))

theorem decimal_solid (n : Nat) : (Text.decimal n).Solid := solid_of_wordChars (decimal_wordChars n)

/-- A text of digits has no mark of another radix. -/
theorem numeral?_of_digits (t : Text) (h : ∀ c ∈ t, c.isDigit = true) :
    numeral? t = digits? 10 t := by
  unfold numeral?
  split
  · exact absurd (h 'x' (by simp)) (by decide)
  · exact absurd (h 'X' (by simp)) (by decide)
  · exact absurd (h 'b' (by simp)) (by decide)
  · exact absurd (h 'B' (by simp)) (by decide)
  · rfl

theorem numeral?_decimal (n : Nat) :
    numeral? (Text.decimal n) = if n < numeralBound then some n else none := by
  rw [numeral?_of_digits _ (fun c => isDigit_of_mem_decimal), digits?]
  obtain ⟨ds, hm, hp⟩ := decimal_mapM n
  have hn : Text.decimal n ≠ [] := Nat.toDigits_ne_nil
  have he : (Text.decimal n).isEmpty = false := by simpa using hn
  rw [if_neg (by simp [he]), hm, Option.map_some, hp, Option.filter_some]
  simp

theorem numeral?_decimal_of_byte {n : Nat} (h : n < 256) : numeral? (Text.decimal n) = some n := by
  have hb : n < numeralBound := by
    rw [numeralBound]
    omega
  rw [numeral?_decimal, if_pos hb]

theorem quoted?_of_head {c : Char} (h : c ≠ '\'') (rest : Text) : quoted? (c::rest) = none := by
  unfold quoted?
  split
  · rename_i he
    exact absurd (List.cons.inj he).1 h
  · rename_i he
    exact absurd (List.cons.inj he).1 h
  · rfl

theorem literal?_decimal (n : Nat) :
    literal? (Text.decimal n) = if n < numeralBound then some n else none := by
  have hn : Text.decimal n ≠ [] := Nat.toDigits_ne_nil
  obtain ⟨c, rest, he⟩ := List.exists_cons_of_ne_nil hn
  have hc : c ≠ '\'' := by
    rintro rfl
    have hd : '\'' ∈ Text.decimal n := by simp [he]
    exact absurd (isDigit_of_mem_decimal hd) (by decide)
  have hq : quoted? (Text.decimal n) = none := by
    rw [he]
    exact quoted?_of_head hc rest
  rw [literal?, hq, Option.or_none, numeral?_decimal]

theorem digitValue?_range {c : Char} {d : Nat} (h : digitValue? c = some d) :
    (48 ≤ c.toNat ∧ c.toNat ≤ 57) ∨ 10 ≤ d ∧ isWordChar c = true := by
  rw [isWordChar_iff]
  simp only [digitValue?, Char.le_def, UInt32.le_iff_toNat_le, Char.toNat_val,
    Char.reduceToNat] at h
  split at h
  · omega
  split at h
  · have hd := Option.some.inj h
    omega
  split at h
  · have hd := Option.some.inj h
    omega
  cases h

theorem isWordChar_of_digit {radix d : Nat} {c : Char} (h : digit? radix c = some d) :
    isWordChar c = true := by
  obtain ⟨hv, -⟩ := Option.filter_eq_some_iff.mp h
  rcases digitValue?_range hv with hr | hr
  · exact (isWordChar_iff c).mpr (Or.inl hr)
  · exact hr.2

theorem isDigit_of_digit_ten {d : Nat} {c : Char} (h : digit? 10 c = some d) :
    48 ≤ c.toNat ∧ c.toNat ≤ 57 := by
  obtain ⟨hv, hd⟩ := Option.filter_eq_some_iff.mp h
  rcases digitValue?_range hv with hr | hr
  · exact hr
  · have hl : d < 10 := by simpa using hd
    omega

theorem map_of_mapM {α β : Type} {f : α → Option β} {xs : List α} {ys : List β}
    (h : xs.mapM f = some ys) : xs.map f = ys.map some := by
  induction xs generalizing ys with
  | nil =>
    cases h
    rfl
  | cons x xs ih =>
    rw [List.mapM_cons] at h
    obtain ⟨y, hy, hr⟩ := Option.bind_eq_some_iff.mp h
    obtain ⟨zs, hz, he⟩ := Option.bind_eq_some_iff.mp hr
    cases he
    rw [List.map_cons, List.map_cons, hy, ih hz]

theorem mem_of_mapM {α β : Type} {f : α → Option β} {xs : List α} {ys : List β}
    (h : xs.mapM f = some ys) : ∀ x ∈ xs, ∃ y, f x = some y := by
  intro x hx
  have hm : f x ∈ ys.map some := map_of_mapM h ▸ List.mem_map_of_mem hx
  obtain ⟨y, -, hy⟩ := List.mem_map.mp hm
  exact ⟨y, hy.symm⟩

theorem digits?_some {radix n : Nat} {t : Text} (h : digits? radix t = some n) :
    t ≠ [] ∧ ∀ c ∈ t, ∃ d, digit? radix c = some d := by
  rw [digits?] at h
  cases ht : t.isEmpty with
  | true => simp [ht] at h
  | false =>
    rw [if_neg (by simp [ht])] at h
    obtain ⟨hm, -⟩ := Option.filter_eq_some_iff.mp h
    obtain ⟨ds, hd, -⟩ := Option.map_eq_some_iff.mp hm
    exact ⟨by simpa using ht, mem_of_mapM hd⟩

/-- A numeral is made of letters and digits, and its first character is a digit. -/
theorem numeral?_some {t : Text} {n : Nat} (h : numeral? t = some n) :
    (∀ c ∈ t, isWordChar c = true) ∧ ∃ c rest, t = c::rest ∧ 48 ≤ c.toNat ∧ c.toNat ≤ 57 := by
  unfold numeral? at h
  have marked : ∀ (radix : Nat) (mark : Char) (rest : Text), isWordChar mark = true →
      digits? radix rest = some n → (∀ c ∈ '0' :: mark :: rest, isWordChar c = true) ∧
        ∃ c r, '0' :: mark :: rest = c::r ∧ 48 ≤ c.toNat ∧ c.toNat ≤ 57 := by
    intro radix mark rest hm hd
    refine ⟨?_, '0', mark::rest, rfl, by decide, by decide⟩
    intro c hc
    rcases List.mem_cons.mp hc with rfl | hc
    · decide
    rcases List.mem_cons.mp hc with rfl | hc
    · exact hm
    · obtain ⟨d, hd⟩ := (digits?_some hd).2 c hc
      exact isWordChar_of_digit hd
  split at h
  · exact marked 16 'x' _ (by decide) h
  · exact marked 16 'X' _ (by decide) h
  · exact marked 2 'b' _ (by decide) h
  · exact marked 2 'B' _ (by decide) h
  · obtain ⟨hn, hd⟩ := digits?_some h
    constructor
    · intro c hc
      obtain ⟨d, hd⟩ := hd c hc
      exact isWordChar_of_digit hd
    · obtain ⟨c, rest, rfl⟩ := List.exists_cons_of_ne_nil hn
      obtain ⟨d, hd⟩ := hd c (by simp)
      exact ⟨c, rest, rfl, isDigit_of_digit_ten hd⟩

/-- A text that starts with a letter or another character above the digits is no literal. -/
theorem literal?_of_head {c : Char} (h : 57 < c.toNat) (rest : Text) :
    literal? (c::rest) = none := by
  have hn : numeral? (c::rest) = none := by
    cases hv : numeral? (c::rest) with
    | none => rfl
    | some n =>
      obtain ⟨d, r, he, -, hd⟩ := (numeral?_some hv).2
      rw [(List.cons.inj he).1] at h
      omega
  have hq : c ≠ '\'' := by
    rintro rfl
    exact absurd h (by decide)
  rw [literal?, hn, quoted?_of_head hq]
  rfl

end SplAssembler
