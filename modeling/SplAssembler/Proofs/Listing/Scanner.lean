import SplAssembler.Listing
import SplAssembler.Proofs.Listing.Plain

/-!
# Reading the rows of a listing

A reader cuts comments out of a row and divides what is left at commas outside
quotes. Both scans are followed piece by piece: a piece passes when no comment
mark starts in it, and it is closed when it holds no dividing comma and ends
outside quotes. The row of a plain code line gives back the one element that
its slot stands for, whatever its comment says.
-/

set_option autoImplicit false

namespace SplAssembler
namespace Listing

def Passes (t : Text) : Prop := ∀ rest, stripFrom false (t ++ rest) = t ++ stripFrom false rest

def Closed (t : Text) : Prop :=
  ∀ rest, pieces .outside (t ++ rest) = (pieces .outside rest).modifyHead (t ++ ·)

def Uncommented (t : Text) : Prop := ¬['/', '/'] <:+: t ∧ ¬['/', '*'] <:+: t

instance (t : Text) : Decidable (Uncommented t) := inferInstanceAs (Decidable (_ ∧ _))

def Apart (a b : Text) : Prop :=
  a.getLast? = some '/' → b.head? ≠ some '/' ∧ b.head? ≠ some '*'

theorem strip_cons (c : Char) (rest : Text) (h : c ≠ '/') :
    stripFrom false (c::rest) = c :: stripFrom false rest := by
  rw [stripFrom]
  · rintro r rfl
    exact absurd rfl h
  · rintro r rfl
    exact absurd rfl h

theorem last_cons {a c : Char} {t : Text} (h : t.getLast? = some c) :
    (a::t).getLast? = some c := by
  rw [List.getLast?_cons, h, Option.getD_some]

/-- A mark of two characters that is not in a text does not start there either
when what follows does not complete it. -/
theorem no_mark_at {x m a : Char} {t rest : Text} (h : ¬[x, m] <:+: a::t)
    (hj : (a::t).getLast? = some x → rest.head? ≠ some m) : ¬[x, m] <+: a :: (t ++ rest) := by
  intro hp
  obtain ⟨rfl, hm⟩ := List.cons_prefix_cons.mp hp
  cases t with
  | nil =>
    obtain ⟨r, hr⟩ := hm
    exact hj rfl (by rw [← List.nil_append rest, ← hr]; rfl)
  | cons d t =>
    obtain ⟨rfl, -⟩ := List.cons_prefix_cons.mp hm
    exact h (List.prefix_append [x, m] t).isInfix

/-- A text without a mark passes unless its last slash begins one. -/
theorem strip_uncommented {t : Text} (h : Uncommented t) (rest : Text) (hj : Apart t rest) :
    stripFrom false (t ++ rest) = t ++ stripFrom false rest := by
  induction t with
  | nil => rfl
  | cons a t ih =>
    have hline := no_mark_at h.1 (fun hs => (hj hs).1)
    have hblock := no_mark_at h.2 (fun hs => (hj hs).2)
    have ht : Uncommented t :=
      ⟨fun hi => h.1 (List.infix_cons hi), fun hi => h.2 (List.infix_cons hi)⟩
    rw [List.cons_append, stripFrom]
    · rw [ih ht (fun hs => hj (last_cons hs))]
      rfl
    · rintro r rfl he
      rw [he] at hblock
      exact hblock (List.prefix_append ['/', '*'] r)
    · rintro r rfl he
      rw [he] at hline
      exact hline (List.prefix_append ['/', '/'] r)

theorem uncommented_of_no_slash {t : Text} (h : '/' ∉ t) : Uncommented t :=
  ⟨fun hi => h (hi.subset (by simp)), fun hi => h (hi.subset (by simp))⟩

theorem passes_of_no_slash {t : Text} (h : '/' ∉ t) : Passes t := by
  intro rest
  apply strip_uncommented (uncommented_of_no_slash h)
  exact fun hs => absurd (List.mem_of_getLast? hs) h

theorem isCharacter_cases {t : Text} (h : isCharacter t = true) :
    (∃ c, t = ['\'', '\\', c, '\'']) ∨ ∃ c, t = ['\'', c, '\''] ∧ c ≠ '\'' ∧ c ≠ '\\' := by
  unfold isCharacter at h
  split at h
  · split at h
    · rename_i c close
      have hc : close = ['\''] := by simpa using h
      exact Or.inl ⟨c, by rw [hc]⟩
    · cases h
  · rename_i c close hb
    have hc : c ≠ '\'' ∧ close = ['\''] := by simpa using h
    exact Or.inr ⟨c, by rw [hc.2], hc.1, hb⟩
  · cases h

/-- A slash between apostrophes starts no comment. -/
theorem uncommented_character {t : Text} (h : isCharacter t = true) : Uncommented t := by
  rcases isCharacter_cases h with ⟨c, rfl⟩ | ⟨c, rfl, -, -⟩
  · simp [Uncommented, List.infix_cons_iff]
  · simp [Uncommented, List.infix_cons_iff]

theorem passes_character {t : Text} (h : isCharacter t = true) : Passes t := by
  intro rest
  apply strip_uncommented (uncommented_character h)
  intro hs
  rcases isCharacter_cases h with ⟨c, rfl⟩ | ⟨c, rfl, -, -⟩
  · simp at hs
  · simp at hs

/-- A text without a closing mark is skipped in a block comment. -/
theorem strip_within {q rest : Text} (h : ¬['*', '/'] <:+: q) (hr : rest.head? ≠ some '/') :
    stripFrom true (q ++ rest) = stripFrom true rest := by
  induction q with
  | nil => rfl
  | cons a q ih =>
    have hm := no_mark_at h (fun _ => hr)
    rw [List.cons_append, stripFrom]
    · exact ih (fun hq => h (List.infix_cons hq))
    · rintro r rfl he
      rw [he] at hm
      exact hm (List.prefix_append ['*', '/'] r)

theorem closed_append {a b : Text} (ha : Closed a) (hb : Closed b) : Closed (a ++ b) := by
  intro rest
  rw [List.append_assoc, ha, hb, List.modifyHead_modifyHead]
  congr 1
  funext t
  simp

theorem closed_of_unquoted {t : Text} (h : ∀ c ∈ t, c ≠ ',' ∧ c ≠ '\'') : Closed t := by
  intro rest
  induction t with
  | nil =>
    rw [List.nil_append]
    cases pieces .outside rest <;> rfl
  | cons c t ih =>
    have hc := h c (by simp)
    rw [List.cons_append, pieces, if_neg (fun hn => hc.1 hn.2), Quoting.after, if_neg hc.2,
      ih (fun d hd => h d (by simp [hd])), List.modifyHead_modifyHead]
    rfl

theorem closed_escaped (c : Char) : Closed ['\'', '\\', c, '\''] := by
  intro rest
  simp [pieces, Quoting.after, List.modifyHead_modifyHead, Function.comp_def]

theorem closed_quoted {c : Char} (hq : c ≠ '\'') (hb : c ≠ '\\') : Closed ['\'', c, '\''] := by
  intro rest
  simp [pieces, Quoting.after, hq, hb, List.modifyHead_modifyHead, Function.comp_def]

theorem closed_character {t : Text} (h : isCharacter t = true) : Closed t := by
  rcases isCharacter_cases h with ⟨c, rfl⟩ | ⟨c, rfl, hq, hb⟩
  · exact closed_escaped c
  · exact closed_quoted hq hb

theorem closed_void {t : Text} (h : t.Void) : Closed t := by
  apply closed_of_unquoted
  intro c hc
  have hs := h c hc
  constructor
  · rintro rfl
    exact absurd hs (by decide)
  · rintro rfl
    exact absurd hs (by decide)

theorem pieces_comma {t : Text} (h : Closed t) (rest : Text) :
    pieces .outside (t ++ ',' :: rest) = t :: pieces .outside rest := by
  rw [h, pieces, if_pos ⟨rfl, rfl⟩, List.modifyHead_cons, List.append_nil]

theorem pieces_closed {t : Text} (h : Closed t) : pieces .outside t = [t] := by
  simpa [pieces] using h []

theorem elements_void {t : Text} (h : t.Void) : elements t = [] := by
  rw [elements, pieces_closed (closed_void h)]
  simp [Text.trim_void t h]

theorem closed_between {a e b : Text} (ha : a.Void) (he : Closed e) (hb : b.Void) :
    Closed (a ++ (e ++ b)) :=
  closed_append (closed_void ha) (closed_append he (closed_void hb))

/-- The element before a comma is found between white space. -/
theorem elements_comma (a e b rest : Text) (ha : a.Void) (hb : b.Void) (ht : e.Trimmed)
    (hn : e ≠ []) (hc : Closed e) :
    elements (a ++ (e ++ (b ++ ',' :: rest))) = e :: elements rest := by
  have he : a ++ (e ++ (b ++ ',' :: rest)) = (a ++ (e ++ b)) ++ ',' :: rest := by simp
  rw [elements, he, pieces_comma (closed_between ha hc hb), List.map_cons,
    Text.trim_between a e b ha ht hb]
  rw [List.filter_cons_of_pos (by simpa using hn), elements]

def element : Slot → Text
  | .symbol _ value => value
  | .pad => ['0']
  | slot => slot.text

theorem closed_of_wordChars {t : Text} (h : ∀ c ∈ t, isWordChar c = true) : Closed t := by
  apply closed_of_unquoted
  intro c hc
  exact ⟨wordChar_ne (h c hc) (by decide), wordChar_ne (h c hc) (by decide)⟩

theorem fit_uncommented {value : Text} (h : value.Fit) : Uncommented value := by
  rcases h.2.2 with hw | hc
  · exact uncommented_of_no_slash (not_mem_of_wordChars hw (by decide))
  · exact uncommented_character hc

theorem fit_passes {value : Text} (h : value.Fit) : Passes value := by
  rcases h.2.2 with hw | hc
  · exact passes_of_no_slash (not_mem_of_wordChars hw (by decide))
  · exact passes_character hc

theorem fit_closed {value : Text} (h : value.Fit) : Closed value := by
  rcases h.2.2 with hw | hc
  · exact closed_of_wordChars hw
  · exact closed_character hc

theorem fit_token (op : Opcode) : Text.Fit (Slot.op op).text := by
  refine ⟨List.cons_ne_nil _ _, ?_, Or.inr ?_⟩
  · cases op <;> decide +kernel
  · cases op <;> decide +kernel

theorem fit_element {slot : Slot} (h : slot.Plain) : (element slot).Fit := by
  cases slot with
  | number text =>
    obtain ⟨n, hn⟩ := h
    obtain ⟨hw, c, rest, rfl, -⟩ := numeral?_some hn
    exact fit_of_wordChars (List.cons_ne_nil c rest) hw
  | symbol name value => exact h.2
  | label key => exact fit_of_wordChars (identifier_ne_nil h) (wordChars_of_identifier h)
  | op opcode => exact fit_token opcode
  | stop => exact fit_of_wordChars (by decide) (List.all_eq_true.mp (by decide))
  | pad => exact fit_of_wordChars (by decide) (List.all_eq_true.mp (by decide))

/-- A name that is shown beside a value leaves only white space behind. -/
theorem strip_shown (name rest : Text) (h : ¬['*', '/'] <:+: name) :
    stripFrom false (" /* ".toList ++ (name ++ (" */".toList ++ rest))) =
      [' '] ++ stripFrom false rest := by
  have hb : stripFrom true (name ++ ' ' :: '*' :: '/' :: rest) = stripFrom false rest :=
    strip_within h (by simp)
  change stripFrom false (' ' :: '/' :: '*' :: ' ' :: (name ++ ' ' :: '*' :: '/' :: rest)) = _
  rw [strip_cons _ _ (by decide)]
  exact congrArg (' ' :: ·) hb

def remark : Slot → Option Text
  | .symbol name _ => some name
  | .pad => some "pad".toList
  | _ => none

/-- A slot is shown by its element, followed by at most a name. -/
theorem slot_text (slot : Slot) :
    slot.text = element slot ∨ ∃ name, remark slot = some name ∧
      slot.text = element slot ++ (" /* ".toList ++ (name ++ " */".toList)) := by
  cases slot with
  | symbol name value =>
    refine Or.inr ⟨name, rfl, ?_⟩
    change value ++ " /* ".toList ++ name ++ " */".toList = _
    rw [List.append_assoc, List.append_assoc]
    rfl
  | pad => exact Or.inr ⟨"pad".toList, rfl, rfl⟩
  | _ => exact Or.inl rfl

theorem remark_wordChars {slot : Slot} {name : Text} (h : slot.Plain)
    (hn : remark slot = some name) : ∀ c ∈ name, isWordChar c = true := by
  cases slot with
  | symbol _ value =>
    rw [← Option.some.inj hn]
    exact wordChars_of_identifier h.1
  | pad =>
    rw [← Option.some.inj hn]
    exact List.all_eq_true.mp (by decide)
  | _ => cases hn

theorem strip_slot {slot : Slot} (h : slot.Plain) (rest : Text) :
    ∃ gap, Text.Void gap ∧
      stripFrom false (slot.text ++ rest) = element slot ++ (gap ++ stripFrom false rest) := by
  have hp := fit_passes (fit_element h)
  rcases slot_text slot with he | ⟨name, hn, he⟩
  · exact ⟨[], by decide, by rw [he]; exact hp rest⟩
  · have hs : ¬['*', '/'] <:+: name := fun hm =>
      not_mem_of_wordChars (remark_wordChars h hn) (show isWordChar '*' = false by decide)
        (hm.subset (by simp))
    refine ⟨[' '], by decide, ?_⟩
    rw [he, List.append_assoc, List.append_assoc, List.append_assoc, hp, strip_shown name rest hs]

def noteText : Option Text → Text
  | none => []
  | some text => "       // ".toList ++ text

theorem text_byte (slot : Slot) (note : Option Text) :
    (CodeLine.byte slot note).text = slot.text ++ ',' :: noteText note := by
  cases note with
  | none => rfl
  | some text =>
    change slot.text ++ ",       // ".toList ++ text = _
    rw [List.append_assoc]
    rfl

theorem listed_byte (slot : Slot) (note : Option Text) :
    (CodeLine.byte slot note).listed = [' ', ' '] ++ (slot.text ++ ',' :: noteText note) := by
  rw [← text_byte]
  rfl

theorem strip_note (note : Option Text) : Text.Void (stripFrom false (noteText note)) := by
  cases note with
  | none => decide
  | some text => exact (show Text.Void "       ".toList by decide)

/-- The row of a byte line holds one element, and no other row of code holds any. -/
theorem elements_listed {line : CodeLine} (h : line.Plain) :
    elements (stripComments line.listed) =
      match line with
      | .byte slot _ => [element slot]
      | _ => [] := by
  cases line with
  | blank => rfl
  | comment text => rfl
  | label text => rfl
  | byte slot note =>
    obtain ⟨hn, hs, -⟩ := fit_element h.1
    obtain ⟨gap, hg, he⟩ := strip_slot h.1 (',' :: noteText note)
    have hp : Passes [' ', ' '] := passes_of_no_slash (by decide)
    rw [stripComments, listed_byte, hp, he, strip_cons _ _ (by decide),
      elements_comma [' ', ' '] _ gap _ (by decide) hg (Text.trimmed_of_solid hs) hn
        (fit_closed (fit_element h.1)),
      elements_void (strip_note note)]

end Listing
end SplAssembler
