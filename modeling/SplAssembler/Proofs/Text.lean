import SplAssembler.Text

/-!
# Laws of texts

A text is read back by words, by trimming and by lines. The laws here say what
is found again: a word between white space, a text between white space, and
the lines of a text that was joined from them.
-/

set_option autoImplicit false

namespace SplAssembler.Text

def Solid (t : Text) : Prop := ∀ c ∈ t, isSpace c = false

def Void (t : Text) : Prop := ∀ c ∈ t, isSpace c = true

def Trimmed (t : Text) : Prop :=
  (∀ c, t.head? = some c → isSpace c = false) ∧ ∀ c, t.getLast? = some c → isSpace c = false

instance (t : Text) : Decidable t.Solid :=
  List.decidableBAll (isSpace · = false) t

instance (t : Text) : Decidable t.Void :=
  List.decidableBAll (isSpace · = true) t

instance (t : Text) : Decidable t.Trimmed :=
  @instDecidableAnd _ _ (Option.decidableForallMem t.head?) (Option.decidableForallMem t.getLast?)

theorem words_cons_space (c : Char) (t : Text) (h : isSpace c = true) :
    words (c::t) = words t := words_append_space [] t c h

theorem words_void_append (a t : Text) (ha : Void a) : words (a ++ t) = words t := by
  induction a with
  | nil => rfl
  | cons c a ih =>
    rw [List.cons_append, words_cons_space c _ (ha c (by simp))]
    exact ih (fun d hd => ha d (by simp [hd]))

theorem words_void (t : Text) (h : Void t) : words t = [] := by
  have hw := words_void_append t [] h
  rwa [List.append_nil] at hw

theorem words_solid (w : Text) (hw : w ≠ []) (hs : Solid w) : words w = [w] := by
  rw [words, List.splitOnP_eq_singleton hs]
  simp [hw]

theorem words_solid_space (w t : Text) (c : Char) (hw : w ≠ []) (hs : Solid w)
    (hc : isSpace c = true) : words (w ++ c::t) = w :: words t := by
  rw [words_append_space w t c hc, words_solid w hw hs]
  rfl

/-- The first word starts with the first character that is not white space. -/
theorem words_cons_solid (c : Char) (t : Text) (h : isSpace c = false) :
    ∃ w ws, words (c::t) = (c::w) :: ws := by
  rw [words, List.splitOnP_cons_eq_if_modifyHead, if_neg (by simp [h])]
  cases hp : t.splitOnP isSpace with
  | nil => exact absurd hp (List.splitOnP_ne_nil _ _)
  | cons w ws => exact ⟨w, ws.filter (! ·.isEmpty), by simp⟩

/-- No piece of a division holds a character at which the text is divided. -/
theorem of_mem_splitOnP {p : Char → Bool} {t w : Text} (h : w ∈ t.splitOnP p) :
    ∀ c ∈ w, p c = false := by
  induction t generalizing w with
  | nil =>
    have hw : w = [] := by simpa [List.splitOnP_nil] using h
    simp [hw]
  | cons a t ih =>
    rw [List.splitOnP_cons_eq_if_modifyHead] at h
    cases ha : p a with
    | true =>
      rw [if_pos ha] at h
      rcases List.mem_cons.mp h with rfl | h
      · simp
      · exact ih h
    | false =>
      rw [if_neg (by simp [ha])] at h
      cases hp : t.splitOnP p with
      | nil => exact absurd hp (List.splitOnP_ne_nil _ _)
      | cons v vs =>
        rw [hp, List.modifyHead_cons] at h
        rcases List.mem_cons.mp h with rfl | h
        · intro c hc
          rcases List.mem_cons.mp hc with rfl | hc
          · exact ha
          · exact ih (by simp [hp]) c hc
        · exact ih (by simp [hp, h])

/-- The first piece of a division starts the text, and the others stand in it. -/
theorem splitOnP_pieces (p : Char → Bool) (t : Text) :
    ∃ v vs, t.splitOnP p = v::vs ∧ v <+: t ∧ ∀ w ∈ vs, w <:+: t := by
  induction t with
  | nil => exact ⟨[], [], List.splitOnP_nil, List.prefix_rfl, by simp⟩
  | cons a t ih =>
    obtain ⟨v, vs, hp, hv, hvs⟩ := ih
    have later : ∀ w ∈ vs, w <:+: a::t := fun w hw => List.infix_cons (hvs w hw)
    rw [List.splitOnP_cons_eq_if_modifyHead, hp]
    split
    · refine ⟨[], v::vs, rfl, List.nil_prefix, ?_⟩
      intro w hw
      rcases List.mem_cons.mp hw with rfl | hw
      · exact List.infix_cons hv.isInfix
      · exact later w hw
    · exact ⟨a::v, vs, rfl, List.cons_prefix_cons.mpr ⟨rfl, hv⟩, later⟩

theorem infix_of_mem_words {t w : Text} (h : w ∈ words t) : w <:+: t := by
  obtain ⟨v, vs, hp, hv, hvs⟩ := splitOnP_pieces isSpace t
  have hm : w ∈ t.splitOnP isSpace := (List.mem_filter.mp h).1
  rw [hp] at hm
  rcases List.mem_cons.mp hm with rfl | hm
  · exact hv.isInfix
  · exact hvs w hm

theorem mem_sourceLines {t line : Text} (h : line ∈ sourceLines t) : '\n' ∉ line := by
  intro hc
  have hp := of_mem_splitOnP (p := (· == '\n')) h '\n' hc
  simp at hp

theorem mem_words {t w : Text} (h : w ∈ words t) : w ≠ [] ∧ Solid w := by
  obtain ⟨hm, hn⟩ := List.mem_filter.mp h
  exact ⟨by simpa using hn, of_mem_splitOnP hm⟩

theorem trimStart_void_append (a t : Text) (ha : Void a) : trimStart (a ++ t) = trimStart t :=
  List.dropWhile_append_of_pos ha

theorem trimEnd_append_void (t b : Text) (hb : Void b) : trimEnd (t ++ b) = trimEnd t := by
  have hr : ∀ c ∈ b.reverse, isSpace c = true := by
    intro c hc
    exact hb c (by simpa using hc)
  rw [trimEnd, List.reverse_append, List.dropWhile_append_of_pos hr, trimEnd]

theorem trimStart_of_head {t : Text} (h : ∀ c, t.head? = some c → isSpace c = false) :
    trimStart t = t := by
  cases t with
  | nil => rfl
  | cons c t => exact List.dropWhile_cons_of_neg (by simp [h c rfl])

theorem trimEnd_of_last {t : Text} (h : ∀ c, t.getLast? = some c → isSpace c = false) :
    trimEnd t = t := by
  have hs : t.reverse.dropWhile isSpace = t.reverse :=
    trimStart_of_head (fun c hc => h c (by rwa [List.head?_reverse] at hc))
  rw [trimEnd, hs, List.reverse_reverse]

theorem trimEnd_append_solid (a e : Text) (hn : e ≠ []) (he : Solid e) :
    trimEnd (a ++ e) = a ++ e := by
  obtain ⟨c, r, hr⟩ := List.exists_cons_of_ne_nil (List.reverse_ne_nil_iff.mpr hn)
  have hc : isSpace c = false := he c (List.mem_reverse.mp (by rw [hr]; simp))
  rw [trimEnd, List.reverse_append, hr, List.cons_append,
    List.dropWhile_cons_of_neg (by simp [hc]), ← List.cons_append, ← hr, ← List.reverse_append,
    List.reverse_reverse]

theorem trimmed_of_solid {t : Text} (h : Solid t) : Trimmed t :=
  ⟨fun c hc => h c (List.mem_of_head? hc), fun c hc => h c (List.mem_of_getLast? hc)⟩

/-- A text without white space at its ends is found again between white space. -/
theorem trim_between (a e b : Text) (ha : Void a) (he : Trimmed e) (hb : Void b) :
    trim (a ++ (e ++ b)) = e := by
  rw [trim, trimStart_void_append a _ ha]
  cases e with
  | nil =>
    have hd : trimStart ([] ++ b) = [] := by simpa [trimStart] using trimStart_void_append b [] hb
    rw [hd]
    rfl
  | cons c e =>
    have hd : trimStart (c::e ++ b) = c::e ++ b :=
      List.dropWhile_cons_of_neg (by simp [he.1 c rfl])
    rw [hd, trimEnd_append_void _ b hb, trimEnd_of_last he.2]

/-- Trimming leaves the first character that is not white space in its place. -/
theorem trim_cons_solid (a t : Text) (c : Char) (ha : Void a) (hc : isSpace c = false) :
    ∃ u, trim (a ++ c::t) = c::u := by
  rw [trim, trimStart_void_append a _ ha]
  have hd : trimStart (c::t) = c::t := List.dropWhile_cons_of_neg (by simp [hc])
  rw [hd, trimEnd, List.reverse_cons, List.dropWhile_append]
  split
  · exact ⟨[], by simp [hc]⟩
  · exact ⟨_, by rw [List.reverse_append]; rfl⟩

theorem trim_void (t : Text) (h : Void t) : trim t = [] := by
  simpa using trim_between t [] [] h (by decide) (by decide)

theorem mem_of_mem_trim {t : Text} {c : Char} (h : c ∈ trim t) : c ∈ t := by
  have he : c ∈ (trimStart t).reverse :=
    (List.dropWhile_suffix isSpace).subset (by simpa [trim, trimEnd] using h)
  exact (List.dropWhile_suffix isSpace).subset (List.mem_reverse.mp he)

theorem last_of_trim {t : Text} {c : Char} (h : (trim t).getLast? = some c) :
    isSpace c = false := by
  rw [trim, trimEnd, List.getLast?_reverse] at h
  simpa only [h] using List.head?_dropWhile_not isSpace (trimStart t).reverse

theorem trimEnd_starts (t : Text) : trimEnd t <+: t := by
  have hs := List.reverse_prefix.mpr (List.dropWhile_suffix isSpace (l := t.reverse))
  rwa [List.reverse_reverse] at hs

theorem trim_within (t : Text) : trim t <:+: t :=
  (trimEnd_starts _).isInfix.trans (List.dropWhile_suffix isSpace).isInfix

theorem head_of_trim {t : Text} {c : Char} (h : (trim t).head? = some c) : isSpace c = false := by
  obtain ⟨rest, hr⟩ := trimEnd_starts (trimStart t)
  have ht : (trimStart t).head? = some c := by
    rw [← hr, List.head?_append, show (trimEnd (trimStart t)).head? = some c from h, Option.some_or]
  rw [trimStart] at ht
  simpa only [ht] using List.head?_dropWhile_not isSpace t

theorem trimmed_trim (t : Text) : t.trim.Trimmed :=
  ⟨fun _ hc => head_of_trim hc, fun _ hc => last_of_trim hc⟩

theorem trim_trim (t : Text) : trim (trim t) = trim t := by
  rw [trim, trimStart_of_head (trimmed_trim t).1, trimEnd_of_last (trimmed_trim t).2]

theorem joinLines_append (a b : List Text) (ha : a ≠ []) (hb : b ≠ []) :
    joinLines (a ++ b) = joinLines a ++ '\n' :: joinLines b := by
  induction a with
  | nil => exact absurd rfl ha
  | cons l a ih =>
    cases a with
    | nil =>
      rw [List.singleton_append, joinLines, List.intercalate_cons_of_ne_nil hb]
      simp [joinLines]
    | cons m a =>
      have hn : (m::a) ++ b ≠ [] := by simp
      rw [List.cons_append, joinLines, List.intercalate_cons_of_ne_nil hn, joinLines,
        List.intercalate_cons_of_ne_nil (by simp)]
      have hi := ih (by simp)
      rw [joinLines, joinLines] at hi
      rw [hi]
      simp

theorem sourceLines_joinLines (ls : List Text) (hne : ls ≠ []) (hl : ∀ l ∈ ls, '\n' ∉ l) :
    sourceLines (joinLines ls) = ls :=
  List.splitOn_intercalate '\n' hl hne

/-- The displayed lines are the pieces between line feeds, but for an empty piece at the end. -/
theorem lines_of_sourceLines {t last : Text} {front : List Text}
    (h : t.sourceLines = front ++ [last]) (hr : ∀ l ∈ front, l.getLast? ≠ some '\r') :
    lines t = front ++ if last.isEmpty then [] else [last] := by
  have hd : front.map dropReturn = front := by
    conv => rhs; rw [← List.map_id front]
    apply List.map_congr_left
    intro l hm
    rw [dropReturn, if_neg (hr l hm)]
    rfl
  rw [sourceLines] at h
  rw [lines, h]
  simp [hd]

/-- Lines that end as lines end are found again. -/
theorem lines_joinLines (ls : List Text) (hne : ls ≠ []) (hl : ∀ l ∈ ls, '\n' ∉ l)
    (hr : ∀ l ∈ ls, l.getLast? ≠ some '\r') : lines (joinLines ls ++ ['\n']) = ls := by
  have hj : joinLines ls ++ ['\n'] = joinLines (ls ++ [[]]) := by
    rw [joinLines_append ls [[]] hne (by simp)]
    simp [joinLines]
  have hs : (joinLines (ls ++ [[]])).sourceLines = ls ++ [[]] := by
    apply sourceLines_joinLines _ (by simp)
    intro l hm
    rcases List.mem_append.mp hm with h | h
    · exact hl l h
    · simp [List.mem_singleton.mp h]
  rw [hj, lines_of_sourceLines hs hr]
  exact List.append_nil ls

/-- So are lines that are not empty, without a line feed behind the last. -/
theorem lines_joinLines_open (ls : List Text) (hn : ∀ l ∈ ls, l ≠ []) (hl : ∀ l ∈ ls, '\n' ∉ l)
    (hr : ∀ l ∈ ls, l.getLast? ≠ some '\r') : lines (joinLines ls) = ls := by
  rcases List.eq_nil_or_concat ls with rfl | ⟨front, last, he⟩
  · rfl
  · rw [List.concat_eq_append] at he
    subst he
    have hs := sourceLines_joinLines (front ++ [last]) (by simp) hl
    rw [lines_of_sourceLines hs fun l hm => hr l (List.mem_append_left _ hm),
      if_neg (by simpa using hn last (by simp))]

end SplAssembler.Text
