import SplAssembler.Program

/-!
# Slots and segments of code

The bytes of code come from its slots alone; blank lines, comments and labels
have no part in them. Labels cut code into segments. To put a byte before the
last one looks back no further than the segment at the end of the code, and
there it acts on the slots as if nothing stood between them.
-/

set_option autoImplicit false

namespace SplAssembler
namespace CodeLine

def slot? : CodeLine → Option Slot
  | byte slot _ => some slot
  | _ => none

def isLabel : CodeLine → Bool
  | label _ => true
  | _ => false

end CodeLine

def slots (code : List CodeLine) : List Slot := code.filterMap CodeLine.slot?

theorem slots_append (code rest : List CodeLine) :
    slots (code ++ rest) = slots code ++ slots rest :=
  List.filterMap_append

theorem slots_cons_byte (slot : Slot) (note : Option Text) (rest : List CodeLine) :
    slots (.byte slot note :: rest) = slot :: slots rest := rfl

theorem slots_fillers {code : List CodeLine} (h : ∀ l ∈ code, l.isFiller = true) :
    slots code = [] := by
  apply List.filterMap_eq_nil_iff.mpr
  intro l hl
  have hf := h l hl
  cases l with
  | byte slot note => cases hf
  | _ => rfl

def Slot.byte? (dict : Dictionary) (slot : Slot) : Option UInt8 :=
  (slot.value? dict).bind SplAssembler.byte?

theorem encode_byte_ok {dict : Dictionary} {slot : Slot} {b : UInt8} (note : Option Text)
    (h : slot.byte? dict = some b) : (CodeLine.byte slot note).encode dict = .ok (some b) := by
  rw [Slot.byte?] at h
  rw [CodeLine.encode, h]

theorem encode_byte_error {dict : Dictionary} {slot : Slot} (note : Option Text)
    (h : slot.byte? dict = none) : (CodeLine.byte slot note).encode dict =
      .error (.invalidEncoding (CodeLine.byte slot note).text) := by
  rw [Slot.byte?] at h
  rw [CodeLine.encode, h]

theorem encodeCode_cons {dict : Dictionary} {line : CodeLine} {byte : Option UInt8}
    (rest : List CodeLine) (h : line.encode dict = .ok byte) :
    encodeCode dict (line::rest) = (encodeCode dict rest).map (byte.toList ++ ·) := by
  rw [encodeCode, h]
  cases encodeCode dict rest <;> rfl

/-- Code has bytes exactly when each of its slots has one. -/
theorem encodeCode_slots (dict : Dictionary) (code : List CodeLine) :
    (encodeCode dict code).toOption = (slots code).mapM (Slot.byte? dict) := by
  induction code with
  | nil => rfl
  | cons line rest ih =>
    cases line with
    | byte slot note =>
      rw [slots_cons_byte, List.mapM_cons, ← ih]
      cases hb : slot.byte? dict with
      | some b =>
        rw [encodeCode_cons rest (encode_byte_ok note hb)]
        cases encodeCode dict rest <;> rfl
      | none =>
        rw [encodeCode, encode_byte_error note hb]
        rfl
    | _ =>
      rw [encodeCode_cons rest rfl]
      change _ = (slots rest).mapM _
      rw [← ih]
      cases encodeCode dict rest <;> rfl

def Sealed (code : List CodeLine) : Prop :=
  code = [] ∨ ∃ before text, code = before ++ [.label text]

def beforeLast {α : Type} (x : α) (xs : List α) : List α :=
  xs.dropLast ++ x :: xs.getLast?.toList

theorem beforeLast_append {α : Type} (x y : α) (xs : List α) :
    beforeLast x (xs ++ [y]) = xs ++ [x, y] := by
  simp [beforeLast]

theorem map_beforeLast {α β : Type} (f : α → β) (x : α) (xs : List α) :
    (beforeLast x xs).map f = beforeLast (f x) (xs.map f) := by
  rw [beforeLast, List.map_append, List.map_dropLast, List.map_cons, beforeLast, List.getLast?_map]
  cases xs.getLast? <;> rfl

theorem exists_last_byte (segment : List CodeLine) (h : ∀ l ∈ segment, l.isLabel = false) :
    (∀ l ∈ segment, l.isFiller = true) ∨ ∃ before slot note fillers,
      segment = before ++ .byte slot note :: fillers ∧ ∀ l ∈ fillers, l.isFiller = true := by
  induction segment with
  | nil => exact Or.inl (by simp)
  | cons line rest ih =>
    rcases ih (fun l hl => h l (by simp [hl])) with hr | ⟨before, slot, note, fillers, he, hf⟩
    · cases line with
      | byte slot note => exact Or.inr ⟨[], slot, note, rest, rfl, hr⟩
      | label text => cases h (.label text) (by simp)
      | _ => exact Or.inl (by simpa [CodeLine.isFiller] using hr)
    · exact Or.inr ⟨line::before, slot, note, fillers, by rw [he]; rfl, hf⟩

theorem insertBeforeLast_fillers (line : CodeLine) {before fillers : List CodeLine}
    (hb : Sealed before) (hf : ∀ l ∈ fillers, l.isFiller = true) :
    insertBeforeLast line (before ++ fillers) = before ++ (fillers ++ [line]) := by
  have hr : ∀ l ∈ fillers.reverse, l.isFiller = true := by simpa using hf
  rw [insertBeforeLast, List.reverse_append, List.dropWhile_append_of_pos hr]
  rcases hb with rfl | ⟨lines, text, rfl⟩
  · simp
  · simp [CodeLine.isFiller]

/-- In the last segment of code the new slot goes in front of the last slot. -/
theorem insertBeforeLast_segment (slot : Slot) {before segment : List CodeLine}
    (hb : Sealed before) (hs : ∀ l ∈ segment, l.isLabel = false) :
    ∃ segment', insertBeforeLast (.byte slot none) (before ++ segment) = before ++ segment' ∧
      (∀ l ∈ segment', l.isLabel = false) ∧ slots segment' = beforeLast slot (slots segment) := by
  rcases exists_last_byte segment hs with hf | ⟨lines, last, note, fillers, rfl, hf⟩
  · refine ⟨segment ++ [.byte slot none], insertBeforeLast_fillers _ hb hf, ?_, ?_⟩
    · simpa [CodeLine.isLabel, or_imp, forall_and] using hs
    · rw [slots_append, slots_fillers hf]
      rfl
  · refine ⟨lines ++ .byte slot none :: fillers ++ [.byte last note], ?_, ?_, ?_⟩
    · rw [← List.append_assoc, insertBeforeLast_eq _ _ _ _ _ hf]
      simp
    · intro l hl
      simp only [List.mem_append, List.mem_cons, List.not_mem_nil, or_false] at hl hs
      rcases hl with (hl | rfl | hl) | rfl
      · exact hs l (Or.inl hl)
      · rfl
      · exact hs l (Or.inr (Or.inr hl))
      · rfl
    · simp only [slots_append, slots_cons_byte, slots_fillers hf, beforeLast_append]
      simp [slots]

end SplAssembler
