import SplAssembler.Listing
import SplAssembler.Proofs.Numerals

/-!
# The bytes of a program as text

Bytes are written in two forms, as pairs of hexadecimal digits with a space
between two pairs, and as decimal numerals with commas between them in
brackets. In both no separator stands within an item, so a text is taken apart
where it was put together, and each item is read as the byte it was written
for. Nothing but the bytes enters these texts, and a program without bytes has
neither.
-/

set_option autoImplicit false

namespace SplAssembler

/-- Reads items with a separator between any two; the empty text holds none. -/
def readItems (mark : Char) (item : Text → Option UInt8) (t : Text) : Option (List UInt8) :=
  if t.isEmpty then some [] else (t.splitOn mark).mapM item

def hexPair? : Text → Option UInt8
  | [high, low] => do
      let h ← digit? 16 high
      let l ← digit? 16 low
      byte? (16*h+l)
  | _ => none

def readHex (t : Text) : Option (List UInt8) := readItems ' ' hexPair? t

def decimalByte? (t : Text) : Option UInt8 := (digits? 10 t).bind byte?

def readArray : Text → Option (List UInt8)
  | '[' :: rest =>
      if rest.getLast? = some ']' then readItems ',' decimalByte? rest.dropLast else none
  | _ => none

/-- Items are found again that are not empty, do not hold the separator and are read one by one. -/
theorem readItems_intercalate {mark : Char} {item : Text → Option UInt8} {write : UInt8 → Text}
    (read : ∀ byte, item (write byte) = some byte)
    (proper : ∀ byte, write byte ≠ [] ∧ mark ∉ write byte) (bytes : List UInt8) :
    readItems mark item ([mark].intercalate (bytes.map write)) = some bytes := by
  have items : (bytes.map write).mapM item = some bytes := by
    induction bytes with
    | nil => rfl
    | cons byte bytes ih =>
      rw [List.map_cons, List.mapM_cons, read, ih]
      rfl
  cases bytes with
  | nil => rfl
  | cons byte bytes =>
    have hsplit : ([mark].intercalate ((byte::bytes).map write)).splitOn mark =
        (byte::bytes).map write := by
      apply List.splitOn_intercalate mark
      · intro t ht
        obtain ⟨b, -, rfl⟩ := List.mem_map.mp ht
        exact (proper b).2
      · exact List.cons_ne_nil _ _
    -- one empty item alone would be written as the empty text
    have hne : [mark].intercalate ((byte::bytes).map write) ≠ [] := by
      intro h
      rw [h] at hsplit
      have hw : [[]] = (byte::bytes).map write := hsplit
      exact (proper byte).1 (List.cons.inj hw).1.symm
    rw [readItems, if_neg (by simpa using hne), hsplit, items]

section Hexadecimal

theorem digit?_hexDigit {d : Nat} (h : d < 16) : digit? 16 (Nat.digitChar d) = some d :=
  (digit?_eq_some_iff (Nat.le_refl 16) _ d).mpr ⟨h, Or.inl rfl⟩

theorem hexPair?_hexByte (byte : UInt8) : hexPair? (hexByte byte) = some byte := by
  have hb := byte.toNat_lt
  have hs : 16*(byte.toNat/16)+byte.toNat%16 = byte.toNat := Nat.div_add_mod byte.toNat 16
  rw [hexByte, hexPair?, digit?_hexDigit (by omega), digit?_hexDigit (by omega)]
  change byte? (16*(byte.toNat/16)+byte.toNat%16) = some byte
  rw [hs, byte?_toNat]

theorem space_not_mem_hexByte (byte : UInt8) : ' ' ∉ hexByte byte := by
  have hb := byte.toNat_lt
  apply not_mem_of_wordChars _ (by decide)
  intro c hc
  rcases List.mem_pair.mp hc with rfl | rfl
  · exact isWordChar_of_digit (digit?_hexDigit (by omega))
  · exact isWordChar_of_digit (digit?_hexDigit (by omega))

theorem readHex_hexText (bytes : List UInt8) : readHex (hexText bytes) = some bytes := by
  apply readItems_intercalate hexPair?_hexByte
  intro byte
  exact ⟨List.cons_ne_nil _ _, space_not_mem_hexByte byte⟩

end Hexadecimal

section Arrays

theorem decimalByte?_decimal (byte : UInt8) :
    decimalByte? (Text.decimal byte.toNat) = some byte := by
  have hb : byte.toNat < numeralBound := Nat.lt_trans byte.toNat_lt (by decide)
  rw [decimalByte?, digits?_of_spells (by decide) (spells_decimal _), if_pos hb,
    Option.bind_some, byte?_toNat]

theorem readArray_arrayText (bytes : List UInt8) : readArray (arrayText bytes) = some bytes := by
  have hitems : readItems ',' decimalByte?
      ([','].intercalate (bytes.map fun byte => Text.decimal byte.toNat)) = some bytes := by
    apply readItems_intercalate decimalByte?_decimal
    intro byte
    exact ⟨Nat.toDigits_ne_nil, not_mem_of_wordChars (decimal_wordChars byte.toNat) (by decide)⟩
  rw [arrayText, List.cons_append, readArray, if_pos List.getLast?_concat, List.dropLast_concat]
  exact hitems

end Arrays

/-- The forms made of bytes fail as the bytes do. -/
theorem render_error_iff {format : Format} (h : format = .bytes ∨ format = .hex) (p : Program)
    (fault : Fault) : format.render p = .error fault ↔ p.bytes = .error fault := by
  have hmap : ∀ write : List UInt8 → Text,
      p.bytes.map write = .error fault ↔ p.bytes = .error fault := by
    intro write
    cases p.bytes <;> simp [Except.map]
  rcases h with rfl | rfl
  · exact hmap arrayText
  · exact hmap hexText

section Reading
variable {write : List UInt8 → Text} {read : Text → Option (List UInt8)} {p q : Program}
  {text : Text}

theorem written_bytes (back : ∀ bytes, read (write bytes) = some bytes)
    (h : p.bytes.map write = .ok text) : ∃ bytes, p.bytes = .ok bytes ∧ read text = some bytes := by
  cases hb : p.bytes with
  | error fault =>
    rw [hb] at h
    cases h
  | ok bytes =>
    rw [hb] at h
    cases h
    exact ⟨bytes, rfl, back bytes⟩

/-- What can be read back tells the bytes it was written from. -/
theorem same_bytes (back : ∀ bytes, read (write bytes) = some bytes)
    (hp : p.bytes.map write = .ok text) (hq : q.bytes.map write = .ok text) :
    ∃ bytes, p.bytes = .ok bytes ∧ q.bytes = .ok bytes := by
  obtain ⟨bytes, hb, hr⟩ := written_bytes back hp
  obtain ⟨others, ho, hs⟩ := written_bytes back hq
  have he : bytes = others := Option.some.inj (hr.symm.trans hs)
  exact ⟨bytes, hb, he ▸ ho⟩

end Reading

/-- The two forms made of bytes fail exactly when a program has no bytes, with the
same fault. Otherwise the bytes are read back from either, so programs with one
text in one of the forms have the same bytes. This holds of any program, also of
one that no source is assembled to. -/
theorem byte_texts_read_back (p : Program) :
    (∀ fault, (Format.hex.render p = .error fault ↔ p.bytes = .error fault) ∧
      (Format.bytes.render p = .error fault ↔ p.bytes = .error fault)) ∧
    (∀ bytes, p.bytes = .ok bytes → ∃ hex array,
      Format.hex.render p = .ok hex ∧ readHex hex = some bytes ∧
      Format.bytes.render p = .ok array ∧ readArray array = some bytes) ∧
    ∀ q text,
      (Format.hex.render p = .ok text → Format.hex.render q = .ok text →
        ∃ bytes, p.bytes = .ok bytes ∧ q.bytes = .ok bytes) ∧
      (Format.bytes.render p = .ok text → Format.bytes.render q = .ok text →
        ∃ bytes, p.bytes = .ok bytes ∧ q.bytes = .ok bytes) := by
  refine ⟨?_, ?_, ?_⟩
  · intro fault
    exact ⟨render_error_iff (Or.inr rfl) p fault, render_error_iff (Or.inl rfl) p fault⟩
  · intro bytes hb
    have written : ∀ write : List UInt8 → Text, p.bytes.map write = .ok (write bytes) := by
      intro write
      rw [hb]
      rfl
    exact ⟨hexText bytes, arrayText bytes, written hexText, readHex_hexText bytes,
      written arrayText, readArray_arrayText bytes⟩
  · intro q text
    exact ⟨same_bytes readHex_hexText, same_bytes readArray_arrayText⟩

/-- The bytes come from slots of other kinds, below another origin. -/
theorem byte_texts_read_back_of_two_programs :
    ∃ p q : Program, p.bytes = .ok [0, 15, 255] ∧
      Format.hex.render p = .ok "00 0f ff".toList ∧ Format.hex.render q = .ok "00 0f ff".toList ∧
      Format.bytes.render p = .ok "[0,15,255]".toList ∧
      Format.bytes.render q = .ok "[0,15,255]".toList ∧
      readHex "00 0f ff".toList = some [0, 15, 255] ∧
      readArray "[0,15,255]".toList = some [0, 15, 255] ∧
      (∃ bytes, p.bytes = .ok bytes ∧ q.bytes = .ok bytes) ∧ q.bytes = .ok [0, 15, 255] := by
  let p : Program := ⟨0, [.byte .pad none, .byte (.number "15".toList) none, .byte .stop none], []⟩
  let q : Program := ⟨300,
    [.byte (.number "0x0".toList) (some ['x']), .label [], .byte (.symbol ['A'] ['B']) none,
      .byte (.label ['K']) none],
    [⟨['B'], "0b1111".toList⟩, ⟨['K'], "255".toList⟩]⟩
  have hb : p.bytes = .ok [0, 15, 255] := by decide
  have hp : Format.hex.render p = .ok "00 0f ff".toList := by decide
  have hq : Format.hex.render q = .ok "00 0f ff".toList := by decide
  have ap : Format.bytes.render p = .ok "[0,15,255]".toList := by decide
  have aq : Format.bytes.render q = .ok "[0,15,255]".toList := by decide
  obtain ⟨-, back, same⟩ := byte_texts_read_back p
  obtain ⟨hex, array, hhex, rhex, harray, rarray⟩ := back _ hb
  cases hp.symm.trans hhex
  cases ap.symm.trans harray
  obtain ⟨bytes, hbytes, hothers⟩ := (same q _).2 ap aq
  cases hb.symm.trans hbytes
  exact ⟨p, q, hb, hp, hq, ap, aq, rhex, rarray, (same q _).1 hp hq, hothers⟩

end SplAssembler
