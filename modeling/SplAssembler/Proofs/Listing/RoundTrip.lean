import Mathlib.Control.Monad.Basic
import SplAssembler.Proofs.Listing.Rows
import SplAssembler.Proofs.Slots

/-!
# Listings are read back

The listing of a plain program is read back into the bytes of the program, those
below the origin included, and a program without bytes is refused at the row of
the line that has none. The reader finds the defines among all lines of the
listing and the array by the shape of its first and last line, so the proof
shows that no comment can pass for either.
-/

set_option autoImplicit false

namespace SplAssembler
namespace Listing

/-- The row below the origin holds one zero for each address. -/
theorem elements_zeros (n : Nat) (a : Text) (ha : a.Void) :
    elements (a ++ [' '].intercalate (List.replicate n ['0', ','])) = List.replicate n ['0'] := by
  induction n generalizing a with
  | zero =>
    rw [List.replicate_zero, List.intercalate_nil, List.append_nil, elements_void ha]
    rfl
  | succ n ih =>
    have hc : Closed ['0'] := closed_of_wordChars (List.all_eq_true.mp (by decide))
    have zero : ∀ rest, elements (a ++ (['0'] ++ ([] ++ ',' :: rest))) = ['0'] :: elements rest :=
      fun rest => elements_comma a ['0'] [] rest ha (by decide) (by decide) (by decide) hc
    cases n with
    | zero => exact zero []
    | succ n =>
      rw [List.replicate_succ, List.replicate_succ, List.intercalate_cons_cons,
        ← List.replicate_succ, List.append_assoc]
      apply (zero ([' '] ++ [' '].intercalate (List.replicate (n+1) ['0', ',']))).trans
      rw [ih [' '] (by decide)]
      rfl

theorem elements_originRow (n : Nat) :
    elements (stripComments (originRow n)) = List.replicate n ['0'] := by
  have hs : '/' ∉ originRow n := fun h => absurd (mem_originRow h) (by decide)
  have hp := passes_of_no_slash hs []
  rw [List.append_nil] at hp
  rw [stripComments, hp, stripFrom, List.append_nil]
  exact elements_zeros n [' ', ' '] (by decide)

end Listing

namespace Dictionary

def Named (dict : Dictionary) : Prop :=
  ∀ name n, dict.lookup name = some n → isIdentifier name = true

theorem named_ofDefines {p : Program} (h : p.Plain) : (ofDefines p.defines).Named := by
  intro name n hl
  rw [lookup_ofDefines p.defines h.distinct] at hl
  obtain ⟨value, hg, -⟩ := Option.bind_eq_some_iff.mp hl
  exact (h.defines _ (SymbolTable.mem_of_get? hg)).1

theorem resolve_of_not_identifier {dict : Dictionary} (hd : dict.Named) {text : Text}
    (h : isIdentifier text = false) : dict.resolve text = literal? text := by
  cases hl : dict.lookup text with
  | none => rw [resolve, hl, Option.none_or]
  | some n => simp [hd text n hl] at h

theorem not_identifier_of_numeral {t : Text} {n : Nat} (h : numeral? t = some n) :
    isIdentifier t = false := by
  obtain ⟨-, c, rest, rfl, -, hc⟩ := numeral?_some h
  cases hi : isIdentifier (c::rest) with
  | false => rfl
  | true =>
    have hc' := identifier_head hi
    omega

theorem literal?_token (op : Opcode) : literal? ['\'', op.token, '\''] = some op.code.toNat := by
  cases op <;> decide +kernel

/-- A reader gives the element of a slot the value of the slot. -/
theorem resolve_element {dict : Dictionary} (hd : dict.Named) {slot : Slot} (h : slot.Plain) :
    dict.resolve (Listing.element slot) = slot.value? dict := by
  cases slot with
  | number text =>
    obtain ⟨n, hn⟩ := h
    apply (resolve_of_not_identifier hd (not_identifier_of_numeral hn)).trans
    change literal? text = numeral? text
    rw [literal?, hn]
    rfl
  | symbol name value => rfl
  | label key =>
    change (dict.lookup key).or (literal? key) = dict.lookup key
    rw [literal?_identifier h, Option.or_none]
  | op opcode =>
    have hn : isIdentifier (Listing.element (.op opcode)) = false := by cases opcode <;> rfl
    exact (resolve_of_not_identifier hd hn).trans (literal?_token opcode)
  | stop => exact resolve_of_not_identifier hd (show isIdentifier "0xff".toList = false by decide)
  | pad => exact resolve_of_not_identifier hd (show isIdentifier ['0'] = false by decide)

def rowFault : Fault → Fault
  | .invalidEncoding line => .invalidEncoding (' ' :: ' ' :: line)
  | fault => fault

theorem decodeArray_cons {dict : Dictionary} {line : Text} {rest : List Text}
    {first : List UInt8} (h : (Listing.elements (Listing.stripComments line)).mapM
      (dict.decodeElement line) = .ok first) :
    dict.decodeArray (line::rest) = (dict.decodeArray rest).map (first ++ ·) := by
  rw [decodeArray, h]
  cases dict.decodeArray rest <;> rfl

theorem mapError_map {ε α β : Type} (f : ε → ε) (g : α → β) (x : Except ε α) :
    (x.map g).mapError f = (x.mapError f).map g := by
  cases x <;> rfl

/-- The rows of plain code lines are read back into the bytes of the lines. -/
theorem decodeArray_listed {dict : Dictionary} (hd : dict.Named) (code : List CodeLine)
    (hp : ∀ l ∈ code, l.Plain) :
    dict.decodeArray (code.map CodeLine.listed) = (encodeCode dict code).mapError rowFault := by
  induction code with
  | nil => rfl
  | cons line code ih =>
    have hl := hp line (by simp)
    have hi := ih (fun l h => hp l (by simp [h]))
    have he := Listing.elements_listed hl
    have silent : line.encode dict = .ok none →
        Listing.elements (Listing.stripComments line.listed) = [] →
        dict.decodeArray ((line::code).map CodeLine.listed) =
          (encodeCode dict (line::code)).mapError rowFault := by
      intro hn h0
      rw [List.map_cons, decodeArray_cons (by rw [h0]; rfl), encodeCode_cons code hn, mapError_map,
        hi]
      rfl
    cases line with
    | blank => exact silent rfl he
    | comment text => exact silent rfl he
    | label text => exact silent rfl he
    | byte slot note =>
      have hv := resolve_element hd hl.1
      cases hb : (slot.value? dict).bind byte? with
      | some b =>
        have hf : (Listing.elements (Listing.stripComments (CodeLine.byte slot note).listed)).mapM
            (dict.decodeElement (CodeLine.byte slot note).listed) = .ok [b] := by
          rw [he, List.mapM_cons, decodeElement, hv, hb]
          rfl
        have hc := encode_byte_ok note hb
        rw [List.map_cons, decodeArray_cons hf, encodeCode_cons code hc, mapError_map, hi]
        rfl
      | none =>
        rw [List.map_cons, decodeArray, he, List.mapM_cons, decodeElement, hv, hb, encodeCode,
          CodeLine.encode, hb]
        rfl

theorem mapM_replicate {ε α β : Type} {f : α → Except ε β} {a : α} {b : β} (n : Nat)
    (h : f a = .ok b) : (List.replicate n a).mapM f = .ok (List.replicate n b) := by
  induction n with
  | zero => rfl
  | succ n ih =>
    rw [List.replicate_succ, List.mapM_cons, h, ih]
    rfl

theorem decodeArray_origin {dict : Dictionary} (hd : dict.Named) (n : Nat) (rest : List Text) :
    dict.decodeArray (originRow n :: rest) =
      (dict.decodeArray rest).map (List.replicate n 0 ++ ·) := by
  apply decodeArray_cons
  have zero : dict.decodeElement (originRow n) ['0'] = .ok 0 := by
    rw [decodeElement, resolve_of_not_identifier hd (by decide)]
    rfl
  rw [Listing.elements_originRow]
  exact mapM_replicate n zero

theorem encodeCode_dropWhile (dict : Dictionary) (code : List CodeLine) :
    encodeCode dict (code.dropWhile (· == .blank)) = encodeCode dict code := by
  induction code with
  | nil => rfl
  | cons line code ih =>
    rw [List.dropWhile_cons]
    split
    · rename_i hb
      have hl : line = .blank := by simpa using hb
      rw [hl, encodeCode_cons code (show CodeLine.blank.encode dict = .ok none from rfl), ih]
      cases encodeCode dict code <;> rfl
    · rfl

end Dictionary

namespace Listing

/-- Lines as they stand once joined: no lines are one empty line. -/
def orBlank (ls : List Text) : List Text := if ls = [] then [[]] else ls

theorem orBlank_ne_nil (ls : List Text) : orBlank ls ≠ [] := by
  rw [orBlank]
  split
  · exact List.cons_ne_nil _ _
  · assumption

/-- Nothing changes for a reader that does not tell one empty line from no lines. -/
theorem orBlank_same {β : Type} (g : List Text → β) (h : g [[]] = g []) (ls : List Text) :
    g (orBlank ls) = g ls := by
  rw [orBlank]
  split
  · rename_i hn
    rw [hn, h]
  · rfl

theorem joinLines_orBlank (ls : List Text) : Text.joinLines (orBlank ls) = Text.joinLines ls :=
  orBlank_same Text.joinLines rfl ls

theorem mem_orBlank {ls : List Text} {l : Text} (h : l ∈ orBlank ls) : l = [] ∨ l ∈ ls := by
  rw [orBlank] at h
  split at h
  · exact Or.inl (List.mem_singleton.mp h)
  · exact Or.inr h

def opening : Text := "uint8_t program[".toList ++ Text.decimal programSize ++ "] = \x7b".toList

def closing : Text := "\x7d;".toList

def heading (p : Program) : List Text := orBlank (p.defines.map Define.text) ++ [[]]

theorem listing_joined (p : Program) :
    p.listing =
      Text.joinLines (heading p ++ opening :: (orBlank p.rows ++ [closing])) ++ ['\n'] := by
  have hrows : Text.joinLines (orBlank p.rows ++ [closing]) =
      Text.joinLines p.rows ++ '\n' :: closing := by
    rw [Text.joinLines_append _ _ (orBlank_ne_nil _) (by simp), joinLines_orBlank]
    rfl
  have harray : Text.joinLines ([[], opening] ++ (orBlank p.rows ++ [closing])) =
      '\n' :: opening ++ '\n' :: (Text.joinLines p.rows ++ '\n' :: closing) := by
    rw [Text.joinLines_append _ _ (by simp) (by simp), hrows]
    rfl
  have hstart : "\n\nuint8_t program[".toList = '\n' :: '\n' :: "uint8_t program[".toList := rfl
  have hname : opening = "uint8_t program[".toList ++ Text.decimal programSize ++
    "] = \x7b".toList := rfl
  have hopen : "] = \x7b\n".toList = "] = \x7b".toList ++ ['\n'] := rfl
  have hclose : "\n\x7d;\n".toList = '\n' :: closing ++ ['\n'] := rfl
  rw [heading, List.append_assoc, Text.joinLines_append _ _ (orBlank_ne_nil _) (by simp),
    joinLines_orBlank, List.singleton_append]
  rw [show [] :: opening :: (orBlank p.rows ++ [closing]) =
    [[], opening] ++ (orBlank p.rows ++ [closing]) from rfl, harray, Program.listing, hstart, hopen,
    hclose, hname, Program.header]
  simp only [List.append_assoc, List.cons_append, List.nil_append]

theorem mem_rows {p : Program} {row : Text} (h : row ∈ p.rows) :
    (∃ n, row = originRow (n+1)) ∨ ∃ l ∈ p.code, row = l.listed := by
  rcases List.mem_append.mp h with h | h
  · split at h
    · cases h
    · rename_i hn
      obtain ⟨n, ho⟩ := Nat.exists_eq_succ_of_ne_zero hn
      exact Or.inl ⟨n, by rw [List.mem_singleton.mp h, ho]⟩
  · obtain ⟨l, hl, rfl⟩ := List.mem_map.mp h
    exact Or.inr ⟨l, (List.dropWhile_suffix _).subset hl, rfl⟩

theorem inert_row {p : Program} (h : p.Plain) : ∀ row ∈ orBlank p.rows, Inert row := by
  intro row hr
  rcases mem_orBlank hr with rfl | hr
  · exact Or.inl (by decide)
  rcases mem_rows hr with ⟨n, rfl⟩ | ⟨l, hl, rfl⟩
  · exact inert_originRow n
  · exact inert_listed (h.code l hl)

theorem proper_row {p : Program} (h : p.Plain) : ∀ row ∈ orBlank p.rows, Proper row := by
  intro row hr
  rcases mem_orBlank hr with rfl | hr
  · exact ⟨by decide, by decide⟩
  rcases mem_rows hr with ⟨n, rfl⟩ | ⟨l, hl, rfl⟩
  · exact proper_originRow (n+1)
  · exact proper_listed (h.code l hl)

theorem proper_heading {p : Program} (h : p.Plain) : ∀ l ∈ heading p, Proper l := by
  have hnil : Proper [] := ⟨by decide, by decide⟩
  intro l hl
  rcases List.mem_append.mp hl with hl | hl
  · rcases mem_orBlank hl with rfl | hl
    · exact hnil
    · obtain ⟨d, hd, rfl⟩ := List.mem_map.mp hl
      exact proper_define (h.defines d hd).sound
  · rw [List.mem_singleton.mp hl]
    exact hnil

theorem lines_listing {p : Program} (h : p.Plain) :
    p.listing.lines = heading p ++ opening :: (orBlank p.rows ++ [closing]) := by
  have hp : ∀ l ∈ heading p ++ opening :: (orBlank p.rows ++ [closing]), Proper l := by
    intro l hl
    rcases List.mem_append.mp hl with hl | hl
    · exact proper_heading h l hl
    rcases List.mem_cons.mp hl with rfl | hl
    · exact ⟨by decide +kernel, by decide +kernel⟩
    rcases List.mem_append.mp hl with hl | hl
    · exact proper_row h l hl
    · rw [List.mem_singleton.mp hl]
      exact ⟨by decide, by decide⟩
  rw [listing_joined]
  exact Text.lines_joinLines _ (by simp) (fun l hl => (hp l hl).1) (fun l hl => (hp l hl).2)

theorem heading_not_opening {p : Program} (h : p.Plain) :
    ∀ l ∈ heading p, (! opensArray l) = true := by
  have hnil : (! opensArray []) = true := by decide
  intro l hl
  rcases List.mem_append.mp hl with hl | hl
  · rcases mem_orBlank hl with rfl | hl
    · exact hnil
    · obtain ⟨d, hd, rfl⟩ := List.mem_map.mp hl
      rw [define_not_opening (h.defines d hd)]
      rfl
  · rw [List.mem_singleton.mp hl]
    exact hnil

/-- The array is found where it stands. -/
theorem arrayLines_listing {p : Program} (h : p.Plain) :
    arrayLines p.listing = orBlank p.rows := by
  have hopen : opensArray opening = true := by decide +kernel
  have hclose : closesArray closing = true := by decide +kernel
  rw [arrayLines, lines_listing h, List.dropWhile_append_of_pos (heading_not_opening h),
    List.dropWhile_cons_of_neg (by simp [hopen]), List.drop_one, List.tail_cons,
    List.takeWhile_append_of_pos (fun l hl => by rw [inert_not_closing (inert_row h l hl)]; rfl),
    List.takeWhile_cons_of_neg (by simp [hclose]), List.append_nil]

theorem defines_text (ds : List Define) (h : ∀ d ∈ ds, d.Sound) :
    (ds.map Define.text).filterMap Define.ofLine? = ds := by
  induction ds with
  | nil => rfl
  | cons d ds ih =>
    rw [List.map_cons, List.filterMap_cons_some (ofLine?_text (h d (by simp))),
      ih (fun e he => h e (by simp [he]))]

theorem defines_heading {p : Program} (h : p.Plain) :
    (heading p).filterMap Define.ofLine? = p.defines := by
  have hnil : Define.ofLine? [] = none := rfl
  have htext : (orBlank (p.defines.map Define.text)).filterMap Define.ofLine? = p.defines := by
    rw [orBlank]
    split
    · rename_i hd
      rw [List.map_eq_nil_iff.mp hd]
      simp [hnil]
    · exact defines_text p.defines fun d hd => (h.defines d hd).sound
  rw [heading, List.filterMap_append, htext, List.filterMap_cons_none hnil]
  simp

/-- The defines are found, and nothing else passes for one. -/
theorem ofHeader_listing {p : Program} (h : p.Plain) :
    Dictionary.ofHeader p.listing = .ofDefines p.defines := by
  have hopen : Define.ofLine? opening = none := by decide +kernel
  have hclose : Define.ofLine? closing = none := by decide +kernel
  have hrows : (orBlank p.rows).filterMap Define.ofLine? = [] :=
    List.filterMap_eq_nil_iff.mpr (fun l hl => inert_not_define (inert_row h l hl))
  rw [Dictionary.ofHeader, lines_listing h, List.filterMap_append, defines_heading h,
    List.filterMap_cons_none hopen, List.filterMap_append, hrows, List.filterMap_cons_none hclose]
  simp

end Listing

theorem decodeListing_listing {p : Program} (h : p.Plain) :
    decodeListing p.listing =
      (p.bytes.mapError Dictionary.rowFault).map (List.replicate p.origin 0 ++ ·) := by
  have hd := Dictionary.named_ofDefines h
  have hc : ∀ l ∈ p.code.dropWhile (· == .blank), l.Plain :=
    fun l hl => h.code l ((List.dropWhile_suffix _).subset hl)
  rw [decodeListing, Listing.ofHeader_listing h, Listing.arrayLines_listing h,
    Listing.orBlank_same (Dictionary.ofDefines p.defines).decodeArray rfl, Program.rows,
    Program.bytes, ← Dictionary.encodeCode_dropWhile, ← Dictionary.decodeArray_listed hd _ hc]
  split
  · rename_i ho
    rw [ho, List.nil_append]
    cases (Dictionary.ofDefines p.defines).decodeArray _ <;> rfl
  · exact Dictionary.decodeArray_origin hd p.origin _

/-- The listing of a plain source gives back the zeros below the origin and the
bytes of the program, or the fault of the program at the row that shows it. -/
theorem decodeListing_of_plain_source (source : Text) (p : Program) (h : assemble source = .ok p)
    (plain : ∀ st ∈ statements source.sourceLines, st.isPlain = true) :
    (∀ bytes, p.bytes = .ok bytes →
      decodeListing p.listing = .ok (List.replicate p.origin 0 ++ bytes)) ∧
    (∀ line, p.bytes = .error (.invalidEncoding line) →
      decodeListing p.listing = .error (.invalidEncoding (' ' :: ' ' :: line))) := by
  rw [decodeListing_listing (assemble_plain h plain)]
  constructor
  · intro bytes hb
    rw [hb]
    rfl
  · intro line hb
    rw [hb]
    rfl

/-- Comments with the marks of a listing in them, and a label that is not there. -/
theorem decodeListing_of_listing_marks :
    (∃ source p, assemble source = .ok p ∧
      (∀ st ∈ statements source.sourceLines, st.isPlain = true) ∧ p.bytes = .ok [44, 2, 44] ∧
      decodeListing p.listing = .ok [0, 0, 44, 2, 44]) ∧
    (∃ source p, assemble source = .ok p ∧
      (∀ st ∈ statements source.sourceLines, st.isPlain = true) ∧
      p.bytes = .error (.invalidEncoding "LABEL_A,".toList) ∧
      decodeListing p.listing = .error (.invalidEncoding "  LABEL_A,".toList)) := by
  constructor
  · let source : Text := ("; \x7b #define K 1\n.ORIGIN 2\nCONST K ','\n:Top \x7d; // /* '\n" ++
      "PUSH K // \x7d;\nDELAY @Top ; */ \x7b").toList
    let p : Program := {
      origin := 2
      code := [.comment "\x7b #define K 1".toList, .label ":Top \x7d; // /* '".toList,
        .byte (.symbol "K".toList "','".toList) (some "\x7d;".toList),
        .byte (.label "LABEL_Top".toList) none, .byte (.op .delay) (some "*/ \x7b".toList)]
      defines := [⟨originSymbol, "2".toList⟩, ⟨"K".toList, "','".toList⟩,
        ⟨"LABEL_Top".toList, "2".toList⟩] }
    have h : assemble source = .ok p := by decide +kernel
    have plain : ∀ st ∈ statements source.sourceLines, st.isPlain = true := by decide +kernel
    have hb : p.bytes = .ok [44, 2, 44] := by decide +kernel
    exact ⟨source, p, h, plain, hb, (decodeListing_of_plain_source source p h plain).1 _ hb⟩
  · let source : Text := "PUSH @A".toList
    let p : Program := ⟨defaultOrigin, [.byte (.label "LABEL_A".toList) none], []⟩
    have h : assemble source = .ok p := by decide +kernel
    have plain : ∀ st ∈ statements source.sourceLines, st.isPlain = true := by decide +kernel
    have hb : p.bytes = .error (.invalidEncoding "LABEL_A,".toList) := by decide +kernel
    exact ⟨source, p, h, plain, hb, (decodeListing_of_plain_source source p h plain).2 _ hb⟩

end SplAssembler
