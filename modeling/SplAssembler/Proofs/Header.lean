import SplAssembler.Proofs.Listing.RoundTrip
import SplAssembler.Proofs.Resolution

/-!
# The defines as a header

The defines of a program are written one on a line, and a reader takes lines
apart at white space. Whatever lines were fed to the assembler, with faults or
without, every name and every value in its table is one word, so the header is
read back into the defines it was written from. No two of these have one name:
the reader, for which the last define of a name counts, finds under each name
the literal that the table lists for it.
-/

set_option autoImplicit false

namespace SplAssembler

section Reading
variable {p : Program}

/-- The lines of a header are the texts of the defines. An empty header has no lines. -/
theorem lines_header (h : ∀ d ∈ p.defines, d.Sound) :
    p.header.lines = p.defines.map Define.text := by
  have proper : ∀ l ∈ p.defines.map Define.text, Listing.Proper l := by
    intro l hl
    obtain ⟨d, hd, rfl⟩ := List.mem_map.mp hl
    exact Listing.proper_define (h d hd)
  apply Text.lines_joinLines_open
  · intro l hl
    obtain ⟨d, -, rfl⟩ := List.mem_map.mp hl
    exact List.cons_ne_nil _ _
  · exact fun l hl => (proper l hl).1
  · exact fun l hl => (proper l hl).2

theorem defines_of_header (h : ∀ d ∈ p.defines, d.Sound) :
    p.header.lines.filterMap Define.ofLine? = p.defines := by
  rw [lines_header h]
  exact Listing.defines_text p.defines h

theorem ofHeader_header (h : ∀ d ∈ p.defines, d.Sound) :
    Dictionary.ofHeader p.header = .ofDefines p.defines := by
  rw [Dictionary.ofHeader, defines_of_header h]

end Reading

namespace Dictionary
variable {table : SymbolTable} {name : Text}

theorem lookup_of_mem (h : table.Distinct) {value : Text} (hm : ⟨name, value⟩ ∈ table) :
    (ofDefines table).lookup name = literal? value := by
  rw [lookup_ofDefines table h, (SymbolTable.get?_eq_some_iff h value).mpr hm, Option.bind_some]

theorem lookup_of_not_mem (h : table.Distinct) (hm : ∀ value, ⟨name, value⟩ ∉ table) :
    (ofDefines table).lookup name = none := by
  have hg : table.get? name = none := by
    apply Option.eq_none_iff_forall_ne_some.mpr
    intro value hv
    exact hm value (SymbolTable.mem_of_get? hv)
  rw [lookup_ofDefines table h, hg, Option.bind_none]

end Dictionary

theorem Assembler.session_defines (raws : List Text) :
    (∀ d ∈ (initial.session raws).1.symbols, d.Sound) ∧
      (initial.session raws).1.symbols.Distinct := by
  obtain ⟨m, hm⟩ := session_runs initial raws
  have h := runs_consistent hm initial_consistent
  exact ⟨h.defines, h.distinct⟩

/-- The header of a session's program is read back into its defines, none lost,
changed or moved. So the dictionary that is read from the header agrees with the
dictionary of the defines on every name: a listed name has the literal that its
value is, if it is one, and no other name has a value. -/
theorem header_read_back_as_defines (raws : List Text) (name : Text) :
    let p := (Assembler.initial.session raws).1.finish
    p.header.lines.filterMap Define.ofLine? = p.defines ∧
    (Dictionary.ofHeader p.header).lookup name = (Dictionary.ofDefines p.defines).lookup name ∧
    (∀ value, ⟨name, value⟩ ∈ p.defines →
      (Dictionary.ofHeader p.header).lookup name = literal? value) ∧
    ((∀ value, ⟨name, value⟩ ∉ p.defines) →
      (Dictionary.ofHeader p.header).lookup name = none) := by
  intro p
  obtain ⟨sound, distinct⟩ := Assembler.session_defines raws
  have hd : Dictionary.ofHeader p.header = .ofDefines p.defines := ofHeader_header sound
  refine ⟨defines_of_header sound, by rw [hd], ?_, ?_⟩
  · intro value hm
    rw [hd]
    exact Dictionary.lookup_of_mem distinct hm
  · intro hm
    rw [hd]
    exact Dictionary.lookup_of_not_mem distinct hm

/-- A constant is asked for twice, one is an alias and written over three lines,
and one has the name of the mark that starts a define. -/
theorem header_read_back_as_defines_after_fault :
    ∃ raws p, (Assembler.initial.session raws).1.finish = p ∧
      p.header = "#define K 'x'\n#define A K\n#define #define 0x10".toList ∧
      (Dictionary.ofHeader p.header).lookup ['K'] = some 120 ∧
      (Dictionary.ofHeader p.header).lookup ['A'] = none ∧
      (Dictionary.ofHeader p.header).lookup "#define".toList = some 16 ∧
      (Dictionary.ofHeader p.header).lookup ['B'] = none := by
  let raws : List Text := ["CONST K 'x'".toList, "CONST K 9".toList, "CONST\nA\nK".toList,
    "CONST #define 0x10".toList]
  have hd : (Assembler.initial.session raws).1.finish.defines =
      [⟨['K'], "'x'".toList⟩, ⟨['A'], ['K']⟩, ⟨"#define".toList, "0x10".toList⟩] := by
    decide +kernel
  obtain ⟨-, -, constant, -⟩ := header_read_back_as_defines raws ['K']
  obtain ⟨-, -, other, -⟩ := header_read_back_as_defines raws ['A']
  obtain ⟨-, -, mark, -⟩ := header_read_back_as_defines raws "#define".toList
  obtain ⟨-, -, -, unlisted⟩ := header_read_back_as_defines raws ['B']
  rw [hd] at constant other mark unlisted
  refine ⟨raws, _, rfl, ?_, constant "'x'".toList (by decide), other ['K'] (by decide),
    mark "0x10".toList (by decide), unlisted (by simp)⟩
  rw [Program.header, hd]
  decide

end SplAssembler
