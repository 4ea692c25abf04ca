import Mathlib.Control.Monad.Basic
import SplAssembler.CommandLine.Run
import SplAssembler.Proofs.Session
import SplAssembler.Proofs.Text

/-!
# The line that a fault is shown with

The assembler cuts a source at line feeds. A report takes its lines from another
reading, in which a line feed ends a line and a carriage return before it is no
part of the line. The two agree at the number of a fault: a line that fails is
not blank, so it is no empty piece behind the last line feed, and a carriage
return at its end is white space, which no statement depends on.
-/

set_option autoImplicit false

namespace SplAssembler

namespace Text

theorem trim_append_void (t b : Text) (hb : Void b) : trim (t ++ b) = trim t := by
  rw [trim, trim, trimStart, List.dropWhile_append]
  by_cases ht : t.dropWhile isSpace = []
  · have hd : b.dropWhile isSpace = [] := by simpa [trimStart] using trimStart_void_append b [] hb
    simp [trimStart, ht, hd]
  · rw [if_neg (by simpa using ht)]
    exact trimEnd_append_void _ b hb

theorem dropReturn_cases (t : Text) :
    t = dropReturn t ++ ['\r'] ∨ dropReturn t = t ∧ t.getLast? ≠ some '\r' := by
  by_cases h : t.getLast? = some '\r'
  · obtain ⟨front, rfl⟩ := List.getLast?_eq_some_iff.mp h
    rw [dropReturn, if_pos h, List.dropLast_concat]
    exact Or.inl rfl
  · rw [dropReturn, if_neg h]
    exact Or.inr ⟨rfl, h⟩

/-- A piece between line feeds that is not empty is displayed at its place, without a
carriage return at its end if a line feed stands behind it. -/
theorem lines_getElem? {t piece : Text} {before after : List Text}
    (h : t.sourceLines = before ++ piece::after) (hn : piece ≠ []) :
    ∃ shown, t.lines[before.length]? = some shown ∧
      (after ≠ [] ∧ piece = shown ++ ['\r'] ∨
        shown = piece ∧ (after = [] ∨ piece.getLast? ≠ some '\r')) := by
  rw [sourceLines] at h
  rw [lines, h]
  by_cases ha : after = []
  · refine ⟨piece, ?_, Or.inr ⟨rfl, Or.inl ha⟩⟩
    simp [ha, hn]
  · refine ⟨dropReturn piece, ?_, ?_⟩
    · rw [List.dropLast_append_cons, List.dropLast_cons_of_ne_nil ha]
      simp
    · rcases dropReturn_cases piece with hr | ⟨hs, hr⟩
      · exact Or.inl ⟨ha, hr⟩
      · exact Or.inr ⟨hs, Or.inr hr⟩

end Text

namespace Assembler
variable {s t : Assembler}

/-- A carriage return at the end of a line makes no difference. -/
theorem line_return (raw : Text) : line (raw ++ ['\r']) = line raw := by
  have hv : Text.Void ['\r'] := by decide
  funext s
  rw [line, line, SourceLine.split, SourceLine.split, Text.trim_append_void raw _ hv]

/-- A line is blank if it holds white space alone. It is accepted in every state. -/
theorem line_void {raw : Text} (h : raw.Void) (s : Assembler) : ∃ t, line raw s = .ok () t := by
  have hs : SourceLine.split raw = ⟨[], [], none⟩ := by
    rw [SourceLine.split, Text.trim_void raw h]
    rfl
  refine ⟨s.countLine.mark .blank, (line_ok_iff s _ raw).mpr ?_⟩
  rw [hs]
  exact .blank rfl rfl

theorem runs_lineNo {raws : List Text} (h : Runs s raws t) : t.lineNo = s.lineNo+raws.length := by
  induction h with
  | nil s => rfl
  | @cons s t u raw rest hstep _ ih =>
    have hn := steps_lineNo hstep
    change t.lineNo = s.lineNo+1 at hn
    rw [ih, hn, List.length_cons]
    omega

/-- Lines fail at the first that fails behind accepted ones, and those behind it are of
no account. -/
theorem lines_error_iff (raws : List Text) (s t : Assembler) (fault : LineFault) :
    lines raws s = .error fault t ↔ ∃ before raw after u, raws = before ++ raw::after ∧
      lines before s = .ok () u ∧ line raw u = .error fault t := by
  constructor
  · intro h
    induction raws generalizing s with
    | nil => cases h
    | cons raw rest ih =>
      cases hl : line raw s with
      | error cause u =>
        have he : lines (raw::rest) s = .error cause u := run_bind_error hl _
        rw [he] at h
        cases h
        exact ⟨[], raw, rest, s, rfl, rfl, hl⟩
      | ok _ v =>
        have he : lines (raw::rest) s = lines rest v := run_bind hl _
        rw [he] at h
        obtain ⟨before, first, after, u, rfl, hb, hf⟩ := ih v h
        exact ⟨raw::before, first, after, u, rfl, (run_bind hl _).trans hb, hf⟩
  · rintro ⟨before, raw, after, u, rfl, hb, hf⟩
    -- by induction on the accepted lines, with the state in front of the failing one fixed
    have hruns := (lines_ok_iff s u before).mp hb
    clear hb
    induction hruns with
    | nil s => exact run_bind_error hf _
    | cons hstep _ ih => exact (run_bind ((line_ok_iff _ _ _).mpr hstep) _).trans (ih hf)

end Assembler

theorem assemble_error_iff (source : Text) (fault : LineFault) :
    assemble source = .error fault ↔
      ∃ t, Assembler.lines source.sourceLines .initial = .error fault t := by
  rw [assemble]
  cases Assembler.lines source.sourceLines .initial with
  | ok u s => simp
  | error cause s => simp

/-- A fault is that of a line which is not blank, behind lines that are accepted. -/
theorem assemble_error_line {source : Text} {fault : LineFault}
    (h : assemble source = .error fault) :
    ∃ before raw after s t, source.sourceLines = before ++ raw::after ∧
      fault.line = before.length+1 ∧ Assembler.lines before .initial = .ok () s ∧
      Assembler.line raw s = .error fault t ∧ ¬raw.Void := by
  obtain ⟨t, hrun⟩ := (assemble_error_iff source fault).mp h
  obtain ⟨before, raw, after, s, hlines, hbefore, hraw⟩ :=
    (Assembler.lines_error_iff _ _ _ _).mp hrun
  refine ⟨before, raw, after, s, t, hlines, ?_, hbefore, hraw, ?_⟩
  · have hn := Assembler.runs_lineNo ((Assembler.lines_ok_iff _ _ _).mp hbefore)
    change s.lineNo = 0+before.length at hn
    rw [(Assembler.line_error hraw).2, hn]
    omega
  · intro hv
    obtain ⟨u, hu⟩ := Assembler.line_void hv s
    rw [hu] at hraw
    cases hraw

/-- Another line in the place of one that failed, with the same fault. -/
theorem assemble_replaced {source raw other : Text} {before after : List Text} {s t : Assembler}
    {fault : LineFault} (hlines : source.sourceLines = before ++ raw::after)
    (hbefore : Assembler.lines before .initial = .ok () s)
    (hother : Assembler.line other s = .error fault t) (hn : '\n' ∉ other) :
    assemble (Text.joinLines (before ++ other::after)) = .error fault := by
  have hfeed : ∀ l ∈ before ++ other::after, '\n' ∉ l := by
    intro l hl
    have hpiece : l ∈ before ++ raw::after → '\n' ∉ l := by
      intro hm
      rw [← hlines] at hm
      exact Text.mem_sourceLines hm
    rcases List.mem_append.mp hl with hl | hl
    · exact hpiece (by simp [hl])
    rcases List.mem_cons.mp hl with rfl | hl
    · exact hn
    · exact hpiece (by simp [hl])
  rw [assemble_error_iff, Text.sourceLines_joinLines _ (by simp) hfeed]
  exact ⟨t, (Assembler.lines_error_iff _ _ _ _).mpr
    ⟨before, other, after, s, rfl, hbefore, hother⟩⟩

namespace CommandLine

def reportLines (file shown : Text) (f : LineFault) : List Text :=
  [red "error".toList ++ ": ".toList ++ f.fault.message,
    "     ".toList ++ blue "-->".toList ++ ' ' :: underline (file ++ ':' :: Text.decimal f.line),
    "      ".toList ++ blue ['|'],
    ' ' :: blue (padLeft 4 (Text.decimal f.line) ++ " |".toList) ++ ' ' :: shown,
    "      ".toList ++ blue ['|']]

/-- A report shows the line of the fault's number; each of its lines ends in a line feed. -/
theorem lineReport_eq {source shown : Text} {fault : LineFault}
    (h : source.lines[fault.line-1]? = some shown) (file : Text) :
    lineReport file source fault = Text.joinLines (reportLines file shown fault ++ [[]]) := by
  have hs : shownLine source fault.line = shown := by rw [shownLine, h, Option.getD_some]
  rw [lineReport, hs]
  simp only [errorReport, reportLines, Text.joinLines, List.intercalate_cons_cons,
    List.intercalate_singleton, List.append_assoc, List.cons_append, List.nil_append]

/-- A fault names the first line that fails, which is not blank: the lines before
it are accepted one after the other. The report finds a line at that number, and
it is the line that failed, but for a carriage return at its end if a line feed
stands behind it. The report shows that line with its number under the message and
the file. The source with the line as it is shown has the same fault. -/
theorem fault_shown_with_its_line (source : Text) (fault : LineFault)
    (h : assemble source = .error fault) :
    ∃ before raw after s t shown, source.sourceLines = before ++ raw::after ∧
      fault.line = before.length+1 ∧
      Assembler.lines before .initial = .ok () s ∧ Assembler.line raw s = .error fault t ∧
      ¬raw.Void ∧
      source.lines[fault.line-1]? = some shown ∧ shownLine source fault.line = shown ∧
      (∀ file, lineReport file source fault =
        Text.joinLines (reportLines file shown fault ++ [[]])) ∧
      (after ≠ [] ∧ raw = shown ++ ['\r'] ∨
        shown = raw ∧ (after = [] ∨ raw.getLast? ≠ some '\r')) ∧
      assemble (Text.joinLines (before ++ shown::after)) = .error fault := by
  obtain ⟨before, raw, after, s, t, hlines, hnumber, hbefore, hraw, hblank⟩ :=
    assemble_error_line h
  have hempty : raw ≠ [] := by
    rintro rfl
    exact hblank (by decide)
  obtain ⟨shown, hshown, hreturn⟩ := Text.lines_getElem? hlines hempty
  have hindex : source.lines[fault.line-1]? = some shown := by
    rw [hnumber, Nat.add_sub_cancel]
    exact hshown
  have hfeed : '\n' ∉ raw := Text.mem_sourceLines (by rw [hlines]; simp)
  have hsame : Assembler.line shown s = .error fault t ∧ '\n' ∉ shown := by
    rcases hreturn with ⟨-, hr⟩ | ⟨hs, -⟩
    · rw [hr] at hraw hfeed
      rw [Assembler.line_return] at hraw
      exact ⟨hraw, fun hm => hfeed (List.mem_append_left _ hm)⟩
    · rw [hs]
      exact ⟨hraw, hfeed⟩
  refine ⟨before, raw, after, s, t, shown, hlines, hnumber, hbefore, hraw, hblank, hindex, ?_,
    lineReport_eq hindex, hreturn, assemble_replaced hlines hbefore hsame.1 hsame.2⟩
  rw [shownLine, hindex, Option.getD_some]

/-- The line that fails ends in two carriage returns, and the report shows one of them. -/
theorem fault_shown_with_its_line_before_return :
    ∃ source fault, assemble source = .error fault ∧ fault = ⟨2, .reservedValue "64".toList⟩ ∧
      ∃ before raw after shown, source.sourceLines = before ++ raw::after ∧
        fault.line = before.length+1 ∧ source.lines[1]? = some shown ∧
        shown = "PUSH 64\r".toList ∧ raw = shown ++ ['\r'] ∧
        lineReport "a.spl".toList source fault =
          ("\x1b[31m\x1b[1merror\x1b[39m\x1b[22m: PUSH reserved value: 64\n" ++
          "     \x1b[34m-->\x1b[39m \x1b[4ma.spl:2\x1b[24m\n" ++
          "      \x1b[34m|\x1b[39m\n" ++
          " \x1b[34m   2 |\x1b[39m PUSH 64\r\n" ++
          "      \x1b[34m|\x1b[39m\n").toList ∧
        assemble (Text.joinLines (before ++ shown::after)) = .error fault := by
  let source : Text := "PUSH 1\r\nPUSH 64\r\r\n:X".toList
  let fault : LineFault := ⟨2, .reservedValue "64".toList⟩
  have h : assemble source = .error fault := by decide +kernel
  have hs : source.lines[1]? = some "PUSH 64\r".toList := by decide
  have hr : source.sourceLines = ["PUSH 1\r".toList, "PUSH 64\r\r".toList, ":X".toList] := by decide
  obtain ⟨before, raw, after, s, t, shown, hlines, hnumber, -, -, -, hindex, -, hreport, -,
    hagain⟩ := fault_shown_with_its_line source fault h
  cases hs.symm.trans hindex
  have hplace : before.length = 1 := Nat.succ.inj hnumber.symm
  have hraw : source.sourceLines[1]? = some raw := by
    rw [hlines, ← hplace]
    simp
  cases (congrArg (·[1]?) hr).symm.trans hraw
  exact ⟨source, fault, h, rfl, before, _, after, _, hlines, hnumber, hs, rfl, rfl,
    (hreport _).trans (by decide +kernel), hagain⟩

end CommandLine
end SplAssembler
