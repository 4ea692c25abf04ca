import SplAssembler.Proofs.Run

/-!
# Sessions that go on after faults

A session feeds lines to one assembler and does not stop at a fault. The count
of lines is the only thing that a refused line leaves behind, and no statement
reads it. So a session ends with the program of its accepted lines alone,
while its faults carry the numbers of all lines.
-/

set_option autoImplicit false

namespace SplAssembler
namespace Assembler

def session : Assembler → List Text → Assembler × List (Option LineFault)
  | s, [] => (s, [])
  | s, raw::rest =>
      let fed := s.feed raw
      let more := session fed.1 rest
      (more.1, fed.2::more.2)

def accepted (s : Assembler) (raws : List Text) : List Text :=
  ((raws.zip (s.session raws).2).filter (·.2.isNone)).map Prod.fst

def numbered (s : Assembler) (n : Nat) : Assembler := { s with lineNo := n }

theorem executes_numbered {s t : Assembler} {line : SourceLine} {st : Statement} (n : Nat)
    (h : Executes s line st t) : Executes (s.numbered n) line st (t.numbered n) := by
  cases h with
  | label name hr hn => exact Executes.label (s := s.numbered n) name hr hn
  | origin value m hv hm => exact Executes.origin (s := s.numbered n) value m hv hm
  | const name value hn => exact Executes.const (s := s.numbered n) name value hn
  | push operand slot hi => exact Executes.push (s := s.numbered n) operand slot hi
  | stop => exact Executes.stop (s := s.numbered n)
  | call exchange target pads m back goal hm hb hg =>
    have hc : Executes (s.numbered n) line _ _ := .call exchange target pads m back goal hm hb hg
    cases exchange <;> exact hc
  | bare op => exact Executes.bare (s := s.numbered n) op
  | operand op operand slot hi => exact Executes.operand (s := s.numbered n) op operand slot hi

theorem steps_numbered {s t : Assembler} {line : SourceLine} (n : Nat) (h : Steps s line t) :
    Steps (s.numbered n) line (t.numbered n) := by
  cases h with
  | blank hp hc => exact Steps.blank (s := s.numbered n) hp hc
  | comment text hp hc => exact Steps.comment (s := s.numbered n) text hp hc
  | statement st _ hp he => exact .statement st _ hp (executes_numbered n he)

theorem steps_lineNo {s t : Assembler} {line : SourceLine} (h : Steps s line t) :
    t.lineNo = s.lineNo := by
  cases h with
  | blank => rfl
  | comment => rfl
  | statement st _ hp he =>
    cases he with
    | call exchange => cases exchange <;> rfl
    | _ => rfl

theorem line_numbered {s t : Assembler} {raw : Text} (n : Nat) (h : line raw s = .ok () t) :
    line raw (s.numbered n) = .ok () (t.numbered (n+1)) := by
  rw [line_ok_iff] at h ⊢
  have hs := steps_numbered (n+1) h
  exact hs

theorem session_ok {s t : Assembler} {raw : Text} (rest : List Text) (h : line raw s = .ok () t) :
    s.session (raw::rest) = ((t.session rest).1, none::(t.session rest).2) := by
  simp only [session, feed, h]

theorem session_error {s t : Assembler} {raw : Text} {fault : LineFault} (rest : List Text)
    (h : line raw s = .error fault t) :
    s.session (raw::rest) = ((t.session rest).1, some fault::(t.session rest).2) := by
  simp only [session, feed, h]

theorem accepted_ok {s t : Assembler} {raw : Text} (rest : List Text) (h : line raw s = .ok () t) :
    s.accepted (raw::rest) = raw::t.accepted rest := by
  rw [accepted, session_ok rest h]
  rfl

theorem accepted_error {s t : Assembler} {raw : Text} {fault : LineFault} (rest : List Text)
    (h : line raw s = .error fault t) : s.accepted (raw::rest) = t.accepted rest := by
  rw [accepted, session_error rest h]
  rfl

theorem session_length (s : Assembler) (raws : List Text) :
    (s.session raws).2.length = raws.length := by
  induction raws generalizing s with
  | nil => rfl
  | cons raw rest ih => simp [session, ih]

/-- The accepted lines are accepted again without the others, and lead to the same state up to the
count of lines. -/
theorem lines_accepted (s : Assembler) (raws : List Text) (n : Nat) :
    ∃ m, lines (s.accepted raws) (s.numbered n) = .ok () ((s.session raws).1.numbered m) := by
  induction raws generalizing s n with
  | nil => exact ⟨n, rfl⟩
  | cons raw rest ih =>
    cases h : line raw s with
    | ok u t =>
      obtain ⟨m, hm⟩ := ih t (n+1)
      rw [accepted_ok rest h, session_ok rest h]
      exact ⟨m, (run_bind (line_numbered n h) _).trans hm⟩
    | error fault t =>
      -- only the number of the line has changed, and the other run has its own
      obtain ⟨rfl, -⟩ := line_error h
      rw [accepted_error rest h, session_error rest h]
      exact ih s.countLine n

/-- A session is a run over its accepted lines, up to the count of lines. -/
theorem session_runs (s : Assembler) (raws : List Text) :
    ∃ m, Runs s (s.accepted raws) ((s.session raws).1.numbered m) := by
  obtain ⟨m, hm⟩ := lines_accepted s raws s.lineNo
  exact ⟨m, (lines_ok_iff _ _ _).mp hm⟩

theorem session_fault_line (s : Assembler) (raws : List Text) (k : Nat) (fault : LineFault)
    (h : (s.session raws).2[k]? = some (some fault)) : fault.line = s.lineNo+k+1 := by
  induction raws generalizing s k with
  | nil => cases h
  | cons raw rest ih =>
    cases hl : line raw s with
    | ok u t =>
      have ht : t.lineNo = s.lineNo+1 := steps_lineNo ((line_ok_iff s t raw).mp hl)
      rw [session_ok rest hl] at h
      cases k with
      | zero => cases h
      | succ k =>
        rw [ih t k h, ht]
        omega
    | error first t =>
      obtain ⟨rfl, hf⟩ := line_error hl
      rw [session_error rest hl] at h
      cases k with
      | zero =>
        cases h
        exact hf
      | succ k =>
        have hk := ih s.countLine k h
        change fault.line = s.lineNo+1+k+1 at hk
        omega

/-- A line that fails changes nothing but the count of lines. A session ends with
the program of its accepted lines, which are accepted on their own as well, and
a fault names the place of its line among all lines. -/
theorem failed_lines_have_no_effect :
    (∀ s raw fault t, line raw s = .error fault t → t.offset = s.offset ∧ t.origin = s.origin ∧
      t.symbols = s.symbols ∧ t.code = s.code ∧ t.lineNo = s.lineNo+1) ∧
    ∀ raws, (initial.session raws).2.length = raws.length ∧
      (∃ t, lines (initial.accepted raws) initial = .ok () t ∧
        t.finish = (initial.session raws).1.finish) ∧
      ∀ (k : Nat) fault, (initial.session raws).2[k]? = some (some fault) → fault.line = k+1 := by
  constructor
  · intro s raw fault t h
    obtain ⟨rfl, -⟩ := line_error h
    exact ⟨rfl, rfl, rfl, rfl, rfl⟩
  · intro raws
    refine ⟨session_length initial raws, ?_, ?_⟩
    · obtain ⟨m, hm⟩ := lines_accepted initial raws 0
      exact ⟨_, hm, rfl⟩
    · intro k fault h
      have hf := session_fault_line initial raws k fault h
      change fault.line = 0+k+1 at hf
      omega

/-- A reserved operand, a second label of one name and a call past the last address fail. -/
theorem failed_lines_have_no_effect_among_five :
    ∃ raws, initial.accepted raws = ["PUSH 1".toList, ":L".toList] ∧
      (∃ t, lines ["PUSH 1".toList, ":L".toList] initial = .ok () t ∧
        t.finish = (initial.session raws).1.finish) ∧
      ∃ fault, (initial.session raws).2[4]? = some (some fault) ∧ fault.line = 5 := by
  let raws : List Text :=
    ["PUSH 1".toList, "PUSH 64".toList, ":L".toList, ":L".toList, "CALL1 @L 300".toList]
  have ha : initial.accepted raws = ["PUSH 1".toList, ":L".toList] := by decide +kernel
  have hf : (initial.session raws).2[4]? = some (some ⟨5, .invalidValue "320".toList⟩) := by
    decide +kernel
  obtain ⟨-, hrun, hline⟩ := failed_lines_have_no_effect.2 raws
  rw [ha] at hrun
  exact ⟨raws, ha, hrun, _, hf, hline 4 _ hf⟩

end Assembler
end SplAssembler
