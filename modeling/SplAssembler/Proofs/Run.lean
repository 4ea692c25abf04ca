import SplAssembler.Proofs.Transaction

/-!
# Runs over source lines

The effect of a line is that of its statement, or a mark for a line without
one. A run is the composition of such effects. A property that every effect
preserves holds at the end of a run, and the program of a source text is what
its run leaves.
-/

set_option autoImplicit false

namespace SplAssembler

namespace Assembler

inductive Steps (s : Assembler) (line : SourceLine) : Assembler → Prop
  | blank : Statement.parse line.body = .ok none → line.comment = none →
      Steps s line (s.mark .blank)
  | comment (text : Text) : Statement.parse line.body = .ok none → line.comment = some text →
      Steps s line (s.mark (.comment text))
  | statement (st : Statement) (t : Assembler) : Statement.parse line.body = .ok (some st) →
      Executes s line st t → Steps s line t

theorem step_commits (s : Assembler) (line : SourceLine) :
    Commits s (Steps s line) (step line s) := by
  apply commits_ofExcept
  intro parsed hp
  cases parsed with
  | some st => exact commits_mono (execute_commits s line st) (fun t h => .statement st t hp h)
  | none =>
    cases hc : line.comment with
    | some text => exact Steps.comment text hp hc
    | none => exact Steps.blank hp hc

theorem step_of_steps {s t : Assembler} {line : SourceLine} (h : Steps s line t) :
    step line s = .ok () t := by
  cases h with
  | blank hp hc =>
    apply (run_ofExcept hp _ _).trans
    dsimp only
    rw [hc]
    rfl
  | comment text hp hc =>
    apply (run_ofExcept hp _ _).trans
    dsimp only
    rw [hc]
    rfl
  | statement st _ hp he => exact (run_ofExcept hp _ _).trans (execute_of_executes he)

theorem executes_of_steps {s t : Assembler} {line : SourceLine} {st : Statement}
    (h : Steps s line t) (hp : Statement.parse line.body = .ok (some st)) :
    Executes s line st t := by
  cases h with
  | blank hn => cases hn.symm.trans hp
  | comment _ hn => cases hn.symm.trans hp
  | statement _ _ hn he =>
    cases hn.symm.trans hp
    exact he

theorem line_ok_iff (s t : Assembler) (raw : Text) :
    line raw s = .ok () t ↔ Steps s.countLine (.split raw) t := by
  have hc := step_commits s.countLine (.split raw)
  constructor
  · intro h
    rw [line] at h
    cases hs : step (.split raw) s.countLine with
    | ok u t' =>
      rw [hs] at h hc
      cases h
      exact hc
    | error fault t' =>
      rw [hs] at h
      cases h
  · intro h
    rw [line, step_of_steps h]

theorem line_of_feed {s t : Assembler} {raw : Text} (h : s.feed raw = (t, none)) :
    line raw s = .ok () t := by
  rw [feed] at h
  cases hl : line raw s with
  | ok u v =>
    rw [hl] at h
    rw [(Prod.mk.inj h).1]
  | error fault v =>
    rw [hl] at h
    cases (Prod.mk.inj h).2

/-- A line that fails has advanced the count of lines and nothing else. -/
theorem line_error {s t : Assembler} {raw : Text} {fault : LineFault}
    (h : line raw s = .error fault t) : t = s.countLine ∧ fault.line = s.lineNo+1 := by
  have hc := step_commits s.countLine (.split raw)
  rw [line] at h
  cases hs : step (.split raw) s.countLine with
  | ok u t' =>
    rw [hs] at h
    cases h
  | error cause t' =>
    rw [hs] at h hc
    cases h
    exact ⟨hc, rfl⟩

inductive Runs : Assembler → List Text → Assembler → Prop
  | nil (s : Assembler) : Runs s [] s
  | cons {s t u : Assembler} {raw : Text} {rest : List Text} :
      Steps s.countLine (.split raw) t → Runs t rest u → Runs s (raw::rest) u

theorem lines_ok_iff (s t : Assembler) (raws : List Text) :
    lines raws s = .ok () t ↔ Runs s raws t := by
  constructor
  · intro h
    induction raws generalizing s with
    | nil =>
      cases h
      exact .nil _
    | cons raw rest ih =>
      change EStateM.bind (line raw) _ s = _ at h
      rw [EStateM.bind] at h
      cases hl : line raw s with
      | ok u v =>
        rw [hl] at h
        exact .cons ((line_ok_iff s v raw).mp hl) (ih v h)
      | error fault v =>
        rw [hl] at h
        cases h
  · intro h
    induction h with
    | nil s => rfl
    | cons hs _ ih => exact (run_bind ((line_ok_iff _ _ _).mpr hs) _).trans ih

theorem runs_append {s t u : Assembler} {before after : List Text} (h : Runs s before t)
    (ha : Runs t after u) : Runs s (before ++ after) u := by
  induction h with
  | nil s => exact ha
  | cons hstep _ ih => exact .cons hstep (ih ha)

/-- A run passes through the states around each of its lines. -/
theorem runs_split {s t : Assembler} {before after : List Text} {raw : Text}
    (h : Runs s (before ++ raw::after) t) :
    ∃ u v, Runs s before u ∧ Steps u.countLine (.split raw) v ∧ Runs v after t := by
  induction before generalizing s with
  | nil =>
    cases h with
    | cons hstep hrest => exact ⟨s, _, .nil s, hstep, hrest⟩
  | cons first before ih =>
    cases h with
    | cons hstep hrest =>
      obtain ⟨u, v, hu, hv, ht⟩ := ih hrest
      exact ⟨u, v, .cons hstep hu, hv, ht⟩

theorem runs_invariant {P : Assembler → Prop} {s t : Assembler} {raws : List Text}
    (count : ∀ u, P u → P u.countLine)
    (keep : ∀ raw ∈ raws, ∀ u v, P u → Steps u (.split raw) v → P v)
    (h : Runs s raws t) (hs : P s) : P t := by
  induction h with
  | nil s => exact hs
  | @cons s t u raw rest hstep _ ih =>
    exact ih (fun r hr => keep r (by simp [hr])) (keep raw (by simp) _ _ (count s hs) hstep)

end Assembler

theorem assemble_ok_iff (source : Text) (p : Program) :
    assemble source = .ok p ↔
      ∃ s, Assembler.Runs .initial source.sourceLines s ∧ s.finish = p := by
  rw [assemble]
  constructor
  · intro h
    cases hl : Assembler.lines source.sourceLines .initial with
    | ok u s =>
      rw [hl] at h
      cases h
      exact ⟨s, (Assembler.lines_ok_iff _ _ _).mp hl, rfl⟩
    | error fault s =>
      rw [hl] at h
      cases h
  · rintro ⟨s, hs, rfl⟩
    rw [(Assembler.lines_ok_iff _ _ _).mpr hs]

def statement? (raw : Text) : Option Statement :=
  match Statement.parse (SourceLine.split raw).body with
  | .ok st => st
  | .error _ => none

def statements (raws : List Text) : List Statement := raws.filterMap statement?

theorem statements_append (raws rest : List Text) :
    statements (raws ++ rest) = statements raws ++ statements rest :=
  List.filterMap_append

theorem statements_cons (raw : Text) (rest : List Text) :
    statements (raw::rest) = (statement? raw).toList ++ statements rest := by
  rw [statements, List.filterMap_cons]
  cases statement? raw <;> rfl

theorem statement?_of_parse {raw : Text} {st : Option Statement}
    (h : Statement.parse (SourceLine.split raw).body = .ok st) : statement? raw = st := by
  rw [statement?, h]

theorem parse_of_statement? {raw : Text} {st : Statement} (h : statement? raw = some st) :
    Statement.parse (SourceLine.split raw).body = .ok (some st) := by
  rw [statement?] at h
  cases hp : Statement.parse (SourceLine.split raw).body with
  | ok parsed =>
    rw [hp] at h
    rw [show parsed = some st from h]
  | error fault =>
    rw [hp] at h
    cases h

theorem mem_statements {raw : Text} {raws : List Text} {st : Statement} (hr : raw ∈ raws)
    (h : Statement.parse (SourceLine.split raw).body = .ok (some st)) : st ∈ statements raws :=
  List.mem_filterMap.mpr ⟨raw, hr, statement?_of_parse h⟩

/-- A run executes each statement of its lines somewhere on its way. -/
theorem Assembler.runs_executes {s t : Assembler} {raws : List Text} {st : Statement}
    (h : Runs s raws t) (hm : st ∈ statements raws) :
    ∃ u v line rest, Executes u line st v ∧ Runs v rest t := by
  induction h with
  | nil s => cases hm
  | @cons s t u raw rest hstep hrest ih =>
    obtain ⟨r, hr, hst⟩ := List.mem_filterMap.mp hm
    rcases List.mem_cons.mp hr with rfl | hr
    · cases hstep with
      | blank hp hc => simp [statement?_of_parse hp] at hst
      | comment text hp hc => simp [statement?_of_parse hp] at hst
      | statement st' _ hp he =>
        rw [statement?_of_parse hp] at hst
        cases hst
        exact ⟨_, _, _, rest, he, hrest⟩
    · exact ih (List.mem_filterMap.mpr ⟨r, hr, hst⟩)

end SplAssembler
