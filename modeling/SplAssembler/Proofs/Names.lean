import SplAssembler.Proofs.Consistency

/-!
# Names of constants, labels and the origin

The three kinds of names share one table. The key of a label has a prefix and
the origin has a name of its own, but a constant may be written with that
prefix or that name, and nothing keeps it from taking the key of a label or of
the origin. The module says exactly when a name is taken, and which values can
still change: a name is refused if any accepted statement has bound its key,
and only the name of the origin ever takes another value.
-/

set_option autoImplicit false

namespace SplAssembler

def Statement.key? : Statement → Option Text
  | .label name => some (labelKey name)
  | .origin _ => some originSymbol
  | .const name _ => some name
  | _ => none

def Taken (program : List Statement) (name : Text) : Prop :=
  ∃ st ∈ program, st.key? = some name

instance (program : List Statement) (name : Text) : Decidable (Taken program name) :=
  inferInstanceAs (Decidable (∃ st ∈ program, st.key? = some name))

theorem taken_iff (program : List Statement) (name : Text) :
    Taken program name ↔ (∃ value, .const name value ∈ program) ∨
      (∃ label, name = labelKey label ∧ .label label ∈ program) ∨
      name = originSymbol ∧ ∃ value, .origin value ∈ program := by
  constructor
  · rintro ⟨st, hm, hk⟩
    cases st with
    | label label => exact Or.inr (Or.inl ⟨label, (Option.some.inj hk).symm, hm⟩)
    | origin value => exact Or.inr (Or.inr ⟨(Option.some.inj hk).symm, value, hm⟩)
    | const constant value =>
      cases hk
      exact Or.inl ⟨value, hm⟩
    | _ => cases hk
  · rintro (⟨value, hm⟩ | ⟨label, rfl, hm⟩ | ⟨rfl, value, hm⟩)
    · exact ⟨_, hm, rfl⟩
    · exact ⟨_, hm, rfl⟩
    · exact ⟨_, hm, rfl⟩

theorem taken_labelKey_iff (program : List Statement) (label : Text) :
    Taken program (labelKey label) ↔
      .label label ∈ program ∨ ∃ value, .const (labelKey label) value ∈ program := by
  rw [taken_iff]
  constructor
  · rintro (hc | ⟨other, hk, hm⟩ | ⟨ho, -⟩)
    · exact Or.inr hc
    · rw [labelKey_injective _ _ hk]
      exact Or.inl hm
    · exact absurd ho (labelKey_ne_originSymbol label)
  · rintro (hm | hc)
    · exact Or.inr (Or.inl ⟨label, rfl, hm⟩)
    · exact Or.inl hc

namespace Assembler

section Binding
variable {s t : Assembler} {line : SourceLine} {st : Statement}

theorem executes_key (h : Executes s line st t) : (s.binding? st).map Prod.fst = st.key? := by
  cases h with
  | origin value n hv hn =>
    rw [binding?, hv]
    rfl
  | _ => rfl

theorem executes_taken (h : Executes s line st t) (name : Text) :
    (t.symbols.get? name).isSome ↔ (s.symbols.get? name).isSome ∨ st.key? = some name := by
  rw [executes_symbols h, ← executes_key h]
  cases s.binding? st with
  | none => simp
  | some b =>
    rw [Option.elim_some, SymbolTable.get?_put, Option.map_some, Option.some_inj]
    by_cases hn : name = b.1
    · simp [hn]
    · simp [hn, Ne.symm hn]

theorem steps_taken {raw : Text} (h : Steps s (.split raw) t) (name : Text) :
    (t.symbols.get? name).isSome ↔
      (s.symbols.get? name).isSome ∨ Taken (statement? raw).toList name := by
  cases h with
  | blank hp _ => simp [statement?_of_parse hp, Taken, mark]
  | comment text hp _ => simp [statement?_of_parse hp, Taken, mark]
  | statement st _ hp he => simp [statement?_of_parse hp, Taken, executes_taken he name]

/-- The table has exactly the names that the statements of a run have bound. -/
theorem runs_taken {raws : List Text} (h : Runs s raws t) (name : Text) :
    (t.symbols.get? name).isSome ↔
      (s.symbols.get? name).isSome ∨ Taken (statements raws) name := by
  induction h with
  | nil s => simp [statements, Taken]
  | @cons s t u raw rest hstep _ ih =>
    have hc : (s.countLine.symbols.get? name).isSome ↔ (s.symbols.get? name).isSome := Iff.rfl
    have happ : Taken (statements (raw::rest)) name ↔
        Taken (statement? raw).toList name ∨ Taken (statements rest) name := by
      simp [Taken, statements_cons, or_and_right, exists_or]
    rw [ih, steps_taken hstep name, hc, happ, or_assoc]

end Binding

theorem session_taken (raws : List Text) (name : Text) :
    ((initial.session raws).1.symbols.get? name).isSome ↔
      Taken (statements (initial.accepted raws)) name := by
  obtain ⟨m, hm⟩ := session_runs initial raws
  have ht := runs_taken hm name
  have hi : ¬(initial.symbols.get? name).isSome = true := by simp [initial, SymbolTable.get?]
  rw [or_iff_right hi] at ht
  exact ht

section Outcome
variable {s : Assembler} {raw : Text} {st : Statement}

theorem step_statement (h : statement? raw = some st) :
    step (.split raw) s = execute (.split raw) st s :=
  run_ofExcept (parse_of_statement? h) _ _

theorem feed_ok {t : Assembler} (h : statement? raw = some st)
    (he : execute (.split raw) st s.countLine = .ok () t) : s.feed raw = (t, none) := by
  rw [feed, line, step_statement h, he]

theorem feed_error {t : Assembler} {fault : Fault} (h : statement? raw = some st)
    (he : execute (.split raw) st s.countLine = .error fault t) :
    s.feed raw = (t, some ⟨s.lineNo+1, fault⟩) := by
  rw [feed, line, step_statement h, he]

theorem feed_const {name value : Text} (h : statement? raw = some (.const name value)) :
    (s.feed raw).2 = if (s.symbols.get? name).isSome
      then some ⟨s.lineNo+1, .redefinedConstant name⟩ else none := by
  cases hg : s.symbols.get? name with
  | none =>
    have he : Executes s.countLine (.split raw) (.const name value) _ := .const name value hg
    rw [feed_ok h (execute_of_executes he)]
    rfl
  | some old =>
    have hd : SymbolTable.defineConst name value s.symbols =
        .error (.redefinedConstant name) s.symbols := run_unless_error (by rw [hg]; rfl) _ _ _
    rw [feed_error h (onSymbols_error (s := s.countLine) hd)]
    rfl

theorem feed_label {label : Text} (h : statement? raw = some (.label label))
    (hr : isReserved (UInt8.ofNat (s.offset+s.origin)) = false) :
    (s.feed raw).2 = if (s.symbols.get? (labelKey label)).isSome
      then some ⟨s.lineNo+1, .redefinedLabel label⟩ else none := by
  cases hg : s.symbols.get? (labelKey label) with
  | none =>
    have he : Executes s.countLine (.split raw) (.label label) _ := .label label hr hg
    rw [feed_ok h (execute_of_executes he)]
    rfl
  | some old =>
    have hd : SymbolTable.defineLabel label (s.offset+s.origin) s.symbols =
        .error (.redefinedLabel label) s.symbols := run_unless_error (by rw [hg]; rfl) _ _ _
    have he : execute (.split raw) (.label label) s.countLine =
        .error (.redefinedLabel label) s.countLine := by
      apply (run_unless hr _ _ _).trans
      exact run_bind_error (onSymbols_error (s := s.countLine) hd) _
    rw [feed_error h he]
    rfl

theorem refused_iff {outcome : Option LineFault} {taken : Prop} [Decidable taken] {n : Nat}
    {fault : Fault} (h : outcome = if taken then some ⟨n, fault⟩ else none) :
    (outcome.map LineFault.fault = some fault ↔ taken) ∧ (outcome = none ↔ ¬taken) := by
  rw [h]
  by_cases ht : taken
  · simp [ht]
  · simp [ht]

end Outcome

section Values
variable {s t : Assembler} {value : Text}

def originText (value : Text) (program : List Statement) : Text :=
  (origins program).getLast?.elim value Text.decimal

theorem originText_append (value : Text) (program rest : List Statement) :
    originText value (program ++ rest) = originText (originText value program) rest := by
  simp only [originText, origins_append, List.getLast?_append]
  cases (origins rest).getLast? <;> simp

theorem runs_originText {raws : List Text} (h : Runs s raws t)
    (hs : s.symbols.get? originSymbol = some value) :
    t.symbols.get? originSymbol = some (originText value (statements raws)) := by
  induction h generalizing value with
  | nil s => exact hs
  | @cons s t u raw rest hstep _ ih =>
    rw [statements_cons, originText_append]
    apply ih
    cases hstep with
    | blank hp _ =>
      rw [statement?_of_parse hp]
      exact hs
    | comment text hp _ =>
      rw [statement?_of_parse hp]
      exact hs
    | statement st _ hp he =>
      rw [statement?_of_parse hp, executes_originSymbol he fun _ => hs, Option.toList_some,
        originText, origins_singleton]
      cases st.origin? <;> rfl

/-- A session changes no value but that of the origin. -/
theorem session_value {name : Text} (after : List Text) (h : s.symbols.get? name = some value) :
    (s.session after).1.symbols.get? name =
      some (if name = originSymbol then originText value (statements (s.accepted after))
        else value) := by
  obtain ⟨m, hm⟩ := session_runs s after
  by_cases hn : name = originSymbol
  · subst name
    have hv := runs_originText hm h
    exact hv
  · rw [if_neg hn]
    have hv := runs_get? hm hn h
    exact hv

theorem feed_bound {raw name : Text} {st : Statement} (h : statement? raw = some st)
    (hok : s.feed raw = (t, none)) (hb : s.binding? st = some (name, value)) :
    t.symbols.get? name = some value := by
  cases (line_ok_iff s t raw).mp (line_of_feed hok) with
  | blank hp _ => simp [statement?_of_parse hp] at h
  | comment text hp _ => simp [statement?_of_parse hp] at h
  | statement st' _ hp he =>
    rw [statement?_of_parse hp] at h
    cases h
    have hc : s.countLine.binding? st = some (name, value) := hb
    rw [executes_symbols he, hc, Option.elim_some, SymbolTable.get?_put, if_pos rfl]

end Values

/-- A constant is refused as redefined exactly if its name is taken, by a
constant, by the key of a label or by the origin, and is accepted otherwise; a
label at an address that is not reserved is refused as redefined exactly if its
key is taken, by the label or by a constant. What an accepted line has bound
stays bound to the same value, except that a later directive overwrites a
constant with the name of the origin. -/
theorem names_refused_iff_taken (raws : List Text) :
    let s := (initial.session raws).1
    let program := statements (initial.accepted raws)
    (∀ raw name value, statement? raw = some (.const name value) →
      let taken := (∃ other, .const name other ∈ program) ∨
        (∃ label, name = labelKey label ∧ .label label ∈ program) ∨
        name = originSymbol ∧ ∃ text, .origin text ∈ program
      ((s.feed raw).2.map LineFault.fault = some (.redefinedConstant name) ↔ taken) ∧
      ((s.feed raw).2 = none ↔ ¬taken) ∧
      ((s.feed raw).2 = none → ∀ after,
        ((s.feed raw).1.session after).1.symbols.get? name = some
          (if name = originSymbol then
            originText value (statements ((s.feed raw).1.accepted after)) else value))) ∧
    ∀ raw label, statement? raw = some (.label label) →
      isReserved (UInt8.ofNat (s.offset+s.origin)) = false →
      let taken := .label label ∈ program ∨ ∃ value, .const (labelKey label) value ∈ program
      ((s.feed raw).2.map LineFault.fault = some (.redefinedLabel label) ↔ taken) ∧
      ((s.feed raw).2 = none ↔ ¬taken) ∧
      ((s.feed raw).2 = none → ∀ after,
        ((s.feed raw).1.session after).1.symbols.get? (labelKey label) =
          some (Text.decimal (s.offset+s.origin))) := by
  intro s program
  constructor
  · intro raw name value h taken
    have ht : (s.symbols.get? name).isSome ↔ taken :=
      (session_taken raws name).trans (taken_iff program name)
    obtain ⟨refused, accepted⟩ := refused_iff (feed_const h)
    refine ⟨refused.trans ht, accepted.trans (not_congr ht), ?_⟩
    intro hok after
    exact session_value after (feed_bound h (Prod.ext rfl hok) rfl)
  · intro raw label h hr taken
    have ht : (s.symbols.get? (labelKey label)).isSome ↔ taken :=
      (session_taken raws _).trans (taken_labelKey_iff program label)
    obtain ⟨refused, accepted⟩ := refused_iff (feed_label h hr)
    refine ⟨refused.trans ht, accepted.trans (not_congr ht), ?_⟩
    intro hok after
    have hv := session_value after (feed_bound h (Prod.ext rfl hok) rfl)
    rwa [if_neg (labelKey_ne_originSymbol label)] at hv

/-- A constant meets a label, a label meets a constant, and a third name is left alone. -/
theorem names_refused_iff_taken_across_kinds :
    ∃ s, s = (initial.session [".ORIGIN 3".toList, ":B".toList, "CONST LABEL_C 5".toList]).1 ∧
      (s.feed "CONST LABEL_B 7".toList).2.map LineFault.fault =
        some (.redefinedConstant "LABEL_B".toList) ∧
      (s.feed ":C".toList).2.map LineFault.fault = some (.redefinedLabel ['C']) ∧
      ((s.feed "CONST D 4".toList).1.session
        [".ORIGIN 9".toList, "CONST D 5".toList]).1.symbols.get? ['D'] = some ['4'] := by
  let raws : List Text := [".ORIGIN 3".toList, ":B".toList, "CONST LABEL_C 5".toList]
  have hp : statements (initial.accepted raws) =
      [.origin ['3'], .label ['B'], .const "LABEL_C".toList ['5']] := by decide +kernel
  have hb : statement? "CONST LABEL_B 7".toList = some (.const "LABEL_B".toList ['7']) := by
    decide +kernel
  have hc : statement? ":C".toList = some (.label ['C']) := by decide +kernel
  have hd : statement? "CONST D 4".toList = some (.const ['D'] ['4']) := by decide +kernel
  have hr : isReserved (UInt8.ofNat
      ((initial.session raws).1.offset+(initial.session raws).1.origin)) = false := by
    decide +kernel
  obtain ⟨constants, labels⟩ := names_refused_iff_taken raws
  rw [hp] at constants labels
  refine ⟨_, rfl, ?_, ?_, ?_⟩
  · exact (constants _ _ _ hb).1.mpr (Or.inr (Or.inl ⟨['B'], rfl, by decide⟩))
  · exact (labels _ _ hc hr).1.mpr (Or.inr ⟨['5'], by decide⟩)
  · obtain ⟨-, accepted, stays⟩ := constants _ _ _ hd
    have free : ¬Taken [.origin ['3'], .label ['B'], .const "LABEL_C".toList ['5']] ['D'] := by
      decide
    have hv := stays (accepted.mpr (mt (taken_iff _ _).mpr free))
      [".ORIGIN 9".toList, "CONST D 5".toList]
    rwa [if_neg (by decide)] at hv

/-- A label takes the name of a constant, a constant takes the key of a label, and
the origin changes the value of a constant. -/
theorem names_of_different_kinds_interfere :
    (¬∀ raws raw name value, statement? raw = some (.const name value) →
      (((initial.session raws).1.feed raw).2.map LineFault.fault = some (.redefinedConstant name) ↔
        ∃ other, .const name other ∈ statements (initial.accepted raws))) ∧
    (¬∀ raws raw label, statement? raw = some (.label label) →
      isReserved (UInt8.ofNat
        ((initial.session raws).1.offset+(initial.session raws).1.origin)) = false →
      (((initial.session raws).1.feed raw).2.map LineFault.fault = some (.redefinedLabel label) ↔
        .label label ∈ statements (initial.accepted raws))) ∧
    ¬∀ raws raw name value, statement? raw = some (.const name value) →
      ((initial.session raws).1.feed raw).2 = none →
      ∀ after, (((initial.session raws).1.feed raw).1.session after).1.symbols.get? name =
        some value := by
  refine ⟨?_, ?_, ?_⟩
  · intro separate
    have h := (separate [":X".toList] "CONST LABEL_X 5".toList "LABEL_X".toList ['5']
      (by decide +kernel)).mp (by decide +kernel)
    have hp : statements (initial.accepted [":X".toList]) = [.label ['X']] := by decide +kernel
    rw [hp] at h
    simp at h
  · intro separate
    have h := (separate ["CONST LABEL_X 5".toList] ":X".toList ['X'] (by decide +kernel)
      (by decide +kernel)).mp (by decide +kernel)
    exact absurd h (by decide +kernel)
  · intro constant
    have h := constant [] "CONST SPELL_ORIGIN 5".toList originSymbol ['5'] (by decide +kernel)
      (by decide +kernel) [".ORIGIN 3".toList]
    exact absurd h (by decide +kernel)

end Assembler
end SplAssembler
