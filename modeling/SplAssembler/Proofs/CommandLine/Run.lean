import Mathlib.Logic.Function.Basic
import SplAssembler.CommandLine.Run
import SplAssembler.Proofs.ByteTexts

/-!
# What a run leaves behind

Everything that can fail comes before the first output, and the source is read
before anything is written. So a run prints or writes the whole text or
nothing, and it makes no difference to the text where it goes, nor whether the
output file is the input file. Reports of progress and of faults go to the
error stream alone.

Nothing is assumed of the host but `HostLaws`: a readable file gives its
content, a write stores the whole text or fails and changes nothing, and no
other call touches a file. The results hold for every host that keeps these
laws, whatever its files, paths and refusals are. `Memory` is one.
-/

set_option autoImplicit false

namespace SplAssembler

def Text.utf8 (t : Text) : ByteArray := (String.ofList t).toUTF8

theorem Text.utf8Decode?_utf8 (t : Text) : t.utf8.utf8Decode? = some t.toArray := by
  rw [utf8, String.toUTF8_eq_toByteArray, String.toByteArray_ofList]
  exact List.utf8Decode?_utf8Encode

namespace CommandLine

/-- What is seen of a host in a state. A path leads to the same file throughout a run,
whether or not the file exists yet; devices and streams are no files. -/
structure View (σ φ : Type) where
  file : Text → Option φ
  readable : φ → Prop
  writable : φ → Prop
  content : σ → φ → Option ByteArray
  stdout : σ → Text

namespace View
variable {σ φ : Type}

structure Unchanged (view : View σ φ) (s t : σ) : Prop where
  content : view.content t = view.content s
  stdout : view.stdout t = view.stdout s

structure Stored (view : View σ φ) (f : φ) (text : Text) (s t : σ) : Prop where
  content : view.content t f = some text.utf8
  others : ∀ g, g ≠ f → view.content t g = view.content s g
  stdout : view.stdout t = view.stdout s

/-- The path leads to a readable file that holds the text. -/
def Gives (view : View σ φ) (s : σ) (path text : Text) : Prop :=
  ∃ f, view.file path = some f ∧ view.readable f ∧ view.content s f = some text.utf8

variable {view : View σ φ} {f : φ} {path text : Text} {s t u : σ}

theorem unchanged_refl (s : σ) : view.Unchanged s s := ⟨rfl, rfl⟩

theorem Unchanged.trans (h : view.Unchanged s t) (h' : view.Unchanged t u) :
    view.Unchanged s u :=
  ⟨h'.content.trans h.content, h'.stdout.trans h.stdout⟩

theorem Gives.later (h : view.Gives s path text) (h' : view.Unchanged s t) :
    view.Gives t path text := by
  obtain ⟨f, hf, hr, hc⟩ := h
  exact ⟨f, hf, hr, (congrFun h'.content f).trans hc⟩

theorem Stored.after (h : view.Stored f text t u) (h' : view.Unchanged s t) :
    view.Stored f text s u :=
  ⟨h.content, fun g hg => (h.others g hg).trans (congrFun h'.content g), h.stdout.trans h'.stdout⟩

theorem Stored.before (h : view.Stored f text s t) (h' : view.Unchanged t u) :
    view.Stored f text s u :=
  ⟨(congrFun h'.content f).trans h.content,
    fun g hg => (congrFun h'.content g).trans (h.others g hg), h'.stdout.trans h.stdout⟩

end View

structure HostLaws {σ φ : Type} (host : HostAccess (StateM σ)) (view : View σ φ) : Prop where
  read_content : ∀ s path source, view.Gives s path source → (host.read path s).1 = .ok source
  read_unchanged : ∀ s path, view.Unchanged s (host.read path s).2
  write_accepted : ∀ s path f text, view.file path = some f → view.writable f →
    (host.write path text s).1 = .ok ()
  write_stored : ∀ s path f text, view.file path = some f →
    (host.write path text s).1 = .ok () → view.Stored f text s (host.write path text s).2
  write_unchanged : ∀ s path text reason, (host.write path text s).1 = .error reason →
    view.Unchanged s (host.write path text s).2
  print_content : ∀ s text, view.content (host.print text s).2 = view.content s
  print_stdout : ∀ s text, view.stdout (host.print text s).2 = view.stdout s ++ text
  report_unchanged : ∀ s text, view.Unchanged s (host.report text s).2

def rendered? (format : Format) (source : Text) : Option Text :=
  match assemble source with
  | .ok p => (format.render p).toOption
  | .error _ => none

theorem rendered?_ok {source : Text} {p : Program} (format : Format) (h : assemble source = .ok p) :
    rendered? format source = (format.render p).toOption := by
  rw [rendered?, h]

theorem rendered?_some {format : Format} {source text : Text}
    (h : rendered? format source = some text) :
    ∃ p, assemble source = .ok p ∧ format.render p = .ok text := by
  cases ha : assemble source with
  | error fault =>
    rw [rendered?, ha] at h
    cases h
  | ok p =>
    rw [rendered?_ok format ha] at h
    cases hf : format.render p with
    | error fault =>
      rw [hf] at h
      cases h
    | ok rendered =>
      rw [hf] at h
      cases h
      exact ⟨p, rfl, hf⟩

theorem rendered?_none {format : Format} {source : Text} (h : rendered? format source = none) :
    (∃ fault, assemble source = .error fault) ∨
      ∃ p fault, assemble source = .ok p ∧ format.render p = .error fault := by
  cases ha : assemble source with
  | error fault => exact Or.inl ⟨fault, rfl⟩
  | ok p =>
    rw [rendered?_ok format ha] at h
    cases hf : format.render p with
    | error fault => exact Or.inr ⟨p, fault, rfl, hf⟩
    | ok text =>
      rw [hf] at h
      cases h

/-- The listing and the defines of a program can always be written. -/
theorem rendered?_total {format : Format} {source : Text} {p : Program}
    (hf : format = .c ∨ format = .defines) (h : assemble source = .ok p) :
    ∃ text, rendered? format source = some text := by
  rw [rendered?_ok format h]
  rcases hf with rfl | rfl
  · exact ⟨p.listing, rfl⟩
  · exact ⟨p.header, rfl⟩

theorem rendered?_none_iff {format : Format} {source : Text} {p : Program}
    (hf : format = .bytes ∨ format = .hex) (h : assemble source = .ok p) :
    rendered? format source = none ↔ ∃ fault, p.bytes = .error fault := by
  rw [rendered?_ok format h]
  cases hr : format.render p with
  | error fault =>
    have hb := (render_error_iff hf p fault).mp hr
    exact ⟨fun _ => ⟨fault, hb⟩, fun _ => rfl⟩
  | ok text =>
    refine ⟨fun hn => absurd hn (by simp [Except.toOption]), ?_⟩
    rintro ⟨fault, hb⟩
    rw [(render_error_iff hf p fault).mpr hb] at hr
    cases hr

namespace Options
variable {σ φ : Type} {host : HostAccess (StateM σ)} {view : View σ φ} {o : Options}
variable {source text path : Text} {s : σ}

def withOutput (o : Options) (output : Option Text) : Options := { o with output := output }

def outcome (o : Options) (host : HostAccess (StateM σ)) (s : σ) : Status × σ :=
  (Request.run o).answer host s

theorem state_bind {α β : Type} (x : StateM σ α) (k : α → StateM σ β) (s : σ) :
    (x >>= k) s = k (x s).1 (x s).2 := rfl

theorem progress_unchanged (laws : HostLaws host view) (o : Options) (note : Text) (s : σ) :
    view.Unchanged s (progress host o note s).2 := by
  rw [progress]
  cases o.verbose with
  | true => exact laws.report_unchanged s _
  | false => exact View.unchanged_refl s

theorem outcome_read (laws : HostLaws host view) (h : view.Gives s o.input source) :
    ∃ t, view.Unchanged s t ∧ o.outcome host s = translate host o source t := by
  let noted := (progress host o ("< ".toList ++ o.input) s).2
  have hn : view.Unchanged s noted := progress_unchanged laws o _ s
  have hread : (host.read o.input noted).1 = .ok source :=
    laws.read_content noted o.input source (h.later hn)
  refine ⟨(host.read o.input noted).2, hn.trans (laws.read_unchanged noted _), ?_⟩
  change run host o s = _
  rw [run, state_bind, state_bind, hread]

theorem translate_error {fault : LineFault} (laws : HostLaws host view)
    (h : assemble source = .error fault) (s : σ) :
    (translate host o source s).1 = .failure ∧
      view.Unchanged s (translate host o source s).2 := by
  rw [translate, h]
  exact ⟨rfl, laws.report_unchanged s _⟩

theorem translate_ok {p : Program} (laws : HostLaws host view) (h : assemble source = .ok p)
    (s : σ) : ∃ t, view.Unchanged s t ∧ translate host o source s = produce host o p t := by
  refine ⟨_, progress_unchanged laws o (programNote p) s, ?_⟩
  rw [translate, h]
  rfl

theorem produce_error {p : Program} {fault : Fault} (laws : HostLaws host view)
    (h : o.format.render p = .error fault) (s : σ) :
    (produce host o p s).1 = .failure ∧ view.Unchanged s (produce host o p s).2 := by
  rw [produce, h]
  exact ⟨rfl, laws.report_unchanged s _⟩

theorem produce_ok {p : Program} (h : o.format.render p = .ok text) :
    produce host o p = deliver host o text := by
  rw [produce, h]

theorem deliver_printed (laws : HostLaws host view) (h : o.output = none) (text : Text) (s : σ) :
    (deliver host o text s).1 = .success ∧
      view.content (deliver host o text s).2 = view.content s ∧
      view.stdout (deliver host o text s).2 = view.stdout s ++ text ++ ['\n'] := by
  rw [deliver, h]
  refine ⟨rfl, laws.print_content s _, ?_⟩
  exact (laws.print_stdout s _).trans (List.append_assoc _ _ _).symm

theorem deliver_accepted (laws : HostLaws host view) (h : o.output = some path)
    (hw : (host.write path text s).1 = .ok ()) :
    (deliver host o text s).1 = .success ∧ ∀ g, view.file path = some g →
      view.Stored g text s (deliver host o text s).2 := by
  rw [deliver, h]
  dsimp only
  rw [state_bind, hw]
  refine ⟨rfl, fun g hg => ?_⟩
  exact (laws.write_stored s path g text hg hw).before (progress_unchanged laws o _ _)

theorem deliver_refused {reason : Text} (laws : HostLaws host view) (h : o.output = some path)
    (hw : (host.write path text s).1 = .error reason) :
    (deliver host o text s).1 = .failure ∧ view.Unchanged s (deliver host o text s).2 := by
  rw [deliver, h]
  dsimp only
  rw [state_bind, hw]
  exact ⟨rfl, (laws.write_unchanged s path text reason hw).trans (laws.report_unchanged _ _)⟩

theorem outcome_failed (laws : HostLaws host view) (h : view.Gives s o.input source)
    (hn : rendered? o.format source = none) :
    (o.outcome host s).1 = .failure ∧ view.Unchanged s (o.outcome host s).2 := by
  obtain ⟨t, ht, hrun⟩ := outcome_read laws h
  rw [hrun]
  rcases rendered?_none hn with ⟨fault, ha⟩ | ⟨p, fault, ha, hp⟩
  · obtain ⟨hs, hu⟩ := translate_error (o := o) laws ha t
    exact ⟨hs, ht.trans hu⟩
  · obtain ⟨u, hu, htranslate⟩ := translate_ok (o := o) laws ha t
    obtain ⟨hs, hv⟩ := produce_error laws hp u
    rw [htranslate]
    exact ⟨hs, (ht.trans hu).trans hv⟩

theorem outcome_rendered (laws : HostLaws host view) (h : view.Gives s o.input source)
    (ht : rendered? o.format source = some text) :
    ∃ t, view.Unchanged s t ∧ o.outcome host s = deliver host o text t := by
  obtain ⟨t, hu, hrun⟩ := outcome_read laws h
  obtain ⟨p, ha, hp⟩ := rendered?_some ht
  obtain ⟨u, hv, htranslate⟩ := translate_ok (o := o) laws ha t
  exact ⟨u, hu.trans hv, by rw [hrun, htranslate, produce_ok hp]⟩

theorem outcome_printed (laws : HostLaws host view) (h : view.Gives s o.input source)
    (ht : rendered? o.format source = some text) (ho : o.output = none) :
    (o.outcome host s).1 = .success ∧
      view.stdout (o.outcome host s).2 = view.stdout s ++ text ++ ['\n'] ∧
      view.content (o.outcome host s).2 = view.content s := by
  obtain ⟨t, hu, hrun⟩ := outcome_rendered laws h ht
  obtain ⟨hs, hcontent, hstdout⟩ := deliver_printed laws ho text t
  rw [hrun, hcontent, hstdout, hu.content, hu.stdout]
  exact ⟨hs, rfl, rfl⟩

theorem outcome_accepted {g : φ} (laws : HostLaws host view) (h : view.Gives s o.input source)
    (ht : rendered? o.format source = some text) (ho : o.output = some path)
    (hg : view.file path = some g) (hw : view.writable g) :
    (o.outcome host s).1 = .success ∧ view.Stored g text s (o.outcome host s).2 := by
  obtain ⟨t, hu, hrun⟩ := outcome_rendered laws h ht
  obtain ⟨hs, hd⟩ := deliver_accepted laws ho (laws.write_accepted t path g text hg hw)
  rw [hrun]
  exact ⟨hs, (hd g hg).after hu⟩

theorem outcome_written (laws : HostLaws host view) (h : view.Gives s o.input source)
    (ht : rendered? o.format source = some text) (ho : o.output = some path) :
    ((o.outcome host s).1 = .success ∧
      ∀ g, view.file path = some g → view.Stored g text s (o.outcome host s).2) ∨
    ((o.outcome host s).1 = .failure ∧ view.Unchanged s (o.outcome host s).2) := by
  obtain ⟨t, hu, hrun⟩ := outcome_rendered laws h ht
  rw [hrun]
  cases hw : (host.write path text t).1 with
  | ok done =>
    obtain ⟨hs, hd⟩ := deliver_accepted laws ho hw
    exact Or.inl ⟨hs, fun g hg => (hd g hg).after hu⟩
  | error reason =>
    obtain ⟨hs, hd⟩ := deliver_refused laws ho hw
    exact Or.inr ⟨hs, hu.trans hd⟩

end Options

/-- A run whose input is readable fails with nothing printed and no file changed, if
the source has no text in the format. Otherwise the run prints that text and a line
feed, and a run with an output file writes the same text to it, changes no other
file and prints nothing; if the output is refused, nothing changes. -/
theorem run_all_or_nothing {σ φ : Type} {host : HostAccess (StateM σ)} {view : View σ φ}
    (laws : HostLaws host view) (o : Options) (s : σ) (source : Text)
    (h : view.Gives s o.input source) :
    (rendered? o.format source = none → ∀ output,
      ((o.withOutput output).outcome host s).1.code = 1 ∧
      view.Unchanged s ((o.withOutput output).outcome host s).2) ∧
    (∀ text, rendered? o.format source = some text →
      (((o.withOutput none).outcome host s).1.code = 0 ∧
        view.stdout ((o.withOutput none).outcome host s).2 = view.stdout s ++ text ++ ['\n'] ∧
        view.content ((o.withOutput none).outcome host s).2 = view.content s) ∧
      (∀ path g, view.file path = some g → view.writable g →
        ((o.withOutput (some path)).outcome host s).1.code = 0 ∧
        view.Stored g text s ((o.withOutput (some path)).outcome host s).2) ∧
      ∀ path,
        (((o.withOutput (some path)).outcome host s).1.code = 0 ∧
          ∀ g, view.file path = some g →
            view.Stored g text s ((o.withOutput (some path)).outcome host s).2) ∨
        (((o.withOutput (some path)).outcome host s).1.code = 1 ∧
          view.Unchanged s ((o.withOutput (some path)).outcome host s).2)) ∧
    ∀ p, assemble source = .ok p →
      (o.format = .c ∨ o.format = .defines → ∃ text, rendered? o.format source = some text) ∧
      (o.format = .bytes ∨ o.format = .hex →
        (rendered? o.format source = none ↔ ∃ fault, p.bytes = .error fault)) := by
  refine ⟨?_, ?_, ?_⟩
  · intro hn output
    obtain ⟨hs, hu⟩ := Options.outcome_failed (o := o.withOutput output) laws h hn
    exact ⟨congrArg Status.code hs, hu⟩
  · intro text ht
    refine ⟨?_, ?_, ?_⟩
    · obtain ⟨hs, hp⟩ := Options.outcome_printed (o := o.withOutput none) laws h ht rfl
      exact ⟨congrArg Status.code hs, hp⟩
    · intro path g hg hw
      obtain ⟨hs, hd⟩ :=
        Options.outcome_accepted (o := o.withOutput (some path)) laws h ht rfl hg hw
      exact ⟨congrArg Status.code hs, hd⟩
    · intro path
      rcases Options.outcome_written (o := o.withOutput (some path)) laws h ht rfl with
        ⟨hs, hd⟩ | ⟨hs, hu⟩
      · exact Or.inl ⟨congrArg Status.code hs, hd⟩
      · exact Or.inr ⟨congrArg Status.code hs, hu⟩
  · intro p hp
    exact ⟨fun hf => rendered?_total hf hp, fun hf => rendered?_none_iff hf hp⟩

structure Memory where
  files : Text → Option ByteArray
  stdout : Text
  stderr : Text

namespace Memory

def access (locked : List Text) : HostAccess (StateM Memory) where
  read path := fun memory =>
    match memory.files path with
    | none => (.error "No such file or directory (os error 2)".toList, memory)
    | some bytes =>
      match bytes.utf8Decode? with
      | none => (.error "stream did not contain valid UTF-8".toList, memory)
      | some content => (.ok content.toList, memory)
  write path text := fun memory =>
    if path ∈ locked then (.error "Permission denied (os error 13)".toList, memory)
    else (.ok (), { memory with files := Function.update memory.files path text.utf8 })
  print text := modify fun memory => { memory with stdout := memory.stdout ++ text }
  report text := modify fun memory => { memory with stderr := memory.stderr ++ text }

def view (locked : List Text) : View Memory Text where
  file := some
  readable _ := True
  writable path := path ∉ locked
  content := files
  stdout := stdout

theorem write_locked {locked : List Text} {path : Text} (h : path ∈ locked) (text : Text)
    (memory : Memory) : (access locked).write path text memory =
      (.error "Permission denied (os error 13)".toList, memory) :=
  if_pos h

theorem write_unlocked {locked : List Text} {path : Text} (h : path ∉ locked) (text : Text)
    (memory : Memory) : (access locked).write path text memory =
      (.ok (), { memory with files := Function.update memory.files path text.utf8 }) :=
  if_neg h

theorem laws (locked : List Text) : HostLaws (access locked) (view locked) where
  read_content := by
    rintro memory path source ⟨f, hf, -, hc⟩
    cases hf
    change memory.files path = some source.utf8 at hc
    simp only [access, hc, Text.utf8Decode?_utf8]
  read_unchanged := by
    intro memory path
    have same : ((access locked).read path memory).2 = memory := by
      simp only [access]
      split
      · rfl
      · split <;> rfl
    rw [same]
    exact View.unchanged_refl memory
  write_accepted := by
    rintro memory path f text hf hw
    cases hf
    rw [write_unlocked hw]
  write_stored := by
    rintro memory path f text hf hok
    cases hf
    by_cases hl : path ∈ locked
    · rw [write_locked hl] at hok
      cases hok
    · rw [write_unlocked hl]
      exact ⟨Function.update_self .., fun g hg => Function.update_of_ne hg .., rfl⟩
  write_unchanged := by
    intro memory path text reason herror
    by_cases hl : path ∈ locked
    · rw [write_locked hl]
      exact View.unchanged_refl memory
    · rw [write_unlocked hl] at herror
      cases herror
  print_content _ _ := rfl
  print_stdout _ _ := rfl
  report_unchanged _ _ := ⟨rfl, rfl⟩

end Memory

/-- The output file is the input file. -/
theorem run_all_or_nothing_onto_input :
    ∃ (before : Memory) (after : Status × Memory),
      before.files ['a'] = some (Text.utf8 "PUSH 1\nSTOP".toList) ∧
      (Options.withOutput ⟨['a'], none, .hex, true⟩ (some ['a'])).outcome
        (Memory.access [['b']]) before = after ∧
      after.1.code = 0 ∧ after.2.files ['a'] = some (Text.utf8 "01 ff".toList) ∧
      (∀ path, path ≠ ['a'] → after.2.files path = before.files path) ∧
      after.2.stdout = before.stdout := by
  let source : Text := "PUSH 1\nSTOP".toList
  let before : Memory := ⟨Function.update (fun _ => none) ['a'] source.utf8, [], []⟩
  have hc : before.files ['a'] = some source.utf8 := by simp only [before, Function.update_self]
  have hr : rendered? .hex source = some "01 ff".toList := by decide +kernel
  have hw : (Memory.view [['b']]).writable ['a'] := show ['a'] ∉ [['b']] by decide
  obtain ⟨-, delivered, -⟩ := run_all_or_nothing (Memory.laws [['b']]) ⟨['a'], none, .hex, true⟩
    before source ⟨['a'], rfl, trivial, hc⟩
  obtain ⟨hcode, hstored⟩ := (delivered _ hr).2.1 ['a'] ['a'] rfl hw
  generalize hafter : Options.outcome _ _ before = after at hcode hstored
  exact ⟨before, after, hc, hafter, hcode, hstored.content, hstored.others, hstored.stdout⟩

end CommandLine
end SplAssembler
