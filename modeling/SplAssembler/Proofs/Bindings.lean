import SplAssembler.Proofs.Resolution

/-!
# The history of a symbol table

A table serves requests to bind constants, labels and the origin. A request for
a key that is bound is refused, unless it sets the origin. So a name stands
where it was first bound and keeps its first value. Only the origin takes the
value of its last request, and it stays where it is.
-/

set_option autoImplicit false

namespace SplAssembler
namespace SymbolTable

inductive Request where
  | const (name value : Text)
  | label (name : Text) (address : Nat)
  | origin (address : Nat)
  deriving DecidableEq, Repr

namespace Request

def key : Request → Text
  | const name _ => name
  | label name _ => labelKey name
  | origin _ => originSymbol

def value : Request → Text
  | const _ value => value
  | label _ address => Text.decimal address
  | origin address => Text.decimal address

def edit : Request → Edit Unit
  | const name value => defineConst name value
  | label name address => defineLabel name address
  | origin address => modify (setOrigin · address)

def fault? : Request → Option Fault
  | const name _ => some (.redefinedConstant name)
  | label name _ => some (.redefinedLabel name)
  | origin _ => none

def origin? : Request → Option Nat
  | origin address => some address
  | _ => none

end Request

def answer (table : SymbolTable) (request : Request) : SymbolTable × Option Fault :=
  match request.edit table with
  | .ok _ after => (after, none)
  | .error fault after => (after, some fault)

def serve : SymbolTable → List Request → SymbolTable × List (Option Fault)
  | table, [] => (table, [])
  | table, request::rest =>
      let first := table.answer request
      let more := serve first.1 rest
      (more.1, first.2::more.2)

def granted (table : SymbolTable) (requests : List Request) : List Request :=
  ((requests.zip (table.serve requests).2).filter (·.2.isNone)).map Prod.fst

section Answers
variable {table : SymbolTable} {request : Request}

theorem get?_eq_none_iff (table : SymbolTable) (name : Text) :
    table.get? name = none ↔ name ∉ table.map Define.name := by
  refine ⟨?_, get?_of_not_mem⟩
  intro h hm
  obtain ⟨d, hd, rfl⟩ := List.mem_map.mp hm
  have hn := List.find?_eq_none.mp (Option.map_eq_none_iff.mp h) d hd
  simp at hn

theorem answer_granted (h : request.fault? = none ∨ table.get? request.key = none) :
    table.answer request = (table.put request.key request.value, none) := by
  cases request with
  | const name value =>
    have hg : table.get? name = none := h.resolve_left nofun
    have he : defineConst name value table = .ok () (table.put name value) :=
      run_unless (by rw [hg]; rfl) _ _ _
    rw [answer, Request.edit, he]
    rfl
  | label name address =>
    have hg : table.get? (labelKey name) = none := h.resolve_left nofun
    have he : defineLabel name address table =
        .ok () (table.put (labelKey name) (Text.decimal address)) :=
      run_unless (by rw [hg]; rfl) _ _ _
    rw [answer, Request.edit, he]
    rfl
  | origin address => rfl

theorem answer_refused {fault : Fault} (hf : request.fault? = some fault)
    (h : request.key ∈ table.map Define.name) : table.answer request = (table, some fault) := by
  have hb : (table.get? request.key).isSome = true := by
    rw [Option.isSome_iff_ne_none, Ne, get?_eq_none_iff]
    exact not_not_intro h
  cases request with
  | const name value =>
    cases hf
    have he : defineConst name value table = .error (.redefinedConstant name) table :=
      run_unless_error hb _ _ _
    rw [answer, Request.edit, he]
  | label name address =>
    cases hf
    have he : defineLabel name address table = .error (.redefinedLabel name) table :=
      run_unless_error hb _ _ _
    rw [answer, Request.edit, he]
  | origin address => cases hf

theorem answer_cases (table : SymbolTable) (request : Request) :
    (request.fault? = none ∨ table.get? request.key = none) ∧
      table.answer request = (table.put request.key request.value, none) ∨
    ∃ fault, request.fault? = some fault ∧ request.key ∈ table.map Define.name ∧
      table.answer request = (table, some fault) := by
  by_cases hr : request.fault? = none ∨ table.get? request.key = none
  · exact Or.inl ⟨hr, answer_granted hr⟩
  · rw [not_or, get?_eq_none_iff, not_not] at hr
    obtain ⟨fault, hf⟩ := Option.ne_none_iff_exists'.mp hr.1
    exact Or.inr ⟨fault, hf, hr.2, answer_refused hf hr.2⟩

/-- A request is refused exactly if its key is bound and it does not set the origin. -/
theorem answer_fault_iff (table : SymbolTable) (request : Request) (fault : Fault) :
    (table.answer request).2 = some fault ↔
      request.fault? = some fault ∧ request.key ∈ table.map Define.name := by
  rcases answer_cases table request with ⟨hr, ha⟩ | ⟨cause, hf, hm, ha⟩
  · rw [ha]
    rw [get?_eq_none_iff] at hr
    constructor
    · intro h
      cases h
    · rintro ⟨hf, hm⟩
      rcases hr with hn | hn
      · cases hf.symm.trans hn
      · exact absurd hm hn
  · rw [ha, hf]
    exact (and_iff_left hm).symm

theorem answer_table (h : (table.answer request).2 ≠ none) : (table.answer request).1 = table := by
  rcases answer_cases table request with ⟨-, ha⟩ | ⟨fault, -, -, ha⟩
  · rw [ha] at h
    exact absurd rfl h
  · rw [ha]

end Answers

/-- The names of a table keep their places when one of them is bound again. -/
theorem put_names (table : SymbolTable) (name value : Text) :
    (table.put name value).map Define.name =
      if name ∈ table.map Define.name then table.map Define.name
      else table.map Define.name ++ [name] := by
  induction table with
  | nil => simp [put]
  | cons d ds ih =>
    rw [put]
    by_cases hd : d.name = name
    · simp [hd]
    · rw [if_neg hd, List.map_cons, ih]
      by_cases hm : name ∈ ds.map Define.name
      · simp [hm]
      · simp [hm, Ne.symm hd]

structure Records (table : SymbolTable) (done : List Request) : Prop where
  distinct : table.Distinct
  names : table.map Define.name = (done.map Request.key).eraseDups
  first : ∀ name, (name = originSymbol → done.filterMap Request.origin? = []) →
    table.get? name = (done.find? (·.key == name)).map Request.value
  origin : ∀ address, (done.filterMap Request.origin?).getLast? = some address →
    table.get? originSymbol = some (Text.decimal address)

theorem records_nil : Records [] [] where
  distinct := List.nodup_nil
  names := rfl
  first := fun _ _ => rfl
  origin := nofun

theorem eraseDups_concat (names : List Text) (name : Text) :
    (names ++ [name]).eraseDups =
      if name ∈ names then names.eraseDups else names.eraseDups ++ [name] := by
  rw [List.eraseDups_append]
  by_cases h : name ∈ names
  · simp [List.removeAll, h]
  · simp [List.removeAll, h, List.eraseDups_cons]

section Runs
variable {table : SymbolTable} {done : List Request} {request : Request}

theorem origins_concat (done : List Request) (request : Request) :
    (done ++ [request]).filterMap Request.origin? =
      done.filterMap Request.origin? ++ request.origin?.toList := by
  rw [List.filterMap_append, List.filterMap_cons]
  cases request.origin? <;> rfl

theorem put_first {name : Text} (h : Records table done)
    (hr : request.fault? = none ∨ table.get? request.key = none)
    (ho : name = originSymbol → (done ++ [request]).filterMap Request.origin? = []) :
    (table.put request.key request.value).get? name =
      ((done ++ [request]).find? (·.key == name)).map Request.value := by
  have hdone : table.get? name = (done.find? (·.key == name)).map Request.value := by
    apply h.first
    intro hn
    have hnil := ho hn
    rw [origins_concat, List.append_eq_nil_iff] at hnil
    exact hnil.1
  rw [get?_put, List.find?_append]
  by_cases hn : name = request.key
  · -- the key was free, for the origin is not set here
    have hfree : table.get? request.key = none := by
      apply hr.resolve_left
      intro hf
      cases request with
      | origin address =>
        have hnil := ho hn
        rw [origins_concat] at hnil
        exact absurd (List.append_eq_nil_iff.mp hnil).2 (List.cons_ne_nil _ _)
      | _ => cases hf
    rw [hn] at hdone ⊢
    rw [hfree] at hdone
    rw [if_pos rfl, Option.map_eq_none_iff.mp hdone.symm]
    simp
  · rw [if_neg hn, hdone]
    simp [Ne.symm hn]

theorem put_origin {address : Nat} (h : Records table done)
    (hr : request.fault? = none ∨ table.get? request.key = none)
    (ha : ((done ++ [request]).filterMap Request.origin?).getLast? = some address) :
    (table.put request.key request.value).get? originSymbol = some (Text.decimal address) := by
  rw [origins_concat, List.getLast?_append] at ha
  cases request with
  | origin last =>
    cases ha
    exact (get?_put _ _ _ _).trans (if_pos rfl)
  | _ =>
    -- the origin is bound, so this request asks for another name
    have hbound := h.origin address ha
    have hfree := hr.resolve_left nofun
    rw [get?_put, if_neg, hbound]
    intro he
    rw [← he, hbound] at hfree
    cases hfree

/-- A request that is granted goes on record. -/
theorem records_put (h : Records table done)
    (hr : request.fault? = none ∨ table.get? request.key = none) :
    Records (table.put request.key request.value) (done ++ [request]) := by
  constructor
  · exact put_distinct table _ _ h.distinct
  · have hm : request.key ∈ table.map Define.name ↔ request.key ∈ done.map Request.key := by
      rw [h.names, List.mem_eraseDups]
    rw [put_names, List.map_append, List.map_singleton, eraseDups_concat, ← h.names]
    simp only [hm]
  · intro name ho
    exact put_first h hr ho
  · intro address ha
    exact put_origin h hr ha

theorem granted_ok {after : SymbolTable} (rest : List Request)
    (h : table.answer request = (after, none)) :
    table.granted (request::rest) = request :: after.granted rest := by
  rw [granted, serve, h]
  rfl

theorem granted_refused {after : SymbolTable} {fault : Fault} (rest : List Request)
    (h : table.answer request = (after, some fault)) :
    table.granted (request::rest) = after.granted rest := by
  rw [granted, serve, h]
  rfl

theorem serve_cons {after : SymbolTable} {fault : Option Fault} (rest : List Request)
    (h : table.answer request = (after, fault)) :
    (table.serve (request::rest)).1 = (after.serve rest).1 := by
  rw [serve, h]

theorem records_serve (h : Records table done) (requests : List Request) :
    Records (table.serve requests).1 (done ++ table.granted requests) := by
  induction requests generalizing table done with
  | nil => simpa [serve, granted] using h
  | cons request rest ih =>
    rcases answer_cases table request with ⟨hr, ha⟩ | ⟨fault, -, -, ha⟩
    · rw [serve_cons rest ha, granted_ok rest ha, List.append_cons]
      exact ih (records_put h hr)
    · rw [serve_cons rest ha, granted_refused rest ha]
      exact ih h

/-- The origin can always be set. -/
theorem granted_origins (table : SymbolTable) (requests : List Request) :
    (table.granted requests).filterMap Request.origin? = requests.filterMap Request.origin? := by
  induction requests generalizing table with
  | nil => rfl
  | cons request rest ih =>
    rcases answer_cases table request with ⟨-, ha⟩ | ⟨fault, hf, -, ha⟩
    · rw [granted_ok rest ha, List.filterMap_cons, List.filterMap_cons, ih]
    · have ho : request.origin? = none := by
        cases request with
        | origin address => cases hf
        | _ => rfl
      rw [granted_refused rest ha, List.filterMap_cons_none ho, ih]

end Runs

/-- The law of the table, for all requests in any order. Its names are distinct
and stand in the order of their first bindings. The origin has the value that it
was last set to; if it never was, and for any other name, the value is that of
the first binding. A request is refused exactly if its key is bound, which never
concerns the origin, and leaves the table as it was. The value of a name is the
one that the table lists for it. -/
theorem table_follows_first_bindings (requests : List Request) :
    let table := (serve [] requests).1
    let done := granted [] requests
    (table.map Define.name).Nodup ∧
    table.map Define.name = (done.map Request.key).eraseDups ∧
    (∀ name, name ≠ originSymbol ∨ requests.filterMap Request.origin? = [] →
      table.get? name = (done.find? (·.key == name)).map Request.value) ∧
    (∀ address, (requests.filterMap Request.origin?).getLast? = some address →
      table.get? originSymbol = some (Text.decimal address)) ∧
    (∀ request fault, (table.answer request).2 = some fault ↔
      request.fault? = some fault ∧ request.key ∈ table.map Define.name) ∧
    (∀ request, (table.answer request).2 ≠ none → (table.answer request).1 = table) ∧
    (∀ name value, table.get? name = some value ↔ ⟨name, value⟩ ∈ table) ∧
    ∀ name, table.get? name = none ↔ name ∉ table.map Define.name := by
  intro table done
  have h : Records table done := records_serve records_nil requests
  have origins : done.filterMap Request.origin? = requests.filterMap Request.origin? :=
    granted_origins [] requests
  refine ⟨h.distinct, h.names, ?_, ?_, answer_fault_iff table, fun _ => answer_table,
    fun _ => get?_eq_some_iff h.distinct, get?_eq_none_iff table⟩
  · intro name hn
    apply h.first
    intro ho
    rw [origins]
    exact hn.resolve_left (not_not_intro ho)
  · intro address ha
    rw [← origins] at ha
    exact h.origin address ha

/-- A constant takes the name of the origin, which is then set twice, and another
asks in vain for the key of a label. -/
theorem table_follows_first_bindings_of_seven :
    ∃ requests table, table = (serve [] requests).1 ∧
      table.map Define.name = [originSymbol, "LABEL_A".toList, ['B']] ∧
      table.get? originSymbol = some ['8'] ∧ table.get? "LABEL_A".toList = some ['3'] ∧
      (table.answer (.label ['A'] 4)).2 = some (.redefinedLabel ['A']) ∧
      (table.answer (.label ['A'] 4)).1 = table := by
  let requests : List Request := [.const originSymbol ['5'], .label ['A'] 3, .origin 7,
    .const "LABEL_A".toList ['9'], .origin 8, .const ['B'] ['C'], .const ['B'] ['D']]
  have hdone : granted [] requests = [.const originSymbol ['5'], .label ['A'] 3, .origin 7,
    .origin 8, .const ['B'] ['C']] := by decide +kernel
  obtain ⟨-, names, first, origin, refused, unchanged, -, -⟩ :=
    table_follows_first_bindings requests
  rw [hdone] at names first
  have hnames : (serve [] requests).1.map Define.name =
      [originSymbol, "LABEL_A".toList, ['B']] := by
    rw [names]
    decide +kernel
  have hlabel := (refused (.label ['A'] 4) (.redefinedLabel ['A'])).mpr
    ⟨rfl, by rw [hnames]; decide⟩
  refine ⟨requests, _, rfl, hnames, origin 8 (by decide), ?_, hlabel, ?_⟩
  · rw [first "LABEL_A".toList (Or.inl (by decide))]
    decide
  · apply unchanged
    rw [hlabel]
    exact Option.some_ne_none _

end SymbolTable
end SplAssembler
