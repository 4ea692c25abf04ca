import SplAssembler.SymbolTable
import SplAssembler.Proofs.Run
import SplAssembler.Proofs.Text

/-!
# Names in the symbol table

A statement binds at most one name. No name is bound twice, so the dictionary
of a table, in which the last of several defines counts, agrees with looking
names up in the table.
-/

set_option autoImplicit false

namespace SplAssembler

theorem labelKey_solid {name : Text} (h : name.Solid) : (labelKey name).Solid := by
  intro c hc
  rcases List.mem_append.mp hc with hp | hn
  · exact (show Text.Solid labelPrefix by decide) c hp
  · exact h c hn

def Define.Sound (d : Define) : Prop :=
  (d.name ≠ [] ∧ d.name.Solid) ∧ d.value ≠ [] ∧ d.value.Solid

namespace SymbolTable

def Distinct (table : SymbolTable) : Prop := (table.map Define.name).Nodup

theorem mem_put {table : SymbolTable} {name value : Text} {d : Define}
    (h : d ∈ table.put name value) : d = ⟨name, value⟩ ∨ d ∈ table := by
  induction table with
  | nil => exact Or.inl (by simpa [put] using h)
  | cons e es ih =>
    rw [put] at h
    by_cases he : e.name = name
    · rw [if_pos he] at h
      rcases List.mem_cons.mp h with h | h
      · exact Or.inl h
      · exact Or.inr (by simp [h])
    · rw [if_neg he] at h
      rcases List.mem_cons.mp h with h | h
      · exact Or.inr (by simp [h])
      · rcases ih h with h | h
        · exact Or.inl h
        · exact Or.inr (by simp [h])

theorem put_distinct (table : SymbolTable) (name value : Text) (h : Distinct table) :
    Distinct (table.put name value) := by
  induction table with
  | nil => simp [Distinct, put]
  | cons e es ih =>
    obtain ⟨hm, hd⟩ := List.nodup_cons.mp h
    rw [put]
    by_cases he : e.name = name
    · rw [if_pos he]
      exact List.nodup_cons.mpr ⟨he ▸ hm, hd⟩
    · rw [if_neg he]
      refine List.nodup_cons.mpr ⟨?_, ih hd⟩
      intro hc
      obtain ⟨d, hd, hn⟩ := List.mem_map.mp hc
      rcases mem_put hd with rfl | hd
      · exact he hn.symm
      · exact hm (List.mem_map.mpr ⟨d, hd, hn⟩)

theorem mem_of_get? {table : SymbolTable} {name value : Text} (h : table.get? name = some value) :
    ⟨name, value⟩ ∈ table := by
  obtain ⟨d, hd, rfl⟩ := Option.map_eq_some_iff.mp h
  have hn : d.name = name := by simpa using List.find?_some hd
  rw [← hn]
  exact List.mem_of_find?_eq_some hd

theorem get?_of_not_mem {table : SymbolTable} {name : Text}
    (h : name ∉ table.map Define.name) : table.get? name = none := by
  cases hg : table.get? name with
  | none => rfl
  | some value => exact absurd (List.mem_map.mpr ⟨_, mem_of_get? hg, rfl⟩) h

theorem get?_cons (d : Define) (table : SymbolTable) (name : Text) :
    get? (d::table) name = if d.name = name then some d.value else table.get? name := by
  by_cases h : d.name = name <;> simp [get?, h]

end SymbolTable

namespace Dictionary

theorem entries_cons (d : Define) (ds : List Define) :
    (ofDefines (d::ds)).entries =
      (ofDefines ds).entries ++ ((literal? d.value).map (d.name, ·)).toList := by
  cases hv : literal? d.value <;> simp [ofDefines, hv]

theorem lookup_ofDefines_cons (d : Define) (ds : List Define) (name : Text) :
    (ofDefines (d::ds)).lookup name =
      ((ofDefines ds).lookup name).or (if d.name = name then literal? d.value else none) := by
  rw [lookup, entries_cons, List.lookup_append, lookup]
  congr 1
  cases literal? d.value with
  | none => simp
  | some n =>
    by_cases hn : d.name = name
    · simp [hn]
    · simp [hn, Ne.symm hn]

/-- In a table of distinct names the dictionary gives a name the literal it is bound to. -/
theorem lookup_ofDefines (table : SymbolTable) (h : table.Distinct) (name : Text) :
    (ofDefines table).lookup name = (table.get? name).bind literal? := by
  induction table with
  | nil => rfl
  | cons d ds ih =>
    obtain ⟨hm, hd⟩ := List.nodup_cons.mp h
    rw [lookup_ofDefines_cons, SymbolTable.get?_cons, ih hd]
    by_cases hn : d.name = name
    · rw [if_pos hn, if_pos hn, SymbolTable.get?_of_not_mem (hn ▸ hm)]
      rfl
    · rw [if_neg hn, if_neg hn, Option.or_none]

end Dictionary

namespace Assembler

def binding? (s : Assembler) : Statement → Option (Text × Text)
  | .label name => some (labelKey name, Text.decimal (s.offset+s.origin))
  | .origin value => (numeral? value).map fun n => (originSymbol, Text.decimal n)
  | .const name value => some (name, value)
  | _ => none

theorem executes_symbols {s t : Assembler} {line : SourceLine} {st : Statement}
    (h : Executes s line st t) :
    t.symbols = (s.binding? st).elim s.symbols fun b => s.symbols.put b.1 b.2 := by
  cases h with
  | origin value n hv hn =>
    rw [binding?, hv]
    rfl
  | call exchange target pads n back goal hn hb hg => cases exchange <;> rfl
  | _ => rfl

/-- A property of defines that holds of what a statement binds holds in the table after it. -/
theorem executes_defines {P : Define → Prop} {s t : Assembler} {line : SourceLine} {st : Statement}
    (h : Executes s line st t) (hs : ∀ d ∈ s.symbols, P d)
    (hb : ∀ name value, s.binding? st = some (name, value) → P ⟨name, value⟩) :
    ∀ d ∈ t.symbols, P d := by
  rw [executes_symbols h]
  cases hbind : s.binding? st with
  | none => exact hs
  | some b =>
    intro d hd
    rcases SymbolTable.mem_put hd with rfl | hd
    · exact hb b.1 b.2 hbind
    · exact hs d hd

theorem steps_distinct {s t : Assembler} {line : SourceLine} (h : Steps s line t)
    (hs : s.symbols.Distinct) : t.symbols.Distinct := by
  cases h with
  | blank => exact hs
  | comment => exact hs
  | statement st _ _ he =>
    rw [executes_symbols he]
    cases s.binding? st with
    | none => exact hs
    | some b => exact SymbolTable.put_distinct s.symbols b.1 b.2 hs

theorem runs_distinct {t : Assembler} {raws : List Text} (h : Runs .initial raws t) :
    t.symbols.Distinct :=
  runs_invariant (fun _ hu => hu) (fun _ _ _ _ hu hs => steps_distinct hs hu) h List.nodup_nil

theorem executes_get? {s t : Assembler} {line : SourceLine} {st : Statement} {name value : Text}
    (h : Executes s line st t) (ho : name ≠ originSymbol)
    (hs : s.symbols.get? name = some value) : t.symbols.get? name = some value := by
  have hput : ∀ other text, name ≠ other →
      (s.symbols.put other text).get? name = some value := by
    intro other text hne
    rw [SymbolTable.get?_put, if_neg hne, hs]
  have hfresh : ∀ other, s.symbols.get? other = none → name ≠ other := by
    rintro other hnone rfl
    rw [hs] at hnone
    cases hnone
  cases h with
  | label label hr hn => exact hput _ _ (hfresh _ hn)
  | origin text n hv hn => exact hput _ _ ho
  | const other text hn => exact hput _ _ (hfresh _ hn)
  | call exchange target pads n back goal hn hb hg => cases exchange <;> exact hs
  | _ => exact hs

/-- Only the origin ever takes another value. -/
theorem runs_get? {s t : Assembler} {raws : List Text} {name value : Text} (h : Runs s raws t)
    (ho : name ≠ originSymbol) (hs : s.symbols.get? name = some value) :
    t.symbols.get? name = some value := by
  apply runs_invariant (P := fun u => u.symbols.get? name = some value) _ _ h hs
  · intro u hu
    exact hu
  · intro raw _ u v hu hstep
    cases hstep with
    | blank => exact hu
    | comment => exact hu
    | statement st _ _ he => exact executes_get? he ho hu

theorem get?_of_const {s t : Assembler} {raws : List Text} {name value : Text} (h : Runs s raws t)
    (hm : .const name value ∈ statements raws) (ho : name ≠ originSymbol) :
    t.symbols.get? name = some value := by
  obtain ⟨u, v, line, rest, he, hr⟩ := runs_executes h hm
  apply runs_get? hr ho
  rw [executes_symbols he, binding?, Option.elim_some, SymbolTable.get?_put, if_pos rfl]

end Assembler

inductive Bound (program : List Statement) : Define → Prop
  | constant (name value : Text) : .const name value ∈ program → Bound program ⟨name, value⟩
  | label (name : Text) (address : Nat) : isReserved (UInt8.ofNat address) = false →
      Bound program ⟨labelKey name, Text.decimal address⟩
  | origin (address : Nat) : Bound program ⟨originSymbol, Text.decimal address⟩

theorem Assembler.runs_bound {t : Assembler} {raws : List Text} (h : Runs .initial raws t) :
    ∀ d ∈ t.symbols, Bound (statements raws) d := by
  apply runs_invariant (P := fun u => ∀ d ∈ u.symbols, Bound (statements raws) d) _ _ h
  · intro d hd
    cases hd
  · intro u hu
    exact hu
  · intro raw hraw u v hu hstep
    cases hstep with
    | blank => exact hu
    | comment => exact hu
    | statement st _ hp he =>
      apply executes_defines he hu
      intro name value hb
      cases he with
      | label label hr hn =>
        cases hb
        exact .label label _ hr
      | origin text n hv hn =>
        rw [binding?, hv] at hb
        cases hb
        exact .origin n
      | const constant text hn =>
        cases hb
        exact .constant name value (mem_statements hraw hp)
      | _ => cases hb

end SplAssembler
