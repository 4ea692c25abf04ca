import SplAssembler.Assembler

/-!
# Source lines as transactions

An action that fails keeps what it has already done, so a half executed line
could leave traces. This module proves that none does: every statement makes
all of its checks before its first change. What a statement does when it
succeeds is stated once, as a relation between the states before and after it,
and every later argument about runs starts from that relation.
-/

set_option autoImplicit false

namespace SplAssembler

/-- An outcome that either reaches a state of the given kind or has changed nothing. -/
def Commits {ε σ : Type} (s : σ) (P : σ → Prop) : EStateM.Result ε σ Unit → Prop
  | .ok _ t => P t
  | .error _ t => t = s

theorem commits_ofExcept {ε σ α : Type} {s : σ} {P : σ → Prop} (x : Except ε α)
    (f : α → EStateM ε σ Unit) (h : ∀ a, x = .ok a → Commits s P (f a s)) :
    Commits s P ((MonadExcept.ofExcept x >>= f) s) := by
  cases x with
  | ok a => exact h a rfl
  | error e => rfl

theorem commits_unless {ε σ : Type} {s : σ} {P : σ → Prop} (c : Bool) (e : ε)
    (f : EStateM ε σ Unit) (h : c = false → Commits s P (f s)) :
    Commits s P ((do
      if c then throw e
      f : EStateM ε σ Unit) s) := by
  cases c with
  | false => exact h rfl
  | true => rfl

/-- After an action that commits, a second one that cannot fail. -/
theorem commits_modify {ε σ : Type} {s : σ} {P Q : σ → Prop} (f : σ → σ)
    {action : EStateM ε σ Unit} (h : Commits s P (action s)) (hf : ∀ t, P t → Q (f t)) :
    Commits s Q ((do
      action
      modify f : EStateM ε σ Unit) s) := by
  change Commits s Q (EStateM.bind action _ s)
  rw [EStateM.bind]
  cases hr : action s with
  | ok u t =>
    rw [hr] at h
    exact hf t h
  | error e t =>
    rw [hr] at h
    exact h

theorem commits_mono {ε σ : Type} {s : σ} {P Q : σ → Prop} {r : EStateM.Result ε σ Unit}
    (h : Commits s P r) (hq : ∀ t, P t → Q t) : Commits s Q r := by
  cases r with
  | ok u t => exact hq t h
  | error e t => exact h

theorem run_ofExcept {ε σ α : Type} {x : Except ε α} {a : α} (h : x = .ok a)
    (f : α → EStateM ε σ Unit) (s : σ) : (MonadExcept.ofExcept x >>= f) s = f a s := by
  rw [h]
  rfl

theorem run_ofExcept_error {ε σ α : Type} {x : Except ε α} {e : ε} (h : x = .error e)
    (f : α → EStateM ε σ Unit) (s : σ) : (MonadExcept.ofExcept x >>= f) s = .error e s := by
  rw [h]
  rfl

theorem run_unless {ε σ : Type} {c : Bool} (h : c = false) (e : ε) (f : EStateM ε σ Unit) (s : σ) :
    (do
      if c then throw e
      f : EStateM ε σ Unit) s = f s := by
  rw [h]
  rfl

theorem run_unless_error {ε σ : Type} {c : Bool} (h : c = true) (e : ε) (f : EStateM ε σ Unit)
    (s : σ) :
    (do
      if c then throw e
      f : EStateM ε σ Unit) s = .error e s := by
  rw [h]
  rfl

theorem run_bind {ε σ : Type} {s t : σ} {action : EStateM ε σ Unit} (h : action s = .ok () t)
    (next : EStateM ε σ Unit) : (do action; next : EStateM ε σ Unit) s = next t := by
  change EStateM.bind action _ s = _
  rw [EStateM.bind, h]

theorem run_bind_error {ε σ : Type} {s t : σ} {e : ε} {action : EStateM ε σ Unit}
    (h : action s = .error e t) (next : EStateM ε σ Unit) :
    (do action; next : EStateM ε σ Unit) s = .error e t := by
  change EStateM.bind action _ s = _
  rw [EStateM.bind, h]

namespace SymbolTable

theorem defineConst_commits (table : SymbolTable) (name value : Text) :
    Commits table (fun t => table.get? name = none ∧ t = table.put name value)
      (defineConst name value table) := by
  apply commits_unless (table.get? name).isSome _ (modify (put name value))
  intro hn
  exact ⟨by simpa using hn, rfl⟩

theorem defineLabel_commits (table : SymbolTable) (label : Text) (address : Nat) :
    Commits table (fun t => table.get? (labelKey label) = none ∧
      t = table.put (labelKey label) (Text.decimal address)) (defineLabel label address table) := by
  apply commits_unless (table.get? (labelKey label)).isSome _
    (modify (put (labelKey label) (Text.decimal address)))
  intro hn
  exact ⟨by simpa using hn, rfl⟩

end SymbolTable

namespace Assembler

def called (s : Assembler) (exchange : Bool) (back goal : Slot) (n : Nat)
    (comment : Option Text) : Assembler :=
  let entered := if exchange then s.emit (.op .xchg) none else s
  (((entered.emitBeforeLast back).emit goal none).emit (.op .jmp) comment).emitPads n

inductive Executes (s : Assembler) (line : SourceLine) : Statement → Assembler → Prop
  | label (name : Text) : isReserved (UInt8.ofNat (s.offset+s.origin)) = false →
      s.symbols.get? (labelKey name) = none →
      Executes s line (.label name) { s with
        symbols := s.symbols.put (labelKey name) (Text.decimal (s.offset+s.origin))
        code := s.code ++ [.label line.raw] }
  | origin (value : Text) (n : Nat) : numeral? value = some n → n < programSize →
      Executes s line (.origin value) { s with origin := n, symbols := s.symbols.setOrigin n }
  | const (name value : Text) : s.symbols.get? name = none →
      Executes s line (.const name value) { s with symbols := s.symbols.put name value }
  | push (operand : Text) (slot : Slot) : s.immediate operand = .ok slot →
      Executes s line (.push operand) (s.emit slot line.comment)
  | stop : Executes s line .stop (s.emit .stop line.comment)
  | call (exchange : Bool) (target : Text) (pads : Option Text) (n : Nat) (back goal : Slot) :
      padding pads = .ok n → address (s.offset+exchange.toNat+3+s.origin+n) = .ok back →
      s.immediate target = .ok goal →
      Executes s line (.call exchange target pads) (s.called exchange back goal n line.comment)
  | bare (op : Opcode) : Executes s line (.primitive op none) (s.emit (.op op) line.comment)
  | operand (op : Opcode) (operand : Text) (slot : Slot) : s.immediate operand = .ok slot →
      Executes s line (.primitive op (some operand))
        ((s.emit slot none).emit (.op op) line.comment)

theorem onSymbols_commits {s : Assembler} {P : SymbolTable → Prop} {edit : SymbolTable.Edit Unit}
    (h : Commits s.symbols P (edit s.symbols)) :
    Commits s (fun t => ∃ table, P table ∧ t = { s with symbols := table }) (onSymbols edit s) := by
  rw [onSymbols]
  cases he : edit s.symbols with
  | ok u table =>
    rw [he] at h
    exact ⟨table, h, rfl⟩
  | error fault table =>
    rw [he] at h
    have ht : table = s.symbols := h
    rw [ht]
    rfl

theorem placeLabel_commits (s : Assembler) (line : SourceLine) (name : Text) :
    Commits s (Executes s line (.label name)) (placeLabel name line.raw s) := by
  apply commits_unless (isReserved (UInt8.ofNat (s.offset+s.origin)))
  intro hr
  have h := onSymbols_commits (SymbolTable.defineLabel_commits s.symbols name (s.offset+s.origin))
  apply commits_modify _ h
  rintro t ⟨table, ⟨hn, rfl⟩, rfl⟩
  exact Executes.label name hr hn

theorem setOrigin_commits (s : Assembler) (line : SourceLine) (value : Text) :
    Commits s (Executes s line (.origin value)) (setOrigin value s) := by
  rw [setOrigin]
  cases hv : (numeral? value).filter (· < programSize) with
  | none => rfl
  | some n =>
    obtain ⟨hn, hl⟩ := Option.filter_eq_some_iff.mp hv
    exact Executes.origin value n hn (by simpa using hl)

theorem const_commits (s : Assembler) (line : SourceLine) (name value : Text) :
    Commits s (Executes s line (.const name value))
      (onSymbols (SymbolTable.defineConst name value) s) := by
  apply commits_mono (onSymbols_commits (SymbolTable.defineConst_commits s.symbols name value))
  rintro t ⟨table, ⟨hn, rfl⟩, rfl⟩
  exact Executes.const name value hn

theorem call_commits (s : Assembler) (line : SourceLine) (exchange : Bool) (target : Text)
    (pads : Option Text) :
    Commits s (Executes s line (.call exchange target pads))
      (call exchange target pads line.comment s) := by
  apply commits_ofExcept
  intro n hn
  apply commits_ofExcept
  intro back hb
  apply commits_ofExcept
  intro goal hg
  have h : Executes s line (.call exchange target pads) _ := .call _ _ _ n back goal hn hb hg
  cases exchange <;> exact h

theorem execute_commits (s : Assembler) (line : SourceLine) (st : Statement) :
    Commits s (Executes s line st) (execute line st s) := by
  cases st with
  | label name => exact placeLabel_commits s line name
  | origin value => exact setOrigin_commits s line value
  | const name value => exact const_commits s line name value
  | push operand => exact commits_ofExcept _ _ (Executes.push operand)
  | stop => exact Executes.stop
  | call exchange target pads => exact call_commits s line exchange target pads
  | primitive op operand =>
    cases operand with
    | none => exact Executes.bare op
    | some operand => exact commits_ofExcept _ _ (Executes.operand op operand)

theorem onSymbols_ok {s : Assembler} {table : SymbolTable} {edit : SymbolTable.Edit Unit}
    (h : edit s.symbols = .ok () table) :
    onSymbols edit s = .ok () { s with symbols := table } := by
  rw [onSymbols, h]

theorem onSymbols_error {s : Assembler} {fault : Fault} {edit : SymbolTable.Edit Unit}
    (h : edit s.symbols = .error fault s.symbols) : onSymbols edit s = .error fault s := by
  rw [onSymbols, h]

/-- The relation leaves nothing open: what it allows is what happens. -/
theorem execute_of_executes {s t : Assembler} {line : SourceLine} {st : Statement}
    (h : Executes s line st t) : execute line st s = .ok () t := by
  cases h with
  | label name hr hn =>
    have hd : SymbolTable.defineLabel name (s.offset+s.origin) s.symbols = .ok () _ :=
      run_unless (by rw [hn]; rfl) _ _ _
    apply (run_unless hr _ _ _).trans
    exact run_bind (onSymbols_ok hd) _
  | origin value n hv hn =>
    rw [execute, setOrigin, hv, Option.filter_some, if_pos (by simpa using hn)]
    rfl
  | const name value hn =>
    have hd : SymbolTable.defineConst name value s.symbols = .ok () _ :=
      run_unless (by rw [hn]; rfl) _ _ _
    exact onSymbols_ok hd
  | push operand slot hs => exact run_ofExcept hs _ _
  | stop => rfl
  | call exchange target pads n back goal hn hb hg =>
    apply (run_ofExcept hn _ _).trans
    apply (run_ofExcept hb _ _).trans
    apply (run_ofExcept hg _ _).trans
    cases exchange <;> rfl
  | bare op => rfl
  | operand op operand slot hs => exact run_ofExcept hs _ _

end Assembler
end SplAssembler
