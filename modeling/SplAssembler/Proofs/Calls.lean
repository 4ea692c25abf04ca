import SplAssembler.Proofs.Names

/-!
# Calls

A call is checked before anything is emitted: first its padding, then its
return address, then its target. The return address is computed from the state
before the call, and it is the address of the byte after the last pad. Since it
has to be the address of a byte in memory, few of the numerals that can be
written for the padding are accepted.
-/

set_option autoImplicit false

namespace SplAssembler

def padNumeral? : Option Text → Option Nat
  | none => some 0
  | some text => numeral? text

namespace Assembler

/-- The conditions of a call, in the order in which they are checked. -/
structure CallChecks (s : Assembler) (exchange : Bool) (target : Text) (pads : Option Text)
    (n : Nat) (goal : Slot) : Prop where
  padding : padNumeral? pads = some n
  inMemory : s.returnAddress exchange n ≤ 255
  notReserved : isReserved (UInt8.ofNat (s.returnAddress exchange n)) = false
  target : s.immediate target = .ok goal

inductive CallFault (s : Assembler) (exchange : Bool) (target : Text) : Option Text → Fault → Prop
  | padding (text : Text) : numeral? text = none →
      CallFault s exchange target (some text) (.invalidValue text)
  | outside (pads : Option Text) (n : Nat) : padNumeral? pads = some n →
      255 < s.returnAddress exchange n →
      CallFault s exchange target pads
        (.invalidValue (Text.decimal (s.returnAddress exchange n)))
  | reserved (pads : Option Text) (n : Nat) : padNumeral? pads = some n →
      s.returnAddress exchange n ≤ 255 →
      isReserved (UInt8.ofNat (s.returnAddress exchange n)) = true →
      CallFault s exchange target pads
        (.reservedValue (Text.decimal (s.returnAddress exchange n)))
  | target (pads : Option Text) (n : Nat) (cause : Fault) : padNumeral? pads = some n →
      s.returnAddress exchange n ≤ 255 →
      isReserved (UInt8.ofNat (s.returnAddress exchange n)) = false →
      s.immediate target = .error cause → CallFault s exchange target pads cause

def callHead (back : Slot) (exchange : Bool) : List CodeLine :=
  .byte back none :: List.replicate exchange.toNat (.byte (.op .xchg) none)

/-- What a call adds to a state: the return address, the exchange if there is
one, and at the end the target, the jump and the pads. -/
structure Expanded (s t : Assembler) (exchange : Bool) (n : Nat) (goal : Slot)
    (comment : Option Text) : Prop where
  origin : t.origin = s.origin
  symbols : t.symbols = s.symbols
  offset : t.offset = s.offset+3+exchange.toNat+n
  bytes : byteCount t.code = byteCount s.code+3+exchange.toNat+n
  returns : s.returnAddress exchange n = t.origin+t.offset
  code : ∃ front, t.code = front ++ callTail goal n comment ∧
    front.Perm (s.code ++ callHead (.number (Text.decimal (t.origin+t.offset))) exchange)

theorem padding_ok_iff (pads : Option Text) (n : Nat) :
    padding pads = .ok n ↔ padNumeral? pads = some n := by
  cases pads with
  | none => simp [padding, padNumeral?]
  | some text =>
    rw [padding, padNumeral?]
    cases numeral? text <;> simp

section Address
variable {r : Nat}

theorem address_ok (h : r ≤ 255) (hr : isReserved (UInt8.ofNat r) = false) :
    address r = .ok (.number (Text.decimal r)) := by
  simp [address, byte?, show r < 256 by omega, hr]

theorem address_outside (h : 255 < r) :
    address r = .error (.invalidValue (Text.decimal r)) := by
  simp [address, byte?, show ¬r < 256 by omega]

theorem address_reserved (h : r ≤ 255) (hr : isReserved (UInt8.ofNat r) = true) :
    address r = .error (.reservedValue (Text.decimal r)) := by
  simp [address, byte?, show r < 256 by omega, hr]

end Address

section Call
variable {s t : Assembler} {line : SourceLine} {exchange : Bool} {target : Text}
  {pads : Option Text}

/-- A call meets all of its conditions, or one of them is the first to fail. -/
theorem checks_or_fault (s : Assembler) (exchange : Bool) (target : Text) (pads : Option Text) :
    (∃ n goal, CallChecks s exchange target pads n goal) ∨
      ∃ cause, CallFault s exchange target pads cause := by
  cases hn : padNumeral? pads with
  | none =>
    cases pads with
    | none => cases hn
    | some text => exact Or.inr ⟨_, .padding text hn⟩
  | some n =>
    by_cases hm : s.returnAddress exchange n ≤ 255
    · cases hr : isReserved (UInt8.ofNat (s.returnAddress exchange n)) with
      | true => exact Or.inr ⟨_, .reserved pads n hn hm hr⟩
      | false =>
        cases hg : s.immediate target with
        | ok goal => exact Or.inl ⟨n, goal, hn, hm, hr, hg⟩
        | error cause => exact Or.inr ⟨cause, .target pads n cause hn hm hr hg⟩
    · exact Or.inr ⟨_, .outside pads n hn (by omega)⟩

theorem executes_of_checks {n : Nat} {goal : Slot} (line : SourceLine)
    (h : CallChecks s exchange target pads n goal) :
    ∃ t, Executes s line (.call exchange target pads) t :=
  ⟨_, .call exchange target pads n _ goal ((padding_ok_iff pads n).mpr h.padding)
    (address_ok h.inMemory h.notReserved) h.target⟩

theorem execute_of_fault {cause : Fault} (line : SourceLine)
    (h : CallFault s exchange target pads cause) :
    execute line (.call exchange target pads) s = .error cause s := by
  cases h with
  | padding text hn => exact run_ofExcept_error (by rw [padding, hn]) _ _
  | outside _ n hn hm =>
    apply (run_ofExcept ((padding_ok_iff pads n).mpr hn) _ _).trans
    exact run_ofExcept_error (address_outside hm) _ _
  | reserved _ n hn hm hr =>
    apply (run_ofExcept ((padding_ok_iff pads n).mpr hn) _ _).trans
    exact run_ofExcept_error (address_reserved hm hr) _ _
  | target _ n _ hn hm hr hg =>
    apply (run_ofExcept ((padding_ok_iff pads n).mpr hn) _ _).trans
    apply (run_ofExcept (address_ok hm hr) _ _).trans
    exact run_ofExcept_error hg _ _

theorem fault_countLine {cause : Fault} (h : CallFault s exchange target pads cause) :
    CallFault s.countLine exchange target pads cause := by
  cases h with
  | padding text hn => exact .padding text hn
  | outside _ n hn hm => exact .outside (s := s.countLine) pads n hn hm
  | reserved _ n hn hm hr => exact .reserved (s := s.countLine) pads n hn hm hr
  | target _ n _ hn hm hr hg => exact .target (s := s.countLine) pads n cause hn hm hr hg

theorem called_offset (s : Assembler) (exchange : Bool) (back goal : Slot) (n : Nat)
    (comment : Option Text) :
    (s.called exchange back goal n comment).offset = s.offset+3+exchange.toNat+n := by
  cases exchange with
  | false => rfl
  | true => rfl

/-- The exchange is emitted first, and the return address goes in front of it. -/
theorem called_code (s : Assembler) (exchange : Bool) (back goal : Slot) (n : Nat)
    (comment : Option Text) :
    ∃ front, (s.called exchange back goal n comment).code = front ++ callTail goal n comment ∧
      front.Perm (s.code ++ callHead back exchange) := by
  let xchg : List CodeLine := List.replicate exchange.toNat (.byte (.op .xchg) none)
  refine ⟨insertBeforeLast (.byte back none) (s.code ++ xchg), ?_, ?_⟩
  · cases exchange <;> simp [called, emitPads, emit, emitBeforeLast, callTail, xchg]
  · apply (insertBeforeLast_perm (.byte back none) (s.code ++ xchg)).trans
    rw [List.append_assoc]
    exact (List.perm_append_singleton (.byte back none) xchg).append_left s.code

theorem byteCount_call (back goal : Slot) (exchange : Bool) (n : Nat) (comment : Option Text) :
    byteCount (callHead back exchange)+byteCount (callTail goal n comment) =
      3+exchange.toNat+n := by
  have ht : byteCount (callTail goal n comment) = n+1+1 := by
    rw [byteCount_eq_length, slots_callTail]
    simp
  have hh : byteCount (callHead back exchange) = exchange.toNat+1 := by
    rw [callHead, byteCount, List.countP_cons_of_pos rfl, List.countP_replicate]
    rfl
  omega

theorem called_expanded (s : Assembler) (exchange : Bool) (goal : Slot) (n : Nat)
    (comment : Option Text) :
    Expanded s (s.called exchange (.number (Text.decimal (s.returnAddress exchange n))) goal n
      comment) exchange n goal comment := by
  generalize hb : Slot.number (Text.decimal (s.returnAddress exchange n)) = back
  have ho := called_offset s exchange back goal n comment
  have hs : (s.called exchange back goal n comment).origin = s.origin := by
    cases exchange <;> rfl
  have hr : s.returnAddress exchange n = (s.called exchange back goal n comment).origin+
      (s.called exchange back goal n comment).offset := by
    rw [hs, ho, returnAddress]
    omega
  obtain ⟨front, hc, hp⟩ := called_code s exchange back goal n comment
  have hcount := byteCount_call back goal exchange n comment
  have hfront : byteCount front = byteCount s.code+byteCount (callHead back exchange) := by
    rw [byteCount, hp.countP_eq, List.countP_append]
    rfl
  refine ⟨hs, by cases exchange <;> rfl, ho, ?_, hr, front, hc, ?_⟩
  · rw [hc, byteCount_append, hfront]
    omega
  · rw [← hr, hb]
    exact hp

/-- A call that is accepted meets its conditions, and expands the state. -/
theorem expanded_of_executes (h : Executes s line (.call exchange target pads) t) :
    ∃ n goal, CallChecks s exchange target pads n goal ∧
      Expanded s t exchange n goal line.comment := by
  cases h with
  | call _ _ _ n back goal hn hb hg =>
    obtain ⟨rfl, hlt, hr⟩ := address_number hb
    exact ⟨n, goal, ⟨(padding_ok_iff pads n).mp hn, Nat.lt_succ_iff.mp hlt, hr, hg⟩,
      called_expanded s exchange goal n line.comment⟩

end Call

section Line
variable {s t : Assembler} {raw : Text} {exchange : Bool} {target : Text} {pads : Option Text}

theorem line_of_checks {n : Nat} {goal : Slot}
    (hst : statement? raw = some (.call exchange target pads))
    (h : CallChecks s exchange target pads n goal) : ∃ t, line raw s = .ok () t := by
  have hc : CallChecks s.countLine exchange target pads n goal :=
    ⟨h.padding, h.inMemory, h.notReserved, h.target⟩
  obtain ⟨t, he⟩ := executes_of_checks (.split raw) hc
  exact ⟨t, (line_ok_iff s t raw).mpr (.statement _ t (parse_of_statement? hst) he)⟩

theorem line_of_fault {cause : Fault} (hst : statement? raw = some (.call exchange target pads))
    (h : CallFault s exchange target pads cause) :
    line raw s = .error ⟨s.lineNo+1, cause⟩ s.countLine := by
  rw [line, step_statement hst, execute_of_fault (.split raw) (fault_countLine h)]

theorem expanded_of_line (hst : statement? raw = some (.call exchange target pads))
    (h : line raw s = .ok () t) :
    ∃ n goal, CallChecks s exchange target pads n goal ∧
      Expanded s t exchange n goal (SourceLine.split raw).comment := by
  have he := executes_of_steps ((line_ok_iff s t raw).mp h) (parse_of_statement? hst)
  obtain ⟨n, goal, hc, hx⟩ := expanded_of_executes he
  exact ⟨n, goal, ⟨hc.padding, hc.inMemory, hc.notReserved, hc.target⟩,
    hx.origin, hx.symbols, hx.offset, hx.bytes, hx.returns, hx.code⟩

end Line

/-- A call is accepted if and only if all of its conditions hold, and otherwise
the first that fails is reported. An accepted call returns to the address after
its last byte, so its pads fit into the memory, however large a numeral may be. -/
theorem call_expands_or_first_fault (s : Assembler) (raw : Text) (exchange : Bool) (target : Text)
    (pads : Option Text) (h : statement? raw = some (.call exchange target pads)) :
    ((∃ t, line raw s = .ok () t) ↔ ∃ n goal, CallChecks s exchange target pads n goal) ∧
    (∀ fault t, line raw s = .error fault t ↔
      ∃ cause, CallFault s exchange target pads cause ∧ fault = ⟨s.lineNo+1, cause⟩ ∧
        t = s.countLine) ∧
    (∀ t, line raw s = .ok () t → ∃ n goal, CallChecks s exchange target pads n goal ∧
      Expanded s t exchange n goal (SourceLine.split raw).comment ∧
      n+3+s.offset+s.origin ≤ 255) ∧
    ∀ n, n ≤ 4294967295 → padNumeral? (some (Text.decimal n)) = some n := by
  refine ⟨⟨?_, ?_⟩, fun fault t => ⟨?_, ?_⟩, ?_, ?_⟩
  · rintro ⟨t, ht⟩
    obtain ⟨n, goal, hc, -⟩ := expanded_of_line h ht
    exact ⟨n, goal, hc⟩
  · rintro ⟨n, goal, hc⟩
    exact line_of_checks h hc
  · intro he
    rcases checks_or_fault s exchange target pads with ⟨n, goal, hc⟩ | ⟨cause, hf⟩
    · obtain ⟨u, hu⟩ := line_of_checks h hc
      rw [hu] at he
      cases he
    · rw [line_of_fault h hf] at he
      cases he
      exact ⟨cause, hf, rfl, rfl⟩
  · rintro ⟨cause, hf, rfl, rfl⟩
    exact line_of_fault h hf
  · intro t ht
    obtain ⟨n, goal, hc, hx⟩ := expanded_of_line h ht
    have hm := hc.inMemory
    rw [returnAddress] at hm
    exact ⟨n, goal, hc, hx, by omega⟩
  · intro n hn
    rw [padNumeral?, numeral?_decimal, if_pos (by rw [numeralBound]; omega)]

/-- A call expands to five bytes. The next one has a reserved return address and
an unknown target, of which the first is reported. -/
theorem call_expands_or_first_fault_in_turn :
    ∃ s goal, line "CALLX @Sub 1 ; go".toList initial = .ok () s ∧
      Expanded initial s true 1 goal (some "go".toList) ∧ s.origin+s.offset = 21 ∧
      s.immediate "nowhere".toList = .error (.invalidValue "nowhere".toList) ∧
      line "CALL1 nowhere 19".toList s =
        .error ⟨2, .reservedValue "43".toList⟩ s.countLine := by
  let first : Text := "CALLX @Sub 1 ; go".toList
  let second : Text := "CALL1 nowhere 19".toList
  let s : Assembler := ⟨1, 5, defaultOrigin, [],
    [.byte (.number "21".toList) none, .byte (.op .xchg) none,
      .byte (.label "LABEL_Sub".toList) none, .byte (.op .jmp) (some "go".toList),
      .byte .pad none]⟩
  have hfirst : statement? first = some (.call true "@Sub".toList (some ['1'])) := by
    decide +kernel
  have hsecond : statement? second = some (.call false "nowhere".toList (some "19".toList)) := by
    decide +kernel
  have hs : line first initial = .ok () s := line_of_feed (by decide +kernel)
  have hc : (SourceLine.split first).comment = some "go".toList := by decide +kernel
  obtain ⟨-, -, expands, -⟩ := call_expands_or_first_fault initial first _ _ _ hfirst
  obtain ⟨n, goal, hchecks, hx, -⟩ := expands s hs
  have hn : n = 1 := by
    have hp : padNumeral? (some ['1']) = some 1 := by decide
    exact Option.some.inj (hchecks.padding.symm.trans hp)
  rw [hn, hc] at hx
  have hp : padNumeral? (some "19".toList) = some 19 := by decide
  have hr : isReserved (UInt8.ofNat (s.returnAddress false 19)) = true := by decide
  have hd : Text.decimal (s.returnAddress false 19) = "43".toList := by decide +kernel
  have hf : CallFault s false "nowhere".toList (some "19".toList)
      (.reservedValue (Text.decimal (s.returnAddress false 19))) :=
    .reserved _ 19 hp (by decide) hr
  rw [hd] at hf
  obtain ⟨-, faults, -, -⟩ := call_expands_or_first_fault s second _ _ _ hsecond
  exact ⟨s, goal, hs, hx, rfl, by rfl, (faults _ _).mpr ⟨_, hf, rfl, rfl⟩⟩

end Assembler
end SplAssembler
