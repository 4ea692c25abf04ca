import SplAssembler.Proofs.Layout
import SplAssembler.Proofs.Reach

/-!
# Bytes that belong together

An operand stands right before its instruction, and the target of a call right
before the jump and the pads. The return address of a call without an exchange
goes in front of the last byte, whatever that byte belongs to. So it can part
such a sequence, but only as the next thing that comes into the code, only once
and only in front of the last byte. The main statement gives the bytes of a
sequence in the finished code in terms of the statements that follow it.
-/

set_option autoImplicit false

namespace SplAssembler

def Statement.isCompound : Statement → Bool
  | .call _ _ _ => true
  | .primitive _ (some _) => true
  | _ => false

namespace Layout

/-- The return address that later statements put in front of the last byte: that
of a call without an exchange, if none but directives come before it. -/
def nextReturn? : Layout → List Statement → Option Nat
  | _, [] => none
  | l, st::rest =>
      if st.isDirective then nextReturn? (l.next st) rest
      else match st with
        | .call false _ _ => some (l.next st).address
        | _ => none

theorem nextReturn?_directive (l : Layout) {st : Statement} (rest : List Statement)
    (h : st.isDirective = true) : l.nextReturn? (st::rest) = (l.next st).nextReturn? rest := by
  cases st with
  | origin value => rfl
  | const name value => rfl
  | _ => cases h

theorem nextReturn?_none (l : Layout) {st : Statement} (rest : List Statement)
    (h : st.isDirective = false) (hc : ∀ target pads, st ≠ .call false target pads) :
    l.nextReturn? (st::rest) = none := by
  unfold nextReturn?
  rw [if_neg (by simp [h])]
  split
  · exact absurd rfl (hc _ _)
  · rfl

end Layout

def interrupt (sequence : List Slot) : Option Nat → List Slot
  | none => sequence
  | some address => beforeLast (.number (Text.decimal address)) sequence

theorem interrupt_append (sequence : List Slot) (last : Slot) (address : Option Nat) :
    interrupt (sequence ++ [last]) address = sequence ++ interrupt [last] address := by
  cases address with
  | none => rfl
  | some n =>
    rw [interrupt, beforeLast_append]
    rfl

namespace Assembler

inductive Sequence (s : Assembler) : Statement → List Slot → Prop
  | operand (op : Opcode) (operand : Text) (slot : Slot) : s.immediate operand = .ok slot →
      Sequence s (.primitive op (some operand)) [slot, .op op]
  | call (exchange : Bool) (target : Text) (pads : Option Text) (n : Nat) (goal : Slot) :
      padding pads = .ok n → s.immediate target = .ok goal →
      Sequence s (.call exchange target pads) (goal :: .op .jmp :: List.replicate n .pad)

theorem sequence_of_countLine {s : Assembler} {st : Statement} {sequence : List Slot}
    (h : Sequence s.countLine st sequence) : Sequence s st sequence := by
  cases h with
  | operand op operand slot hi => exact .operand op operand slot hi
  | call exchange target pads n goal hn hg => exact .call exchange target pads n goal hn hg

theorem callTail_sequence {s : Assembler} (exchange : Bool) {target : Text} {pads : Option Text}
    {n : Nat} {goal : Slot} (comment : Option Text) (hn : padding pads = .ok n)
    (hg : s.immediate target = .ok goal) :
    ∃ lines slot note, callTail goal n comment = lines ++ [.byte slot note] ∧
      Sequence s (.call exchange target pads) (slots lines ++ [slot]) := by
  have last : ∃ lines slot note, callTail goal n comment = lines ++ [.byte slot note] := by
    cases n with
    | zero => exact ⟨[.byte goal none], .op .jmp, comment, rfl⟩
    | succ n =>
      refine ⟨.byte goal none :: .byte (.op .jmp) comment :: List.replicate n (.byte .pad none),
        .pad, none, ?_⟩
      rw [callTail, List.replicate_succ']
      rfl
  obtain ⟨lines, slot, note, he⟩ := last
  have hs := slots_callTail goal n comment
  rw [he, slots_append] at hs
  refine ⟨lines, slot, note, he, ?_⟩
  change Sequence s _ (slots lines ++ slots [.byte slot note])
  rw [hs]
  exact .call exchange target pads n goal hn hg

/-- Right after a compound statement its sequence ends the code. -/
theorem executes_sequence {s t : Assembler} {line : SourceLine} {st : Statement}
    (h : Executes s line st t) (hc : st.isCompound = true) :
    ∃ front lines slot note, t.code = front ++ lines ++ [.byte slot note] ∧
      Sequence s st (slots lines ++ [slot]) ∧ byteCount s.code ≤ byteCount front := by
  obtain ⟨added, ha, ht, -⟩ := executes_code h
  cases ha with
  | call target pads n goal hn hg =>
    obtain ⟨lines, slot, note, he, hs⟩ := callTail_sequence false line.comment hn hg
    let back := CodeLine.byte (.number (Text.decimal (s.returnAddress false n))) none
    refine ⟨insertBeforeLast back s.code, lines, slot, note, ?_, hs, ?_⟩
    · rw [ht, Statement.join, he, List.append_assoc]
    · rw [byteCount, byteCount, (insertBeforeLast_perm back s.code).countP_eq, List.countP_append]
      exact Nat.le_add_right _ _
  | exchange target pads n goal hn hg =>
    obtain ⟨lines, slot, note, he, hs⟩ := callTail_sequence true line.comment hn hg
    let back := CodeLine.byte (.number (Text.decimal (s.returnAddress true n))) none
    refine ⟨s.code ++ [back, .byte (.op .xchg) none], lines, slot, note, ?_, hs, ?_⟩
    · rw [ht, Statement.join, he]
      · simp [back]
      · rintro _ _ _ _ ⟨⟩
    · rw [byteCount_append]
      exact Nat.le_add_right _ _
  | operand op operand slot hi =>
    refine ⟨s.code, [.byte slot none], .op op, line.comment, ?_, .operand op operand slot hi,
      Nat.le_refl _⟩
    rw [ht, List.append_assoc]
    rfl
  | directive _ hd =>
    cases st with
    | origin => cases hc
    | const => cases hc
    | _ => cases hd
  | _ => cases hc

/-- What a statement adds to the code is not all fillers, unless it is a directive. -/
theorem adds_solid {s : Assembler} {line : SourceLine} {st : Statement} {added : List CodeLine}
    (h : Adds s line st added) (hd : st.isDirective = false) :
    ∃ l ∈ added, l.isFiller = false := by
  cases h with
  | directive _ ht =>
    rw [hd] at ht
    cases ht
  | _ => exact ⟨_, List.mem_cons_self, rfl⟩

theorem returnAddress_at {s : Assembler} {l : Layout} {pads : Option Text} {n : Nat} (hs : s.At l)
    (hn : padding pads = .ok n) (target : Text) :
    s.returnAddress false n = (l.next (.call false target pads)).address := by
  have ho := hs.origin
  have hz := hs.offset
  have hp := padCount_of_padding hn
  simp only [returnAddress, Layout.next, Layout.address, Statement.size, Bool.toNat_false]
  omega

/-- The slots of kept code come first in the code. -/
theorem slots_of_keeps {s : Assembler} {code : List CodeLine} (h : s.Keeps code) :
    ∃ later, slots s.code = slots code ++ later := by
  obtain ⟨rest, hc, -⟩ := h
  exact ⟨slots rest, by rw [hc, slots_append]⟩

section LastByte
variable {s t : Assembler} {line : SourceLine} {st : Statement}

theorem executes_directive (h : Executes s line st t) (hd : st.isDirective = true) :
    t.code = s.code := by
  cases h with
  | origin => rfl
  | const => rfl
  | _ => cases hd

/-- What is added to the code keeps all that stands before it out of reach. -/
theorem executes_keeps (h : Executes s line st t) (hd : st.isDirective = false)
    (hc : ∀ target pads, st ≠ .call false target pads) : t.Keeps s.code := by
  obtain ⟨added, ha, ht, -⟩ := executes_code h
  refine ⟨added, ?_, Or.inr (adds_solid ha hd)⟩
  rw [ht, Statement.join]
  rintro target pads _ _ rfl
  exact absurd rfl (hc target pads)

/-- A call without an exchange parts the last byte from what stands before it. -/
theorem executes_interrupt {l : Layout} {target : Text} {pads : Option Text}
    {front fillers : List CodeLine} {slot : Slot} {note : Option Text}
    (h : Executes s line (.call false target pads) t) (hs : s.At l)
    (hc : s.code = front ++ .byte slot note :: fillers) (hf : ∀ l ∈ fillers, l.isFiller = true) :
    ∃ kept, t.Keeps kept ∧ slots kept =
      slots front ++ interrupt [slot] (some (l.next (.call false target pads)).address) := by
  obtain ⟨added, ha, ht, -⟩ := executes_code h
  cases ha with
  | directive _ hd => cases hd
  | call _ _ n goal hn hg =>
    rw [returnAddress_at hs hn target] at ht
    generalize (l.next (.call false target pads)).address = address at ht ⊢
    let back := CodeLine.byte (.number (Text.decimal address)) none
    refine ⟨front ++ back :: fillers ++ [.byte slot note],
      ⟨callTail goal n line.comment, ?_, ?_⟩, ?_⟩
    · rw [ht, Statement.join, hc, insertBeforeLast_eq _ _ _ _ _ hf]
    · exact Or.inr ⟨_, List.mem_cons_self, rfl⟩
    · rw [slots_append, slots_append, slots_cons_byte, slots_fillers hf, List.append_assoc]
      rfl

end LastByte

/-- A last byte with nothing but fillers after it stays where it is, unless the
next statement in the code is a call that puts its return address before it. -/
theorem runs_last_byte {s t : Assembler} {raws : List Text} {l : Layout}
    {front fillers : List CodeLine} {slot : Slot} {note : Option Text} (h : Runs s raws t)
    (hs : s.At l) (hc : s.code = front ++ .byte slot note :: fillers)
    (hf : ∀ l ∈ fillers, l.isFiller = true) :
    ∃ later, slots t.code =
      slots front ++ interrupt [slot] (l.nextReturn? (statements raws)) ++ later := by
  induction h generalizing l fillers with
  | nil s =>
    refine ⟨[], ?_⟩
    rw [hc, slots_append, slots_cons_byte, slots_fillers hf, List.append_nil]
    rfl
  | @cons s t u raw rest hstep hrest ih =>
    have hcount := at_countLine hs
    have ht := steps_at hstep hcount
    have marked : ∀ filler : CodeLine, filler.isFiller = true → t.code = s.code ++ [filler] →
        statement? raw = none → ∃ later, slots u.code =
          slots front ++ interrupt [slot] (l.nextReturn? (statements (raw::rest))) ++ later := by
      intro filler hfiller hcode hn
      rw [hn] at ht
      rw [statements_cons, hn]
      have hlonger : t.code = front ++ .byte slot note :: (fillers ++ [filler]) := by
        rw [hcode, hc, List.append_assoc]
        rfl
      apply ih ht hlonger
      simpa [or_imp, forall_and, hfiller] using hf
    cases hstep with
    | blank hp _ => exact marked .blank rfl rfl (statement?_of_parse hp)
    | comment text hp _ => exact marked (.comment text) rfl rfl (statement?_of_parse hp)
    | statement st _ hp he =>
      rw [statement?_of_parse hp] at ht
      rw [statements_cons, statement?_of_parse hp, Option.toList_some, List.singleton_append]
      cases hd : st.isDirective with
      | true =>
        -- the code is the same, so the byte is still within reach of a call
        rw [l.nextReturn?_directive _ hd]
        exact ih ht ((executes_directive he hd).trans hc) hf
      | false =>
        by_cases hcall : ∃ target pads, st = .call false target pads
        · obtain ⟨target, pads, rfl⟩ := hcall
          obtain ⟨kept, hk, hslots⟩ := executes_interrupt he hcount hc hf
          -- from here on the byte is behind the call and nothing reaches it again
          change ∃ later, _ = slots front ++ interrupt [slot] (some _) ++ later
          rw [← hslots]
          exact slots_of_keeps (runs_keeps hrest hk)
        · have hn : ∀ target pads, st ≠ .call false target pads :=
            fun target pads he => hcall ⟨target, pads, he⟩
          obtain ⟨later, hl⟩ := slots_of_keeps (runs_keeps hrest (executes_keeps he hd hn))
          have hslots : slots s.code = slots front ++ [slot] := by
            rw [hc, slots_append, slots_cons_byte, slots_fillers hf]
          rw [l.nextReturn?_none _ hd hn, interrupt, ← hslots]
          exact ⟨later, hl⟩

/-- Right after its line the sequence of a compound statement stands at the end
of the bytes. In the finished code it stands in the same place and in one piece,
except that a call without an exchange, if it is the next statement in the code,
has put its return address in front of the last slot. -/
theorem sequences_stay_together (before after : List Text) (raw : Text) (t : Assembler)
    (st : Statement) (h : lines (before ++ raw::after) initial = .ok () t)
    (hst : statement? raw = some st) (hc : st.isCompound = true) :
    ∃ u v front sequence later, lines before initial = .ok () u ∧ line raw u = .ok () v ∧
      lines after v = .ok () t ∧ Sequence u st sequence ∧
      (slots u.code).length ≤ front.length ∧ slots v.code = front ++ sequence ∧
      slots t.code = front ++ interrupt sequence
        ((Layout.start.walk (statements (before ++ [raw]))).nextReturn? (statements after)) ++
          later := by
  obtain ⟨u, v, hu, hv, ht⟩ := runs_split ((lines_ok_iff _ _ _).mp h)
  cases id hv with
  | blank hp _ => simp [statement?_of_parse hp] at hst
  | comment text hp _ => simp [statement?_of_parse hp] at hst
  | statement st' _ hp he =>
    rw [statement?_of_parse hp] at hst
    cases hst
    obtain ⟨front, sequence, slot, note, hcode, hseq, hle⟩ := executes_sequence he hc
    have hat := runs_at (.cons hv (.nil v)) (runs_at hu initial_at)
    obtain ⟨later, hl⟩ := runs_last_byte ht hat hcode (by simp)
    refine ⟨u, v, slots front, slots sequence ++ [slot], later, (lines_ok_iff _ _ _).mpr hu,
      (line_ok_iff _ _ _).mpr hv, (lines_ok_iff _ _ _).mpr ht,
      sequence_of_countLine hseq, ?_, ?_, ?_⟩
    · rw [← byteCount_eq_length, ← byteCount_eq_length]
      exact hle
    · rw [hcode, slots_append, slots_append, List.append_assoc]
      rfl
    · rw [hl, slots_append, interrupt_append, statements_append, Layout.walk_append]
      simp

/-- A call parts an operand from its instruction although a blank line and a
directive stand between them. -/
theorem sequences_stay_together_but_for_call :
    ∃ (t u v : Assembler) (front sequence later : List Slot),
      lines (["CONST P 9".toList] ++ "WRITE P ; out".toList ::
        [[], ".ORIGIN 40".toList, "CALL1 @X 1".toList]) initial = .ok () t ∧
      Sequence u (.primitive .write (some ['P'])) sequence ∧ slots v.code = front ++ sequence ∧
      slots t.code = front ++ interrupt sequence (some 46) ++ later ∧
      slots t.code = [.symbol ['P'] ['9'], .number "46".toList, .op .write,
        .label "LABEL_X".toList, .op .jmp, .pad] := by
  let before : List Text := ["CONST P 9".toList]
  let raw : Text := "WRITE P ; out".toList
  let after : List Text := [[], ".ORIGIN 40".toList, "CALL1 @X 1".toList]
  have hraw : statement? raw = some (.primitive .write (some ['P'])) := by decide +kernel
  have hnext : (Layout.start.walk (statements (before ++ [raw]))).nextReturn? (statements after) =
      some 46 := by decide +kernel
  have hlines : (Text.joinLines (before ++ raw::after)).sourceLines = before ++ raw::after := by
    decide +kernel
  have hok : (assemble (Text.joinLines (before ++ raw::after))).toOption.map (slots ·.code) =
      some [.symbol ['P'] ['9'], .number "46".toList, .op .write,
        .label "LABEL_X".toList, .op .jmp, .pad] := by decide +kernel
  rw [assemble, hlines] at hok
  cases h : lines (before ++ raw::after) initial with
  | error fault t =>
    rw [h] at hok
    cases hok
  | ok _ t =>
    rw [h] at hok
    obtain ⟨u, v, front, sequence, later, -, -, -, hs, -, hv, ht⟩ :=
      sequences_stay_together before after raw t _ h hraw rfl
    rw [hnext] at ht
    exact ⟨t, u, v, front, sequence, later, rfl, hs, hv, ht, Option.some.inj hok⟩

/-- A call right after an instruction with an operand parts the two. -/
theorem sequences_not_always_whole :
    ¬∀ (before after : List Text) (raw : Text) (t : Assembler) (st : Statement),
      lines (before ++ raw::after) initial = .ok () t → statement? raw = some st →
      st.isCompound = true →
      ∃ u v front sequence later, lines before initial = .ok () u ∧ line raw u = .ok () v ∧
        Sequence u st sequence ∧ slots v.code = front ++ sequence ∧
        slots t.code = front ++ sequence ++ later := by
  intro whole
  let raw : Text := "ADD 10".toList
  let call : Text := "CALL1 @X".toList
  let operand : CodeLine := .byte (.number "10".toList) none
  let op : CodeLine := .byte (.op .add) none
  let v : Assembler := ⟨1, 2, defaultOrigin, [], [operand, op]⟩
  let t : Assembler := ⟨2, 5, defaultOrigin, [], [operand, .byte (.number "21".toList) none, op,
    .byte (.label "LABEL_X".toList) none, .byte (.op .jmp) none]⟩
  have hraw : statement? raw = some (.primitive .add (some "10".toList)) := by decide +kernel
  have hv : line raw initial = .ok () v := line_of_feed (by decide +kernel)
  have hcall : line call v = .ok () t := line_of_feed (by decide +kernel)
  have ht : lines ([] ++ [raw, call]) initial = .ok () t :=
    (run_bind hv _).trans (run_bind hcall _)
  obtain ⟨u, w, front, sequence, later, hu, hw, hs, hslots, hall⟩ :=
    whole [] [call] raw t _ ht hraw rfl
  cases hu
  rw [hv] at hw
  cases hw
  cases hs with
  | operand _ _ slot hi =>
    have hfront : front = [] := by
      have hl := congrArg List.length hslots
      exact List.length_eq_zero_iff.mp (by simpa [v, operand, op, slots, CodeLine.slot?] using hl)
    rw [hfront] at hall
    have hsecond := congrArg (·[1]?) hall
    cases hsecond

end Assembler
end SplAssembler
