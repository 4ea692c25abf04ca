import SplAssembler.Program

/-!
# The assembler

Source lines are assembled one at a time, in a single pass. A label takes the
address of the next byte; a reference to a label stays symbolic, so that it may
stand before the label. Immediate operands and addresses that the machine would
read as an instruction are refused. An action that fails keeps what it has
already done to the state, so the order of checks and changes matters.
-/

set_option autoImplicit false

namespace SplAssembler

structure Assembler where
  lineNo : Nat
  offset : Nat
  origin : Nat
  symbols : SymbolTable
  code : List CodeLine
  deriving DecidableEq, Repr

namespace Assembler

def initial : Assembler where
  lineNo := 0
  offset := 0
  origin := defaultOrigin
  symbols := []
  code := []

def finish (s : Assembler) : Program where
  origin := s.origin
  code := s.code
  defines := s.symbols

def emit (s : Assembler) (slot : Slot) (comment : Option Text) : Assembler :=
  { s with offset := s.offset+1, code := s.code ++ [.byte slot comment] }

def emitBeforeLast (s : Assembler) (slot : Slot) : Assembler :=
  { s with offset := s.offset+1, code := insertBeforeLast (.byte slot none) s.code }

def emitPads (s : Assembler) (n : Nat) : Assembler :=
  { s with offset := s.offset+n, code := s.code ++ List.replicate n (.byte .pad none) }

def mark (s : Assembler) (line : CodeLine) : Assembler :=
  { s with code := s.code ++ [line] }

def immediate (s : Assembler) (token : Text) : Except Fault Slot :=
  match token with
  | '@' :: label => .ok (.label (labelKey label))
  | _ =>
    match s.symbols.get? token with
    | some value => .ok (.symbol token value)
    | none =>
      match (numeral? token).bind byte? with
      | none => .error (.invalidValue token)
      | some byte => if isReserved byte then .error (.reservedValue token) else .ok (.number token)

def address (value : Nat) : Except Fault Slot :=
  match byte? value with
  | none => .error (.invalidValue (Text.decimal value))
  | some byte =>
    if isReserved byte then .error (.reservedValue (Text.decimal value))
    else .ok (.number (Text.decimal value))

def padding : Option Text → Except Fault Nat
  | none => .ok 0
  | some text =>
    match numeral? text with
    | none => .error (.invalidValue text)
    | some n => .ok n

abbrev Action := EStateM Fault Assembler

/-- A call is `[XCHG] return target JMP [pad ...]`, where the return address is
that of the byte after the whole sequence and changes places with the byte
emitted before it. -/
def call (exchange : Bool) (target : Text) (pads comment : Option Text) : Action Unit := do
  let n ← MonadExcept.ofExcept (padding pads)
  let s ← get
  let back ← MonadExcept.ofExcept (address (s.offset+exchange.toNat+3+s.origin+n))
  let goal ← MonadExcept.ofExcept (s.immediate target)
  if exchange then modify (·.emit (.op .xchg) none)
  modify (·.emitBeforeLast back)
  modify (·.emit goal none)
  modify (·.emit (.op .jmp) comment)
  modify (·.emitPads n)

def onSymbols (edit : SymbolTable.Edit Unit) : Action Unit := fun s =>
  match edit s.symbols with
  | .ok _ symbols => .ok () { s with symbols := symbols }
  | .error fault symbols => .error fault { s with symbols := symbols }

def placeLabel (name raw : Text) : Action Unit := do
  let s ← get
  let here := s.offset+s.origin
  if isReserved (UInt8.ofNat here) then throw (.labelOpcode name here)
  onSymbols (SymbolTable.defineLabel name here)
  modify (·.mark (.label raw))

def setOrigin (text : Text) : Action Unit :=
  match (numeral? text).filter (· < programSize) with
  | none => throw (.invalidValue text)
  | some origin =>
      modify fun s => { s with origin := origin, symbols := s.symbols.setOrigin origin }

def execute (line : SourceLine) : Statement → Action Unit
  | .label name => placeLabel name line.raw
  | .origin value => setOrigin value
  | .const name value => onSymbols (SymbolTable.defineConst name value)
  | .push operand => do
      let slot ← MonadExcept.ofExcept ((← get).immediate operand)
      modify (·.emit slot line.comment)
  | .stop => modify (·.emit .stop line.comment)
  | .call exchange target pads => call exchange target pads line.comment
  | .primitive op none => modify (·.emit (.op op) line.comment)
  | .primitive op (some operand) => do
      let slot ← MonadExcept.ofExcept ((← get).immediate operand)
      modify (·.emit slot none)
      modify (·.emit (.op op) line.comment)

def step (line : SourceLine) : Action Unit := do
  match ← MonadExcept.ofExcept (Statement.parse line.body) with
  | some statement => execute line statement
  | none =>
    match line.comment with
    | some text => modify (·.mark (.comment text))
    | none => modify (·.mark .blank)

def countLine (s : Assembler) : Assembler := { s with lineNo := s.lineNo+1 }

def line (raw : Text) : EStateM LineFault Assembler Unit := fun s =>
  match step (SourceLine.split raw) s.countLine with
  | .ok _ t => .ok () t
  | .error fault t => .error ⟨s.lineNo+1, fault⟩ t

def feed (s : Assembler) (raw : Text) : Assembler × Option LineFault :=
  match line raw s with
  | .ok _ t => (t, none)
  | .error fault t => (t, some fault)

def lines : List Text → EStateM LineFault Assembler Unit
  | [] => pure ()
  | raw::rest => do
      line raw
      lines rest

end Assembler

def assemble (source : Text) : Except LineFault Program :=
  match Assembler.lines source.sourceLines .initial with
  | .ok _ s => .ok s.finish
  | .error fault _ => .error fault

end SplAssembler
