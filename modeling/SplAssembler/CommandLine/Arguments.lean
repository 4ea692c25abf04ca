import SplAssembler.Listing

/-!
# Command line arguments

Arguments are read from left to right. A request for help or for the version
is answered as soon as it is reached, and so is the first misuse. A value may
be attached to its option or be the next argument, unless that looks like an
option itself. No option may be given twice. After `--` nothing is an option.
The texts that the command prints about itself stand at the end.
-/

set_option autoImplicit false

namespace SplAssembler.CommandLine

structure Options where
  input : Text
  output : Option Text
  format : Format
  verbose : Bool
  deriving DecidableEq, Repr

inductive Request where
  | run (options : Options)
  | shortHelp
  | longHelp
  | version
  | misuse
  deriving DecidableEq, Repr

inductive Setting where
  | output
  | format
  deriving DecidableEq, Repr

inductive Switch where
  | verbose
  | set (setting : Setting) (value : Option Text)
  | reply (request : Request)
  deriving DecidableEq, Repr

structure PartialOptions where
  input : Option Text
  output : Option Text
  format : Option Format
  verbose : Bool
  deriving DecidableEq, Repr

namespace PartialOptions

def empty : PartialOptions where
  input := none
  output := none
  format := none
  verbose := false

def setInput (d : PartialOptions) (value : Text) : Except Request PartialOptions :=
  if d.input.isSome then .error .misuse else .ok { d with input := some value }

def setVerbose (d : PartialOptions) : Except Request PartialOptions :=
  if d.verbose then .error .misuse else .ok { d with verbose := true }

def set (d : PartialOptions) : Setting → Text → Except Request PartialOptions
  | .output, value =>
      if d.output.isSome then .error .misuse else .ok { d with output := some value }
  | .format, value =>
      match d.format, Format.ofName? value with
      | none, some format => .ok { d with format := some format }
      | _, _ => .error .misuse

def request (d : PartialOptions) : Request :=
  match d.input with
  | none => .misuse
  | some input => .run
      { input := input, output := d.output, format := d.format.getD Format.standard,
        verbose := d.verbose }

end PartialOptions

def attached : Text → Option Text
  | [] => none
  | '=' :: value => some value
  | value => some value

def letterSwitches : Text → List Switch
  | [] => []
  | c::rest =>
    if c = 'v' then .verbose :: letterSwitches rest
    else if c = 'o' then [.set .output (attached rest)]
    else if c = 'f' then [.set .format (attached rest)]
    else if c = 'h' then [.reply .shortHelp]
    else if c = 'V' then [.reply .version]
    else [.reply .misuse]

def wordSwitch (word : Text) : Switch :=
  let name := word.takeWhile (· != '=')
  let value := match word.dropWhile (· != '=') with
    | [] => none
    | _ :: value => some value
  if name = "output".toList then .set .output value
  else if name = "format".toList then .set .format value
  else if value.isSome then .reply .misuse
  else if name = "verbose".toList then .verbose
  else if name = "help".toList then .reply .longHelp
  else if name = "version".toList then .reply .version
  else .reply .misuse

/-- A dash alone is an ordinary value. -/
def switches? : Text → Option (List Switch)
  | '-' :: '-' :: word => some [wordSwitch word]
  | '-' :: c :: letters => some (letterSwitches (c :: letters))
  | _ => none

def PartialOptions.apply (d : PartialOptions) :
    List Switch → Except Request (PartialOptions × Option Setting)
  | [] => .ok (d, none)
  | .verbose :: rest => do (← d.setVerbose).apply rest
  | .set setting (some value) :: rest => do (← d.set setting value).apply rest
  | .set setting none :: _ => .ok (d, some setting)
  | .reply request :: _ => .error request

def PartialOptions.readInputs (d : PartialOptions) : List Text → Except Request PartialOptions
  | [] => .ok d
  | value::rest => do (← d.setInput value).readInputs rest

/-- Reads arguments, the first of which may be the value of a setting that waits for it. -/
def PartialOptions.readArguments (d : PartialOptions) :
    Option Setting → List Text → Except Request PartialOptions
  | none, [] => .ok d
  | some _, [] => .error .misuse
  | some setting, value::rest =>
      if (switches? value).isSome then .error .misuse
      else do (← d.set setting value).readArguments none rest
  | none, word::rest =>
      if word = "--".toList then d.readInputs rest
      else
        match switches? word with
        | none => do (← d.setInput word).readArguments none rest
        | some options => do
            let (next, waiting) ← d.apply options
            next.readArguments waiting rest

def Request.ofArguments (arguments : List Text) : Request :=
  match PartialOptions.empty.readArguments none arguments with
  | .ok d => d.request
  | .error request => request

def versionText : Text := "hlspl 0.1.0\n".toList

def usageText : Text := "Usage:\n  hlspl [OPTIONS] <INPUT>\n".toList

def aboutText : Text :=
  versionText ++
    "  Kanade <kanade.k.1228@gmail.com>\n  Assembler for the SPL stack machine\n\n".toList ++
    usageText ++ "\n".toList

def shortHelpText : Text :=
  aboutText ++
    ("Arguments:\n" ++
    "  <INPUT>  SPL source file\n" ++
    "\n" ++
    "Options:\n" ++
    "  -o, --output <OUTPUT>  Output file [default: standard output]\n" ++
    "  -f, --format <FORMAT>  Output format [default: c] " ++
    "[possible values: bytes, c, defines, hex]\n" ++
    "  -v, --verbose          Print progress to stderr\n" ++
    "  -h, --help             Print help (see more with '--help')\n" ++
    "  -V, --version          Print version\n").toList

def longHelpText : Text :=
  aboutText ++
    ("Arguments:\n" ++
    "  <INPUT>\n" ++
    "          SPL source file\n" ++
    "\n" ++
    "Options:\n" ++
    "  -o, --output <OUTPUT>\n" ++
    "          Output file [default: standard output]\n" ++
    "\n" ++
    "  -f, --format <FORMAT>\n" ++
    "          Output format\n" ++
    "\n" ++
    "          Possible values:\n" ++
    "          - bytes:   JSON array of byte values\n" ++
    "          - c:       C source with the program array\n" ++
    "          - defines: Symbol definitions only\n" ++
    "          - hex:     Space separated hex bytes\n" ++
    "          \n" ++
    "          [default: c]\n" ++
    "\n" ++
    "  -v, --verbose\n" ++
    "          Print progress to stderr\n" ++
    "\n" ++
    "  -h, --help\n" ++
    "          Print help (see a summary with '-h')\n" ++
    "\n" ++
    "  -V, --version\n" ++
    "          Print version\n").toList

end SplAssembler.CommandLine
