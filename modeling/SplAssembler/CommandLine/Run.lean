import SplAssembler.Assembler
import SplAssembler.CommandLine.Arguments

/-!
# Running a command

A run reads the source, assembles it, renders the program, and only then
writes. So a file is touched last, and only by a run that has not failed.

A run reaches its surroundings through `HostAccess` alone: it reads and writes
files by their paths, prints to the standard output and reports to the standard
error. A path that cannot be read as text or cannot be written is refused with
the reason that the system gives. Reports say what the command is doing and
what is at fault, in colour; a fault in a source line is shown with the line's
number and its text.
-/

set_option autoImplicit false

namespace SplAssembler.CommandLine

structure HostAccess (m : Type → Type) where
  read : Text → m (Except Text Text)
  write : Text → Text → m (Except Text Unit)
  print : Text → m Unit
  report : Text → m Unit

def red (t : Text) : Text := "\x1b[31m\x1b[1m".toList ++ t ++ "\x1b[39m\x1b[22m".toList

def green (t : Text) : Text := "\x1b[32m\x1b[1m".toList ++ t ++ "\x1b[39m\x1b[22m".toList

def blue (t : Text) : Text := "\x1b[34m".toList ++ t ++ "\x1b[39m".toList

def underline (t : Text) : Text := "\x1b[4m".toList ++ t ++ "\x1b[24m".toList

def padLeft (width : Nat) (t : Text) : Text := List.replicate (width-t.length) ' ' ++ t

def progressReport (note : Text) : Text :=
  green (padLeft 10 "hlspl".toList) ++ ' ' :: note ++ ['\n']

def errorReport (message : Text) : Text :=
  red "error".toList ++ ": ".toList ++ message ++ ['\n']

def fileReport (message reason : Text) : Text :=
  errorReport message ++ "      ".toList ++ blue ['='] ++ ' ' :: reason ++ ['\n']

def shownLine (source : Text) (number : Nat) : Text := (source.lines[number-1]?).getD []

def lineReport (file source : Text) (f : LineFault) : Text :=
  let margin := "      ".toList ++ blue ['|'] ++ ['\n']
  errorReport f.fault.message ++
    "     ".toList ++ blue "-->".toList ++ ' ' ::
      underline (file ++ ':' :: Text.decimal f.line) ++ ['\n'] ++
    margin ++
    ' ' :: blue (padLeft 4 (Text.decimal f.line) ++ " |".toList) ++
      ' ' :: shownLine source f.line ++ ['\n'] ++
    margin

inductive Status where
  | success
  | failure
  | misuse
  deriving DecidableEq, Repr

def Status.code : Status → Nat
  | .success => 0
  | .failure => 1
  | .misuse => 2

def programNote (p : Program) : Text :=
  Text.decimal p.size ++ " bytes, ".toList ++ Text.decimal p.defines.length ++
    " symbols, origin ".toList ++ Text.decimal p.origin

namespace Options

variable {m : Type → Type} [Monad m]

def progress (host : HostAccess m) (o : Options) (note : Text) : m Unit :=
  if o.verbose then host.report (progressReport note) else pure ()

def deliver (host : HostAccess m) (o : Options) (text : Text) : m Status := do
  match o.output with
  | none =>
    host.print (text ++ ['\n'])
    return .success
  | some path =>
    match ← host.write path text with
    | .error reason =>
      host.report (fileReport ("Failed to write file: ".toList ++ path) reason)
      return .failure
    | .ok () =>
      progress host o ("> ".toList ++ path)
      return .success

def produce (host : HostAccess m) (o : Options) (program : Program) : m Status := do
  match o.format.render program with
  | .error fault =>
    host.report (errorReport fault.message)
    return .failure
  | .ok text => deliver host o text

def translate (host : HostAccess m) (o : Options) (source : Text) : m Status := do
  match assemble source with
  | .error fault =>
    host.report (lineReport o.input source fault)
    return .failure
  | .ok program =>
    progress host o (programNote program)
    produce host o program

def run (host : HostAccess m) (o : Options) : m Status := do
  progress host o ("< ".toList ++ o.input)
  match ← host.read o.input with
  | .error reason =>
    host.report (fileReport ("Failed to read file: ".toList ++ o.input) reason)
    return .failure
  | .ok source => translate host o source

end Options

def Request.answer {m : Type → Type} [Monad m] (host : HostAccess m) : Request → m Status
  | .run options => options.run host
  | .shortHelp => do
      host.print shortHelpText
      return .success
  | .longHelp => do
      host.print longHelpText
      return .success
  | .version => do
      host.print versionText
      return .success
  | .misuse => do
      host.report usageText
      return .misuse

end SplAssembler.CommandLine
