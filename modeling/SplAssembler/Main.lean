import SplAssembler.CommandLine.Run

/-!
# The command

Connects a run with the arguments, files and streams of the system, whose
reasons are worded with their error numbers.
-/

set_option autoImplicit false

namespace SplAssembler.CommandLine

/-- Some calls give a system's error number with its sign changed. -/
def hasNumber (code number : UInt32) : Bool := code == number || code == 0-number

def errorReason : IO.Error → String
  | .noFileOrDirectory _ _ _ => "No such file or directory (os error 2)"
  | .inappropriateType _ code details =>
      if hasNumber code 20 then "Not a directory (os error 20)"
      else if hasNumber code 21 then "Is a directory (os error 21)"
      else details
  | .invalidArgument _ code details =>
      if hasNumber code 36 then "File name too long (os error 36)" else details
  | .resourceExhausted _ code details =>
      if hasNumber code 28 then "No space left on device (os error 28)" else details
  | fault => fault.toString

def systemAccess : HostAccess IO where
  read path := do
    try
      match (← IO.FS.readBinFile (String.ofList path)).utf8Decode? with
      | some content => return .ok content.toList
      | none => return .error "stream did not contain valid UTF-8".toList
    catch fault => return .error (errorReason fault).toList
  write path content := do
    try
      IO.FS.writeFile (String.ofList path) (String.ofList content)
      return .ok ()
    catch fault => return .error (errorReason fault).toList
  print text := IO.print (String.ofList text)
  report text := IO.eprint (String.ofList text)

end SplAssembler.CommandLine

def main (arguments : List String) : IO UInt32 := do
  let request := SplAssembler.CommandLine.Request.ofArguments (arguments.map String.toList)
  let status ← request.answer SplAssembler.CommandLine.systemAccess
  return UInt32.ofNat status.code
