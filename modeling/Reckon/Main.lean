import Reckon.Command.Transcript
set_option autoImplicit false

namespace Reckon

/-- The error number of a name that is too long, negated. -/
def nameTooLong : UInt32 := 0 - 36

def lookUp (name : String) : IO FileLookup := do
  try
    return .found (← IO.FS.readBinFile name)
  catch
    | .invalidArgument _ number _ => return if number == nameTooLong then .refused else .missing
    | _ => return .missing

partial def readInput (stream : IO.FS.Stream) (read : String) : IO String := do
  let line ← stream.getLine
  if line.isEmpty then return read else readInput stream (read ++ line)

end Reckon

open Reckon in
def main (arguments : List String) : IO UInt32 := do
  let invocation := Invocation.ofArguments? arguments
  let file ←
    match invocation.map (·.expressions) with
    | some [name] => lookUp name
    | _ => pure .missing
  let input ←
    if invocation.any (·.readsInput) then readInput (← IO.getStdin) "" else pure ""
  match command arguments (fun _ => file) input with
  | .ok ending =>
    (← IO.getStdout).putStr ending.output
    return ending.exitCode.toUInt32
  | .error breakdown =>
    (← IO.getStdout).putStr breakdown.output
    (← IO.getStderr).putStrLn <|
      match breakdown.failure with
      | .notText => "The argument file is not UTF-8 text."
      | .lookupRefused => "The argument is too long for the name of a file."
    return 1
