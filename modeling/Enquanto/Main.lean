import Enquanto.CommandLine

/-!
# The executable

Reads the file that the arguments name, reads the standard input if the program needs it, and prints
what `CommandLine.perform` answers.
-/

namespace Enquanto.Main

/-- The reason for a failure as the operating system words it. -/
def reason : IO.Error → String
  | .inappropriateType _ code details | .permissionDenied _ code details
  | .invalidArgument _ code details | .resourceExhausted _ code details =>
    details.capitalize ++ " (os error " ++ toString code.toInt32.toInt.natAbs ++ ")"
  | e => toString e

/-- Reads a file. -/
def readPath (path : String) : IO Reading := do
  try
    return .contents (← IO.FS.readBinFile path)
  catch
    | .noFileOrDirectory .. => return .missing
    | e => return .failed (reason e)

/-- All that is left of a stream, after `bytes`. -/
partial def readAll (stream : IO.FS.Stream) (bytes : ByteArray) : IO ByteArray := do
  let chunk ← stream.read 65536
  if chunk.isEmpty then return bytes else readAll stream (bytes ++ chunk)

end Enquanto.Main

open Enquanto in
def main (args : List String) : IO UInt32 := do
  let action := Action.ofArgs args
  let reading ←
    match CommandLine.path? action with
    | some path => Main.readPath path
    | none => pure .missing
  let bytes ←
    if CommandLine.needsInput (fun _ => reading) action then
      Main.readAll (← IO.getStdin) .empty
    else pure .empty
  let response := CommandLine.perform (fun _ => reading) (.ofBytes bytes) action
  (← IO.getStdout).putStr response.stdout
  (← IO.getStderr).putStr response.stderr
  return response.exit
