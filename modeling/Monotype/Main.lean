import Monotype.CommandLine.Response

/-!
# `Monotype.Main` — the command line program

The program reads the records that its arguments name, and writes its answer to them. It starts no
other program: a scanner that is asked for is reported as one that cannot be run.

## Contents
- **`reasonOf`**: the words for a failure to read.
- **`readSource`**: the records, or why there are none.
- **`main`**.
-/

namespace Monotype.CommandLine

/-- The words of the operating system for an error, and its number. Some layers report the number
negated. -/
def numbered (code : UInt32) (details : String) : String :=
  let number := if code < 0x80000000 then code else 0 - code
  details.capitalize ++ " (os error " ++ toString number ++ ")"

/-- The reason of a failure to read. -/
def reasonOf : IO.Error → String
  | .noFileOrDirectory _ code details => numbered code details
  | .permissionDenied _ code details => numbered code details
  | .inappropriateType _ code details => numbered code details
  | .userError _ => "stream did not contain valid UTF-8"
  | error => error.toString

/-- All bytes of a stream. -/
partial def readBytes (stream : IO.FS.Stream) (found : ByteArray) : IO ByteArray := do
  let bytes ← stream.read 65536
  if bytes.isEmpty then return found else readBytes stream (found ++ bytes)

/-- All text of a stream. -/
def readText (stream : IO.FS.Stream) : IO String := do
  match String.fromUTF8? (← readBytes stream .empty) with
  | some text => return text
  | none => throw (.userError "not a text")

/-- The records, or why there are none. -/
def readSource : Source → IO (Except InputError String)
  | .standardInput => do
    try return .ok (← readText (← IO.getStdin))
    catch error => return .error (.standardInput (reasonOf error))
  | .file path => do
    try return .ok (← IO.FS.readFile path)
    catch error => return .error (.file path (reasonOf error))
  | .scanner program _ => return .error (.scannerNotRun program "no program can be started here")

/-- The answer to the words of a command line. -/
def answer (words : List String) : IO Response := do
  match Arguments.parse words with
  | .error refusal => return refusal.response
  | .ok arguments => return respond arguments (← readSource arguments.source)

end Monotype.CommandLine

/-- Answer the command line. -/
def main (words : List String) : IO UInt32 := do
  let response ← Monotype.CommandLine.answer words
  (← IO.getStdout).putStr response.output
  (← IO.getStderr).putStr response.errors
  return response.exitCode.toUInt32
