import Monofloat.CommandLine.Directory

/-!
# The command

Reads the file that the command line names, prints what the command says and ends with its status.
-/

namespace Monofloat.CommandLine

/-- The reason of a failed access, as the system gives it. -/
def accessReason : IO.Error → String
  | .noFileOrDirectory .. => AccessError.missing.message
  | .inappropriateType _ code details => details ++ " (os error " ++ toString code ++ ")"
  | .permissionDenied _ code details => details ++ " (os error " ++ toString code ++ ")"
  | e => toString e

def readText (path : String) : IO (Except String String) := do
  try
    match String.fromUTF8? (← IO.FS.readBinFile path) with
    | some text => return .ok text
    | none => return .error AccessError.notText.message
  catch e => return .error (accessReason e)

def writeText (path text : String) : IO (Option String) := do
  try
    IO.FS.writeFile path text
    return none
  catch e => return some (accessReason e)

end Monofloat.CommandLine

open Monofloat.CommandLine in
/-- Carries out a command line. -/
def main (words : List String) : IO UInt32 := do
  let transcript ← match readRequest words with
    | .error usage => pure usage.transcript
    | .ok request =>
      match request.perform (← readText request.file) with
      | .done t => pure t
      | .write path text next => next <$> writeText path text
  (← IO.getStdout).putStr transcript.stdout
  (← IO.getStderr).putStr transcript.stderr
  return transcript.exit.toUInt32
