import Midend.Command

/-!
# The program

Reads the command line and holds the dialogue of the command with the file system.
-/

namespace Midend.Command

/-- The words for a failed access to a file. -/
def systemText : IO.Error → String
  | .noFileOrDirectory .. => PathError.text .missing
  | .inappropriateType _ code details | .invalidArgument _ code details
  | .permissionDenied _ code details | .resourceExhausted _ code details =>
    s!"{details} (os error {code})"
  | e => toString e

def readText (path : String) : IO (Except String String) := do
  try
    let handle ← IO.FS.Handle.mk path .read
    let bytes ← handle.readBinToEnd
    match String.fromUTF8? bytes with
    | some text => return .ok text
    | none => return .error "stream did not contain valid UTF-8"
  catch e => return .error (systemText e)

def writeText (path text : String) : IO (Except String Unit) := do
  try
    IO.FS.writeFile path text
    return .ok ()
  catch e => return .error (systemText e)

/-- Holds a dialogue with the file system; the answer is the exit code. -/
def Dialogue.perform : Dialogue → IO UInt32
  | .done => return 0
  | .fail f => do
    IO.eprintln f.report
    return 1
  | .print line next => do
    IO.println line
    next.perform
  | .read path next => do (next (← readText path)).perform
  | .write path text next => do (next (← writeText path text)).perform

/-- How the command is used. -/
def usage : String :=
  "Usage: graphopt [-v] opt [-c FILE] [-p LIST] [-d before|after|both] [-o FILE] FILE\n" ++
  "       graphopt [-v] check FILE"

/-- What is said when the arguments are not carried out, and the exit code. -/
def Stop.perform : Stop → IO UInt32
  | .help => do
    IO.println usage
    return 0
  | .version => do
    IO.println "graphopt 0.1.0"
    return 0
  | _ => do
    IO.eprintln usage
    return 2

end Midend.Command

/-- Runs the command that the arguments ask for. -/
def main (args : List String) : IO UInt32 :=
  match Midend.Command.Request.ofArgs args with
  | .error stop => stop.perform
  | .ok request => request.dialogue.perform
