import Midend.Command.Directory
import Midend.Failure

/-!
# Dialogues with the world

What a command does to the world: it prints lines, reads and writes text files, and ends well or
with a failure. A dialogue can be held with a directory, which makes the command a function of its
arguments and files.
-/

namespace Midend.Command

/-- The steps of a command. -/
inductive Dialogue where
  | done
  | fail (f : Failure)
  | print (line : String) (next : Dialogue)
  | read (path : String) (next : Except String String → Dialogue)
  | write (path text : String) (next : Except String Unit → Dialogue)

namespace Dialogue

/-- What a dialogue leaves behind. -/
structure Outcome where
  printed : String
  directory : Directory
  failure : Option Failure

/-- Holds a dialogue with a directory. -/
def run (d : Directory) : Dialogue → Outcome
  | done => ⟨"", d, none⟩
  | fail f => ⟨"", d, some f⟩
  | print line next =>
    let o := next.run d
    { o with printed := line ++ "\n" ++ o.printed }
  | read path next => (next ((d.read path).mapError PathError.text)).run d
  | write path text next =>
    match d.write path text with
    | .ok d => (next (.ok ())).run d
    | .error e => (next (.error e.text)).run d

end Dialogue

end Midend.Command
