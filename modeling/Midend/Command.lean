import Midend.Command.Arguments
import Midend.Command.Dialogue
import Midend.Command.Table
import Midend.Arena.Listing
import Midend.Config.Reader
import Midend.Merge.Hash
import Midend.Optimize
import Midend.Program

/-!
# The command

`opt` loads a program and a configuration, runs the passes, prints the graphs before or after or
writes them to a file, and shows in a table what each round changed. `check` loads a program and
prints its graphs.
-/

namespace Midend

namespace Report

def cellText (changed : Bool) : String := if changed then "changed" else "-"

/-- A row for each round and a column for each pass. -/
def table (r : Report) : Command.Table where
  head := "round" :: (r.rounds.head?.getD []).map fun (p, _) => p.name
  rows := (r.rounds.zipIdx 1).map fun (round, i) => toString i :: round.map fun (_, b) => cellText b

/-- How the rounds ended. -/
def summary (r : Report) : String :=
  if r.converged then s!"converged after {r.rounds.length} round(s)"
  else s!"stopped after {r.rounds.length} round(s) without converging"

end Report

namespace Command

def failure (message : String) : Failure := .invalidInput .error message "graphopt.cli"

def loadProgram (file : String) (next : Program → Dialogue) : Dialogue :=
  .read file fun
    | .error reason => .fail (Program.LoadError.unreadable file reason).toFailure
    | .ok text =>
      match Program.ofText text with
      | .error e => .fail e.toFailure
      | .ok p => next p

/-- Loads the configuration in a file, if one is named. -/
def loadConfig (file : Option String) (next : Config → Dialogue) : Dialogue :=
  match file with
  | none => next {}
  | some path =>
    .read path fun
      | .error reason => .fail (ConfigError.unreadable path reason).toFailure
      | .ok text =>
        match Config.ofText text with
        | .error e => .fail e.toFailure
        | .ok c => next c

def overridePasses (list : Option String) (c : Config) (next : Config → Dialogue) : Dialogue :=
  match list with
  | none => next c
  | some list =>
    match parsePassList list with
    | .error e => .fail e.toFailure
    | .ok passes => next { c with passes }

def printAll (lines : List String) (next : Dialogue) : Dialogue := lines.foldr .print next

/-- Prints the graphs after the passes were run, or writes them to a file. -/
def emit (output : Option String) (dump : String) (next : Dialogue) : Dialogue :=
  match output with
  | none => printAll ["after", dump] next
  | some path =>
    .write path dump fun
      | .error reason => .fail (failure s!"write {path}: {reason}")
      | .ok () => .print s!"wrote {path}" next

def optimize (file : String) (o : Options) : Dialogue :=
  loadProgram file fun p =>
  loadConfig o.config fun c =>
  overridePasses o.passes c fun c =>
  let stage := o.stage.getD .after
  printAll (if stage.isBefore then ["before", p.store.arena.dump p.root] else []) <|
  match p.store.optimize c p.root with
  | (_, .error f) => .fail f.toFailure
  | (s, .ok report) =>
    let finish := printAll [report.table.text, report.summary] .done
    if stage.isAfter then emit o.output (s.arena.dump p.root) finish else finish

/-- Loads the program in a file and prints its graphs. -/
def check (file : String) : Dialogue :=
  loadProgram file fun p =>
  printAll (p.graphs.map (p.store.arena.listing true))
    (.print ("ok: root is " ++ p.store.arena.graphName p.root) .done)

def Request.dialogue : Request → Dialogue
  | .nothing => .fail (failure "no subcommand given, see --help")
  | .optimize file options => Command.optimize file options
  | .check file => Command.check file

end Command

end Midend
