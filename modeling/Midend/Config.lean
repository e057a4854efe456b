import Midend.Failure
import Midend.Text.Blank

/-!
# Configurations

Which passes are run, for how many rounds at most, and which of them report their changes. A
configuration is valid if it names a pass and allows a round.
-/

namespace Midend

/-- What can be run: merging equal nodes, and cutting dead parts. -/
inductive Pass where
  | merge
  | cut
  deriving DecidableEq, Repr

def Pass.name : Pass → String
  | merge => "cse"
  | cut => "dde"

def Pass.ofName? (name : String) : Option Pass := [merge, cut].find? (·.name = name)

/-- What is run and reported. A pass that does not report its changes counts as changing nothing. -/
structure Config where
  passes : List Pass := [.merge, .cut]
  maxRounds : Nat := 16
  reportMerges : Bool := true
  reportCuts : Bool := false
  deriving DecidableEq, Repr

/-- What is wrong with a configuration. -/
inductive ConfigError where
  /-- The file cannot be read, for a reason given by the system. -/
  | unreadable (path reason : String)
  /-- The text is not a configuration, for a reason given by its reader. -/
  | malformed (reason : String)
  | noPasses
  | noRounds
  | unknownPass (name : String)
  deriving DecidableEq, Repr

namespace ConfigError

def message : ConfigError → String
  | unreadable path reason => s!"read config {path}: {reason}"
  | malformed reason => s!"parse config: {reason}"
  | noPasses => "pass list is empty"
  | noRounds => "max_iterations must be at least 1"
  | unknownPass name => s!"unknown pass '{name}'"

def toFailure (e : ConfigError) : Failure := .invalidInput .error e.message "graphopt.config"

end ConfigError

namespace Config

def reports (c : Config) : Pass → Bool
  | .merge => c.reportMerges
  | .cut => c.reportCuts

/-- Refuses a configuration without passes or without rounds. -/
def validate (c : Config) : Except ConfigError Unit :=
  if c.passes = [] then .error .noPasses
  else if c.maxRounds = 0 then .error .noRounds
  else .ok ()

end Config

/-! ### Pass lists -/

/-- The pieces of a text between commas. -/
def commaPieces : List Char → List (List Char)
  | [] => [[]]
  | c :: cs =>
    match commaPieces cs with
    | [] => [[c]]
    | p :: ps => if c = ',' then [] :: p :: ps else (c :: p) :: ps

/-- The passes named by some pieces; blank pieces are passed over. -/
def passesOfPieces : List (List Char) → Except ConfigError (List Pass)
  | [] => .ok []
  | piece :: pieces =>
    let name := String.ofList (Text.trim piece)
    if name = "" then passesOfPieces pieces
    else match Pass.ofName? name with
      | none => .error (.unknownPass name)
      | some p => (passesOfPieces pieces).map (p :: ·)

/-- Reads names of passes parted by commas; at least one has to be named. -/
def parsePassList (list : String) : Except ConfigError (List Pass) :=
  match passesOfPieces (commaPieces list.toList) with
  | .error e => .error e
  | .ok [] => .error .noPasses
  | .ok (p :: ps) => .ok (p :: ps)

end Midend
