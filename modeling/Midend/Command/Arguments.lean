/-!
# Command line arguments

What the arguments ask for, or why they are refused. Options may stand before or after the file, in
a short form alone or joined with their value, or in a long form with the value after it or behind
an equals sign; flags of one letter may be run together. An option that is given twice is a
conflict, whatever its values. The value of an option that stands apart is looked at when the next
argument is, so of two faults the later one may be reported.
-/

namespace Midend.Command

/-- Why arguments are not carried out as a command. -/
inductive Stop where
  | help
  | version
  | missingArgument
  | unknownArgument
  | invalidValue
  | tooManyValues
  | invalidSubcommand
  | conflict
  deriving DecidableEq, Repr

/-- Which graphs are printed. -/
inductive Stage where
  | before
  | after
  | both
  deriving DecidableEq, Repr

def Stage.ofName? : String → Option Stage
  | "before" => some before
  | "after" => some after
  | "both" => some both
  | _ => none

def Stage.isBefore : Stage → Bool
  | after => false
  | _ => true

def Stage.isAfter : Stage → Bool
  | before => false
  | _ => true

/-- What to run on a program, and what to print or write. -/
structure Options where
  config : Option String := none
  passes : Option String := none
  stage : Option Stage := none
  output : Option String := none
  deriving DecidableEq, Repr

inductive Request where
  | nothing
  | optimize (file : String) (options : Options)
  | check (file : String)
  deriving DecidableEq, Repr

/-! ### The arguments of a subcommand -/

/-- The options that take a value. -/
inductive Opt where
  | config
  | passes
  | stage
  | output
  deriving DecidableEq, Repr

/-- Whether an option has its value. -/
def Options.isGiven (options : Options) : Opt → Bool
  | .config => options.config.isSome
  | .passes => options.passes.isSome
  | .stage => options.stage.isSome
  | .output => options.output.isSome

/-- Puts in the value of an option; a stage has to bear one of the names of stages. -/
def Options.put? (options : Options) (v : String) : Opt → Option Options
  | .config => some { options with config := some v }
  | .passes => some { options with passes := some v }
  | .stage => (Stage.ofName? v).map fun s => { options with stage := some s }
  | .output => some { options with output := some v }

inductive Switch where
  | verbose
  | help
  | version
  | option (o : Opt)
  deriving DecidableEq, Repr

/-- The switches that a place in the command line knows. -/
structure Grammar where
  short : Char → Option Switch
  long : String → Option Switch

def Grammar.root : Grammar where
  short
    | 'v' => some .verbose
    | 'h' => some .help
    | 'V' => some .version
    | _ => none
  long
    | "verbose" => some .verbose
    | "help" => some .help
    | "version" => some .version
    | _ => none

def Grammar.check : Grammar where
  short
    | 'v' => some .verbose
    | 'h' => some .help
    | _ => none
  long
    | "verbose" => some .verbose
    | "help" => some .help
    | _ => none

def Grammar.optimize : Grammar where
  short
    | 'c' => some (.option .config)
    | 'p' => some (.option .passes)
    | 'd' => some (.option .stage)
    | 'o' => some (.option .output)
    | c => Grammar.check.short c
  long
    | "config" => some (.option .config)
    | "passes" => some (.option .passes)
    | "dump" => some (.option .stage)
    | "output" => some (.option .output)
    | s => Grammar.check.long s

/-- What has been read of a subcommand: the file, the options, and the option whose value has not
been looked at yet, with the value if that has come. -/
structure Reading where
  file : Option String := none
  options : Options := {}
  pending : Option (Opt × Option String) := none
  deriving DecidableEq, Repr

namespace Reading

def awaitsValue (r : Reading) : Bool :=
  match r.pending with
  | some (_, none) => true
  | _ => false

/-- Gives an option its value, once. -/
def set (r : Reading) (o : Opt) (v : String) : Except Stop Reading :=
  if r.options.isGiven o then .error .conflict
  else match r.options.put? v o with
    | none => .error .invalidValue
    | some options => .ok { r with options }

/-- Looks at the option whose value has not been looked at. -/
def settle (r : Reading) : Except Stop Reading :=
  match r.pending with
  | none => .ok r
  | some (_, none) => .error .invalidValue
  | some (o, some v) => { r with pending := none }.set o v

/-- Takes an option, with its value if that is joined to it. -/
def takeOption (r : Reading) (o : Opt) (joined : Option String) : Except Stop Reading := do
  let r ← r.settle
  match joined with
  | some v => r.set o v
  | none => .ok { r with pending := some (o, none) }

/-- Takes a switch that has no value. -/
def takeFlag (r : Reading) (stop : Option Stop) : Except Stop Reading := do
  let r ← r.settle
  match stop with
  | some s => .error s
  | none => .ok r

/-- Takes the letters after a single dash. -/
def takeLetters (g : Grammar) (r : Reading) : List Char → Except Stop Reading
  | [] => .ok r
  | c :: cs =>
    match g.short c with
    | none => .error .unknownArgument
    | some (.option o) =>
      r.takeOption o <| match cs with
        | [] => none
        | '=' :: v => some (String.ofList v)
        | v => some (String.ofList v)
    | some .verbose =>
      match r.takeFlag none with
      | .error s => .error s
      | .ok r => takeLetters g r cs
    | some .help => r.takeFlag (some .help)
    | some .version => r.takeFlag (some .version)

/-- Takes a long switch, with the value behind its equals sign if there is one. -/
def takeLong (g : Grammar) (r : Reading) (name : String) (value : Option String) :
    Except Stop Reading :=
  match g.long name, value with
  | none, _ => .error .unknownArgument
  | some (.option o), v => r.takeOption o v
  | some _, some _ => .error .tooManyValues
  | some .verbose, none => r.takeFlag none
  | some .help, none => r.takeFlag (some .help)
  | some .version, none => r.takeFlag (some .version)

/-- Takes an argument that stands for itself: the file. -/
def takeFile (r : Reading) (arg : String) : Except Stop Reading :=
  if r.file.isSome then .error .unknownArgument
  else do
    let r ← r.settle
    .ok { r with file := some arg }

/-- Gives the pending option a value that stands apart. -/
def takeValue (r : Reading) (arg : String) : Reading :=
  { r with pending := r.pending.map fun (o, _) => (o, some arg) }

end Reading

/-- An argument by its form. -/
inductive Form where
  /-- Two dashes: what follows are no options. -/
  | escape
  | long (name : String) (value : Option String)
  | letters (cs : List Char)
  | plain
  deriving DecidableEq, Repr

def cutAtEquals (cs : List Char) : String × Option String :=
  let name := cs.takeWhile (· ≠ '=')
  match cs.drop name.length with
  | [] => (String.ofList name, none)
  | _ :: v => (String.ofList name, some (String.ofList v))

/-- The form of an argument; a single dash is plain. -/
def Form.of (arg : String) : Form :=
  match arg.toList with
  | ['-', '-'] => .escape
  | '-' :: '-' :: cs =>
    let (name, value) := cutAtEquals cs
    .long name value
  | ['-'] => .plain
  | '-' :: cs => .letters cs
  | _ => .plain

/-- Reads the arguments of a subcommand; after an escape none of them is an option. -/
def readArgs (g : Grammar) (escaped : Bool) (r : Reading) : List String → Except Stop Reading
  | [] => r.settle
  | arg :: rest =>
    let taken := if escaped then (r.takeFile arg).map (true, ·) else
      match Form.of arg with
      | .escape => .ok (true, r)
      | .long name value => (r.takeLong g name value).map (false, ·)
      | .letters cs => (r.takeLetters g cs).map (false, ·)
      | .plain =>
        if r.awaitsValue then .ok (false, r.takeValue arg)
        else (r.takeFile arg).map (false, ·)
    match taken with
    | .error s => .error s
    | .ok (escaped, r) => readArgs g escaped r rest

/-- The file that a subcommand needs, with what else was read. -/
def readSubcommand (g : Grammar) (args : List String) : Except Stop (String × Options) := do
  let r ← readArgs g false {} args
  match r.file with
  | some f => .ok (f, r.options)
  | none => .error .missingArgument

/-! ### The command line -/

def subcommands : List String := ["opt", "check", "help"]

/-- Help on a subcommand, which has none of its own. -/
def readHelp : List String → Stop
  | [] => .help
  | [name] => if name ∈ subcommands then .help else .invalidSubcommand
  | _ => .invalidSubcommand

/-- Reads the arguments up to a subcommand; after an escape nothing is one. -/
def readRoot (escaped : Bool) : List String → Except Stop Request
  | [] => .ok .nothing
  | arg :: rest =>
    if escaped then
      .error (if arg ∈ subcommands then .unknownArgument else .invalidSubcommand)
    else if arg = "opt" then
      (readSubcommand .optimize rest).map fun (f, o) => .optimize f o
    else if arg = "check" then (readSubcommand .check rest).map fun (f, _) => .check f
    else if arg = "help" then .error (readHelp rest)
    else match Form.of arg with
      | .escape => readRoot true rest
      | .long name value =>
        match Reading.takeLong .root {} name value with
        | .error s => .error s
        | .ok _ => readRoot false rest
      | .letters cs =>
        match Reading.takeLetters .root {} cs with
        | .error s => .error s
        | .ok _ => readRoot false rest
      | .plain => .error .invalidSubcommand

/-- What a command line asks for. -/
def Request.ofArgs (args : List String) : Except Stop Request := readRoot false args

end Midend.Command
